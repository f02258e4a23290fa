import Mathlib.Tactic.Common
import Xv6.Fs.LogDisk

/-!
# Crashes and recovery

The machine: file system operations between `begin_op` and `end_op` log blocks, the
last `end_op` commits, and a crash loses the memory at any access to the disk. The
machine then boots into `recover_from_log`, which may crash again.

A *group* is what was logged between two commits. The history records the groups
since the machine was last booted and how many commits have returned.
`crash_atomic`: whatever disk a crash leaves, `recover_from_log` makes of it the
contents after some of the groups, and no group is missing whose commit returned.
-/

namespace Xv6.Fs

open Xv6.Lib.Disk

/-! ## §1  The machine -/

/-- What runs: operations, a commit or the recovery. -/
inductive Pc where
  | running
  | commit (p : Io Mem)
  | recover (p : Io Mem)

structure Machine where
  disk : ℕ → Block
  mem : Mem
  pc : Pc

/-- `logWrite b v` is `log_write` of a buffer with the new data `v`; `io` is one
access to the disk, and `finish` the return from `commit` or `recover_from_log`. -/
inductive Act where
  | beginOp
  | logWrite (b : ℕ) (v : Block)
  | endOp
  | io
  | finish
  | crash

namespace Machine

/-- Operations run as soon as the log is recovered. -/
def up (s : Machine) : Bool :=
  match s.pc with
  | .recover _ => false
  | _ => true

/-- `none` is an action that cannot happen: the caller sleeps, or the kernel panics
and only a crash can follow. -/
def step (L : Layout) (s : Machine) : Act → Option Machine
  | .beginOp =>
      if s.up = true ∧ s.mem.log.mustWait = false then
        some { s with mem := { s.mem with log := s.mem.log.enter } }
      else none
  | .logWrite b v =>
      if s.up = true ∧ s.mem.log.tooBig L.size = false ∧ 1 ≤ s.mem.log.outstanding then
        some { s with
          mem := { log := s.mem.log.record b
                   dirty := Function.update s.mem.dirty b (some v) } }
      else none
  | .endOp =>
      if s.up = true ∧ s.mem.log.committing = false then
        let m := { s.mem with log := s.mem.log.leave }
        some { s with
          mem := m
          pc := if m.log.committing then .commit (commit L m) else s.pc }
      else none
  | .io =>
      match s.pc with
      | .running => none
      | .commit p =>
          (p.step s.disk).map fun x => { s with disk := x.2, pc := .commit x.1 }
      | .recover p =>
          (p.step s.disk).map fun x => { s with disk := x.2, pc := .recover x.1 }
  | .finish =>
      match s.pc with
      | .commit (.ret m) =>
          some { s with
            mem := { m with log := { m.log with committing := false } }
            pc := .running }
      | .recover (.ret m) => some { s with mem := m, pc := .running }
      | _ => none
  | .crash => some { s with mem := .boot, pc := .recover (recoverFromLog L .boot) }

/-- A booted machine with an empty log. -/
structure Initial (L : Layout) (s : Machine) : Prop where
  header : (s.disk L.start).header = []
  mem : s.mem = .boot
  pc : s.pc = .running

end Machine

/-- Operations log home blocks only, and end only after they have begun. -/
def opOk (L : Layout) (s : Machine) : Act → Prop
  | .logWrite b _ => L.Home b
  | .endOp => 1 ≤ s.mem.log.outstanding
  | _ => True

instance (L : Layout) (s : Machine) (a : Act) : Decidable (opOk L s a) :=
  match a with
  | .logWrite b _ => inferInstanceAs (Decidable (L.Home b))
  | .endOp => inferInstanceAs (Decidable (1 ≤ s.mem.log.outstanding))
  | .beginOp | .io | .finish | .crash => isTrue trivial

def logSystem (L : Layout) : Lib.System Machine Act where
  init := Machine.Initial L
  step := Machine.step L

/-! ## §2  Groups -/

/-- The blocks that were logged between two commits, with their data. -/
abbrev Group : Type := List (ℕ × Block)

/-- The contents after a group. -/
def Group.apply (S : ℕ → Block) (g : Group) : ℕ → Block :=
  g.foldl (fun S w => Function.update S w.1 w.2) S

theorem Group.apply_append (S : ℕ → Block) (g : Group) (b : ℕ) (v : Block) :
    Group.apply S (g ++ [(b, v)]) = Function.update (Group.apply S g) b v := by
  unfold Group.apply
  rw [List.foldl_append]
  rfl

/-- What happened since the machine was last up with an empty log: the contents
then, the groups whose commit has begun, the open group, and the number of commits
that have returned. -/
structure History where
  base : ℕ → Block
  groups : List Group
  current : Group
  returned : ℕ

namespace History

def start (s : Machine) : History :=
  { base := s.disk, groups := [], current := [], returned := 0 }

def record (s : Machine) (a : Act) (s' : Machine) (h : History) : History :=
  match a with
  | .logWrite b v => { h with current := h.current ++ [(b, v)] }
  | .endOp =>
      if s'.mem.log.committing then
        { h with groups := h.groups ++ [h.current], current := [] }
      else h
  | .finish =>
      match s.pc with
      | .commit _ => { h with returned := h.returned + 1 }
      | _ => start s'
  | .crash => { h with current := [] }
  | .beginOp | .io => h

/-- The contents after the first `k` groups. -/
def after (h : History) (k : ℕ) : ℕ → Block :=
  (h.groups.take k).foldl Group.apply h.base

/-- The contents after all groups. -/
def all (h : History) : ℕ → Block := h.groups.foldl Group.apply h.base

variable (h : History)

theorem after_length : h.after h.groups.length = h.all := by
  rw [after, List.take_length, all]

theorem all_close : ({ h with groups := h.groups ++ [h.current], current := [] } :
    History).all = Group.apply h.all h.current := by
  show (h.groups ++ [h.current]).foldl _ _ = _
  rw [List.foldl_append]
  rfl

theorem after_close {k : ℕ} (hk : k ≤ h.groups.length) :
    ({ h with groups := h.groups ++ [h.current], current := [] } : History).after k =
      h.after k := by
  show ((h.groups ++ [h.current]).take k).foldl _ _ = _
  rw [List.take_append_of_le_length hk]
  rfl

end History

/-! ## §3  The invariant -/

/-- The disk is one that a crash may leave. -/
def Recoverable (L : Layout) (h : History) (d : ℕ → Block) : Prop :=
  ∃ k, h.returned ≤ k ∧ k ≤ h.groups.length ∧ Represents L (h.after k) d

/-- Operations run: the disk has the contents after all groups, and the buffers
those of the open group. -/
structure Running (L : Layout) (m : Mem) (d : ℕ → Block) (h : History) : Prop where
  committing : m.log.committing = false
  valid : L.ValidLog m.log.lh
  returned : h.returned = h.groups.length
  logged : Logged L [] h.all d
  dirty : Dirty m h.all (Group.apply h.all h.current)

inductive LogInv (L : Layout) : Machine → History → Prop
  | running {d : ℕ → Block} {m : Mem} {h : History} (hr : Running L m d h) :
      LogInv L ⟨d, m, .running⟩ h
  -- no operation is active, so the memory stays as the commit found it
  | commit {d : ℕ → Block} {m : Mem} {p : Io Mem} {h : History}
      (ho : m.log.outstanding = 0) (hc : m.log.committing = true)
      (hn : h.groups.length = h.returned + 1) (hcur : h.current = [])
      (hp : p.wpc (Erased L m h.all) (Recoverable L h) d) :
      LogInv L ⟨d, m, .commit p⟩ h
  | recover {d : ℕ → Block} {m : Mem} {p : Io Mem} {h : History} {S : ℕ → Block}
      (hp : p.wpc (Erased L .boot S) (Recoverable L h) d) :
      LogInv L ⟨d, m, .recover p⟩ h

variable {L : Layout} {s s' : Machine} {h : History} {m : Mem} {d : ℕ → Block}

theorem LogInv.recoverable (hI : LogInv L s h) : Recoverable L h s.disk := by
  cases hI with
  | running hr =>
      refine ⟨h.groups.length, Nat.le_of_eq hr.returned, Nat.le_refl _, [], L.validLog_nil, ?_⟩
      rw [h.after_length]
      exact hr.logged
  | commit _ _ _ _ hp => exact Prog.wpc_crash hp
  | recover hp => exact Prog.wpc_crash hp

theorem Running.of_empty (hc : m.log.committing = false) (hlh : m.log.lh = [])
    (hd : ∀ b, m.dirty b = none) (hn : h.returned = h.groups.length)
    (hcur : h.current = []) (hl : Logged L [] h.all d) : Running L m d h := by
  refine ⟨hc, hlh ▸ L.validLog_nil, hn, hl, fun b => ?_, fun b => ?_⟩
  · rw [hd, hlh]
    exact iff_of_false nofun List.not_mem_nil
  · rw [hd, hcur]
    rfl

theorem Running.beginOp (hr : Running L m d h) :
    Running L { m with log := m.log.enter } d h :=
  ⟨hr.committing, hr.valid, hr.returned, hr.logged, hr.dirty.mem_iff, hr.dirty.getD⟩

theorem Layout.ValidLog.record {l : Log} {b : ℕ} (hv : L.ValidLog l.lh)
    (hb : L.Home b) (hfit : l.tooBig L.size = false) :
    L.ValidLog (l.record b).lh := by
  obtain ⟨h₁, h₂⟩ := Bool.or_eq_false_iff.mp hfit
  have h₁ := of_decide_eq_false h₁
  have h₂ := of_decide_eq_false h₂
  refine ⟨Log.nodup_record hv.nodup, fun c hc => ?_, ?_, ?_⟩
  · rcases Log.mem_record.mp hc with hc | rfl
    · exact hv.home c hc
    · exact hb
  · have := l.length_record_le b
    omega
  · have := l.length_record_le b
    omega

theorem Running.logWrite (hr : Running L m d h) {b : ℕ} (v : Block) (hb : L.Home b)
    (hfit : m.log.tooBig L.size = false) :
    Running L { log := m.log.record b, dirty := Function.update m.dirty b (some v) } d
      { h with current := h.current ++ [(b, v)] } := by
  refine ⟨?_, hr.valid.record hb hfit, hr.returned, hr.logged, fun c => ?_, fun c => ?_⟩
  · exact Log.record_committing.trans hr.committing
  · dsimp only
    rw [Log.mem_record]
    by_cases hc : c = b
    · subst hc
      rw [Function.update_self]
      exact iff_of_true rfl (.inr rfl)
    · rw [Function.update_of_ne hc, hr.dirty.mem_iff c]
      exact ⟨.inl, fun h => h.resolve_right hc⟩
  · show _ = Group.apply h.all (h.current ++ [(b, v)]) c
    dsimp only
    rw [Group.apply_append]
    by_cases hc : c = b
    · subst hc
      rw [Function.update_self, Function.update_self]
      rfl
    · rw [Function.update_of_ne hc, Function.update_of_ne hc]
      exact hr.dirty.getD c

/-- The last `end_op` closes the group and begins the commit. -/
theorem Running.commit (hr : Running L m d h) {m' : Mem} (hlh : m'.log.lh = m.log.lh)
    (hd : m'.dirty = m.dirty) :
    (Fs.commit L m').wpc
      (Erased L m' (Group.apply h.all h.current))
      (Recoverable L { h with groups := h.groups ++ [h.current], current := [] }) d := by
  have hdirty : Dirty m' h.all (Group.apply h.all h.current) := by
    refine ⟨fun b => ?_, fun b => ?_⟩
    · rw [hlh, hd]
      exact hr.dirty.mem_iff b
    · rw [hd]
      exact hr.dirty.getD b
  refine Prog.wpc_mono_crash (commit_wpc (hlh ▸ hr.valid) hr.logged hdirty) ?_
  have hlen : (h.groups ++ [h.current]).length = h.groups.length + 1 :=
    List.length_append ..
  rintro d' (hd' | hd')
  · refine ⟨h.groups.length, Nat.le_of_eq hr.returned, ?_, ?_⟩
    · show _ ≤ (h.groups ++ [h.current]).length
      omega
    · rw [h.after_close (Nat.le_refl _), h.after_length]
      exact hd'
  · refine ⟨h.groups.length + 1, ?_, ?_, ?_⟩
    · show h.returned ≤ _
      rw [hr.returned]
      exact Nat.le_succ _
    · exact Nat.le_of_eq hlen.symm
    · rw [← h.all_close, ← History.after_length] at hd'
      exact hlen ▸ hd'

/-- During a commit no operation is active. -/
theorem LogInv.running_of_up (hI : LogInv L s h) (hup : s.up = true)
    (ha : s.mem.log.committing = false ∨ 1 ≤ s.mem.log.outstanding) :
    s.pc = .running ∧ Running L s.mem s.disk h := by
  cases hI with
  | running hr => exact ⟨rfl, hr⟩
  | commit ho hc =>
      rcases ha with ha | ha
      · rw [hc] at ha
        cases ha
      · rw [ho] at ha
        exact absurd ha (by decide)
  | recover => cases hup

theorem LogInv.step {a : Act} (hI : LogInv L s h) (hg : opOk L s a)
    (hs : s.step L a = some s') : LogInv L s' (h.record s a s') := by
  obtain ⟨d, m, pc⟩ := s
  cases a with
  | beginOp =>
      obtain ⟨⟨hup, hwait⟩, e⟩ := Option.ite_none_right_eq_some.mp hs
      cases e
      obtain ⟨rfl, hr⟩ := hI.running_of_up hup (.inl (Bool.or_eq_false_iff.mp hwait).1)
      exact .running hr.beginOp
  | logWrite b v =>
      obtain ⟨⟨hup, hfit, ho⟩, e⟩ := Option.ite_none_right_eq_some.mp hs
      cases e
      obtain ⟨rfl, hr⟩ := hI.running_of_up hup (.inr ho)
      exact .running (hr.logWrite v hg hfit)
  | endOp =>
      obtain ⟨⟨hup, hc⟩, e⟩ := Option.ite_none_right_eq_some.mp hs
      cases e
      obtain ⟨rfl, hr⟩ := hI.running_of_up hup (.inl hc)
      cases hlast : m.log.leave.committing with
      | false =>
          simp only [History.record, hlast]
          exact .running ⟨hlast, hr.valid, hr.returned, hr.logged, hr.dirty.mem_iff,
            hr.dirty.getD⟩
      | true =>
          -- `committing` was not set, so this was the last operation
          have ho : m.log.leave.outstanding = 0 := by
            have := (Bool.or_eq_true_iff.mp hlast).resolve_left (by rw [hc]; decide)
            exact of_decide_eq_true this
          simp only [History.record, hlast, if_true]
          refine .commit ho hlast ?_ rfl ?_
          · show (h.groups ++ [h.current]).length = h.returned + 1
            rw [List.length_append, hr.returned]
            rfl
          · rw [History.all_close]
            exact hr.commit rfl rfl
  | io =>
      cases hI with
      | running => cases hs
      | commit ho hc hn hcur hp =>
          obtain ⟨⟨p', d'⟩, hstep, rfl⟩ := Option.map_eq_some_iff.mp hs
          exact .commit ho hc hn hcur (Prog.wpc_step hp hstep)
      | recover hp =>
          obtain ⟨⟨p', d'⟩, hstep, rfl⟩ := Option.map_eq_some_iff.mp hs
          exact .recover (Prog.wpc_step hp hstep)
  | finish =>
      cases hI with
      | running => cases hs
      | @commit _ _ p _ ho hc hn hcur hp =>
          cases p with
          | read | write => cases hs
          | ret m' =>
              cases hs
              obtain ⟨_, he⟩ := hp
              refine .running (.of_empty rfl ?_ he.dirty hn.symm hcur he.logged)
              exact congrArg Log.lh he.log
      | @recover _ _ p _ S hp =>
          cases p with
          | read | write => cases hs
          | ret m' =>
              cases hs
              obtain ⟨_, he⟩ := hp
              refine .running (.of_empty ?_ ?_ he.dirty rfl rfl (.self he.logged.header))
              · exact congrArg Log.committing he.log
              · exact congrArg Log.lh he.log
  | crash =>
      cases hs
      obtain ⟨k, h₁, h₂, hk⟩ := hI.recoverable
      refine .recover (Prog.wpc_mono_crash (recoverFromLog_wpc hk) ?_)
      exact fun d' hd' => ⟨k, h₁, h₂, hd'⟩

/-! ## §4  A crash exposes no part of a group -/

theorem Machine.Initial.logInv (hi : Machine.Initial L s) :
    LogInv L s (History.start s) := by
  obtain ⟨d, m, pc⟩ := s
  obtain ⟨hh, rfl, rfl⟩ := hi
  exact .running (.of_empty rfl rfl (fun _ => rfl) rfl rfl (.self hh))

theorem logInv_of_reach {x : Machine × History}
    (hx : ((logSystem L).withHistory History.start History.record).Reach
      (fun x a => opOk L x.1 a) x) : LogInv L x.1 x.2 := by
  apply hx.history_invariant (M := logSystem L) (G := opOk L) (I := LogInv L)
    (J := fun _ => True)
  · exact fun _ _ => trivial
  · exact fun _ hi => Machine.Initial.logInv hi
  · exact fun _ _ _ _ _ hI hg hs => hI.step hg hs

/-- A crash never exposes part of a transaction. From the disk at any point of any
run, and so after any crashes, in recovery too, `recover_from_log` leaves every home
block as it was after the first `k` groups; these include the groups whose `commit`
had returned. -/
theorem crash_atomic {x : Machine × History}
    (hx : ((logSystem L).withHistory History.start History.record).Reach
      (fun x a => opOk L x.1 a) x) :
    ∃ k, x.2.returned ≤ k ∧ k ≤ x.2.groups.length ∧
      ∀ b, L.Home b →
        ((recoverFromLog L .boot).exec x.1.disk).2 b = x.2.after k b := by
  obtain ⟨k, h₁, h₂, hk⟩ := (logInv_of_reach hx).recoverable
  refine ⟨k, h₁, h₂, fun b hb => ?_⟩
  exact (Prog.wpc_exec (recoverFromLog_wpc hk)).logged.home hb List.not_mem_nil

/-- The log in blocks 2 to 7. -/
def smallLayout : Layout := { start := 2, size := 6, size_pos := by decide }

def blankMachine : Machine := { disk := fun _ _ => 0, mem := .boot, pc := .running }

/-- One group is committed. The second has two blocks and two operations; the
machine crashes when it has installed one of the blocks, and again when the recovery
has. -/
def twoCrashes : List Act :=
  [Act.beginOp, .logWrite 10 fun _ => 1, .endOp] ++ List.replicate 8 Act.io ++
    [Act.finish, .beginOp, .beginOp, .logWrite 10 fun _ => 2, .endOp,
      .logWrite 11 fun _ => 3, .endOp] ++ List.replicate 8 Act.io ++ [Act.crash] ++
    List.replicate 4 Act.io ++ [Act.crash]

theorem crash_atomic_twice :
    ∃ x, ((logSystem smallLayout).withHistory History.start History.record).Reach
        (fun x a => opOk smallLayout x.1 a) x ∧
      (x.1.disk 10).word 0 = 2 ∧ (x.1.disk 11).word 0 = 0 ∧ x.2.groups.length = 2 ∧
      ∃ k, 1 ≤ k ∧ k ≤ 2 ∧ ∀ b, smallLayout.Home b →
        ((recoverFromLog smallLayout .boot).exec x.1.disk).2 b = x.2.after k b := by
  obtain ⟨x, hx, hret, hlen, h₁, h₂⟩ := Lib.System.exec_reach
    (M := (logSystem smallLayout).withHistory History.start History.record)
    (G := fun x a => opOk smallLayout x.1 a)
    (P := fun x => x.2.returned = 1 ∧ x.2.groups.length = 2 ∧ (x.1.disk 10).word 0 = 2 ∧
      (x.1.disk 11).word 0 = 0)
    (s := (blankMachine, History.start blankMachine))
    ⟨⟨rfl, rfl, rfl⟩, rfl⟩
    (show (Lib.System.exec _ _ _ twoCrashes).any _ = true by decide)
  obtain ⟨k, hk₁, hk₂, hk⟩ := crash_atomic hx
  exact ⟨x, hx, h₁, h₂, hlen, k, hret ▸ hk₁, hlen ▸ hk₂, hk⟩

end Xv6.Fs
