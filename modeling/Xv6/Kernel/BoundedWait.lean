import Xv6.Kernel.MutexSafety
import Xv6.Kernel.ProcState
import Xv6.Lib.Cyclic

/-!
# Bounded waiting for a kthread mutex

`kthread_mutex_unlock` hands a mutex to the first blocked waiter after the
unlocking thread, in the cyclic order of the thread slots. The holder's slot
therefore comes closer to a waiting thread with every hand-off, whatever other
threads begin to wait in between: the hand-offs that a waiter has seen and the
distance that is left never exceed `NTHREAD - 1` together.

A late `fork` can break this. `allocproc` claims its slot outside of
`ptable.lock`, so a second `fork` may hold on to the slot of a process that
already runs, and makes its first thread `RUNNABLE` although it is blocked.
-/

set_option linter.unusedSectionVars false

namespace Xv6.Kernel

open Xv6.Lib.Cyclic

variable {Cpu : Type} [DecidableEq Cpu] {s s' : Sys Cpu} {a : Act Cpu} {c : Cpu}
  {r w : ThreadPtr} {i : MutexId}

/-! ## §1  The first waiter -/

namespace Sys

/-- `u` is the first slot after that of `r`, in the cyclic order of the slots,
whose thread waits for mutex `i`. -/
def FirstWaiter (s : Sys Cpu) (r : ThreadPtr) (i : MutexId) (u : Slot) : Prop :=
  First (fun v => s.Waits (r.1, v) i) r.2 u

/-- The scan of `kthread_mutex_unlock` finds the first waiter. -/
theorem firstWaiter_of_waiter {u : Slot} (h : s.waiter r i = some u) :
    s.FirstWaiter r i u := by
  obtain ⟨hne, hw, hfirst⟩ := first_of_find? h
  simp only [Bool.and_eq_true, decide_eq_true_eq] at hw hfirst
  exact ⟨hne, hw, hfirst⟩

/-- A waiter is found. -/
theorem exists_waiter (hw : s.Waits w i) (hp : r.1 = w.1) (hne : w.2 ≠ r.2) :
    ∃ u, s.waiter r i = some u := by
  cases e : s.waiter r i with
  | some u => exact ⟨u, rfl⟩
  | none => exact absurd (by rw [hp]; exact hw) (not_waits_of_waiter e hne)

/-! ## §2  Waiting and unlocking -/

/-- Thread `w` is `SLEEPING` with `blocked = 1` on mutex `i`. -/
def Asleep (s : Sys Cpu) (w : ThreadPtr) (i : MutexId) : Prop :=
  (s.thread w).state = .SLEEPING ∧ s.Waits w i

/-- The step from `s` to `s'` is the one with which `kthread_mutex_unlock(i)`
returns 0 to `r`. -/
def Unlocks (s s' : Sys Cpu) (r : ThreadPtr) (i : MutexId) : Prop :=
  ((s.thread r).pc = .mutexUnlockScan i ∨ (s.thread r).pc = .mutexUnlockFree i) ∧
    (s'.thread r).pc = .sysret 0

/-- The section of `r` is an `exit`, an `exec` or a `kill` of process `p`. -/
def Disturbs (s : Sys Cpu) (r : ThreadPtr) (p : ProcId) : Prop :=
  match (s.thread r).pc with
  | .exit | .execKill => r.1 = p
  | .kill pid => s.procOfPid pid = some p
  | _ => False

/-- Process `p` has not exited, and the step does not begin an `exit`, an `exec`
or a `kill` of it. -/
def Undisturbed (s : Sys Cpu) (p : ProcId) (a : Act Cpu) : Prop :=
  (s.proc p).state ≠ .ZOMBIE ∧ ∀ r ∈ s.acting a, ¬ s.Disturbs r p

instance (s : Sys Cpu) (w : ThreadPtr) (i : MutexId) : Decidable (s.Asleep w i) := by
  unfold Asleep; infer_instance

instance (s s' : Sys Cpu) (r : ThreadPtr) (i : MutexId) :
    Decidable (s.Unlocks s' r i) := by
  unfold Unlocks; infer_instance

instance (s : Sys Cpu) (r : ThreadPtr) (p : ProcId) : Decidable (s.Disturbs r p) :=
  decidable_of_iff (((s.thread r).pc = .exit ∨ (s.thread r).pc = .execKill) ∧ r.1 = p ∨
      ∃ pid ∈ (s.thread r).pc.target, s.procOfPid pid = some p) (by
    unfold Disturbs
    cases (s.thread r).pc <;> simp [Pc.target])

instance (s : Sys Cpu) (p : ProcId) (a : Act Cpu) : Decidable (s.Undisturbed p a) := by
  unfold Undisturbed; infer_instance

end Sys

/-- While `w` waits for `i` its process is left alone, and forks claim slots that
are still free. -/
def waitOk (w : ThreadPtr) (i : MutexId) (s : Sys Cpu) (a : Act Cpu) : Prop :=
  forkOk s a ∧ (s.Asleep w i → s.Undisturbed w.1 a)

instance (w : ThreadPtr) (i : MutexId) (s : Sys Cpu) (a : Act Cpu) :
    Decidable (waitOk w i s a) := by
  unfold waitOk; infer_instance

/-! ## §3  One step of the kernel while a thread waits -/

namespace Sys.Asleep

variable (hw : s.Asleep w i) (h : Inv s)
include hw h

theorem not_run : s.cpu c ≠ .run w := by
  intro hc
  rcases h.cpu.state hc with e | ⟨e, _⟩ <;> exact absurd (hw.1.symm.trans e) (by decide)

theorem outside : (s.thread w).pc.holdsMt = false := by
  cases e : (s.thread w).pc.holdsMt with
  | false => rfl
  | true =>
      obtain ⟨c, hc, _⟩ := h.cpu.mt (h.mutex.blocked hw.2.1).1 e
      exact absurd hc (hw.not_run h)

theorem locked : (s.mutex i).locked = true ∧ (s.proc w.1).mid i = true :=
  h.locked_of_waits hw.2 (hw.outside h)

theorem allocated : (s.mutex i).allocated = true := by
  obtain ⟨hp, hpc, _⟩ := h.woken_of_waits hw.2 (hw.outside h)
  have hfact := h.mutex.fact hp
  rw [hpc] at hfact
  exact (hfact.2.2.2 hw.2).1

/-- A thread that is about to end its `kthread_mutex_unlock(i)` belongs to the
process of the waiter and is not the waiter. -/
theorem sibling (hr : s.cpu c = .run r) (hpc : (s.thread r).pc = .mutexUnlockScan i ∨
    (s.thread r).pc = .mutexUnlockFree i) :
    r.1 = w.1 ∧ w.2 ≠ r.2 ∧ (s.mutex i).tid = r.2.val := by
  have hfact := h.mutex.fact (h.present_of_run hr)
  have hmid : (s.proc r.1).mid i = true ∧ (s.mutex i).tid = r.2.val := by
    rcases hpc with hpc | hpc
    · rw [hpc] at hfact
      exact hfact.2
    · rw [hpc] at hfact
      exact ⟨hfact.2.1, hfact.2.2.1⟩
  have hp : r.1 = w.1 := Option.some.inj ((h.mutex.owner hmid.1).symm.trans
    (h.mutex.owner (hw.locked h).2))
  refine ⟨hp, fun hslot => ?_, hmid.2⟩
  rw [show r = w from Prod.ext hp hslot.symm] at hr
  exact hw.not_run h hr

/-- Nobody frees the mutex. -/
theorem not_free (hr : s.cpu c = .run r) : (s.thread r).pc ≠ .mutexUnlockFree i := by
  intro hpc
  obtain ⟨hp, _⟩ := hw.sibling h hr (.inr hpc)
  have hfact := h.mutex.fact (h.present_of_run hr)
  rw [hpc] at hfact
  exact absurd (by rw [hp]; exact hw.2) (hfact.2.2.2 w.2)

/-- The mutex keeps its holder, unless it is handed on. -/
theorem holder (hc : Change s a s') (hp : s'.panicked = none)
    (hn : ∀ r, s.acting a = some r → (s.thread r).pc ≠ .mutexUnlockScan i) :
    (s'.mutex i).tid = (s.mutex i).tid := by
  have hl := (hw.locked h).1
  cases hc with
  | wakeup => rfl
  | sched =>
      unfold Sys.scheduler
      split <;> rfl
  | junk => cases hp
  | @run c r _ _ hr hs =>
      rcases hs.mutex_cases hp i with e | hm
      · rw [e]
      · cases hm with
        | alloc hi => exact absurd (hi.symm.trans (hw.allocated h)) (by decide)
        | dealloc _ hi => exact absurd (hi.symm.trans hl) (by decide)
        | take hpc e =>
            -- only the holder takes a mutex that is locked
            have hpr := h.present_of_run hr
            have hfact := h.mutex.fact hpr
            rw [hpc] at hfact
            rw [e, h.slot.tid hpr, hfact.2.2.resolve_left (by simp [hl])]
        | handOff ha hpc _ _ =>
            exact absurd hpc (hn r (by rw [ha]; exact Sys.acting_run hr))
        | free hpc _ => exact absurd hpc (hw.not_free h hr)

/-- In an undisturbed process a waiter sleeps on, or is handed the mutex. -/
theorem stays (hg : s.Undisturbed w.1 a) (hc : Change s a s')
    (hp : s'.panicked = none) : s'.Asleep w i ∨
      ∃ r, s.acting a = some r ∧ (s.thread r).pc = .mutexUnlockScan i := by
  rcases hc.effect h hp w with hx | ⟨⟨c, hr⟩, _⟩
  swap
  · exact absurd hr (hw.not_run h)
  have hno : ∀ {st : States}, (s.thread w).state = st → st ≠ .SLEEPING → False :=
    fun e hne => hne (e.symm.trans hw.1)
  cases hx with
  | keep b e =>
      refine .inl ?_
      unfold Sys.Asleep Sys.Waits
      rw [e]
      exact hw
  | wake ch _ hch hm _ _ => exact absurd (hch.symm.trans hw.2.2) (hm i)
  | @killWake r hr hk _ _ =>
      refine absurd ?_ (hg.2 r hr)
      unfold Sys.KillWakes at hk
      unfold Sys.Disturbs
      split at hk
      case h_1 pid hpc =>
        rw [hpc]
        exact hk.1
      case h_2 => exact hk.elim
  | @execWake r _ hr hk _ =>
      refine absurd ?_ (hg.2 r hr)
      unfold Sys.Disturbs
      rw [hk.1]
      exact hk.2.1.symm
  | @mark r _ hr hk _ =>
      refine absurd ?_ (hg.2 r hr)
      unfold Sys.Disturbs
      rw [hk.1]
      exact hk.2.1.symm
  | reap _ hk =>
      rcases hk.zombie_or_waited with e | hwt
      · exact (hno e (by simp)).elim
      · rcases (s.deadChild_some hwt.2).2 with hz | hd
        · exact absurd hz hg.1
        · have := hd w.2 (by simp)
          rw [hw.1] at this
          cases this
  | @handOff r j hr hk hwj _ =>
      unfold Sys.HandsOff at hk
      split at hk
      case h_1 k hpc =>
        have hwk : s.Waits w k := by
          have := (Sys.waiter_some hk.2).2
          rwa [← hk.1] at this
        refine .inr ⟨r, hr, ?_⟩
        rw [hpc, Chan.mutex.inj (hwk.2.symm.trans hw.2.2)]
      case h_2 => exact hk.elim
  | publish hs _ => exact (hno hs.1 (by simp)).elim
  | create _ _ hs | fork _ _ hs | stack hs | drop hs | dispatch _ hs =>
      exact (hno hs (by simp)).elim

/-- A step while `w` waits: nobody unlocks the mutex and `w` sleeps on, or a
sibling unlocks it and hands it on. -/
theorem step (hg : s.Undisturbed w.1 a) (hs : step s a = some s')
    (hp : s'.panicked = none) :
    (s'.Asleep w i ∧ (s'.mutex i).tid = (s.mutex i).tid ∧
      ∀ r, s.acting a = some r → ¬ s.Unlocks s' r i) ∨
    ∃ r u, s.acting a = some r ∧ (s.thread r).pc = .mutexUnlockScan i ∧
      s.waiter r i = some u ∧ s' = s.handOff r i u := by
  obtain ⟨_, hc⟩ := step_change hs
  by_cases hscan : ∃ r, s.acting a = some r ∧ (s.thread r).pc = .mutexUnlockScan i
  · obtain ⟨r, hr, hpc⟩ := hscan
    obtain ⟨c, hrun⟩ := s.run_of_acting hr
    obtain ⟨hproc, hne, _⟩ := hw.sibling h hrun (.inl hpc)
    obtain ⟨u, hu⟩ := Sys.exists_waiter hw.2 hproc hne
    obtain ⟨_, hstep⟩ := step_run hr hs
    simp only [Sys.runStep, hpc, Sys.mutexUnlockScan, hu] at hstep
    exact .inr ⟨r, u, hr, hpc, hu, (Sys.underPt_eq_some hstep).2.symm⟩
  · have hno : ∀ r, s.acting a = some r → (s.thread r).pc ≠ .mutexUnlockScan i :=
      fun r hr hpc => hscan ⟨r, hr, hpc⟩
    refine .inl ⟨(hw.stays h hg hc hp).resolve_right hscan, hw.holder h hc hp hno, ?_⟩
    rintro r hr ⟨hpc | hpc, _⟩
    · exact hno r hr hpc
    · obtain ⟨c, hrun⟩ := s.run_of_acting hr
      exact hw.not_free h hrun hpc

end Sys.Asleep

/-! ## §4  The hand-off -/

/-- Thread `x` has been given mutex `i`: it is the recorded holder and is about to
return from `kthread_mutex_lock`. -/
structure Sys.Receives (s : Sys Cpu) (x : ThreadPtr) (i : MutexId) : Prop where
  state : (s.thread x).state = .RUNNABLE
  handed : s.Handed x i
  recorded : s.Recorded x i

theorem Sys.handOff_unlocker (r : ThreadPtr) (i : MutexId) (u : Slot) :
    ((s.handOff r i u).thread r).pc = .sysret 0 := by
  simp [Sys.handOff, Sys.releaseMt, Sys.setThread]

theorem Sys.handOff_waiter {u : Slot} (hu : u ≠ r.2) :
    (s.handOff r i u).thread (r.1, u) = { s.thread (r.1, u) with
      chan := .null, state := .RUNNABLE, blocked := false } := by
  have hne : (r.1, u) ≠ r := fun e => hu (congrArg Prod.snd e)
  simp [Sys.handOff, Sys.releaseMt, Sys.setThread, Function.update_of_ne hne]

theorem Sys.handOff_other {u : Slot} {x : ThreadPtr} (hr : x ≠ r) (hu : x ≠ (r.1, u)) :
    (s.handOff r i u).thread x = s.thread x := by
  simp [Sys.handOff, Sys.releaseMt, Sys.setThread, Function.update_of_ne hr,
    Function.update_of_ne hu]

theorem Sys.handOff_mutex (r : ThreadPtr) (i : MutexId) (u : Slot) :
    (s.handOff r i u).mutex i = { s.mutex i with tid := (s.thread (r.1, u)).tid } :=
  Function.update_self ..

/-- The first waiter has received the mutex. -/
theorem Inv.receives (h : Inv s) (hr : s.cpu c = .run r)
    (hpc : (s.thread r).pc = .mutexUnlockScan i) {u : Slot}
    (hu : s.waiter r i = some u) : (s.handOff r i u).Receives (r.1, u) i := by
  obtain ⟨hne, hw⟩ := Sys.waiter_some hu
  have hwr : (r.1, u) ≠ r := fun e => hne (congrArg Prod.snd e)
  have hpr := (h.mutex.blocked hw.1).1
  have hout := h.others_outside (h.present_of_run hr) (.inr (by rw [hpc]; rfl)) hpr hwr
  obtain ⟨_, hwoken, _⟩ := h.woken_of_waits hw hout
  obtain ⟨hlocked, hmid⟩ := h.locked_of_waits hw hout
  have hfact := h.mutex.fact (h.present_of_run hr)
  rw [hpc] at hfact
  have hm := Sys.handOff_mutex (s := s) r i u
  refine ⟨?_, ⟨?_, .inl ?_⟩, ?_, ?_, ?_, ?_⟩
  · rw [Sys.handOff_waiter hne]
  · rw [Sys.handOff_waiter hne]
  · rw [Sys.handOff_waiter hne]
    exact hwoken
  · rw [hm]
    exact hfact.1
  · rw [hm]
    exact hlocked
  · rw [hm]
    exact h.slot.tid hpr
  · rw [hm]
    exact h.mutex.owner hmid

/-- A waiter that is not the first one sleeps on. -/
theorem Sys.Asleep.handOff (hw : s.Asleep w i) {u : Slot} (hr : w.2 ≠ r.2)
    (hu : w.2 ≠ u) : (s.handOff r i u).Asleep w i := by
  unfold Sys.Asleep Sys.Waits
  rw [Sys.handOff_other (fun e => hr (congrArg Prod.snd e))
    (fun e => hu (congrArg Prod.snd e))]
  exact hw

/-! ## §5  Runs -/

/-- 1 if the step is a successful `kthread_mutex_unlock(i)`. -/
def unlockCount (i : MutexId) (s : Sys Cpu) (a : Act Cpu) (s' : Sys Cpu) : ℕ :=
  match s.acting a with
  | some r => if s.Unlocks s' r i then 1 else 0
  | none => 0

/-- From the moment `w` is asleep on mutex `i` until it has received the mutex:
how often `kthread_mutex_unlock(i)` has succeeded. -/
def waitRecord (w : ThreadPtr) (i : MutexId) (s : Sys Cpu) (a : Act Cpu)
    (s' : Sys Cpu) : Option ℕ → Option ℕ
  | none => if s'.Asleep w i then some 0 else none
  | some n =>
      if (s'.thread w).blocked then some (n + unlockCount i s a s') else none

/-- The kernel with that count. -/
def waitSystem (Cpu : Type) [DecidableEq Cpu] (w : ThreadPtr) (i : MutexId) :
    Lib.System (Sys Cpu × Option ℕ) (Act Cpu) :=
  (kernel Cpu).withHistory (fun _ => none) (waitRecord w i)

/-- The hand-offs that `w` has seen and the distance from the holder to `w` do not
exceed `NTHREAD - 1` together. -/
def TurnInv (w : ThreadPtr) (i : MutexId) (s : Sys Cpu) : Option ℕ → Prop
  | none => ¬ s.Asleep w i
  | some n => s.Asleep w i ∧ n + 1 < nthread ∧
      ∀ t : Slot, (s.mutex i).tid = t.val → t ≠ w.2 → n + after t w.2 < nthread

theorem unlockCount_of_handOff {u : Slot} (hr : s.acting a = some r)
    (hpc : (s.thread r).pc = .mutexUnlockScan i) :
    unlockCount i s a (s.handOff r i u) = 1 := by
  unfold unlockCount
  rw [hr]
  exact if_pos ⟨.inl hpc, Sys.handOff_unlocker r i u⟩

theorem unlockCount_of_not (h : ∀ r, s.acting a = some r → ¬ s.Unlocks s' r i) :
    unlockCount i s a s' = 0 := by
  unfold unlockCount
  split
  case h_1 r hr => exact if_neg (h r hr)
  case h_2 => rfl

/-- A hand-off to another thread brings the holder closer. -/
theorem TurnInv.handOff {n : ℕ} (hI : TurnInv w i s (some n)) (h : Inv s)
    (hr : s.cpu c = .run r) (hpc : (s.thread r).pc = .mutexUnlockScan i) {u : Slot}
    (hu : s.waiter r i = some u) (hne : w.2 ≠ u) :
    TurnInv w i (s.handOff r i u) (some (n + 1)) := by
  obtain ⟨hw, _, hdist⟩ := hI
  obtain ⟨hproc, hwr, htid⟩ := hw.sibling h hr (.inl hpc)
  have hfirst := Sys.firstWaiter_of_waiter hu
  have hwaits : s.Waits (r.1, w.2) i := by
    rw [hproc]
    exact hw.2
  obtain ⟨hpos, hlt⟩ := First.after_lt hfirst hwaits hwr hne
  have hn := hdist r.2 htid hwr.symm
  have hu' : ((s.handOff r i u).mutex i).tid = u.val := (h.receives hr hpc hu).recorded.2.2.1
  refine ⟨hw.handOff hwr hne, by omega, fun t ht _ => ?_⟩
  obtain rfl : t = u := Fin.ext (Int.ofNat.inj (ht.symm.trans hu'))
  omega

theorem TurnInv.step {k : Option ℕ} (hI : TurnInv w i s k) (h : Inv s)
    (hg : waitOk w i s a) (hs : step s a = some s') (hp : s'.panicked = none) :
    TurnInv w i s' (waitRecord w i s a s' k) := by
  cases k with
  | none =>
      simp only [waitRecord]
      split
      case isTrue hw => exact ⟨hw, by decide, fun t _ _ => by simpa using after_lt t w.2⟩
      case isFalse hw => exact hw
  | some n =>
      simp only [waitRecord]
      rcases hI.1.step h (hg.2 hI.1) hs hp with ⟨hw, htid, hno⟩ | ⟨r, u, hr, hpc, hu, rfl⟩
      · rw [if_pos hw.2.1, unlockCount_of_not hno]
        refine ⟨hw, hI.2.1, fun t ht => hI.2.2 t (htid.symm.trans ht)⟩
      · obtain ⟨c, hrun⟩ := s.run_of_acting hr
        by_cases hne : w.2 = u
        · obtain ⟨hproc, _⟩ := hI.1.sibling h hrun (.inl hpc)
          have hb := (h.receives hrun hpc hu).handed.1
          rw [show (r.1, u) = w from Prod.ext hproc hne.symm] at hb
          rw [if_neg (by simp [hb])]
          exact fun hw => absurd (hb.symm.trans hw.2.1) (by decide)
        · have hw := hI.handOff h hrun hpc hu hne
          rw [if_pos hw.1.2.1, unlockCount_of_handOff hr hpc]
          exact hw

theorem turnInv_of_reach {x : Sys Cpu × Option ℕ}
    (h : (waitSystem Cpu w i).Reach (fun x a => waitOk w i x.1 a) x)
    (hp : x.1.panicked = none) : TurnInv w i x.1 x.2 := by
  refine history_of_reach (G := waitOk w i) (I := TurnInv w i)
    (fun _ _ hg => hg.1) (fun s hi => ?_)
    (fun s a s' k h hI hg hs hp => hI.step h hg hs hp) h hp
  intro hw
  exact absurd hw.2.1 (by simp [hi.not_blocked])

/-- If forks claim slots that are still free, and while `w` waits nobody exits,
replaces or kills its process: every successful `kthread_mutex_unlock(i)` hands
the mutex to the first waiter after the unlocking thread, and `w` receives it with
the `NTHREAD - 1`st of them at the latest. Nothing else ends the wait. -/
theorem bounded_waiting {x : Sys Cpu × Option ℕ}
    (h : (waitSystem Cpu w i).Reach (fun x a => waitOk w i x.1 a) x)
    (hp : x.1.panicked = none) (hw : x.1.Asleep w i) :
    ∃ n, x.2 = some n ∧ n < nthread - 1 ∧
    ∀ a s', waitOk w i x.1 a → step x.1 a = some s' → s'.panicked = none →
      (∀ r, x.1.acting a = some r → x.1.Unlocks s' r i →
        ∃ u, x.1.FirstWaiter r i u ∧ s'.Receives (r.1, u) i ∧
          ((r.1, u) = w ∨ s'.Asleep w i ∧ n + 1 < nthread - 1)) ∧
      ((∀ r, x.1.acting a = some r → ¬ x.1.Unlocks s' r i) → s'.Asleep w i) := by
  have hinv := inv_of_reach (fun _ _ hg => hg.1) h.forget hp
  have hI := turnInv_of_reach h hp
  obtain ⟨s, k⟩ := x
  cases k with
  | none => exact absurd hw hI
  | some n =>
      refine ⟨n, rfl, Nat.lt_sub_of_add_lt hI.2.1, fun a s' hg hs hp' => ?_⟩
      rcases hw.step hinv (hg.2 hw) hs hp' with ⟨hw', _, hno⟩ | ⟨r, u, hr, hpc, hu, rfl⟩
      · exact ⟨fun r hr hun => absurd hun (hno r hr), fun _ => hw'⟩
      · obtain ⟨c, hrun⟩ := s.run_of_acting hr
        refine ⟨fun r' hr' _ => ?_, fun hno => absurd ?_ (hno r hr)⟩
        · obtain rfl : r' = r := Option.some.inj (hr'.symm.trans hr)
          refine ⟨u, Sys.firstWaiter_of_waiter hu, hinv.receives hrun hpc hu, ?_⟩
          by_cases hne : w.2 = u
          · obtain ⟨hproc, _⟩ := hw.sibling hinv hrun (.inl hpc)
            exact .inl (Prod.ext hproc hne.symm)
          · have hI' := hI.handOff hinv hrun hpc hu hne
            exact .inr ⟨hI'.1, Nat.lt_sub_of_add_lt hI'.2.1⟩
        · exact ⟨.inl hpc, Sys.handOff_unlocker r i u⟩

/-- Thread (0, 0) holds mutex 0, threads (0, 1) and (0, 2) wait for it; it is handed
to (0, 1), which is about to unlock it. -/
def twoWaitersRun : List (Act (Fin 2)) :=
  Act.sched 0 :: call 0 .mutexAlloc ++ runs 0 5 ++ call 0 (.mutexLock 0) ++ runs 0 8 ++
    preempted 0 ++ call 0 (.mutexLock 0) ++ runs 0 5 ++ Act.sched 0 ::
    call 0 (.mutexLock 0) ++ runs 0 5 ++ [Act.sched 0, .sched 0] ++ runs 0 2 ++
    call 0 (.mutexUnlock 0) ++ runs 0 7 ++ preempted 0 ++ runs 0 6 ++
    call 0 (.mutexUnlock 0) ++ runs 0 3

theorem bounded_waiting_second : ∃ x s',
    (waitSystem (Fin 2) (0, 2) 0).Reach (fun x a => waitOk (0, 2) 0 x.1 a) x ∧
    x.2 = some 1 ∧ step x.1 (.run 0) = some s' ∧ ∃ u, s'.Receives (0, u) 0 := by
  obtain ⟨x, hx, hp, hk, hw, ha, hg, hs⟩ := boot_history (single 3) (fun _ => none)
    (waitRecord (0, 2) 0) (waitOk (0, 2) 0) twoWaitersRun
    (fun x => x.1.panicked = none ∧ x.2 = some 1 ∧ x.1.Asleep (0, 2) 0 ∧
      x.1.acting (.run 0) = some (0, 1) ∧ waitOk (0, 2) 0 x.1 (.run 0) ∧
      (step x.1 (.run 0)).any (fun s' => decide (s'.panicked = none ∧
        x.1.Unlocks s' (0, 1) 0)) = true) (by decide +kernel)
  obtain ⟨s', hs', hd⟩ := Option.any_eq_true .. |>.mp hs
  obtain ⟨hp', hun⟩ := of_decide_eq_true hd
  obtain ⟨n, _, _, hnext⟩ := bounded_waiting hx hp hw
  obtain ⟨u, _, hu, _⟩ := (hnext _ s' hg hs' hp').1 (0, 1) ha hun
  exact ⟨x, s', hx, hk, hs', u, hu⟩

/-- Processes 0 and 1 fork, and both take slot 2; process 1 is slow. The new
process creates thread (2, 2), which takes mutex 0, and thread (2, 0) sleeps on it.
Then process 1 goes on and makes (2, 0) `RUNNABLE`, which leaves `sleep` and comes
to `acquire(&mtable.lock)`. -/
def lateForkRun : List (Act (Fin 2)) :=
  Act.sched 0 :: call 0 .fork ++ Act.sched 1 :: call 1 .fork ++
    [Act.run 0, .run 1, .run 0, .run 1, .run 0, .kalloc 0 true, .run 1, .kalloc 1 true,
      .kalloc 0 true, .kalloc 1 true] ++ runs 0 5 ++ preempted 0 ++
    call 0 .mutexAlloc ++ runs 0 5 ++ call 0 .create ++ [Act.run 0, .kalloc 0 true] ++
    runs 0 5 ++ preempted 0 ++ call 0 (.mutexLock 0) ++ runs 0 8 ++ preempted 0 ++
    Act.sched 0 :: runs 0 2 ++ preempted 0 ++ runs 0 2 ++ call 0 (.mutexLock 0) ++
    runs 0 5 ++ Act.sched 0 :: runs 0 2 ++ runs 1 5 ++ preempted 1

/-- Thread (2, 2) unlocks the mutex and takes it again. -/
def relockRun : List (Act (Fin 2)) :=
  call 0 (.mutexUnlock 0) ++ runs 0 8 ++ call 0 (.mutexLock 0) ++ runs 0 8

/-- Nobody exits, replaces or kills the process, and `NTHREAD - 1` successful
unlocks pass the blocked thread by. -/
theorem waiter_passed_over : ∃ x,
    (waitSystem (Fin 2) (2, 0) 0).Reach (fun x a => x.1.Undisturbed 2 a) x ∧
    x.1.panicked = none ∧ x.2 = some (nthread - 1) ∧
    (x.1.thread (2, 0)).blocked = true ∧ (x.1.mutex 0).tid = 2 :=
  boot_history (double 1 1) (fun _ => none) (waitRecord (2, 0) 0)
    (fun s a => s.Undisturbed 2 a)
    (lateForkRun ++ (List.replicate (nthread - 1) relockRun).flatten)
    (fun x => x.1.panicked = none ∧ x.2 = some (nthread - 1) ∧
      (x.1.thread (2, 0)).blocked = true ∧ (x.1.mutex 0).tid = 2) (by decide +kernel)

end Xv6.Kernel
