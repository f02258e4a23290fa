import Xv6.Kernel.Waiting

/-!
# `kthread_join`

A thread id is a slot number, so it names one thread after another. The history
counts the threads a slot has had (its *incarnations*) and notes which one a call
of `kthread_join` has validated; it also lists the calls that returned 0 and the
slots that calls of `kthread_join` have freed.

The id is validated once, before the loop. A second caller that has validated
the same thread is woken with the first and finds the slot `UNUSED` or taken
again; so does a caller that validated a slot whose allocation fails, and a slot
after a failed allocation still has its id. `joinOk` excludes these calls, and
under it `JoinInv` holds.
-/

set_option linter.unusedSectionVars false

namespace Xv6.Kernel

variable {Cpu : Type} [DecidableEq Cpu] {s s' : Sys Cpu} {a : Act Cpu} {c : Cpu}
  {r x : ThreadPtr} {u : Slot}

/-! ## §1  The history -/

/-- A call of `kthread_join` that has ended with the slot: its caller, the slot,
the incarnation it ended with and the one it had validated. -/
structure Joined where
  caller : ThreadPtr
  slot : ThreadPtr
  gen : ℕ
  seen : ℕ
deriving DecidableEq

/-- The incarnations of the slots, the one that each thread has validated last,
the calls of `kthread_join` that returned 0 and those that freed a slot. -/
structure JoinHistory where
  gen : ThreadPtr → ℕ
  seen : ThreadPtr → ℕ
  returned : List Joined
  reaped : List Joined

/-- The slot that a section of `kthread_join` looks at. -/
def Pc.joins : Pc → Option Slot
  | .joinLock u | .joinLoop u => some u
  | _ => none

/-- The thread that executes a section of `kthread_join`, and the slot. -/
def Sys.joining (s : Sys Cpu) (a : Act Cpu) : Option (ThreadPtr × Slot) :=
  (s.acting a).bind fun r => (s.thread r).pc.joins.map fun u => (r, u)

namespace JoinHistory

def start (_ : Sys Cpu) : JoinHistory where
  gen _ := 0
  seen _ := 0
  returned := []
  reaped := []

variable (k : JoinHistory)

/-- The incarnation that `x` has validated after its next section. -/
def validated (s : Sys Cpu) (x : ThreadPtr) : ℕ :=
  match (s.thread x).pc with
  | .joinLock u => k.gen (x.1, u)
  | _ => k.seen x

/-- The entry of a section of `kthread_join`. -/
def entry (s : Sys Cpu) (r : ThreadPtr) (u : Slot) : Joined where
  caller := r
  slot := (r.1, u)
  gen := k.gen (r.1, u)
  seen := k.validated s r

/-- What a step adds to the history. -/
def record (s : Sys Cpu) (a : Act Cpu) (s' : Sys Cpu) (k : JoinHistory) :
    JoinHistory where
  gen x :=
    if (s.thread x).state = .UNUSED ∧ (s'.thread x).state = .EMBRYO then k.gen x + 1
    else k.gen x
  seen x := if s.acting a = some x then k.validated s x else k.seen x
  returned :=
    match s.joining a with
    | some (r, u) =>
        if (s'.thread r).pc = .sysret 0 then k.entry s r u :: k.returned
        else k.returned
    | none => k.returned
  reaped :=
    match s.joining a with
    | some (r, u) =>
        if (s.thread (r.1, u)).state = .ZOMBIE ∧
            (s'.thread (r.1, u)).state = .UNUSED then k.entry s r u :: k.reaped
        else k.reaped
    | none => k.reaped

end JoinHistory

/-- The kernel with the history of `kthread_join`. -/
def joinSystem (Cpu : Type) [DecidableEq Cpu] :
    Lib.System (Sys Cpu × JoinHistory) (Act Cpu) :=
  (kernel Cpu).withHistory JoinHistory.start JoinHistory.record

/-- A call of `kthread_join` validates a thread that has been published, and no
other live thread waits for the same one; `kill_threads` frees no thread that a
live sibling waits for. -/
def joinOk (s : Sys Cpu) (a : Act Cpu) : Prop :=
  forkOk s a ∧ ∀ r ∈ s.acting a,
    (∀ u, (s.thread r).pc = .joinLock u → (s.thread (r.1, u)).tid = u.val →
      (s.thread (r.1, u)).state ≠ .UNUSED ∧ (s.thread (r.1, u)).state ≠ .EMBRYO ∧
      ∀ t, (s.thread (r.1, t)).state.dead = false →
        (s.thread (r.1, t)).pc ≠ .joinLoop u) ∧
    ((s.thread r).pc = .execWait → ∀ y, s.Reaps r y →
      ∀ t, (s.thread (y.1, t)).state.dead = false →
        (s.thread (y.1, t)).pc ≠ .joinLoop y.2)

instance (s : Sys Cpu) (a : Act Cpu) : Decidable (joinOk s a) := by
  unfold joinOk; infer_instance

/-! ## §2  What a step does to a slot and to a joiner -/

/-- A published slot stays so until it is reaped. -/
theorem Change.slot_kept (h : Inv s) (hc : Change s a s') (hp : s'.panicked = none)
    (hu : (s.thread x).state ≠ .UNUSED) (hE : (s.thread x).state ≠ .EMBRYO) :
    (s'.thread x).state ≠ .UNUSED ∧ (s'.thread x).state ≠ .EMBRYO ∨
      ∃ r, s.acting a = some r ∧ s.Reaps r x ∧
        (s.Returns s' r x ∨ (s'.proc x.1).state = .UNUSED) := by
  rcases hc.effect h hp x with hx | ⟨_, hx⟩
  · cases hx with
    | keep _ e =>
        rw [e]
        exact .inl ⟨hu, hE⟩
    | @reap r hr hk _ _ _ _ _ _ hv =>
        exact .inr ⟨r, hr, hk, hv.imp_left And.right⟩
    | create _ _ hs | fork _ _ hs => exact absurd hs hu
    | stack hs | drop hs => exact absurd hs hE
    | publish hs => exact absurd hs.1 hE
    | wake _ _ _ _ _ e | killWake _ _ _ e | execWake _ _ _ e | mark _ _ _ e
    | handOff _ _ _ e | dispatch _ _ e =>
        rw [e]
        exact .inl ⟨nofun, nofun⟩
  · exact .inl (hx.published hu hE)

/-- A live thread in the loop of `kthread_join` was there before the step, or has
just validated the slot. -/
theorem Change.joining (h : Inv s) (hc : Change s a s') (hp : s'.panicked = none)
    (hl : (s'.thread x).state.dead = false) (hpc : (s'.thread x).pc = .joinLoop u) :
    (s.thread x).state.dead = false ∧ ((s.thread x).pc = .joinLoop u ∨
      s.acting a = some x ∧ (s.thread x).pc = .joinLock u ∧
        (s.thread (x.1, u)).tid = u.val) := by
  obtain ⟨hd, harr, _⟩ := hc.arrives h hp hl (by rw [hpc]; rfl)
  refine ⟨hd, ?_⟩
  rw [hpc] at harr
  cases harr with
  | stay e => exact .inl e.symm
  | enter _ hn => cases hn
  | sleep hsl ht =>
      generalize hold : (s.thread x).pc = old at hsl ht
      cases hsl with
      | joinLock =>
          obtain ⟨htid, _, _, c, rfl, hr⟩ := ht
          exact .inr ⟨Sys.acting_run hr, rfl, htid⟩
      | joinLoop => exact .inl rfl
  | exitWait e => cases e

theorem Sys.joinLoop_returns (hp : (s.joinLoop c r u).panicked = none) :
    ((s.joinLoop c r u).thread r).pc = .sysret 0 ↔
      (s.thread (r.1, u)).state = .ZOMBIE ∧
      ((s.joinLoop c r u).thread (r.1, u)).state = .UNUSED := by
  unfold Sys.joinLoop at hp ⊢
  by_cases hz : (s.thread (r.1, u)).state = .ZOMBIE
  · simp only [if_pos hz] at hp ⊢
    rcases s.freeStacks_cases r.1 (· = u) Thread.cleared with e | e
    · rw [e] at hp
      cases hp
    · rw [e]
      refine iff_of_true (congrArg Thread.pc (Sys.goto_self _ r _)) ⟨hz, ?_⟩
      exact (Sys.goto_state _ _).1.trans (congrArg Thread.state
        (Sys.freed_of s r.1 (· = u) Thread.cleared (x := (r.1, u)) ⟨rfl, rfl⟩))
  · refine iff_of_false (fun e => ?_) fun e => hz e.1
    rw [if_neg hz] at e
    split at e
    · rw [Sys.ret] at e
      exact absurd ((congrArg Thread.pc (s.goto_self r (.sysret (-1)))).symm.trans e)
        (by simp)
    · rw [Sys.sleep_eq, Sys.leave_thread_self] at e
      cases e

/-- A section of `kthread_join` returns 0 exactly when it frees the slot. -/
theorem join_returns (hr : s.acting a = some r) (hs : step s a = some s')
    (hp : s'.panicked = none) (hu : (s.thread r).pc.joins = some u) :
    (s'.thread r).pc = .sysret 0 ↔ (s.thread (r.1, u)).state = .ZOMBIE ∧
      (s'.thread (r.1, u)).state = .UNUSED := by
  obtain ⟨c, hrun⟩ := step_run hr hs
  unfold Sys.runStep at hrun
  cases hpc : (s.thread r).pc with
  | joinLock v =>
      rw [hpc] at hu
      obtain rfl := Option.some.inj hu
      simp only [hpc] at hrun
      obtain ⟨_, rfl⟩ := Sys.underPt_eq_some hrun
      unfold Sys.joinLock at hp ⊢
      by_cases ht : (s.thread (r.1, v)).tid ≠ v.val
      · simp only [if_pos ht]
        refine iff_of_false (fun e => ?_) fun ⟨hz, e⟩ => ?_
        · exact absurd ((congrArg Thread.pc (s.goto_self r (.sysret (-1)))).symm.trans e)
            (by simp)
        · have hst : (s.thread (r.1, v)).state = .UNUSED := (s.goto_state _ _).1 ▸ e
          exact absurd (hz.symm.trans hst) (by decide)
      · simp only [if_neg ht] at hp ⊢
        exact Sys.joinLoop_returns hp
  | joinLoop v =>
      rw [hpc] at hu
      obtain rfl := Option.some.inj hu
      simp only [hpc] at hrun
      obtain ⟨_, rfl⟩ := Sys.holdingPt_eq_some hrun
      exact Sys.joinLoop_returns hp
  | _ =>
      rw [hpc] at hu
      cases hu

/-! ## §3  Whom a joiner waits for -/

/-- A live thread in the loop of `kthread_join` waits for the thread it has
validated, and nobody else waits for that one. The calls that returned 0 are
those that freed a slot, and no thread is freed twice. -/
structure JoinInv (s : Sys Cpu) (k : JoinHistory) : Prop where
  slot : ∀ {x u}, (s.thread x).state.dead = false → (s.thread x).pc = .joinLoop u →
    (s.thread (x.1, u)).state ≠ .UNUSED ∧ (s.thread (x.1, u)).state ≠ .EMBRYO ∧
      k.gen (x.1, u) = k.seen x
  unique : ∀ {x y u}, x.1 = y.1 → (s.thread x).state.dead = false →
    (s.thread y).state.dead = false → (s.thread x).pc = .joinLoop u →
    (s.thread y).pc = .joinLoop u → x = y
  same : k.returned = k.reaped
  old : ∀ {e}, e ∈ k.returned → e.gen < k.gen e.slot ∨
    e.gen = k.gen e.slot ∧ (s.thread e.slot).state = .UNUSED
  nodup : (k.returned.map fun e => (e.slot, e.gen)).Nodup
  valid : ∀ {e}, e ∈ k.returned → e.seen = e.gen

variable {k : JoinHistory}

theorem JoinHistory.gen_of_used (h : (s.thread x).state ≠ .UNUSED) :
    (k.record s a s').gen x = k.gen x := if_neg fun e => h e.1

theorem JoinHistory.gen_le : k.gen x ≤ (k.record s a s').gen x := by
  simp only [record]
  split <;> omega

theorem JoinHistory.seen_of_loop (h : (s.thread x).pc = .joinLoop u) :
    (k.record s a s').seen x = k.seen x := by
  simp [record, validated, h]

theorem JoinHistory.seen_of_lock (ha : s.acting a = some x)
    (h : (s.thread x).pc = .joinLock u) :
    (k.record s a s').seen x = k.gen (x.1, u) := by
  simp [record, validated, h, ha]

/-- The slot of a joiner is not reaped by anybody else. -/
theorem JoinInv.slot_kept (hI : JoinInv s k) (h : Inv s) (h' : Inv s')
    (hg : joinOk s a) (hc : Change s a s') (hp : s'.panicked = none)
    (hl : (s'.thread x).state.dead = false) (hpc : (s'.thread x).pc = .joinLoop u)
    (hd : (s.thread x).state.dead = false)
    (hold : (s.thread x).pc = .joinLoop u ∨
      s.acting a = some x ∧ (s.thread x).pc = .joinLock u)
    (hu : (s.thread (x.1, u)).state ≠ .UNUSED)
    (hE : (s.thread (x.1, u)).state ≠ .EMBRYO) :
    (s'.thread (x.1, u)).state ≠ .UNUSED ∧
      (s'.thread (x.1, u)).state ≠ .EMBRYO := by
  rcases hc.slot_kept h hp hu hE with hk | ⟨r, hr, hreap, hret | hproc⟩
  · exact hk
  · -- a reaper that is `x` itself would have left the loop
    have hne : (s'.thread r).pc = .sysret 0 → r ≠ x := by
      rintro e rfl
      exact absurd (hpc.symm.trans e) nofun
    rcases hret with hexec | ⟨hsame, hret, hlock | hloop⟩
    · rcases hold with hold | ⟨ha, hold⟩
      · exact absurd hold ((hg.2 r hr).2 hexec _ hreap x.2 hd)
      · obtain rfl := Option.some.inj (hr.symm.trans ha)
        exact absurd (hexec.symm.trans hold) nofun
    · rcases hold with hold | ⟨ha, _⟩
      · have hx : (r.1, x.2) = x := Prod.ext hsame.symm rfl
        have hv := ((hg.2 r hr).1 u hlock (by
          rw [← hsame]
          exact h.slot.tid hu)).2.2 x.2
        rw [hx] at hv
        exact absurd hold (hv hd)
      · exact absurd (Option.some.inj (hr.symm.trans ha)) (hne hret)
    · rcases hold with hold | ⟨ha, _⟩
      · obtain ⟨c, hcpu⟩ := Sys.run_of_acting hr
        have hrd : (s.thread r).state.dead = false := by
          rw [h.running hcpu (by rw [hloop]; nofun)]
          rfl
        exact absurd (hI.unique (x := r) (y := x) hsame.symm hrd hd hloop hold)
          (hne hret)
      · exact absurd (Option.some.inj (hr.symm.trans ha)) (hne hret)
  · -- `wait` has freed the whole process
    have := h'.slot.unused hproc x.2 List.not_mem_nil
    rw [show (x.1, x.2) = x from rfl] at this
    rw [this] at hl
    cases hl

theorem JoinInv.slot_step (hI : JoinInv s k) (h : Inv s) (h' : Inv s')
    (hg : joinOk s a) (hc : Change s a s') (hp : s'.panicked = none)
    (hl : (s'.thread x).state.dead = false) (hpc : (s'.thread x).pc = .joinLoop u) :
    (s'.thread (x.1, u)).state ≠ .UNUSED ∧ (s'.thread (x.1, u)).state ≠ .EMBRYO ∧
      (k.record s a s').gen (x.1, u) = (k.record s a s').seen x := by
  obtain ⟨hd, hold | ⟨ha, hold, ht⟩⟩ := hc.joining h hp hl hpc
  · obtain ⟨hu, hE, hgen⟩ := hI.slot hd hold
    obtain ⟨hu', hE'⟩ := hI.slot_kept h h' hg hc hp hl hpc hd (.inl hold) hu hE
    refine ⟨hu', hE', ?_⟩
    rw [JoinHistory.gen_of_used hu, JoinHistory.seen_of_loop hold]
    exact hgen
  · obtain ⟨hu, hE, _⟩ := (hg.2 x ha).1 u hold ht
    obtain ⟨hu', hE'⟩ := hI.slot_kept h h' hg hc hp hl hpc hd (.inr ⟨ha, hold⟩) hu hE
    refine ⟨hu', hE', ?_⟩
    rw [JoinHistory.gen_of_used hu, JoinHistory.seen_of_lock ha hold]

theorem JoinInv.unique_step (hI : JoinInv s k) (h : Inv s) (hg : joinOk s a)
    (hc : Change s a s') (hp : s'.panicked = none) {y : ThreadPtr} (hxy : x.1 = y.1)
    (hlx : (s'.thread x).state.dead = false) (hly : (s'.thread y).state.dead = false)
    (hx : (s'.thread x).pc = .joinLoop u) (hy : (s'.thread y).pc = .joinLoop u) :
    x = y := by
  -- a caller that validates finds nobody in the loop
  have hguard : ∀ {z w : ThreadPtr}, z.1 = w.1 → s.acting a = some z →
      (s.thread z).pc = .joinLock u → (s.thread (z.1, u)).tid = u.val →
      (s.thread w).state.dead = false → (s.thread w).pc ≠ .joinLoop u := by
    intro z w hzw ha hpc ht hd
    have hv := ((hg.2 z ha).1 u hpc ht).2.2 w.2
    rw [show (z.1, w.2) = w from Prod.ext hzw rfl] at hv
    exact hv hd
  obtain ⟨hdx, hox | ⟨hax, hox, htx⟩⟩ := hc.joining h hp hlx hx
  · obtain ⟨hdy, hoy | ⟨hay, hoy, hty⟩⟩ := hc.joining h hp hly hy
    · exact hI.unique hxy hdx hdy hox hoy
    · exact absurd hox (hguard hxy.symm hay hoy hty hdx)
  · obtain ⟨hdy, hoy | ⟨hay, _⟩⟩ := hc.joining h hp hly hy
    · exact absurd hoy (hguard hxy hax hox htx hdy)
    · exact Option.some.inj (hax.symm.trans hay)

/-- An entry of the history stays what it was. -/
theorem JoinInv.old_step (hI : JoinInv s k) (h : Inv s) (hc : Change s a s')
    (hp : s'.panicked = none) {e : Joined} (he : e ∈ k.returned) :
    e.gen < (k.record s a s').gen e.slot ∨
      e.gen = (k.record s a s').gen e.slot ∧ (s'.thread e.slot).state = .UNUSED := by
  rcases hI.old he with hlt | ⟨heq, hu⟩
  · exact .inl (lt_of_lt_of_le hlt JoinHistory.gen_le)
  · rcases hc.unused h hp hu with hu' | ⟨hE, _⟩
    · refine .inr ⟨?_, hu'⟩
      simp [JoinHistory.record, hu', heq]
    · refine .inl ?_
      simp [JoinHistory.record, hu, hE, heq]

/-- The two lists grow together. -/
theorem JoinHistory.lists (hs : step s a = some s') (hp : s'.panicked = none) :
    (k.record s a s').returned = k.returned ∧ (k.record s a s').reaped = k.reaped ∨
    ∃ r u, s.acting a = some r ∧ (s.thread r).pc.joins = some u ∧
      (s.thread (r.1, u)).state = .ZOMBIE ∧ (s'.thread (r.1, u)).state = .UNUSED ∧
      (k.record s a s').returned = k.entry s r u :: k.returned ∧
      (k.record s a s').reaped = k.entry s r u :: k.reaped := by
  cases hj : s.joining a with
  | none => exact .inl ⟨by simp [record, hj], by simp [record, hj]⟩
  | some ru =>
      obtain ⟨r, u⟩ := ru
      obtain ⟨r', hr, hju⟩ := Option.bind_eq_some_iff.mp hj
      obtain ⟨u', hu, e⟩ := Option.map_eq_some_iff.mp hju
      cases e
      have hiff := join_returns hr hs hp hu
      by_cases hz : (s.thread (r.1, u)).state = .ZOMBIE ∧
          (s'.thread (r.1, u)).state = .UNUSED
      · have hret := hiff.mpr hz
        exact .inr ⟨r, u, hr, hu, hz.1, hz.2, by simp [record, hj, hret],
          by simp [record, hj, hz]⟩
      · have hret := fun e => hz (hiff.mp e)
        exact .inl ⟨by simp only [record, hj, if_neg hret],
          by simp only [record, hj, if_neg hz]⟩

/-- A call of `kthread_join` that frees a slot had validated the thread in it. -/
theorem JoinInv.validated (hI : JoinInv s k) (h : Inv s) (hr : s.acting a = some r)
    (hu : (s.thread r).pc.joins = some u) : k.validated s r = k.gen (r.1, u) := by
  unfold Pc.joins at hu
  split at hu
  case h_1 v hpc =>
    obtain rfl := Option.some.inj hu
    simp [JoinHistory.validated, hpc]
  case h_2 v hpc =>
    obtain rfl := Option.some.inj hu
    obtain ⟨c, hcpu⟩ := Sys.run_of_acting hr
    have hd : (s.thread r).state.dead = false := by
      rw [h.running hcpu (by rw [hpc]; nofun)]
      rfl
    simp [JoinHistory.validated, hpc, (hI.slot hd hpc).2.2]
  case h_3 => cases hu

theorem JoinInv.step (hI : JoinInv s k) (h : Inv s) (h' : Inv s') (hg : joinOk s a)
    (hs : step s a = some s') (hp : s'.panicked = none) :
    JoinInv s' (k.record s a s') := by
  obtain ⟨_, hc⟩ := step_change hs
  have hslot := fun {x u} => hI.slot_step h h' hg hc hp (x := x) (u := u)
  have hunique := fun {x y u} => hI.unique_step h hg hc hp (x := x) (y := y) (u := u)
  have hold := fun {e} he => hI.old_step h hc hp (e := e) he
  rcases JoinHistory.lists (k := k) hs hp with
    ⟨hret, hreap⟩ | ⟨r, u, hr, hu, hz, hu', hret, hreap⟩
  · refine ⟨hslot, hunique, ?_, ?_, ?_, ?_⟩ <;> rw [hret]
    · rw [hreap]
      exact hI.same
    · exact hold
    · exact hI.nodup
    · exact hI.valid
  · have hgen : (k.record s a s').gen (r.1, u) = k.gen (r.1, u) :=
      JoinHistory.gen_of_used (by rw [hz]; nofun)
    refine ⟨hslot, hunique, ?_, ?_, ?_, ?_⟩ <;> rw [hret]
    · rw [hreap, hI.same]
    · intro e he
      rcases List.mem_cons.mp he with rfl | he
      · exact .inr ⟨hgen.symm, hu'⟩
      · exact hold he
    · rw [List.map_cons, List.nodup_cons]
      refine ⟨fun hmem => ?_, hI.nodup⟩
      -- an earlier entry of this incarnation would have left the slot free
      obtain ⟨e, he, heq⟩ := List.mem_map.mp hmem
      obtain ⟨hslot, hgen⟩ := Prod.mk.inj heq
      have hrec := hI.old he
      rw [hslot, hgen] at hrec
      rcases hrec with hlt | ⟨_, hfree⟩
      · exact lt_irrefl _ hlt
      · exact absurd (hz.symm.trans hfree) (by decide)
    · intro e he
      rcases List.mem_cons.mp he with rfl | he
      · exact hI.validated h hr hu
      · exact hI.valid he

theorem joinInv_of_reach
    (h : (joinSystem Cpu).Reach (fun x a => joinOk x.1 a) (s, k))
    (hp : s.panicked = none) : JoinInv s k := by
  refine history_of_reach (I := JoinInv) (fun _ _ hg => hg.1) (fun s hi => ?_)
    (fun s a s' k h hI hg hs hp' => ?_) h hp
  · have hpc : ∀ {x u}, (s.thread x).state.dead = false →
        (s.thread x).pc ≠ .joinLoop u := by
      intro x u hd e
      exact absurd ((hi.user_of_live hd).symm.trans e) nofun
    exact ⟨fun hd e => absurd e (hpc hd), fun _ hd _ e => absurd e (hpc hd), rfl, nofun,
      List.nodup_nil, nofun⟩
  · exact hI.step h ((step_change hs).2.inv h hg.1 hp') hg hs hp'

/-- If every call of `kthread_join` validates a published thread that no live
sibling waits for, and `kill_threads` frees no thread that is waited for: a call
waits only for the thread that was in the slot when it validated the id, and so
never for a free slot or a later thread; the calls that return 0 are those that
free a slot, each frees the thread it validated, and no thread is freed by
two. -/
theorem join_once (h : (joinSystem Cpu).Reach (fun x a => joinOk x.1 a) (s, k))
    (hp : s.panicked = none) :
    (∀ x u, (s.thread x).state.dead = false → (s.thread x).pc = .joinLoop u →
      (s.thread (x.1, u)).state ≠ .UNUSED ∧ k.gen (x.1, u) = k.seen x) ∧
    k.returned = k.reaped ∧ (k.returned.map fun e => (e.slot, e.gen)).Nodup ∧
    ∀ e ∈ k.returned, e.seen = e.gen := by
  have hI := joinInv_of_reach h hp
  refine ⟨fun x u hd hpc => ?_, hI.same, hI.nodup, fun e => hI.valid⟩
  obtain ⟨hu, _, hgen⟩ := hI.slot hd hpc
  exact ⟨hu, hgen⟩

theorem join_once_reaped : ∃ s k,
    (joinSystem (Fin 2)).Reach (fun x a => joinOk x.1 a) (s, k) ∧
    k.returned = [⟨(0, 0), (0, 1), 0, 0⟩] ∧ k.returned = k.reaped := by
  obtain ⟨⟨s, k⟩, hr, hp, hret⟩ := boot_history (single 2) JoinHistory.start
    JoinHistory.record joinOk (joinedRun ++ runs 0 1)
    (fun x => x.1.panicked = none ∧ x.2.returned = [⟨(0, 0), (0, 1), 0, 0⟩])
    (by decide +kernel)
  exact ⟨s, k, hr, hret, (join_once hr hp).2.1⟩

/-- Threads (0, 0) and (0, 1) wait for thread (0, 2). It ends, the first frees the
slot, and the second goes on. -/
def joinTwiceRun : List (Act (Fin 2)) :=
  Act.sched 0 :: call 0 (.join 2) ++ runs 0 2 ++ Act.sched 0 :: call 0 (.join 2) ++
    runs 0 2 ++ Act.sched 0 :: call 0 .kthreadExit ++ runs 0 2 ++
    [Act.sched 0, .sched 0] ++ runs 0 1 ++ [Act.preempt 0, .sched 0] ++ runs 0 1

/-- There is no memory for the stack of thread (0, 1), and thread (0, 0) joins
it. -/
def joinStaleRun : List (Act (Fin 2)) :=
  Act.sched 0 :: call 0 .create ++ runs 0 1 ++ Act.kalloc 0 false :: runs 0 3 ++
    call 0 (.join 1) ++ runs 0 2

/-- A second caller, or one that uses the id of a slot whose allocation failed,
sleeps on a free slot. -/
theorem join_asleep_on_free_slot :
    (∃ s, (kernel (Fin 2)).Reach Lib.System.anyStep s ∧ s.panicked = none ∧
      (s.thread (0, 1)).state = .SLEEPING ∧ (s.thread (0, 1)).pc = .joinLoop 2 ∧
      (s.thread (0, 2)).state = .UNUSED) ∧
    ∃ s, (kernel (Fin 2)).Reach Lib.System.anyStep s ∧ s.panicked = none ∧
      (s.thread (0, 0)).state = .SLEEPING ∧ (s.thread (0, 0)).pc = .joinLoop 1 ∧
      (s.thread (0, 1)).state = .UNUSED :=
  ⟨boot_reach (single 3) _ joinTwiceRun _ (by decide +kernel),
    boot_reach (single 1) _ joinStaleRun _ (by decide +kernel)⟩

end Xv6.Kernel
