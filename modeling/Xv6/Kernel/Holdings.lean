import Xv6.Kernel.StoreEffect
import Xv6.Kernel.Exit

/-!
# Transactions and sleeplocks of threads that have ended

`log.outstanding` counts the threads between `begin_op` and `end_op`, and a locked
sleeplock is one that some thread has to release. `exit` makes its siblings
`ZOMBIE` wherever they are suspended, without a look at what they hold.
`HoldInv` is what is true when it finds none that holds anything.
-/

set_option linter.unusedSectionVars false

namespace Xv6.Kernel

open Xv6.Fs (Log)

variable {Cpu : Type} [DecidableEq Cpu] {s s' : Sys Cpu} {a : Act Cpu} {c : Cpu}
  {r x : ThreadPtr}

/-- The threads between their `begin_op` and their `end_op`. -/
def Sys.inops (s : Sys Cpu) : Finset ThreadPtr :=
  Finset.univ.filter fun x => (s.thread x).inop = true

@[simp] theorem Sys.mem_inops : x ∈ s.inops ↔ (s.thread x).inop = true := by
  simp [Sys.inops]

-- the unifier would enumerate the 1024 slots
attribute [irreducible] Sys.inops

/-- `exit` marks no thread that is in a transaction or has a sleeplock, and `wait`
reaps threads that have ended. -/
def holdOk (s : Sys Cpu) (a : Act Cpu) : Prop :=
  forkOk s a ∧ ∀ r ∈ s.acting a,
    (∀ x, s.ExitMarks r x → (s.thread x).inop = false ∧ (s.thread x).locks = []) ∧
    ∀ x, s.Reaps r x → (s.thread x).state.dead = true

instance (s : Sys Cpu) (a : Act Cpu) : Decidable (holdOk s a) := by
  unfold holdOk; infer_instance

/-- What threads hold, and what the log and the sleeplocks say about it. -/
structure HoldInv (s : Sys Cpu) : Prop where
  clean : ∀ {x}, (s.thread x).state.dead = true ∨ (s.thread x).pc.inFs = false →
    (s.thread x).held = (false, [])
  begin : ∀ {x k}, (s.thread x).pc = .beginOp k → (s.thread x).inop = false
  count : s.log.outstanding = s.inops.card
  lock : ∀ {l}, (s.sleeplock l).locked = true → ∃ x, l ∈ (s.thread x).locks

/-! ## §1  One thread -/

theorem HoldInv.clean_passive (hI : HoldInv s) (h : Inv s) (hg : holdOk s a)
    (hx : Passive s a s' x) (hc : (s'.thread x).state.dead = true ∨
      (s'.thread x).pc.inFs = false) : (s'.thread x).held = (false, []) := by
  rcases hx.holdings with e | ⟨_, e⟩
  swap
  · exact e
  rw [e]
  cases hx with
  | keep _ e =>
      rw [e] at hc
      exact hI.clean hc
  | wake _ _ _ _ _ e | killWake _ _ _ e | execWake _ _ _ e | dispatch _ _ e =>
      rw [e] at hc
      exact hI.clean (hc.imp nofun id)
  | mark _ hr hk =>
      obtain ⟨hi, hl⟩ := (hg.2 _ hr).1 x hk
      exact Prod.ext hi hl
  | reap hr hk => exact hI.clean (.inl ((hg.2 _ hr).2 x hk))
  | create _ _ hs | fork _ _ hs => exact hI.clean (.inl (by rw [hs]; rfl))
  | stack hs | drop hs => exact hI.clean (.inr (by rw [h.slot.embryo hs]; rfl))
  | publish hs => exact hI.clean (.inr (by rw [h.slot.embryo hs.1]; rfl))
  | handOff hr hk hw =>
      refine hI.clean (.inr ?_)
      rw [(h.woken_of_handsOff hr hk hw).2.1]
      rfl

/-- A thread that goes to sleep or yields stays in file system code, or was not
in it. -/
theorem Leaving.inFs {t : Thread} {st : States} {ch : Chan} {k : Resume} {pc' : Pc}
    (h : Leaving r t st ch k pc') (hc : st.dead = true ∨ pc'.inFs = false) :
    t.pc.inFs = false := by
  cases h with
  | sleep h =>
      have hc := hc.resolve_left nofun
      generalize t.pc = pc at h
      cases h <;> first | rfl | cases hc
  | yield h _ =>
      have hc := hc.resolve_left nofun
      generalize t.pc = pc at h
      cases h with
      | user => rfl
      | kernel => exact hc
  | mutex h | final h | gap h => rw [h]; rfl

theorem HoldInv.clean_active (hI : HoldInv s) (h : Inv s) (hr : s.cpu c = .run r)
    (hx : Active s a s' r) (hc : (s'.thread r).state.dead = true ∨
      (s'.thread r).pc.inFs = false) : (s'.thread r).held = (false, []) := by
  -- a thread at one of these program points is `RUNNING`, and stays in the code
  have hno : ∀ {pc pc' : Pc}, (s.thread r).pc = pc → pc ≠ .kthreadExitSched →
      (s'.thread r).state = (s.thread r).state → (s'.thread r).pc = pc' →
      pc'.inFs = true → (s'.thread r).held = (false, []) := by
    intro pc pc' e hne hs e' hfs
    rw [e', hs, h.running hr (by rw [e]; exact hne), hfs] at hc
    rcases hc with hc | hc <;> cases hc
  cases hx with
  | goOn pc' _ hgo e =>
      rw [e] at hc ⊢
      by_cases hfs : (s.thread r).pc.inFs = true
      · rcases hc with hd | hfs'
        · exact hI.clean (.inl hd)
        · obtain ⟨hi, hl⟩ := hgo.fs hfs hfs'
          exact Prod.ext hi hl
      · exact hI.clean (.inr (Bool.eq_false_iff.mpr hfs))
  | own hpc _ e | block hpc e | die hpc e =>
      rw [e]
      exact hI.clean (.inr (by rw [hpc]; rfl))
  | beginOp hpc e | acquire hpc e =>
      exact hno hpc nofun (by rw [e]) (congrArg Thread.pc e) rfl
  | endOp hpc _ _ e => exact hno hpc nofun (by rw [e]) (congrArg Thread.pc e) rfl
  | release hpc _ e =>
      exact hno hpc nofun (by rw [e]) ((congrArg Thread.pc e).trans hpc) rfl
  | exitWait _ hpc _ e =>
      rw [e]
      exact hI.clean (.inr (by rcases hpc with e | ⟨_, e⟩ <;> rw [e] <;> rfl))
  | exitClose hle =>
      rw [hle.thread]
      exact hI.clean (.inr (by rcases hle.old with e | ⟨_, e⟩ <;> rw [e] <;> rfl))
  | leave hle e =>
      rw [e] at hc ⊢
      exact hI.clean (.inr (hle.inFs hc))

/-- A transaction is not begun twice. -/
theorem HoldInv.begin_step (hI : HoldInv s) (h : Inv s) (hg : holdOk s a)
    (hc : Change s a s') (hp : s'.panicked = none) {k : After}
    (hpc : (s'.thread x).pc = .beginOp k) : (s'.thread x).inop = false := by
  have hno : ∀ {pc : Pc} {P : Prop}, (s'.thread x).pc = pc →
      (∀ k, pc ≠ .beginOp k) → P := by
    intro pc P e hne
    exact absurd (e.symm.trans hpc) (hne k)
  rcases hc.effect h hp x with hx | ⟨_, hx⟩
  · cases hx with
    | keep _ e | wake _ _ _ _ _ e | killWake _ _ _ e | execWake _ _ _ e
    | mark _ _ _ e | stack _ e | drop _ _ e | publish _ e | handOff _ _ _ e
    | dispatch _ _ e =>
        rw [e] at hpc ⊢
        exact hI.begin hpc
    | create _ _ _ e | fork _ _ _ e => rw [e]
    | reap hr hk _ _ hi =>
        rw [hi]
        exact congrArg Prod.fst (hI.clean (.inl ((hg.2 _ hr).2 x hk)))
  · cases hx with
    | goOn pc' _ hgo e =>
        rw [e] at hpc ⊢
        exact hgo.begin k hpc
    | own _ _ e | block _ e | beginOp _ e | endOp _ _ _ e | acquire _ e | die _ e
    | exitWait _ _ _ e => exact hno (congrArg Thread.pc e) nofun
    | release _ _ e =>
        rw [e] at hpc ⊢
        exact hI.begin hpc
    | exitClose hle => exact hno (congrArg Thread.pc hle.thread) nofun
    | leave hle e =>
        rw [e] at hpc ⊢
        refine hI.begin (k := k) ?_
        cases hle with
        | sleep hsl =>
            generalize (s.thread x).pc = pc at hsl
            cases hsl <;> first | exact hpc | cases hpc
        | yield hy =>
            generalize (s.thread x).pc = pc at hy
            cases hy with
            | user => cases hpc
            | kernel => exact hpc
        | mutex | final | gap => cases hpc

/-! ## §2  The log and the sleeplocks -/

/-- At most one thread acts on the log and the sleeplocks. -/
theorem Change.store (h : Inv s) (hc : Change s a s') (hp : s'.panicked = none) :
    (s'.log = s.log ∧ s'.sleeplock = s.sleeplock ∧ ∀ x, Passive s a s' x) ∨
    ∃ r, StoreEffect s r s' ∧ ∀ x, x ≠ r → Passive s a s' x := by
  cases hc with
  | wakeup n _ =>
      exact .inl ⟨rfl, rfl, fun x => .of_wakeup1 (.other n) nofun nofun rfl rfl rfl⟩
  | sched _ =>
      refine .inl ⟨?_, ?_, fun x => .of_scheduler⟩
      · unfold Sys.scheduler
        split <;> rfl
      · unfold Sys.scheduler
        split <;> rfl
  | run hr hs => exact .inr ⟨_, hs.store h hr hp, fun x hx => hs.passive h hr hp hx⟩
  | junk _ => cases hp

/-- A thread that does not act holds what it held. -/
theorem HoldInv.held_passive (hI : HoldInv s) (hx : Passive s a s' x) :
    (s'.thread x).held = (s.thread x).held := by
  rcases hx.holdings with e | ⟨hs, e⟩
  · exact e
  · rw [e, hI.clean (.inl (by rw [hs]; rfl))]

/-- The threads in a transaction after a step in which only `r` acts. -/
theorem Sys.inops_of (hh : ∀ x, x ≠ r → (s'.thread x).held = (s.thread x).held) :
    s'.inops.erase r = s.inops.erase r := by
  ext x
  simp only [Finset.mem_erase, Sys.mem_inops]
  refine and_congr_right fun hx => ?_
  rw [show (s'.thread x).inop = (s.thread x).inop from congrArg Prod.fst (hh x hx)]

theorem Sys.inops_of_same
    (hh : ∀ x, x ≠ r → (s'.thread x).held = (s.thread x).held)
    (hi : (s'.thread r).inop = (s.thread r).inop) : s'.inops = s.inops := by
  ext x
  simp only [Sys.mem_inops]
  by_cases hx : x = r
  · rw [hx, hi]
  · rw [show (s'.thread x).inop = (s.thread x).inop from congrArg Prod.fst (hh x hx)]

/-- `r` enters a transaction. -/
theorem Sys.card_inops_of_begin
    (hh : ∀ x, x ≠ r → (s'.thread x).held = (s.thread x).held)
    (hi : (s.thread r).inop = false) (hi' : (s'.thread r).inop = true) :
    s'.inops.card = s.inops.card + 1 := by
  have hr : r ∉ s.inops := by simp [hi]
  have hr' : r ∈ s'.inops := by simp [hi']
  calc s'.inops.card = (s'.inops.erase r).card + 1 :=
        (Finset.card_erase_add_one hr').symm
    _ = (s.inops.erase r).card + 1 := by rw [Sys.inops_of hh]
    _ = s.inops.card + 1 := by rw [Finset.erase_eq_of_notMem hr]

theorem HoldInv.count_step (hI : HoldInv s) (h : Inv s) (hc : Change s a s')
    (hp : s'.panicked = none) : s'.log.outstanding = s'.inops.card := by
  have hcount := hI.count
  rcases hc.store h hp with ⟨hl, _, hx⟩ | ⟨r, hst, hx⟩
  · rw [hl, hcount, Sys.inops_of_same (r := (0, 0)) (fun x _ => hI.held_passive (hx x))
      (congrArg Prod.fst (hI.held_passive (hx (0, 0))))]
  · have hh : ∀ x, x ≠ r → (s'.thread x).held = (s.thread x).held := fun x hne =>
      hI.held_passive (hx x hne)
    cases hst with
    | keep hl _ _ e | claim hl _ _ e =>
        rw [hl, hcount, Sys.inops_of_same hh (congrArg Prod.fst e)]
    | record b _ _ hl _ _ e =>
        have ho : (s.log.record b).outstanding = s.log.outstanding := by
          unfold Log.record
          split <;> rfl
        rw [hl, ho, hcount, Sys.inops_of_same hh (congrArg Prod.fst e)]
    | commit _ hl _ _ e =>
        rw [hl, Sys.inops_of_same hh (congrArg Prod.fst e)]
        exact hcount
    | take _ _ hl _ _ e | release _ _ hl _ _ e =>
        have hi : (s'.thread r).inop = (s.thread r).inop := congrArg Prod.fst e
        rw [hl, hcount, Sys.inops_of_same hh hi]
    | beginOp hpc _ hl _ _ e =>
        have hi' : (s'.thread r).inop = true := congrArg Prod.fst e
        have := Sys.card_inops_of_begin hh (hI.begin hpc) hi'
        rw [hl, this]
        show s.log.outstanding + 1 = _
        rw [hcount]
        rfl
    | endOp _ hi _ hl _ _ e =>
        have hi' : (s'.thread r).inop = false := congrArg Prod.fst e
        have := Sys.card_inops_of_begin (fun x hne => (hh x hne).symm) hi' hi
        rw [hl]
        show s.log.outstanding - 1 = _
        omega

theorem HoldInv.lock_step (hI : HoldInv s) (h : Inv s) (hc : Change s a s')
    (hp : s'.panicked = none) {l : ℕ} (hl : (s'.sleeplock l).locked = true) :
    ∃ x, l ∈ (s'.thread x).locks := by
  rcases hc.store h hp with ⟨_, hk, hx⟩ | ⟨r, hst, hx⟩
  · rw [hk] at hl
    obtain ⟨x, hm⟩ := hI.lock hl
    refine ⟨x, ?_⟩
    rw [show (s'.thread x).locks = _ from congrArg Prod.snd (hI.held_passive (hx x))]
    exact hm
  · -- the holder keeps the lock, unless it is the thread that acts
    have hkeep : ∀ {l : ℕ}, (s.sleeplock l).locked = true →
        (l ∈ (s.thread r).locks → l ∈ (s'.thread r).locks) →
        ∃ x, l ∈ (s'.thread x).locks := by
      intro l hl hr
      obtain ⟨x, hm⟩ := hI.lock hl
      by_cases hxr : x = r
      · exact ⟨r, hr (hxr ▸ hm)⟩
      · refine ⟨x, ?_⟩
        rw [show (s'.thread x).locks = _ from
          congrArg Prod.snd (hI.held_passive (hx x hxr))]
        exact hm
    cases hst with
    | keep _ hk _ e | claim _ hk _ e | record _ _ _ _ hk _ e | commit _ _ hk _ e =>
        rw [hk] at hl
        refine hkeep hl fun hm => ?_
        rw [show (s'.thread r).locks = _ from congrArg Prod.snd e]
        exact hm
    | beginOp _ _ _ hk _ e | endOp _ _ _ _ hk _ e =>
        rw [hk] at hl
        refine hkeep hl fun hm => ?_
        rw [show (s'.thread r).locks = _ from congrArg Prod.snd e]
        exact hm
    | @take l' _ _ _ _ hk _ e =>
        have e : (s'.thread r).locks = l' :: (s.thread r).locks := congrArg Prod.snd e
        by_cases hll : l = l'
        · exact ⟨r, by rw [e, hll]; exact List.mem_cons_self⟩
        · rw [hk, Function.update_of_ne hll] at hl
          exact hkeep hl fun hm => by rw [e]; exact List.mem_cons_of_mem _ hm
    | @release l' _ _ _ _ hk _ e =>
        have e : (s'.thread r).locks = (s.thread r).locks.erase l' :=
          congrArg Prod.snd e
        by_cases hll : l = l'
        · rw [hk, hll, Function.update_self] at hl
          cases hl
        · rw [hk, Function.update_of_ne hll] at hl
          refine hkeep hl fun hm => ?_
          rw [e]
          exact (List.mem_erase_of_ne hll).mpr hm

theorem HoldInv.step (hI : HoldInv s) (h : Inv s) (hg : holdOk s a)
    (hc : Change s a s') (hp : s'.panicked = none) : HoldInv s' where
  clean {x} hx := by
    rcases hc.effect h hp x with hpas | ⟨⟨c, hr⟩, hact⟩
    · exact hI.clean_passive h hg hpas hx
    · exact hI.clean_active h hr hact hx
  begin hpc := hI.begin_step h hg hc hp hpc
  count := hI.count_step h hc hp
  lock hl := hI.lock_step h hc hp hl

theorem Initial.holdInv (hi : Initial s) : HoldInv s := by
  have hheld : ∀ x, (s.thread x).held = (false, []) := by
    intro x
    rcases hi.free_or_fresh x with hf | hf
    · exact Prod.ext hf.inop hf.locks
    · exact Prod.ext hf.inop hf.locks
  refine ⟨fun _ => hheld _, fun _ => congrArg Prod.fst (hheld _), ?_, fun {l} hl => ?_⟩
  · have hnone : s.inops = ∅ := by
      ext x
      simp only [Sys.mem_inops, Finset.notMem_empty, iff_false, Bool.not_eq_true]
      exact congrArg Prod.fst (hheld x)
    rw [hi.log, hnone]
    rfl
  · rw [hi.sleeplock l] at hl
    cases hl

theorem holdInv_of_reach (h : (kernel Cpu).Reach holdOk s)
    (hp : s.panicked = none) : HoldInv s :=
  invariant_of_reach (fun _ _ hg => hg.1) (fun _ hi => hi.holdInv)
    (fun _ _ _ h hI hg hc hp' => hI.step h hg hc hp') h hp

/-- Thread (0, 0) is in a transaction and has sleeplock 3. -/
def lockedRun : List (Act (Fin 2)) :=
  Act.sched 0 :: call 0 .other ++ [Act.kern 0 .beginOp, .run 0, .kern 0 (.acquiresleep 3),
    .run 0]

/-- Thread (0, 0) waits for the disk there, and thread (0, 1) calls `exit`. -/
def heldRun : List (Act (Fin 2)) :=
  lockedRun ++ [Act.kern 0 (.sleep 7), .sched 0] ++ call 0 .exit ++ runs 0 1

end Xv6.Kernel
