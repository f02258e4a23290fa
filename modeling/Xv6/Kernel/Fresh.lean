import Xv6.Kernel.Waiting

/-!
# New threads and new processes

`allocthread` and `allocproc` take over what the last user of a slot has left in
it. The three reapers reset different fields: `kill_threads` keeps `killed` and
`chan`. `CleanInv` is what `allocthread` relies on, an invariant of the free
slots.
-/

set_option linter.unusedSectionVars false

namespace Xv6.Kernel

variable {Cpu : Type} [DecidableEq Cpu] {s s' : Sys Cpu} {a : Act Cpu} {c : Cpu}
  {r x : ThreadPtr} {p q : ProcId}

/-! ## §1  New threads -/

/-- Nothing is left of an earlier user of the slot. -/
def Thread.Clean (t : Thread) : Prop :=
  t.killed = false ∧ t.blocked = false ∧ t.chan = .null

/-- `exit` and `kill_threads` mark no thread that is under construction, and
`kill_threads` frees none with a flag or a channel. -/
def cleanOk (s : Sys Cpu) (a : Act Cpu) : Prop :=
  forkOk s a ∧ ∀ r ∈ s.acting a,
    (∀ x, s.Marks r x → (s.thread x).state ≠ .EMBRYO) ∧
    ((s.thread r).pc = .execWait → ∀ x, s.Reaps r x →
      (s.thread x).killed = false ∧ (s.thread x).chan = .null)

instance (s : Sys Cpu) (a : Act Cpu) : Decidable (cleanOk s a) := by
  unfold cleanOk; infer_instance

/-- Slots that are free or under construction have no flag and no channel. -/
def CleanInv (s : Sys Cpu) : Prop :=
  ∀ x, (s.thread x).state = .UNUSED ∨ (s.thread x).state = .EMBRYO →
    (s.thread x).killed = false ∧ (s.thread x).chan = .null

theorem CleanInv.step (hI : CleanInv s) (h : Inv s) (hg : cleanOk s a)
    (hc : Change s a s') (hp : s'.panicked = none) : CleanInv s' := by
  intro x hs
  rcases hc.effect h hp x with hx | ⟨⟨c, hr⟩, hx⟩
  · cases hx with
    | keep b e hb =>
        rw [e] at hs ⊢
        rcases hb with rfl | ⟨r, hr, hm⟩
        · exact hI x hs
        · rcases hs with hu | hE
          · exact absurd hu hm.2.2.1
          · exact absurd hE ((hg.2 r hr).1 x hm)
    | @reap r hr hk _ _ _ _ _ hc' _ =>
        rcases hc' with hclean | ⟨hpc, hkil, hch⟩
        · exact hclean
        · rw [hkil, hch]
          exact (hg.2 r hr).2 hpc x hk
    | create _ _ hu e | fork _ _ hu e =>
        rw [e]
        exact hI x (.inl hu)
    | stack hE e | drop hE _ e =>
        rw [e]
        exact hI x (.inr hE)
    | wake _ _ _ _ _ e | killWake _ _ _ e | execWake _ _ _ e | mark _ _ _ e
    | publish _ e | handOff _ _ _ e | dispatch _ _ e =>
        rw [e] at hs
        rcases hs with hs | hs <;> cases hs
  · have hpub := hx.published (h.present_of_run hr) (by
      rcases h.cpu.state hr with e | ⟨e, _⟩ <;> simp [e])
    exact (hs.elim hpub.1 hpub.2).elim

theorem cleanInv_of_reach (h : (kernel Cpu).Reach cleanOk s)
    (hp : s.panicked = none) : CleanInv s := by
  refine invariant_of_reach (fun _ _ hg => hg.1) (fun s hi x hs => ?_)
    (fun s a s' h hI hg hc hp' => hI.step h hg hc hp') h hp
  rcases hi.free_or_fresh x with hf | hf
  · exact ⟨hf.killed, hf.chan⟩
  · rw [hf.state] at hs
    rcases hs with hs | hs <;> cases hs

/-- If `exit` and `kill_threads` mark no thread under construction and
`kill_threads` frees only threads without a flag and a channel: every thread
that `allocthread` returns, to `kthread_create` or to `fork`, has `killed`,
`blocked` and `chan` clear. -/
theorem new_thread_clean (h : (kernel Cpu).Reach cleanOk s)
    (hp : s.panicked = none) (hr : s.Present r) :
    (∀ u, (s.thread r).pc = .createPublish u → (s.thread (r.1, u)).Ready ∧
      (s.thread (r.1, u)).Clean) ∧
    ∀ q, (s.thread r).pc = .forkCopy q → (s.thread (q, 0)).Ready ∧
      (s.thread (q, 0)).Clean := by
  have hinv := inv_of_reach (fun _ _ hg => hg.1) h hp
  have hclean : ∀ y, (s.thread y).Ready → (s.thread y).Clean := by
    intro y hy
    obtain ⟨hk, hch⟩ := cleanInv_of_reach h hp y (.inr hy.1)
    refine ⟨hk, Bool.eq_false_iff.mpr fun hb => ?_, hch⟩
    have := (hinv.mutex.blocked hb).2
    rw [hinv.slot.embryo hy.1] at this
    cases this
  have hfact := hinv.slot.fact hr
  constructor
  · intro u hpc
    rw [hpc] at hfact
    exact ⟨hfact, hclean _ hfact⟩
  · intro q hpc
    rw [hpc] at hfact
    exact ⟨hfact.2.2, hclean _ hfact.2.2⟩

/-- Thread (0, 0) has created thread (0, 1). -/
def createRun : List (Act (Fin 2)) :=
  Act.sched 0 :: call 0 .create ++ runs 0 1 ++ [Act.kalloc 0 true]

theorem new_thread_clean_create : ∃ s, (kernel (Fin 2)).Reach cleanOk s ∧
    s.Present (0, 0) ∧ (s.thread (0, 0)).pc = .createPublish 1 ∧
    (s.thread (0, 1)).Clean := by
  obtain ⟨s, hr, hp, hpr, hpc⟩ := boot_reach (single 1) cleanOk createRun
    (fun s => s.panicked = none ∧ s.Present (0, 0) ∧
      (s.thread (0, 0)).pc = .createPublish 1) (by decide +kernel)
  exact ⟨s, hr, hpr, hpc, ((new_thread_clean hr hp hpr).1 1 hpc).2⟩

/-- Thread (0, 0) calls `exec` beside thread (0, 1), which ends with its flag set;
then it creates a thread. -/
def execCreateRun : List (Act (Fin 2)) :=
  pairRun .other ++ call 1 .exec ++ runs 1 1 ++ Act.kern 0 (.done 0) :: runs 0 4 ++
    Act.sched 0 :: runs 1 2 ++ Act.kern 1 (.done 0) :: runs 1 4 ++ call 1 .create ++
    runs 1 1 ++ [Act.kalloc 1 true]

/-- The new thread has the `killed` flag of the one that `kill_threads` freed. -/
theorem new_thread_killed : ∃ s, (kernel (Fin 2)).Reach Lib.System.anyStep s ∧
    s.panicked = none ∧ s.Present (0, 0) ∧
    (s.thread (0, 0)).pc = .createPublish 1 ∧ (s.thread (0, 1)).Ready ∧
    (s.thread (0, 1)).killed = true :=
  boot_reach (single 2) _ execCreateRun _ (by decide +kernel)

end Xv6.Kernel
