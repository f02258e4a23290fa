import Xv6.Kernel.Preserve

/-!
# The scheduler, the reapers and the constructors preserve the invariant

`Inv.dispatch` puts a thread on a CPU. `Inv.frees` is what all reapers do:
zombies are freed, or a whole process is. The last part is about slots under
construction, in `kthread_create` and in `fork`.
-/

set_option linter.unusedSectionVars false

namespace Xv6.Kernel

variable {Cpu : Type} [DecidableEq Cpu] {s s' : Sys Cpu} {c : Cpu}
  {r : ThreadPtr}

/-! ## §1  The scheduler -/

theorem Sys.runnableFrom_some {p : ProcId} {k : ℕ} {t : Slot}
    (h : s.runnableFrom p k = some t) : (s.thread (p, t)).state = .RUNNABLE := by
  have := List.find?_some h
  simp only [Bool.and_eq_true, decide_eq_true_eq] at this
  exact this.2

theorem Sys.runnableProc_some {k : ℕ} (h : s.runnableProc k = some r) :
    (s.thread r).state = .RUNNABLE ∧ (s.proc r.1).state = .RUNNABLE := by
  obtain ⟨p, _, hp⟩ := List.exists_of_findSome?_eq_some h
  split at hp
  case isFalse => cases hp
  case isTrue hst =>
    obtain ⟨t, ht, rfl⟩ := Option.map_eq_some_iff.mp hp
    exact ⟨s.runnableFrom_some ht, hst.2⟩

/-- The thread the scheduler finds is `RUNNABLE`, and its process is
`RUNNABLE` or is the one whose slots are being scanned. -/
theorem Sys.pick_some {st : CpuState} (h : s.pick st = some r) :
    (s.thread r).state = .RUNNABLE ∧
      ((s.proc r.1).state = .RUNNABLE ∨ ∃ k, st = .scan r.1 k) := by
  cases st with
  | scan p k =>
      cases hf : s.runnableFrom p k with
      | some t =>
          simp only [Sys.pick, hf] at h
          cases h
          exact ⟨s.runnableFrom_some hf, .inr ⟨k, rfl⟩⟩
      | none =>
          simp only [Sys.pick, hf] at h
          exact ⟨(s.runnableProc_some h).1, .inl (s.runnableProc_some h).2⟩
  | idle | run _ | junk _ =>
      exact ⟨(s.runnableProc_some h).1, .inl (s.runnableProc_some h).2⟩

theorem Sys.dispatch_thread_self :
    (s.dispatch c r).thread r = (s.thread r).resumed := by
  simp [Sys.dispatch, Sys.setPState]

theorem Sys.dispatch_thread_ne {x : ThreadPtr} (hx : x ≠ r) :
    (s.dispatch c r).thread x = s.thread x := by
  simp [Sys.dispatch, Sys.setPState, hx]

theorem Sys.dispatch_proc (p : ProcId) : (s.dispatch c r).proc p =
    if p = r.1 then { s.proc r.1 with state := .RUNNING } else s.proc p := by
  simp [Sys.dispatch, Sys.setPState, Sys.setProc_proc]

theorem Sys.dispatch_cpu_self : (s.dispatch c r).cpu c =
    if (s.thread r).context = none then .junk r else .run r := by
  simp [Sys.dispatch]

theorem Sys.dispatch_cpu_ne {c' : Cpu} (hc : c' ≠ c) :
    (s.dispatch c r).cpu c' = s.cpu c' := by
  simp [Sys.dispatch, Sys.setPState, hc]

/-- A `RUNNABLE` thread is on no CPU. -/
theorem Inv.not_run_of_runnable (h : Inv s) (hr : (s.thread r).state = .RUNNABLE)
    (c : Cpu) : s.cpu c ≠ .run r := by
  intro hc
  rcases h.cpu.state hc with e | ⟨e, _⟩ <;> rw [hr] at e <;> cases e

theorem Thread.resumed_chan (t : Thread) :
    t.resumed.chan = .null ∨ t.resumed.chan = t.chan := by
  simp only [Thread.resumed]
  split
  · exact .inl rfl
  · exact .inr rfl

/-- A resumed waiter has no channel. -/
theorem Sys.MutexFact.resumed {pc : Pc} (h : s.MutexFact r pc)
    (hmt : pc.holdsMt = false) (hm : s'.mutex = s.mutex)
    (ht : s'.thread r = (s.thread r).resumed) : s'.MutexFact r pc := by
  cases pc <;> try trivial
  case mutexLockWoken i =>
    obtain ⟨_, hnull, hrec, _⟩ := h
    have hch : (s'.thread r).chan = .null := by
      rw [ht]
      by_cases hk : (s.thread r).context = some .sleep
      · simp [Thread.resumed, hk]
      · rcases (s.thread r).resumed_chan with e | e
        · exact e
        · exact e.trans (hnull hk)
    refine ⟨.inl hch, fun _ => hch, ?_, ?_⟩
    · rw [ht]
      simpa only [Sys.Recorded, hm, Thread.resumed] using hrec
    · rintro ⟨_, hw⟩
      rw [hch] at hw
      cases hw

theorem Inv.dispatch (h : Inv s) (hr : (s.thread r).state = .RUNNABLE)
    (hp : (s.proc r.1).Alive) (hc : ∀ x, s.cpu c ≠ .run x)
    (hl : s.PtFree c) : Inv (s.dispatch c r) := by
  have hpr : s.Present r := by simp [Sys.Present, hr]
  have hself := s.dispatch_thread_self (c := c) (r := r)
  have hproc : ∀ p, SoftProc (s.proc p) ((s.dispatch c r).proc p) := by
    intro p
    rw [Sys.dispatch_proc]
    split
    · subst_vars
      exact ⟨.inr ⟨hp, by simp, by simp⟩, id⟩
    · exact SoftProc.refl _
  have hloc : Local s (s.dispatch c r) c r :=
    ⟨fun c' hc' => absurd hc' (h.not_run_of_runnable hr c'),
      fun x hx => absurd hx (hc x), hp, hpr, by simp [hr],
      fun x hx => Sys.dispatch_thread_ne hx, fun c' hc' => Sys.dispatch_cpu_ne hc',
      hproc, .inr hl, .inl rfl⟩
  have hmt : (s.thread r).pc.holdsMt = false := by
    cases hm : (s.thread r).pc.holdsMt with
    | false => rfl
    | true =>
        obtain ⟨c', hc', _⟩ := h.cpu.mt hpr hm
        exact absurd hc' (h.not_run_of_runnable hr c')
  have hpt : (s.thread r).pc.holdsPt = true →
      (s.thread r).context = none ∨ (s.thread r).context = some .sleepHeld := by
    intro hp
    cases hk : (s.thread r).context with
    | none => exact .inl rfl
    | some k => exact .inr (congrArg some (h.cpu.held hpr hk hp))
  refine ⟨h.cpu.act hloc ?_, h.slot.act hloc ?_,
    MutexInv.act h hloc (by simp [Sys.Present, hself, Thread.resumed]) ?_⟩
  · by_cases hk : (s.thread r).context = none
    · refine .inr ⟨.inr ?_, ?_, ?_⟩
      · rw [Sys.dispatch_cpu_self, if_pos hk]
      · rwa [hself]
      · rw [hself]
        exact fun k _ hk => by cases hk
    · refine .inl ⟨?_, ?_, .inl ?_, ?_, ?_⟩
      · rw [Sys.dispatch_cpu_self, if_neg hk]
      · rw [hself]; rfl
      · rw [hself]; rfl
      · rw [hself]
        exact fun e => absurd (hmt.symm.trans e) (by decide)
      · rw [hself]
        intro e
        simp [Sys.dispatch, (hpt e).resolve_left hk]
  · refine .of_same h.slot hloc ?_ ?_ ?_ ?_ (.inr ?_) (.inr ?_)
    · simp [Sys.Present, hself, Thread.resumed]
    · simp [hself, Thread.resumed]
    · rw [hself]; rfl
    · rw [hself]
      exact hloc.slotFact (h.slot.fact hpr)
    · rw [hself]; rfl
    · rw [hself]; rfl
  · have hw : ∀ i, (s.dispatch c r).Waits r i → s.Waits r i := by
      rintro i ⟨hb, hi⟩
      rw [hself] at hb hi
      rcases (s.thread r).resumed_chan with e | e <;> rw [e] at hi
      · cases hi
      · exact ⟨hb, hi⟩
    refine ⟨rfl, ?_, ?_, ?_, ?_, ?_, fun i hi => .inl (hw i hi), ?_⟩
    · intro p
      rw [Sys.dispatch_proc]
      split
      · subst_vars; rfl
      · rfl
    · rw [hself]; rfl
    · rw [hself]; rfl
    · rw [hself]
      exact fun hb => (h.mutex.blocked hb).2
    · rw [hself]
      exact fun i hi => hi
    · have hpc : ((s.dispatch c r).thread r).pc = (s.thread r).pc := by
        rw [hself]; rfl
      rw [hpc]
      exact (h.mutex.fact hpr).resumed hmt rfl hself

/-- The scheduler finds nothing. -/
theorem Inv.idle (h : Inv s) (hc : ∀ x, s.cpu c ≠ .run x) (hl : s.PtFree c) :
    Inv { s.setCpu c .idle with ptlock := none } := by
  have hrun : ∀ c' x, (s.setCpu c .idle).cpu c' = .run x →
      c' ≠ c ∧ s.cpu c' = .run x := by
    intro c' x hx
    by_cases hcc : c' = c
    · subst hcc
      rw [Sys.setCpu_self] at hx
      cases hx
    · rw [Sys.setCpu_ne _ _ _ hcc] at hx
      exact ⟨hcc, hx⟩
  have hpt : ∀ c', c' ≠ c → s.ptlock ≠ some c' := by
    intro c' hcc hp
    rcases hl with e | e <;> rw [e] at hp <;> cases hp
    exact hcc rfl
  refine ⟨⟨fun hx => h.cpu.context (hrun _ _ hx).2,
    fun h₁ h₂ => h.cpu.unique (hrun _ _ h₁).2 (hrun _ _ h₂).2,
    fun hx => h.cpu.state (hrun _ _ hx).2, fun hx => h.cpu.alive (hrun _ _ hx).2,
    ?_, ?_, ?_, h.cpu.held⟩,
    ⟨h.slot.tid, h.slot.embryo, h.slot.unused, h.slot.orphan, h.slot.fact,
      h.slot.createUnique, h.slot.forkUnique⟩,
    ⟨h.mutex.owner, h.mutex.alloc, h.mutex.tid, h.mutex.holds,
      h.mutex.blocked, h.mutex.fact⟩⟩
  · intro x hx hp
    obtain ⟨c', hc', hm⟩ := h.cpu.mt hx hp
    have hcc : c' ≠ c := fun e => hc x (e ▸ hc')
    exact ⟨c', (Sys.setCpu_ne s c _ hcc).trans hc', hm⟩
  · intro c' x hx hp
    exact absurd (h.cpu.pt (hrun _ _ hx).2 hp) (hpt c' (hrun _ _ hx).1)
  · intro c' p k hx
    by_cases hcc : c' = c
    · subst hcc
      have := (Sys.setCpu_self s c' .idle).symm.trans hx
      cases this
    · have hx' := (Sys.setCpu_ne s c .idle hcc).symm.trans hx
      exact absurd (h.cpu.scan hx').1 (hpt c' hcc)

/-- The scheduler looks at processes that are there. -/
theorem Inv.alive_of_pick (h : Inv s) (hr : s.pick (s.cpu c) = some r) :
    (s.proc r.1).Alive := by
  rcases (s.pick_some hr).2 with hp | ⟨k, hk⟩
  · exact ⟨by simp [hp], by simp [hp]⟩
  · exact (h.cpu.scan hk).2

theorem Inv.scheduler (h : Inv s) (hc : s.cpu c = .idle ∧ s.ptlock = none ∨
    (∃ p k, s.cpu c = .scan p k) ∧ s.ptlock = some c) :
    Inv (s.scheduler c) := by
  have hl : s.PtFree c := hc.imp And.right And.right
  have hnr : ∀ x, s.cpu c ≠ .run x := by
    rintro x hx
    rcases hc with ⟨e, _⟩ | ⟨⟨p, k, e⟩, _⟩ <;> rw [hx] at e <;> cases e
  unfold Sys.scheduler
  split
  case h_2 => exact h.idle hnr hl
  case h_1 r hr =>
    exact h.dispatch (s.pick_some hr).1 (h.alive_of_pick hr) hnr hl

/-! ## §2  The reapers -/

/-- The slots in `F` are freed and the processes in `V` are vacated. A slot
that is freed was `ZOMBIE`, or its whole process goes. -/
structure Frees (s s' : Sys Cpu) (F : ThreadPtr → Prop) (V : ProcId → Prop) :
    Prop where
  thread : ∀ x, ¬ F x → s'.thread x = s.thread x
  gone : ∀ x, F x → (s'.thread x).state = .UNUSED ∧
    (s'.thread x).blocked = false
  run : ∀ c x, s'.cpu c = .run x ↔ s.cpu c = .run x ∧ ¬ F x
  scan : ∀ c p k, s'.cpu c = .scan p k → s.cpu c = .scan p k ∧ ¬ V p
  mutex : s'.mutex = s.mutex
  ptlock : s'.ptlock = s.ptlock
  mtlock : s'.mtlock = s.mtlock
  proc : ∀ p, ¬ V p → s'.proc p = s.proc p
  vacant : ∀ p, V p → (s'.proc p).state = .UNUSED ∧ (s'.proc p).parent = none
  mid : ∀ p, V p → ∀ i, (s'.proc p).mid i = true → (s.proc p).mid i = true ∧
    ∀ t, s.Present (p, t) → (s.thread (p, t)).pc ≠ .mutexDeallocClear i
  all : ∀ x, V x.1 → s.Present x → F x
  unclaimed : ∀ p, V p → ∀ x, s.Present x → (s.thread x).pc.forks ≠ some p
  zombie : ∀ x, F x → V x.1 ∨ (s.thread x).state = .ZOMBIE

namespace Frees

variable {F : ThreadPtr → Prop} {V : ProcId → Prop} (hf : Frees s s' F V)
include hf

theorem present {x : ThreadPtr} (hx : s'.Present x) : s.Present x ∧ ¬ F x := by
  have hn : ¬ F x := fun e => hx (hf.gone x e).1
  rw [Sys.Present, hf.thread x hn] at hx
  exact ⟨hx, hn⟩

theorem unused {x : ThreadPtr} (hx : (s.thread x).state = .UNUSED) :
    (s'.thread x).state = .UNUSED := by
  by_cases hn : F x
  · exact (hf.gone x hn).1
  · rwa [hf.thread x hn]

/-- A process with a thread left is not vacated. -/
theorem not_vacated {x : ThreadPtr} (hx : s.Present x) (hn : ¬ F x) :
    ¬ V x.1 := fun hv => hn (hf.all x hv hx)

theorem mid_of {p : ProcId} {i : MutexId} (h : (s'.proc p).mid i = true) :
    (s.proc p).mid i = true := by
  by_cases hv : V p
  · exact (hf.mid p hv i h).1
  · rwa [hf.proc p hv] at h

theorem waits {x : ThreadPtr} {i : MutexId} (h : s'.Waits x i) :
    s.Waits x i := by
  have hn : ¬ F x := fun e => by
    have := (hf.gone x e).2.symm.trans h.1
    cases this
  rwa [Sys.Waits, hf.thread x hn] at h

end Frees

/-- Nobody who runs, and nobody who holds `mtable.lock`, is a `ZOMBIE` outside
the window of `kthread_exit`. -/
theorem Inv.not_clear_of_zombie (h : Inv s) (hz : (s.thread r).state = .ZOMBIE)
    (i : MutexId) : (s.thread r).pc ≠ .mutexDeallocClear i := by
  intro hpc
  obtain ⟨c, hc, _⟩ := h.cpu.mt (r := r) (by simp [Sys.Present, hz])
    (by rw [hpc]; rfl)
  have := h.running hc (by rw [hpc]; simp)
  rw [hz] at this
  cases this

theorem Inv.frees {F : ThreadPtr → Prop} {V : ProcId → Prop} (h : Inv s)
    (hf : Frees s s' F V) : Inv s' where
  cpu := {
    context := fun {c x} hx => by
      obtain ⟨hx, hn⟩ := (hf.run c x).mp hx
      rw [hf.thread x hn]
      exact h.cpu.context hx
    unique := fun {c c' x} h₁ h₂ =>
      h.cpu.unique ((hf.run c x).mp h₁).1 ((hf.run c' x).mp h₂).1
    state := fun {c x} hx => by
      obtain ⟨hx, hn⟩ := (hf.run c x).mp hx
      rw [hf.thread x hn]
      exact h.cpu.state hx
    alive := fun {c x} hx => by
      obtain ⟨hx, hn⟩ := (hf.run c x).mp hx
      rw [hf.proc _ (hf.not_vacated (h.present_of_run hx) hn)]
      exact h.cpu.alive hx
    mt := fun {x} hx hp => by
      obtain ⟨hx, hn⟩ := hf.present hx
      rw [hf.thread x hn] at hp
      obtain ⟨c, hc, hm⟩ := h.cpu.mt hx hp
      exact ⟨c, (hf.run c x).mpr ⟨hc, hn⟩, hf.mtlock.trans hm⟩
    pt := fun {c x} hx hp => by
      obtain ⟨hx, hn⟩ := (hf.run c x).mp hx
      rw [hf.thread x hn] at hp
      exact hf.ptlock.trans (h.cpu.pt hx hp)
    scan := fun {c p k} hx => by
      obtain ⟨hx, hv⟩ := hf.scan c p k hx
      rw [hf.ptlock, hf.proc p hv]
      exact h.cpu.scan hx
    held := fun {x k} hx hk hp => by
      obtain ⟨hx, hn⟩ := hf.present hx
      rw [hf.thread x hn] at hk hp
      exact h.cpu.held hx hk hp }
  slot := {
    tid := fun {x} hx => by
      obtain ⟨hx, hn⟩ := hf.present hx
      rw [hf.thread x hn]
      exact h.slot.tid hx
    embryo := fun {x} hx => by
      have hn : ¬ F x := fun e => by
        rw [(hf.gone x e).1] at hx
        cases hx
      rw [hf.thread x hn] at hx ⊢
      exact h.slot.embryo hx
    unused := fun {p} hp t _ => by
      by_cases hv : V p
      · by_cases hx : (s.thread (p, t)).state = .UNUSED
        · exact hf.unused hx
        · exact (hf.gone _ (hf.all (p, t) hv hx)).1
      · rw [hf.proc p hv] at hp
        exact hf.unused (h.slot.unused hp t List.not_mem_nil)
    orphan := fun {p} hp => by
      by_cases hv : V p
      · exact (hf.vacant p hv).2
      · rw [hf.proc p hv] at hp ⊢
        exact h.slot.orphan hp
    fact := fun {x} hx => by
      obtain ⟨hx, hn⟩ := hf.present hx
      rw [hf.thread x hn]
      -- the slots and processes that a living thread constructs stay
      refine (h.slot.fact hx).mono (fun y hy he => ?_) (fun y _ => hf.unused)
        fun q hq hp => ?_
      · have hyn : ¬ F y := by
          intro e
          rcases hf.zombie y e with hv | hz
          · rcases hy with ⟨hy, _⟩ | hy
            · exact hf.not_vacated hx hn (hy ▸ hv)
            · exact hf.unclaimed _ hv x hx hy
          · rw [he] at hz
            cases hz
        rw [hf.thread y hyn]
        exact ⟨he, rfl⟩
      · have hv : ¬ V q := fun hv => hf.unclaimed q hv x hx hq
        rwa [hf.proc q hv]
    createUnique := fun {p t t' u} h₁ h₂ h₃ h₄ => by
      obtain ⟨h₁, n₁⟩ := hf.present h₁
      obtain ⟨h₂, n₂⟩ := hf.present h₂
      rw [hf.thread _ n₁] at h₃
      rw [hf.thread _ n₂] at h₄
      exact h.slot.createUnique h₁ h₂ h₃ h₄
    forkUnique := fun {x y q} h₁ h₂ h₃ h₄ => by
      obtain ⟨h₁, n₁⟩ := hf.present h₁
      obtain ⟨h₂, n₂⟩ := hf.present h₂
      rw [hf.thread _ n₁] at h₃
      rw [hf.thread _ n₂] at h₄
      exact h.slot.forkUnique h₁ h₂ h₃ h₄ }
  mutex := {
    owner := fun {p i} hi => by
      rw [hf.mutex]
      exact h.mutex.owner (hf.mid_of hi)
    alloc := fun {p i} hi ha => by
      rw [hf.mutex] at ha
      obtain ⟨t, ht, hpc⟩ := h.mutex.alloc (hf.mid_of hi) ha
      have hn : ¬ F (p, t) := by
        intro e
        rcases hf.zombie _ e with hv | hz
        · exact (hf.mid p hv i hi).2 t ht hpc
        · exact h.not_clear_of_zombie hz i hpc
      rw [← hf.thread _ hn] at hpc
      refine ⟨t, ?_, hpc⟩
      rwa [Sys.Present, hf.thread _ hn]
    tid := fun {i} hi => by
      rw [hf.mutex] at hi ⊢
      exact h.mutex.tid hi
    holds := fun {x i} hx hi => by
      obtain ⟨hx, hn⟩ := hf.present hx
      rw [hf.thread x hn] at hi
      simpa only [Sys.Recorded, hf.mutex] using h.mutex.holds hx hi
    blocked := fun {x} hx => by
      have hn : ¬ F x := fun e => by
        have := (hf.gone x e).2.symm.trans hx
        cases this
      rw [Sys.Present, hf.thread x hn] at *
      exact h.mutex.blocked hx
    fact := fun {x} hx => by
      obtain ⟨hx, hn⟩ := hf.present hx
      have hxt := hf.thread x hn
      rw [hxt]
      refine (h.mutex.fact hx).congr hf.mutex ?_ (by rw [hxt])
        (fun e => hxt ▸ e) (by rw [hxt]) fun _ u i => hf.waits
      rw [hf.proc _ (hf.not_vacated hx hn)] }

/-! ## §3  The reapers of the source -/

section Freed

variable (s) (p : ProcId) (F : Slot → Prop) [DecidablePred F]
  (f : Thread → Thread)

theorem Sys.freed_of {x : ThreadPtr} (hx : x.1 = p ∧ F x.2) :
    (s.freed p F f).thread x = f (s.thread x) := if_pos hx

theorem Sys.freed_of_not {x : ThreadPtr} (hx : ¬ (x.1 = p ∧ F x.2)) :
    (s.freed p F f).thread x = s.thread x := if_neg hx

theorem Sys.freed_run (c : Cpu) (x : ThreadPtr) :
    (s.freed p F f).cpu c = .run x ↔
      s.cpu c = .run x ∧ ¬ (x.1 = p ∧ F x.2) := by
  simp only [Sys.freed]
  cases hc : s.cpu c with
  | run y =>
      simp only [CpuState.run.injEq]
      split
      case isTrue hy =>
        simp only [reduceCtorEq, false_iff]
        rintro ⟨rfl, hn⟩
        exact hn hy
      case isFalse hy =>
        constructor
        · rintro ⟨⟩
          exact ⟨rfl, hy⟩
        · rintro ⟨rfl, _⟩
          rfl
  | idle | scan _ _ | junk _ => simp

theorem Sys.freed_scan (c : Cpu) (q : ProcId) (k : ℕ)
    (h : (s.freed p F f).cpu c = .scan q k) : s.cpu c = .scan q k := by
  simp only [Sys.freed] at h
  cases hc : s.cpu c with
  | run y =>
      simp only [hc] at h
      split at h <;> cases h
  | idle | scan _ _ | junk _ => simpa only [hc] using h

theorem Sys.freed_goto_of_not (pc : Pc) (x : ThreadPtr)
    (hx : ¬ (x.1 = p ∧ F x.2)) :
    ((s.freed p F f).goto r pc).thread x = (s.goto r pc).thread x := by
  by_cases hxr : x = r
  · subst hxr
    rw [Sys.goto_self, Sys.goto_self, Sys.freed_of_not s p F f hx]
  · rw [Sys.goto_ne _ _ _ hxr, Sys.goto_ne _ _ _ hxr, Sys.freed_of_not s p F f hx]

theorem Sys.freed_goto_eq (pc : Pc) (x : ThreadPtr) (hx : x.1 = p ∧ F x.2) :
    ∃ pc', ((s.freed p F f).goto r pc).thread x =
      { f (s.thread x) with pc := pc' } := by
  by_cases hxr : x = r
  · subst hxr
    rw [Sys.goto_self, Sys.freed_of s p F f hx]
    exact ⟨_, rfl⟩
  · rw [Sys.goto_ne _ _ _ hxr, Sys.freed_of s p F f hx]
    exact ⟨_, rfl⟩

theorem Sys.freed_goto_of (pc : Pc) (x : ThreadPtr)
    (hx : x.1 = p ∧ F x.2) :
    (((s.freed p F f).goto r pc).thread x).state = (f (s.thread x)).state ∧
    (((s.freed p F f).goto r pc).thread x).blocked =
      (f (s.thread x)).blocked := by
  obtain ⟨pc', e⟩ := s.freed_goto_eq (r := r) p F f pc x hx
  rw [e]
  exact ⟨rfl, rfl⟩

variable {s} in
theorem Sys.goto_present {x : ThreadPtr} {pc : Pc} :
    (s.goto r pc).Present x ↔ s.Present x := by
  rw [Sys.Present, Sys.Present]
  by_cases hxr : x = r
  · rw [hxr, Sys.goto_self]
  · rw [Sys.goto_ne _ _ _ hxr]

end Freed

/-- Nobody scans while a thread may enter a section under `ptable.lock`. -/
theorem Inv.not_scan (h : Inv s) (hr : s.cpu c = .run r) (hl : s.PtFree c)
    (c' : Cpu) (p : ProcId) (k : ℕ) : s.cpu c' ≠ .scan p k := by
  intro hc'
  have hp := (h.cpu.scan hc').1
  rcases hl with e | e <;> rw [e] at hp <;> cases hp
  rw [hr] at hc'
  cases hc'

/-- What `fork` fills is under construction. -/
theorem Inv.embryo_of_forks (h : Inv s) (hx : s.Present r) {q : ProcId}
    (hq : (s.thread r).pc.forks = some q) : (s.proc q).state = .EMBRYO := by
  have hfact := h.slot.fact hx
  cases hpc : (s.thread r).pc <;> rw [hpc] at hq hfact <;> cases hq
  case forkRunnable => exact hfact
  all_goals exact hfact.1

theorem Inv.join (h : Inv s) (hr : s.cpu c = .run r) {u : Slot}
    (hpc : (s.thread r).pc = .joinLock u ∨ (s.thread r).pc = .joinLoop u)
    (hl : s.PtFree c) (hz : (s.thread (r.1, u)).state = .ZOMBIE) :
    Inv ((s.freed r.1 (· = u) Thread.cleared).ret r 0) := by
  have hold : (s.thread r).pc.settled = true := by
    rcases hpc with e | e <;> rw [e] <;> rfl
  refine (h.ret hr hold hl 0).frees (F := fun x => x.1 = r.1 ∧ x.2 = u)
    (V := fun _ => False)
    ⟨s.freed_goto_of_not r.1 (· = u) Thread.cleared (.sysret 0),
      s.freed_goto_of r.1 (· = u) Thread.cleared (.sysret 0),
      s.freed_run r.1 (· = u) Thread.cleared,
      fun c' p k hc' =>
        ⟨s.freed_scan r.1 (· = u) Thread.cleared c' p k hc', not_false⟩,
      rfl, rfl, rfl, fun _ _ => rfl, nofun, nofun, nofun, nofun,
      fun x hx => .inr ?_⟩
  obtain ⟨x₁, x₂⟩ := x
  obtain ⟨rfl, rfl⟩ := hx
  have hne : (r.1, x₂) ≠ r := fun e => by
    have := h.running hr (Pc.ne_gap_of_settled hold)
    rw [← e, hz] at this
    cases this
  exact (congrArg Thread.state (s.goto_ne r _ hne)).trans hz

theorem Sys.deadChild_some {p q : ProcId} (h : s.deadChild p = some q) :
    (s.proc q).parent = some p ∧ s.allzombies q none := by
  have := List.find?_some h
  simpa only [Bool.and_eq_true, decide_eq_true_eq] using this

/-- A process with a parent is in use. -/
theorem Inv.alive_of_parent (h : Inv s) {p q : ProcId}
    (hq : (s.proc q).parent = some p) : (s.proc q).Alive := by
  constructor
  · intro e
    rw [h.slot.orphan (.inl e)] at hq
    cases hq
  · intro e
    rw [h.slot.orphan (.inr e)] at hq
    cases hq

theorem Inv.wait (h : Inv s) (hr : s.cpu c = .run r) {q : ProcId}
    (hpc : (s.thread r).pc = .wait ∨ (s.thread r).pc = .waitLoop)
    (hl : s.PtFree c) (hq : s.deadChild r.1 = some q) (v : ℤ) :
    Inv (((s.freed q (fun t => (s.thread (q, t)).state ≠ .UNUSED)
      Thread.cleared).vacate q).ret r v) := by
  have hold : (s.thread r).pc.settled = true := by
    rcases hpc with e | e <;> rw [e] <;> rfl
  have hq' := h.alive_of_parent (s.deadChild_some hq).1
  set F : Slot → Prop := fun t => (s.thread (q, t)).state ≠ .UNUSED
  have hvac : ((((s.freed q F Thread.cleared).vacate q).ret r v).proc q) =
      (s.proc q).vacated :=
    (s.freed q F Thread.cleared).setProc_self q Proc.vacated
  refine (h.ret hr hold hl v).frees (F := fun x => x.1 = q ∧ F x.2)
    (V := fun p => p = q)
    ⟨s.freed_goto_of_not q F Thread.cleared (.sysret v),
      s.freed_goto_of q F Thread.cleared (.sysret v),
      s.freed_run q F Thread.cleared,
      fun c' p k hc' => absurd (s.freed_scan q F Thread.cleared c' p k hc')
        (h.not_scan hr hl c' p k),
      rfl, rfl, rfl,
      fun p hp => (s.freed q F Thread.cleared).setProc_ne q Proc.vacated hp,
      ?_, ?_, ?_, ?_, fun x hx => .inl hx.1⟩
  · rintro p rfl
    rw [hvac]
    exact ⟨rfl, rfl⟩
  · rintro p rfl i hi
    rw [hvac] at hi
    cases hi
  · rintro x rfl hx
    exact ⟨rfl, Sys.goto_present.mp hx⟩
  · rintro p rfl x hx hfk
    by_cases hxr : x = r
    · subst hxr
      have := (congrArg (Pc.forks ∘ Thread.pc) (s.goto_self x (.sysret v))).symm.trans hfk
      cases this
    · have hfk' : (s.thread x).pc.forks = some p :=
        (congrArg (Pc.forks ∘ Thread.pc)
          (s.goto_ne r (.sysret v) hxr)).symm.trans hfk
      exact hq'.2 (h.embryo_of_forks (Sys.goto_present.mp hx) hfk')

theorem Inv.execWait (h : Inv s) (hr : s.cpu c = .run r)
    (hpc : (s.thread r).pc = .execWait) :
    Inv ((s.freed r.1 (fun t => t ≠ r.2 ∧
      (s.thread (r.1, t)).state = .ZOMBIE) Thread.reaped).goto r
        (if ∀ t, t ≠ r.2 → (s.thread (r.1, t)).state.dead = true
         then .execClear else .execWait)) := by
  set F : Slot → Prop := fun t => t ≠ r.2 ∧
    (s.thread (r.1, t)).state = .ZOMBIE with hF
  have hnr : ¬ (r.1 = r.1 ∧ F r.2) := fun e => e.2.1 rfl
  have hfr : Inv (s.freed r.1 F Thread.reaped) := by
    refine h.frees (F := fun x => x.1 = r.1 ∧ F x.2) (V := fun _ => False)
      ⟨fun x hx => s.freed_of_not r.1 F Thread.reaped hx, fun x hx => ?_,
        s.freed_run r.1 F Thread.reaped,
        fun c' p k hc' =>
          ⟨s.freed_scan r.1 F Thread.reaped c' p k hc', not_false⟩,
        rfl, rfl, rfl, fun _ _ => rfl, nofun, nofun, nofun, nofun,
        fun x hx => .inr ?_⟩
    · rw [s.freed_of r.1 F Thread.reaped hx]
      exact ⟨rfl, rfl⟩
    · obtain ⟨x₁, x₂⟩ := x
      obtain ⟨rfl, _, hz⟩ := hx
      exact hz
  have hr' := (s.freed_run r.1 F Thread.reaped c r).mpr ⟨hr, hnr⟩
  have hold : ((s.freed r.1 F Thread.reaped).thread r).pc.settled = true := by
    rw [s.freed_of_not r.1 F Thread.reaped hnr, hpc]
    rfl
  split
  case isFalse => exact hfr.goto hr' hold rfl
  case isTrue hall =>
    refine hfr.goto_quiet hr' hold rfl (fun t ht => ?_) (.of_none rfl rfl)
    have hne : t ≠ r.2 := fun e => ht (by simp [e])
    rcases States.dead_iff.mp (hall t hne) with hu | hz
    · have hn : ¬ (r.1 = r.1 ∧ F t) := fun e => by
        have := e.2.2
        rw [hu] at this
        cases this
      rwa [s.freed_of_not r.1 F Thread.reaped (x := (r.1, t)) hn]
    · rw [s.freed_of r.1 F Thread.reaped (x := (r.1, t)) ⟨rfl, hne, hz⟩]
      rfl

/-! ## §4  Slots under construction -/

/-- Slot `x`, free or under construction, is changed by `f`, and nobody has a
fact about it. -/
structure SetsSlot (s : Sys Cpu) (x : ThreadPtr) (f : Thread → Thread) :
    Prop where
  state : (s.thread x).state = .UNUSED ∨ (s.thread x).state = .EMBRYO
  proc : (s.proc x.1).state ≠ .UNUSED
  pc : (f (s.thread x)).pc = .user
  blocked : (f (s.thread x)).blocked = (s.thread x).blocked
  tid : (f (s.thread x)).state ≠ .UNUSED → (f (s.thread x)).tid = x.2.val
  holds : (f (s.thread x)).holds = ∅ ∨
    s.Present x ∧ (f (s.thread x)).holds = (s.thread x).holds
  creates : ∀ y, s.Present y → y.1 = x.1 →
    (s.thread y).pc.creates ≠ some x.2 ∧ (s.thread y).pc ≠ .execClear
  forks : ∀ y, s.Present y → (s.thread y).pc.forks ≠ some x.1

namespace SetsSlot

variable {x : ThreadPtr} {f : Thread → Thread} (hx : SetsSlot s x f)
include hx

/-- The slot was on no CPU. -/
theorem ne_of_run (h : Inv s) {c : Cpu} {y : ThreadPtr}
    (hy : s.cpu c = .run y) : y ≠ x := by
  rintro rfl
  rcases hx.state with e | e <;> rcases h.cpu.state hy with e' | ⟨e', _⟩ <;>
    rw [e] at e' <;> cases e'

/-- The slot was not blocked, and is not. -/
theorem not_blocked (h : Inv s) : ((s.setThread x f).thread x).blocked = false := by
  rw [s.setThread_self, hx.blocked]
  cases hb : (s.thread x).blocked with
  | false => rfl
  | true =>
      obtain ⟨hp, hm⟩ := h.mutex.blocked hb
      rw [h.slot.embryo (hx.state.resolve_left hp)] at hm
      cases hm

/-- The new thread has not entered the kernel. -/
theorem pc_eq : ((s.setThread x f).thread x).pc = .user := by
  rw [s.setThread_self]
  exact hx.pc

theorem present {y : ThreadPtr} (hyx : y ≠ x)
    (hy : (s.setThread x f).Present y) : s.Present y := by
  rwa [Sys.Present, s.setThread_ne x f hyx] at hy

theorem slotFact {y : ThreadPtr} (hy : s.Present y)
    (hf : s.SlotFact y (s.thread y).pc) :
    (s.setThread x f).SlotFact y (s.thread y).pc := by
  refine Sys.SlotFact.mono (s := s) (fun z hz he => ?_) (fun z hz he => ?_)
    (fun _ _ => id) hf
  · have hzx : z ≠ x := by
      rintro rfl
      rcases hz with ⟨e, hz⟩ | hz
      · exact (hx.creates y hy e.symm).1 hz
      · exact hx.forks y hy hz
    rw [s.setThread_ne x f hzx]
    exact ⟨he, rfl⟩
  · have hzx : z ≠ x := by
      rintro rfl
      rcases hz with ⟨hz, e⟩ | hz
      · exact (hx.creates y hy e.symm).2 hz
      · exact hx.forks y hy hz
    rwa [s.setThread_ne x f hzx]

theorem cpuInv (h : Inv s) : CpuInv (s.setThread x f) where
  context {c y} hy := by
    rw [s.setThread_ne x f (hx.ne_of_run h hy)]
    exact h.cpu.context hy
  unique := h.cpu.unique
  state {c y} hy := by
    rw [s.setThread_ne x f (hx.ne_of_run h hy)]
    exact h.cpu.state hy
  alive := h.cpu.alive
  mt {y} hy hm := by
    by_cases hyx : y = x
    · rw [hyx, hx.pc_eq] at hm
      cases hm
    · rw [s.setThread_ne x f hyx] at hm
      exact h.cpu.mt (hx.present hyx hy) hm
  pt {c y} hy hp := by
    rw [s.setThread_ne x f (hx.ne_of_run h hy)] at hp
    exact h.cpu.pt hy hp
  scan := h.cpu.scan
  held {y k} hy hk hp := by
    by_cases hyx : y = x
    · rw [hyx, hx.pc_eq] at hp
      cases hp
    · rw [s.setThread_ne x f hyx] at hk hp
      exact h.cpu.held (hx.present hyx hy) hk hp

theorem slotInv (h : Inv s) : SlotInv (s.setThread x f) where
  tid {y} hy := by
    by_cases hyx : y = x
    · subst hyx
      rw [Sys.Present, s.setThread_self] at hy
      rw [s.setThread_self]
      exact hx.tid hy
    · rw [s.setThread_ne x f hyx]
      exact h.slot.tid (hx.present hyx hy)
  embryo {y} hy := by
    by_cases hyx : y = x
    · rw [hyx, hx.pc_eq]
    · rw [s.setThread_ne x f hyx] at hy ⊢
      exact h.slot.embryo hy
  unused {p} hp t ht := by
    have hyx : (p, t) ≠ x := fun e => hx.proc (e ▸ hp)
    rw [s.setThread_ne x f hyx]
    exact h.slot.unused hp t ht
  orphan := h.slot.orphan
  fact {y} hy := by
    by_cases hyx : y = x
    · rw [hyx, hx.pc_eq]
      trivial
    · have hy' := hx.present hyx hy
      rw [s.setThread_ne x f hyx]
      exact hx.slotFact hy' (h.slot.fact hy')
  createUnique {p t t' u} h₁ h₂ h₃ h₄ := by
    have e₁ : (p, t) ≠ x := fun e => by
      rw [e, hx.pc_eq] at h₃
      cases h₃
    have e₂ : (p, t') ≠ x := fun e => by
      rw [e, hx.pc_eq] at h₄
      cases h₄
    rw [s.setThread_ne x f e₁] at h₃
    rw [s.setThread_ne x f e₂] at h₄
    exact h.slot.createUnique (hx.present e₁ h₁) (hx.present e₂ h₂) h₃ h₄
  forkUnique {y y' q} h₁ h₂ h₃ h₄ := by
    have e₁ : y ≠ x := fun e => by
      rw [e, hx.pc_eq] at h₃
      cases h₃
    have e₂ : y' ≠ x := fun e => by
      rw [e, hx.pc_eq] at h₄
      cases h₄
    rw [s.setThread_ne x f e₁] at h₃
    rw [s.setThread_ne x f e₂] at h₄
    exact h.slot.forkUnique (hx.present e₁ h₁) (hx.present e₂ h₂) h₃ h₄

theorem mutexInv (h : Inv s) : MutexInv (s.setThread x f) where
  owner := h.mutex.owner
  alloc {p i} hi ha := by
    obtain ⟨t, ht, hpc⟩ := h.mutex.alloc hi ha
    have e : (p, t) ≠ x := by
      rintro rfl
      rw [h.slot.embryo (hx.state.resolve_left ht)] at hpc
      cases hpc
    refine ⟨t, ?_⟩
    rw [Sys.Present, s.setThread_ne x f e]
    exact ⟨ht, hpc⟩
  tid := h.mutex.tid
  holds {y i} hy hi := by
    by_cases hyx : y = x
    · subst hyx
      rw [s.setThread_self] at hi
      rcases hx.holds with e | ⟨hp, e⟩ <;> rw [e] at hi
      · cases hi
      · exact h.mutex.holds hp hi
    · rw [s.setThread_ne x f hyx] at hi
      exact h.mutex.holds (hx.present hyx hy) hi
  blocked {y} hy := by
    by_cases hyx : y = x
    · rw [hyx, hx.not_blocked h] at hy
      cases hy
    · rw [Sys.Present, s.setThread_ne x f hyx] at *
      exact h.mutex.blocked hy
  fact {y} hy := by
    by_cases hyx : y = x
    · rw [hyx, hx.pc_eq]
      trivial
    · have hyt := s.setThread_ne x f hyx
      rw [hyt]
      refine Sys.MutexFact.congr (s := s) rfl rfl (by rw [hyt])
        (fun e => hyt ▸ e) (by rw [hyt]) (fun _ u i hw => ?_)
        (h.mutex.fact (hx.present hyx hy))
      by_cases hux : (y.1, u) = x
      · rw [Sys.Waits, hux, hx.not_blocked h] at hw
        cases hw.1
      · rwa [Sys.Waits, s.setThread_ne x f hux] at hw

end SetsSlot

theorem Inv.setSlot (h : Inv s) {x : ThreadPtr} {f : Thread → Thread}
    (hx : SetsSlot s x f) : Inv (s.setThread x f) :=
  ⟨hx.cpuInv h, hx.slotInv h, hx.mutexInv h⟩

theorem Sys.goto_setThread_goto {x : ThreadPtr} {f : Thread → Thread} {a b : Pc}
    (hx : x ≠ r) :
    ((s.goto r a).setThread x f).goto r b = (s.setThread x f).goto r b := by
  simp only [Sys.goto, Sys.setThread, Sys.mk.injEq, true_and, and_true]
  funext y
  by_cases hy : y = r
  · subst hy
    simp [hx.symm]
  · by_cases hyx : y = x
    · subst hyx
      simp [hx]
    · simp [hy, hyx]

theorem Sys.goto_state (x : ThreadPtr) (pc : Pc) :
    ((s.goto r pc).thread x).state = (s.thread x).state ∧
      ((s.goto r pc).thread x).context = (s.thread x).context := by
  by_cases hx : x = r
  · rw [hx, Sys.goto_self]
    exact ⟨rfl, rfl⟩
  · rw [Sys.goto_ne _ _ _ hx]
    exact ⟨rfl, rfl⟩

/-- The running thread works on a slot and goes on. Others have no fact about
the slot; the thread's own claim may change. -/
theorem Inv.build (h : Inv s) (hr : s.cpu c = .run r)
    (hold : (s.thread r).pc.settled = true) {x : ThreadPtr}
    {f : Thread → Thread} {pc' : Pc} (hxr : x ≠ r)
    (hst : (s.thread x).state = .UNUSED ∨ (s.thread x).state = .EMBRYO)
    (hproc : (s.proc x.1).state ≠ .UNUSED)
    (hpc : (f (s.thread x)).pc = .user)
    (hbl : (f (s.thread x)).blocked = (s.thread x).blocked)
    (htid : (f (s.thread x)).state ≠ .UNUSED → (f (s.thread x)).tid = x.2.val)
    (hho : (f (s.thread x)).holds = ∅ ∨
      s.Present x ∧ (f (s.thread x)).holds = (s.thread x).holds)
    (hcr : ∀ y, y ≠ r → s.Present y → y.1 = x.1 →
      (s.thread y).pc.creates ≠ some x.2 ∧ (s.thread y).pc ≠ .execClear)
    (hfk : ∀ y, y ≠ r → s.Present y → (s.thread y).pc.forks ≠ some x.1)
    (hnew : pc'.quiet = true) (hsf : (s.setThread x f).SlotFact r pc')
    (hcl : s.Claims r pc') : Inv ((s.setThread x f).goto r pc') := by
  -- the thread gives its claim up, works on the slot, and makes the new claim
  have h₁ : Inv (s.goto r (.sysret 0)) := h.goto hr hold rfl
  have hx₁ := s.goto_ne r (.sysret 0) hxr
  have hset : SetsSlot (s.goto r (.sysret 0)) x f := by
    refine ⟨?_, hproc, ?_, ?_, ?_, ?_, fun y hy hyx => ?_, fun y hy => ?_⟩
    · rwa [hx₁]
    · rwa [hx₁]
    · rwa [hx₁]
    · rwa [hx₁]
    · rwa [Sys.Present, hx₁]
    · by_cases hyr : y = r
      · rw [hyr, s.goto_self]
        exact ⟨by rintro ⟨⟩, by rintro ⟨⟩⟩
      · rw [s.goto_ne r _ hyr]
        exact hcr y hyr (Sys.goto_present.mp hy) hyx
    · by_cases hyr : y = r
      · rw [hyr, s.goto_self]
        rintro ⟨⟩
      · rw [s.goto_ne r _ hyr]
        exact hfk y hyr (Sys.goto_present.mp hy)
  have h₂ := h₁.setSlot hset
  have hstate : ∀ y, (((s.goto r (.sysret 0)).setThread x f).thread y).state =
        ((s.setThread x f).thread y).state ∧
      (((s.goto r (.sysret 0)).setThread x f).thread y).context =
        ((s.setThread x f).thread y).context := by
    intro y
    by_cases hyx : y = x
    · rw [hyx, Sys.setThread_self, Sys.setThread_self, hx₁]
      exact ⟨rfl, rfl⟩
    · rw [Sys.setThread_ne _ _ _ hyx, Sys.setThread_ne _ _ _ hyx]
      exact Sys.goto_state y _
  -- a claim of another thread is a claim it had before
  have hother : ∀ y, y ≠ r → ((s.goto r (.sysret 0)).setThread x f).Present y →
      (((s.goto r (.sysret 0)).setThread x f).thread y).pc = .user ∨
      s.Present y ∧ (((s.goto r (.sysret 0)).setThread x f).thread y).pc =
        (s.thread y).pc := by
    intro y hyr hy
    by_cases hyx : y = x
    · exact .inl (hyx ▸ hset.pc_eq)
    · have hy' := hset.present hyx hy
      rw [Sys.setThread_ne _ _ _ hyx, s.goto_ne r _ hyr]
      exact .inr ⟨Sys.goto_present.mp hy', rfl⟩
  rw [← Sys.goto_setThread_goto (a := .sysret 0) hxr]
  refine h₂.goto_quiet hr ?_ hnew ?_ ⟨fun u hu t ht hy => ?_, fun q hq y hy hp => ?_⟩
  · rw [Sys.setThread_ne _ _ _ hxr.symm, s.goto_self]
    rfl
  · exact hsf.mono (fun y _ e => ⟨(hstate y).1.trans e, (hstate y).2⟩)
      (fun y _ e => (hstate y).1.trans e) fun _ _ => id
  · rcases hother (r.1, t) (fun e => ht (congrArg Prod.snd e)) hy with e | ⟨hp, e⟩
    · rw [e]; rintro ⟨⟩
    · rw [e]
      exact hcl.creates u hu t ht hp
  · rcases hother y hy hp with e | ⟨hp, e⟩
    · rw [e]; rintro ⟨⟩
    · rw [e]
      exact hcl.forks q hq y hy hp

/-! ## §5  `kthread_create` -/

/-- `exec` reaches its last section alone. -/
theorem Inv.not_execClear (h : Inv s) (hr : s.Present r) {y : ThreadPtr}
    (hy : s.Present y) (hyr : y ≠ r) (hp : y.1 = r.1) :
    (s.thread y).pc ≠ .execClear := by
  intro hpc
  have hfact := h.slot.fact hy
  rw [hpc] at hfact
  have hne : r.2 ∉ [y.2] := by
    intro e
    exact hyr (Prod.ext hp (List.mem_singleton.mp e).symm)
  have hu := hfact r.2 hne
  rw [hp] at hu
  exact hr hu

theorem Inv.not_forks_of_alive (h : Inv s) {p : ProcId} (hp : (s.proc p).Alive)
    {y : ThreadPtr} (hy : s.Present y) : (s.thread y).pc.forks ≠ some p :=
  fun e => hp.2 (h.embryo_of_forks hy e)

/-- What `kthread_create` fills is under construction. -/
theorem Inv.embryo_of_creates (h : Inv s) (hx : s.Present r) {u : Slot}
    (hu : (s.thread r).pc.creates = some u) :
    (s.thread (r.1, u)).state = .EMBRYO := by
  have hfact := h.slot.fact hx
  cases hpc : (s.thread r).pc <;> rw [hpc] at hu hfact <;> cases hu
  · exact hfact
  · exact hfact.1

theorem Sys.unusedSlot_some {p : ProcId} {u : Slot}
    (h : s.unusedSlot p = some u) : (s.thread (p, u)).state = .UNUSED := by
  simpa using List.find?_some h

theorem Inv.create (h : Inv s) (hr : s.cpu c = .run r) {u : Slot}
    (hpc : (s.thread r).pc = .create) (hu : s.unusedSlot r.1 = some u) :
    Inv ((s.takeSlot r.1 u).goto r (.createStack u)) := by
  have hp := h.present_of_run hr
  have hst := s.unusedSlot_some hu
  have hxr : (r.1, u) ≠ r := fun e => hp (e ▸ hst)
  have hcr : ∀ y, s.Present y → y.1 = r.1 → (s.thread y).pc.creates ≠ some u := by
    intro y hy hyp e
    have := h.embryo_of_creates hy e
    rw [hyp, hst] at this
    cases this
  refine h.build hr (by rw [hpc]; rfl) hxr (.inl hst) (h.cpu.alive hr).1 rfl rfl
    (fun _ => rfl) (.inl rfl)
    (fun y hyr hy hyp => ⟨hcr y hy hyp, h.not_execClear hp hy hyr hyp⟩)
    (fun y _ hy => h.not_forks_of_alive (h.cpu.alive hr) hy) rfl ?_
    ⟨?_, nofun⟩
  · exact congrArg Thread.state (s.setThread_self (r.1, u) _)
  · rintro _ ⟨⟩ t _ ht
    exact hcr _ ht rfl

/-- Sections in which `kthread_create` works on its slot. -/
theorem Inv.buildThread (h : Inv s) (hr : s.cpu c = .run r) {u : Slot}
    {f : Thread → Thread} {pc' : Pc}
    (hpc : (s.thread r).pc = .createStack u ∨ (s.thread r).pc = .createPublish u)
    (hf : ∀ t : Thread, (f t).pc = t.pc ∧ (f t).blocked = t.blocked ∧
      (f t).tid = t.tid ∧ (f t).holds = t.holds)
    (hnew : pc'.quiet = true) (hfk : pc'.forks = none)
    (hcl : pc'.creates = none ∨ pc'.creates = some u)
    (hsf : (s.setThread (r.1, u) f).SlotFact r pc') :
    Inv ((s.setThread (r.1, u) f).goto r pc') := by
  have hp := h.present_of_run hr
  have hown : (s.thread r).pc.creates = some u := by
    rcases hpc with e | e <;> rw [e] <;> rfl
  have hE := h.embryo_of_creates hp hown
  have hpx : s.Present (r.1, u) := by simp [Sys.Present, hE]
  have hxr : (r.1, u) ≠ r := by
    intro e
    rcases h.cpu.state hr with e' | ⟨e', _⟩ <;> rw [← e, hE] at e' <;> cases e'
  have huniq : ∀ t, t ≠ r.2 → s.Present (r.1, t) →
      (s.thread (r.1, t)).pc.creates ≠ some u := fun t ht hpt e =>
    ht (h.slot.createUnique hpt hp e hown)
  obtain ⟨f₁, f₂, f₃, f₄⟩ := hf (s.thread (r.1, u))
  refine h.build hr (by rcases hpc with e | e <;> rw [e] <;> rfl) hxr (.inr hE)
    (h.cpu.alive hr).1 (f₁.trans (h.slot.embryo hE)) f₂
    (fun _ => f₃.trans (h.slot.tid hpx)) (.inr ⟨hpx, f₄⟩)
    (fun y hyr hy hyp => ⟨?_, h.not_execClear hp hy hyr hyp⟩)
    (fun y _ hy => h.not_forks_of_alive (h.cpu.alive hr) hy) hnew hsf
    ⟨fun v hv t ht hpt => ?_, by rw [hfk]; simp⟩
  · obtain ⟨y₁, y₂⟩ := y
    obtain rfl : y₁ = r.1 := hyp
    exact huniq y₂ (fun e => hyr (Prod.ext rfl e)) hy
  · rcases hcl with e | e <;> rw [e] at hv <;> cases hv
    exact huniq t ht hpt

theorem Inv.createStack (h : Inv s) (hr : s.cpu c = .run r) {u : Slot}
    (hpc : (s.thread r).pc = .createStack u) (ok : Bool) :
    Inv (s.createStack r u ok) := by
  have hE : (s.thread (r.1, u)).state = .EMBRYO :=
    h.embryo_of_creates (h.present_of_run hr) (by rw [hpc]; rfl)
  cases ok with
  | true =>
      refine h.buildThread hr (.inl hpc) (fun _ => ⟨rfl, rfl, rfl, rfl⟩) rfl rfl
        (.inr rfl) ?_
      rw [Sys.SlotFact, s.setThread_self]
      exact ⟨hE, by simp⟩
  | false =>
      exact h.buildThread hr (.inl hpc) (fun _ => ⟨rfl, rfl, rfl, rfl⟩) rfl rfl
        (.inl rfl) trivial

theorem Inv.createPublish (h : Inv s) (hr : s.cpu c = .run r) {u : Slot}
    (hpc : (s.thread r).pc = .createPublish u) :
    Inv ((s.makeRunnable (r.1, u)).goto r (.createRet u)) :=
  h.buildThread hr (.inr hpc) (fun _ => ⟨rfl, rfl, rfl, rfl⟩) rfl rfl (.inl rfl)
    trivial

/-! ## §6  `fork` -/

/-- A process that nobody is filling changes; if it was free or under
construction, it is not on a CPU. -/
theorem Inv.setProc (h : Inv s) {p : ProcId} {f : Proc → Proc}
    (hst : ¬ (s.proc p).Alive)
    (hfk : ∀ y, s.Present y → (s.thread y).pc.forks ≠ some p)
    (hun : (f (s.proc p)).state = .UNUSED → s.OnlySlots p [])
    (hpar : (f (s.proc p)).state = .UNUSED ∨ (f (s.proc p)).state = .EMBRYO →
      (f (s.proc p)).parent = none)
    (hmid : (f (s.proc p)).mid = (s.proc p).mid ∨
      s.OnlySlots p [] ∧ ∀ i, (f (s.proc p)).mid i = false) :
    Inv (s.setProc p f) := by
  have hmid' : ∀ {q i}, ((s.setProc p f).proc q).mid i = true →
      (s.proc q).mid i = true := by
    intro q i hi
    by_cases hq : q = p
    · rw [hq, s.setProc_self] at hi
      rcases hmid with e | ⟨_, e⟩
      · rw [hq, ← e]
        exact hi
      · rw [e i] at hi
        cases hi
    · rwa [s.setProc_ne p f hq] at hi
  have hne : ∀ {q}, (s.proc q).Alive → q ≠ p := fun hq e => hst (e ▸ hq)
  refine ⟨⟨h.cpu.context, h.cpu.unique, h.cpu.state, ?_, h.cpu.mt, h.cpu.pt, ?_,
    h.cpu.held⟩, ⟨h.slot.tid, h.slot.embryo, ?_, ?_, ?_, h.slot.createUnique,
    h.slot.forkUnique⟩, ⟨fun hi => h.mutex.owner (hmid' hi),
    fun hi => h.mutex.alloc (hmid' hi), h.mutex.tid, h.mutex.holds,
    h.mutex.blocked, ?_⟩⟩
  · intro c y hy
    have ha := h.cpu.alive hy
    rwa [s.setProc_ne p f (hne ha)]
  · intro c q k hc
    obtain ⟨hl, ha⟩ := h.cpu.scan hc
    rw [s.setProc_ne p f (hne ha)]
    exact ⟨hl, ha⟩
  · intro q hq
    by_cases hqp : q = p
    · subst hqp
      rw [s.setProc_self] at hq
      exact hun hq
    · rw [s.setProc_ne p f hqp] at hq
      exact h.slot.unused hq
  · intro q hq
    by_cases hqp : q = p
    · subst hqp
      rw [s.setProc_self] at hq ⊢
      exact hpar hq
    · rw [s.setProc_ne p f hqp] at hq ⊢
      exact h.slot.orphan hq
  · intro y hy
    refine Sys.SlotFact.mono (s := s) (fun _ _ e => ⟨e, rfl⟩) (fun _ _ => id)
      (fun q hq he => ?_) (h.slot.fact hy)
    have hqp : q ≠ p := fun e => hfk y hy (e ▸ hq)
    rwa [s.setProc_ne p f hqp]
  · intro y hy
    refine Sys.MutexFact.congr (s := s) rfl ?_ rfl id rfl (fun _ _ _ => id)
      (h.mutex.fact hy)
    by_cases hyp : y.1 = p
    · rw [hyp, s.setProc_self]
      rcases hmid with e | ⟨e, _⟩
      · exact e
      · subst hyp
        exact absurd (e y.2 List.not_mem_nil) hy
    · rw [s.setProc_ne p f hyp]

/-- `allocproc` on a slot that is still free. -/
theorem Inv.forkClaim (h : Inv s) (hr : s.cpu c = .run r) {q : ProcId}
    (hpc : (s.thread r).pc = .forkClaim q) (hq : (s.proc q).state = .UNUSED) :
    Inv (s.forkClaim r q) := by
  have hfk : ∀ y, s.Present y → (s.thread y).pc.forks ≠ some q := by
    intro y hy e
    have := h.embryo_of_forks hy e
    rw [hq] at this
    cases this
  have hun := h.slot.unused hq
  have h₁ : Inv (s.setProc q fun x =>
      { x with state := .EMBRYO, mid := fun _ => false, pid := s.nextpid }) :=
    h.setProc (fun e => e.1 hq) hfk nofun (fun _ => h.slot.orphan (.inl hq))
      (.inr ⟨hun, fun _ => rfl⟩)
  have h₂ : Inv ((s.setProc q fun x => { x with
      state := .EMBRYO, mid := fun _ => false, pid := s.nextpid }).goto r
      (.forkThread q)) := by
    refine h₁.goto_quiet hr (by rw [Sys.setProc_thread, hpc]; rfl) rfl
      ⟨by rw [Sys.setProc_self], hun⟩ ⟨nofun, ?_⟩
    rintro _ ⟨⟩ y _ hy
    exact hfk y hy
  exact h₂.soft ⟨fun _ => SoftThread.refl _, fun _ => SoftProc.refl _,
    fun _ => rfl, rfl, rfl, rfl, rfl⟩

/-- The claim of `fork` is the only one. -/
theorem Inv.claims_of_forks (h : Inv s) (hp : s.Present r) {q : ProcId}
    (hq : (s.thread r).pc.forks = some q) {pc' : Pc} (hc : pc'.creates = none)
    (hf : pc'.forks = none ∨ pc'.forks = some q) : s.Claims r pc' := by
  refine ⟨by rw [hc]; nofun, fun q' hq' y hyr hy e => ?_⟩
  rcases hf with e' | e' <;> rw [e'] at hq' <;> cases hq'
  exact hyr (h.slot.forkUnique hy hp e hq)

/-- Sections in which `fork` works on the first slot of the new process. -/
theorem Inv.buildProc (h : Inv s) (hr : s.cpu c = .run r) {q : ProcId} {u : Slot}
    {f : Thread → Thread} {pc' : Pc} (hq : (s.thread r).pc.forks = some q)
    (honly : s.OnlySlots q [u])
    (hst : (s.thread (q, u)).state = .UNUSED ∨
      (s.thread (q, u)).state = .EMBRYO)
    (hpc : (f (s.thread (q, u))).pc = .user)
    (hbl : (f (s.thread (q, u))).blocked = (s.thread (q, u)).blocked)
    (htid : (f (s.thread (q, u))).state ≠ .UNUSED →
      (f (s.thread (q, u))).tid = u.val)
    (hho : (f (s.thread (q, u))).holds = ∅ ∨ s.Present (q, u) ∧
      (f (s.thread (q, u))).holds = (s.thread (q, u)).holds)
    (hnew : pc'.quiet = true) (hcr : pc'.creates = none)
    (hfk : pc'.forks = none ∨ pc'.forks = some q)
    (hsf : (s.setThread (q, u) f).SlotFact r pc') :
    Inv ((s.setThread (q, u) f).goto r pc') := by
  have hp := h.present_of_run hr
  have hE := h.embryo_of_forks hp hq
  have hxr : (q, u) ≠ r := by
    rintro rfl
    exact (h.cpu.alive hr).2 hE
  have hold : (s.thread r).pc.settled = true := by
    cases hpc : (s.thread r).pc <;> rw [hpc] at hq <;> cases hq <;> rfl
  refine h.build hr hold hxr hst (by rw [hE]; nofun) hpc hbl htid hho
    (fun y _ hy hyp => ?_) (fun y hyr hy e => hyr (h.slot.forkUnique hy hp e hq))
    hnew hsf (h.claims_of_forks hp hq hcr hfk)
  -- the only thread of the new process has not run
  obtain ⟨y₁, y₂⟩ := y
  obtain rfl : y₁ = q := hyp
  by_cases hyu : y₂ = u
  · subst hyu
    rw [h.slot.embryo (hst.resolve_left hy)]
    exact ⟨nofun, nofun⟩
  · exact absurd (honly y₂ (by simpa using hyu)) hy

theorem Inv.forkThread (h : Inv s) (hr : s.cpu c = .run r) {q : ProcId}
    (hpc : (s.thread r).pc = .forkThread q) : Inv (s.forkThread r q) := by
  have hp := h.present_of_run hr
  have hq : (s.thread r).pc.forks = some q := by rw [hpc]; rfl
  have hfact := h.slot.fact hp
  rw [hpc] at hfact
  obtain ⟨hE, honly⟩ := hfact
  unfold Sys.forkThread
  split
  case h_2 =>
    exact h.goto_quiet hr (by rw [hpc]; rfl) rfl ⟨hE, honly⟩
      (h.claims_of_forks hp hq rfl (.inr rfl))
  case h_1 u hu =>
    have hst := s.unusedSlot_some hu
    -- all slots are free, so the first one is taken
    have hu0 : u = 0 := by
      have h0 : s.unusedSlot q = some 0 := by
        rw [Sys.unusedSlot, List.finRange_succ, List.find?_cons_of_pos]
        simpa using honly 0 List.not_mem_nil
      exact Option.some.inj (hu.symm.trans h0)
    refine h.buildProc hr hq (fun t _ => honly t List.not_mem_nil) (.inl hst) rfl
      rfl (fun _ => rfl) (.inl rfl) rfl rfl (.inr rfl) ⟨hE, fun t ht => ?_, ?_, hu0⟩
    · have hne : (q, t) ≠ (q, u) := fun e =>
        ht (List.mem_singleton.mpr (congrArg Prod.snd e))
      exact (congrArg Thread.state (s.setThread_ne (q, u) _ hne)).trans
        (honly t List.not_mem_nil)
    · exact congrArg Thread.state (s.setThread_self (q, u) _)

theorem Inv.forkStack (h : Inv s) (hr : s.cpu c = .run r) {q : ProcId}
    {u : Slot} (hpc : (s.thread r).pc = .forkStack q u) (ok : Bool) :
    Inv (s.forkStack r q u ok) := by
  have hp := h.present_of_run hr
  have hq : (s.thread r).pc.forks = some q := by rw [hpc]; rfl
  have hfact := h.slot.fact hp
  rw [hpc] at hfact
  obtain ⟨hE, honly, hst, rfl⟩ := hfact
  have hpx : s.Present (q, 0) := by simp [Sys.Present, hst]
  -- the other slots stay free
  have hrest : ∀ (f : Thread → Thread) t, t ≠ 0 →
      ((s.setThread (q, 0) f).thread (q, t)).state = .UNUSED := by
    intro f t ht
    rw [s.setThread_ne (q, 0) f fun e => ht (congrArg Prod.snd e)]
    exact honly t (by simpa using ht)
  cases ok with
  | true =>
      exact h.buildProc hr hq honly (.inr hst) (h.slot.embryo hst) rfl
        (fun _ => h.slot.tid hpx) (.inr ⟨hpx, rfl⟩) rfl rfl (.inr rfl)
        ⟨hE, fun t ht => hrest _ t (by simpa using ht),
          by rw [s.setThread_self]; exact ⟨hst, by simp⟩⟩
  | false =>
      refine h.buildProc hr hq honly (.inr hst) (h.slot.embryo hst) rfl
        (fun e => absurd rfl e) (.inr ⟨hpx, rfl⟩) rfl rfl (.inr rfl)
        ⟨hE, fun t _ => ?_⟩
      by_cases ht : t = 0
      · subst ht
        exact congrArg Thread.state (s.setThread_self (q, 0) _)
      · exact hrest _ t ht

theorem Inv.forkThreadRunnable (h : Inv s) (hr : s.cpu c = .run r) {q : ProcId}
    {pid : ℤ} (hpc : (s.thread r).pc = .forkThreadRunnable q pid) :
    Inv ((s.makeRunnable (q, 0)).goto r (.forkRunnable q pid)) := by
  have hfact := h.slot.fact (h.present_of_run hr)
  rw [hpc] at hfact
  obtain ⟨hE, honly, hst, _⟩ := hfact
  have hpx : s.Present (q, 0) := by simp [Sys.Present, hst]
  exact h.buildProc hr (by rw [hpc]; rfl) honly (.inr hst) (h.slot.embryo hst) rfl
    (fun _ => h.slot.tid hpx) (.inr ⟨hpx, rfl⟩) rfl rfl (.inr rfl) hE

theorem Inv.forkCopied (h : Inv s) (hr : s.cpu c = .run r) {q : ProcId}
    (hpc : (s.thread r).pc = .forkCopy q) (pid : ℤ) :
    Inv (s.goto r (.forkThreadRunnable q pid)) := by
  have hp := h.present_of_run hr
  have hfact := h.slot.fact hp
  rw [hpc] at hfact
  exact h.goto_quiet hr (by rw [hpc]; rfl) rfl hfact
    (h.claims_of_forks hp (by rw [hpc]; rfl) rfl (.inr rfl))

/-- After `fork` has given up its claim nobody claims the process. -/
theorem Inv.unclaimed (h : Inv s) (hp : s.Present r) {q : ProcId}
    (hq : (s.thread r).pc.forks = some q) {v : ℤ} {y : ThreadPtr}
    (hy : s.Present y) : ((s.goto r (.sysret v)).thread y).pc.forks ≠ some q := by
  by_cases hyr : y = r
  · rw [hyr, s.goto_self]
    nofun
  · rw [s.goto_ne r _ hyr]
    exact fun e => hyr (h.slot.forkUnique hy hp e hq)

theorem Inv.forkFail (h : Inv s) (hr : s.cpu c = .run r) {q : ProcId}
    (hpc : (s.thread r).pc = .forkFail q) : Inv (s.forkFail r q) := by
  have hp := h.present_of_run hr
  have hfact := h.slot.fact hp
  rw [hpc] at hfact
  have h₁ : Inv (s.goto r (.sysret (-1))) := h.goto hr (by rw [hpc]; rfl) rfl
  exact h₁.setProc (f := fun x => { x with state := .UNUSED })
    (fun e => e.2 hfact.1)
    (fun y hy => h.unclaimed hp (by rw [hpc]; rfl) (Sys.goto_present.mp hy))
    (fun _ t ht => ((Sys.goto_state _ _).1).trans (hfact.2 t ht))
    (fun _ => h.slot.orphan (.inr hfact.1)) (.inl rfl)

theorem Inv.forkRunnable (h : Inv s) (hr : s.cpu c = .run r) {q : ProcId}
    {pid : ℤ} (hpc : (s.thread r).pc = .forkRunnable q pid)
    (hl : s.ptlock = none) : Inv (s.forkRunnable r q pid) := by
  have hp := h.present_of_run hr
  have hfact : (s.proc q).state = .EMBRYO :=
    h.embryo_of_forks hp (by rw [hpc]; rfl)
  have h₁ : Inv (s.ret r pid) := h.ret hr (by rw [hpc]; rfl) (.inl hl) pid
  exact h₁.setProc
    (f := fun x => { x with parent := some r.1, state := .RUNNABLE })
    (fun e => e.2 hfact)
    (fun y hy => h.unclaimed hp (by rw [hpc]; rfl) (Sys.goto_present.mp hy))
    nofun (by rintro (e | e) <;> cases e) (.inl rfl)

theorem Inv.forkUncopied (h : Inv s) (hr : s.cpu c = .run r) {q : ProcId}
    (hpc : (s.thread r).pc = .forkCopy q) :
    Inv (((s.freed q (· = 0) Thread.uncopied).setPState q .UNUSED).goto r
      (.sysret (-1))) := by
  have hp := h.present_of_run hr
  have hq : (s.thread r).pc.forks = some q := by rw [hpc]; rfl
  have hfact := h.slot.fact hp
  rw [hpc] at hfact
  obtain ⟨hE, honly, hst, _⟩ := hfact
  have hne : (q, 0) ≠ r := by
    rintro rfl
    exact (h.cpu.alive hr).2 hE
  have hself : (((s.freed q (· = 0) Thread.uncopied).setPState q .UNUSED).goto r
      (.sysret (-1))).proc q = { s.proc q with state := .UNUSED } :=
    (s.freed q (· = 0) Thread.uncopied).setPState_self q .UNUSED
  -- the only thread of the new process has not run
  have honly' : ∀ t, s.Present (q, t) → t = 0 := fun t ht => by
    by_contra ht0
    exact ht (honly t (by simpa using ht0))
  have h₁ : Inv (s.goto r (.sysret (-1))) := h.goto hr (by rw [hpc]; rfl) rfl
  refine h₁.frees
    (F := fun x => x.1 = q ∧ x.2 = 0) (V := fun p => p = q)
    ⟨s.freed_goto_of_not q (· = 0) Thread.uncopied (.sysret (-1)),
      fun x hx => ?_, s.freed_run q (· = 0) Thread.uncopied,
      fun c' p k hc' => ?_, rfl, rfl, rfl,
      fun p hp => (s.freed q (· = 0) Thread.uncopied).setPState_ne q .UNUSED hp,
      ?_, ?_, ?_, ?_, fun x hx => .inl hx.1⟩
  · have hgone := s.freed_goto_of q (· = 0) Thread.uncopied (.sysret (-1)) (r := r) x hx
    refine ⟨hgone.1, hgone.2.trans ?_⟩
    obtain ⟨x₁, x₂⟩ := x
    obtain ⟨rfl, rfl⟩ := hx
    exact h.not_blocked (by rw [h.slot.embryo hst]; rfl)
  · have hsc := s.freed_scan q (· = 0) Thread.uncopied c' p k hc'
    refine ⟨hsc, ?_⟩
    rintro rfl
    exact (h.cpu.scan hsc).2.2 hE
  · rintro p rfl
    rw [hself]
    exact ⟨rfl, h.slot.orphan (.inr hE)⟩
  · rintro p rfl i hi
    rw [hself] at hi
    refine ⟨hi, fun t ht => ?_⟩
    obtain rfl := honly' t (Sys.goto_present.mp ht)
    rw [s.goto_ne r _ hne, h.slot.embryo hst]
    nofun
  · rintro ⟨x₁, x₂⟩ rfl hx
    exact ⟨rfl, honly' x₂ (Sys.goto_present.mp hx)⟩
  · rintro p rfl x hx
    exact h.unclaimed hp hq (Sys.goto_present.mp hx)

/-! ## §7  `exec` -/

theorem Sys.execClear_proc_self : (s.execClear r).proc r.1 =
    { s.proc r.1 with mid := fun _ => false } := by
  simp [Sys.execClear, Sys.goto]

theorem Sys.execClear_proc_ne {q : ProcId} (hq : q ≠ r.1) :
    (s.execClear r).proc q = s.proc q := by
  simp [Sys.execClear, Sys.goto, hq]

/-- The last section of `kill_threads` runs alone in its process. -/
theorem Inv.execClear (h : Inv s) (hr : s.cpu c = .run r)
    (hpc : (s.thread r).pc = .execClear) : Inv (s.execClear r) := by
  have hp := h.present_of_run hr
  have hrun := h.running hr (by rw [hpc]; simp)
  have hfact : s.OnlySlots r.1 [r.2] := by
    have := h.slot.fact hp
    rwa [hpc] at this
  have hself : (s.execClear r).thread r = { s.thread r with pc := .kern .exec } :=
    s.goto_self r _
  have hne : ∀ x, x ≠ r → (s.execClear r).thread x = s.thread x :=
    fun x hx => s.goto_ne r (.kern .exec) hx
  have hloc : Local s (s.execClear r) c r := by
    refine .of_run h hr hne (fun _ _ => rfl) (fun q => ?_) (.inl rfl) (.inl rfl)
    by_cases hq : q = r.1
    · rw [hq, Sys.execClear_proc_self]
      exact ⟨.inl rfl, id⟩
    · rw [Sys.execClear_proc_ne hq]
      exact SoftProc.refl _
  have hmid : ∀ {q i}, ((s.execClear r).proc q).mid i = true →
      q ≠ r.1 ∧ (s.proc q).mid i = true := by
    intro q i hi
    by_cases hq : q = r.1
    · rw [hq, Sys.execClear_proc_self] at hi
      cases hi
    · rw [Sys.execClear_proc_ne hq] at hi
      exact ⟨hq, hi⟩
  refine ⟨h.cpu.act hloc (.inl ⟨hr, ?_, .inl ?_, ?_, ?_⟩),
    h.slot.act hloc ⟨?_, ?_, ?_, ?_, ?_⟩,
    ⟨fun hi => h.mutex.owner (hmid hi).2, fun {q i} hi ha => ?_, h.mutex.tid,
      fun {x i} hx hi => ?_, fun {x} hx => ?_, fun {x} hx => ?_⟩⟩
  · rw [hself]
    exact h.cpu.context hr
  · rwa [hself]
  · rw [hself]; rintro ⟨⟩
  · rw [hself]; rintro ⟨⟩
  · rwa [Sys.Present, hself]
  · rw [hself, hrun]; simp
  · rw [hself]
  · rw [hself]; trivial
  · rw [hself]
    exact .of_none rfl rfl
  · obtain ⟨t, ht, hpc'⟩ := h.mutex.alloc (hmid hi).2 ha
    have hx : (q, t) ≠ r := fun e => (hmid hi).1 (congrArg Prod.fst e)
    rw [← hne _ hx] at hpc'
    exact ⟨t, by rwa [Sys.Present, hne _ hx], hpc'⟩
  · have hi' : i ∈ (s.thread x).holds := by
      by_cases hxr : x = r
      · rwa [hxr, hself, ← hxr] at hi
      · rwa [hne x hxr] at hi
    exact h.mutex.holds (hloc.present_of hx) hi'
  · by_cases hxr : x = r
    · rw [hxr, hself] at hx
      have := (h.mutex.blocked hx).2
      rw [hpc] at this
      cases this
    · rw [Sys.Present, hne x hxr] at *
      exact h.mutex.blocked hx
  · by_cases hxp : x.1 = r.1
    · have hxr : x = r := by
        refine Prod.ext hxp ?_
        by_contra h2
        have hu := hfact x.2 (by simpa using h2)
        rw [← hxp] at hu
        exact hloc.present_of hx hu
      rw [hxr, hself]
      trivial
    · have hxr : x ≠ r := fun e => hxp (congrArg Prod.fst e)
      have hxt := hne x hxr
      rw [hxt]
      refine Sys.MutexFact.congr (s := s) rfl
        (by rw [Sys.execClear_proc_ne hxp]) (by rw [hxt]) (fun e => hxt ▸ e)
        (by rw [hxt]) (fun _ u i hw => ?_) (h.mutex.fact (hloc.present_of hx))
      have hur : (x.1, u) ≠ r := by
        rintro rfl
        exact hxp rfl
      rwa [Sys.Waits, hne _ hur] at hw

end Xv6.Kernel
