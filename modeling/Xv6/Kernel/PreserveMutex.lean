import Xv6.Kernel.Preserve

/-!
# The mutex calls preserve the invariant

While a mutex call runs, no other thread is inside one: it holds `mtable.lock`,
or it takes it in this step. So the only facts of other threads that a section
can disturb are those of waiters (`mutexLockWoken`) and of holders
(`Thread.holds`). `Inv.mutexStep` reduces a section to these; the hand-off,
which changes a second thread, is split into the step of the unlocking thread
and the step of the waiter.
-/

set_option linter.unusedSectionVars false

namespace Xv6.Kernel

variable {Cpu : Type} [DecidableEq Cpu] {s s' : Sys Cpu} {c : Cpu}
  {r : ThreadPtr}

/-! ## §1  One section -/

/-- Thread `r` executes a section of a mutex call. -/
structure MutexStep (s s' : Sys Cpu) (c : Cpu) (r : ThreadPtr) : Prop where
  run : s.cpu c = .run r
  mt : s.mtlock = none ∨ (s.thread r).pc.holdsMt = true
  thread : ∀ x, x ≠ r → s'.thread x = s.thread x
  cpu : s'.cpu = s.cpu
  ptlock : s'.ptlock = s.ptlock
  proc : ∀ p, (s'.proc p).state = (s.proc p).state ∧
    (s'.proc p).parent = (s.proc p).parent
  state : (s'.thread r).state = (s.thread r).state
  tid : (s'.thread r).tid = (s.thread r).tid
  context : (s'.thread r).context = (s.thread r).context
  old : (s.thread r).pc ≠ .kthreadExitSched
  new : (s'.thread r).pc.plain = true ∨
    (s'.thread r).pc.holdsMt = true ∧ s'.mtlock = some c
  -- what others know of the mutexes
  recorded : ∀ x i, x ≠ r → s.Recorded x i → s'.Recorded x i
  waits : ∀ x i, x ≠ r → s.Waits x i → (s.mutex i).allocated = true →
    (s.mutex i).locked = true → (s.proc x.1).mid i = true →
    (s'.mutex i).allocated = true ∧ (s'.mutex i).locked = true ∧
      (s'.proc x.1).mid i = true
  -- the tables
  owner : ∀ p i, (s'.proc p).mid i = true → (s'.mutex i).owner = some p
  alloc : ∀ p i, (s'.proc p).mid i = true → (s'.mutex i).allocated = false →
    p = r.1 ∧ (s'.thread r).pc = .mutexDeallocClear i
  mutexTid : ∀ i, (s'.mutex i).allocated = true →
    ((s'.mutex i).locked = false ↔ (s'.mutex i).tid = -1)
  -- the thread itself
  holds : ∀ i, i ∈ (s'.thread r).holds → s'.Recorded r i
  blocked : (s'.thread r).blocked = true → (s'.thread r).pc.mayBlock = true
  fact : s'.MutexFact r (s'.thread r).pc

namespace Inv

variable (h : Inv s)
include h

/-- The thread that may execute a section of a mutex call holds `mtable.lock`
or nobody does. -/
theorem mtlock_of_mt (hr : s.cpu c = .run r)
    (hm : s.mtlock = none ∨ (s.thread r).pc.holdsMt = true) :
    s.mtlock = none ∨ s.mtlock = some c := by
  refine hm.imp_right fun hm => ?_
  obtain ⟨c', hc', hl⟩ := h.cpu.mt (h.present_of_run hr) hm
  rw [hl, h.cpu.unique hr hc']

/-- No other thread is inside a mutex call. -/
theorem others_outside (hr : s.Present r)
    (hm : s.mtlock = none ∨ (s.thread r).pc.holdsMt = true) {x : ThreadPtr}
    (hx : s.Present x) (hxr : x ≠ r) : (s.thread x).pc.holdsMt = false := by
  rcases hm with hm | hm
  · exact h.not_holdsMt_of_free hm hx
  · cases hp : (s.thread x).pc.holdsMt with
    | false => rfl
    | true => exact absurd (h.mt_unique hr hm hx hp) hxr

/-- A mutex of a process is allocated, except while the acting thread
deallocates it. -/
theorem allocated_of_mid (hr : s.Present r)
    (hm : s.mtlock = none ∨ (s.thread r).pc.holdsMt = true) {p : ProcId}
    {i : MutexId} (hi : (s.proc p).mid i = true)
    (hpc : (s.thread r).pc ≠ .mutexDeallocClear i) :
    (s.mutex i).allocated = true := by
  cases ha : (s.mutex i).allocated with
  | true => rfl
  | false =>
      obtain ⟨t, ht, hpc'⟩ := h.mutex.alloc hi ha
      by_cases hxr : (p, t) = r
      · exact absurd (hxr ▸ hpc') hpc
      · have := h.others_outside hr hm ht hxr
        rw [hpc'] at this
        cases this

end Inv

/-- A waiter's fact survives a section of another thread. -/
theorem MutexStep.fact_other (h : Inv s) (hs : MutexStep s s' c r)
    {x : ThreadPtr} (hx : s.Present x) (hxr : x ≠ r) :
    s'.MutexFact x (s.thread x).pc := by
  have hout := h.others_outside (h.present_of_run hs.run) hs.mt hx hxr
  have hfact := h.mutex.fact hx
  have hxt := hs.thread x hxr
  cases hpc : (s.thread x).pc <;> rw [hpc] at hout hfact <;> try trivial
  case mutexLockWoken i =>
    obtain ⟨h₁, h₂, h₃, h₄⟩ := hfact
    refine ⟨by rwa [hxt], by rwa [hxt], fun hb => ?_, fun hw => ?_⟩
    · rw [hxt] at hb
      exact hs.recorded x i hxr (h₃ hb)
    · rw [Sys.Waits, hxt] at hw
      obtain ⟨ha, hl, hm⟩ := h₄ hw
      exact hs.waits x i hxr hw ha hl hm

theorem Inv.mutexStep (h : Inv s) (hs : MutexStep s s' c r) : Inv s' := by
  have hp := h.present_of_run hs.run
  have hrun := h.running hs.run hs.old
  have hproc : ∀ p, SoftProc (s.proc p) (s'.proc p) := fun p =>
    ⟨.inl (hs.proc p).1, fun e => (hs.proc p).2.trans e⟩
  have hmtl := h.mtlock_of_mt hs.run hs.mt
  have hloc : Local s s' c r := .of_run h hs.run hs.thread
    (fun c' _ => congrFun hs.cpu c') hproc (.inl hs.ptlock) (.inr hmtl)
  have hp' : s'.Present r := by rwa [Sys.Present, hs.state]
  have hpt : (s'.thread r).pc.holdsPt = false := by
    rcases hs.new with e | ⟨e, _⟩
    · exact Pc.holdsPt_of_quiet (Pc.quiet_of_plain e)
    · cases hpc : (s'.thread r).pc <;> rw [hpc] at e <;> first | rfl | cases e
  have hcl : s.Claims r (s'.thread r).pc := by
    refine .of_none ?_ ?_ <;> rcases hs.new with e | ⟨e, _⟩ <;>
      cases hpc : (s'.thread r).pc <;> rw [hpc] at e <;> first | rfl | cases e
  have hsf : s'.SlotFact r (s'.thread r).pc := by
    rcases hs.new with e | ⟨e, _⟩ <;>
      cases hpc : (s'.thread r).pc <;> rw [hpc] at e <;> trivial
  refine ⟨h.cpu.act hloc (.inl ⟨(congrFun hs.cpu c).trans hs.run, ?_, .inl ?_, ?_, ?_⟩),
    h.slot.act hloc ⟨hp', ?_, hs.tid, hsf, hcl⟩,
    ⟨hs.owner _ _, fun {p i} hi ha => ?_, hs.mutexTid _, fun {x i} hx hi => ?_,
      fun {x} hx => ?_, fun {x} hx => ?_⟩⟩
  · exact hs.context.trans (h.cpu.context hs.run)
  · rw [hs.state, hrun]
  · rintro e
    rcases hs.new with e' | ⟨_, e'⟩
    · rw [Pc.holdsMt_of_quiet (Pc.quiet_of_plain e')] at e
      cases e
    · exact e'
  · rw [hpt]; simp
  · rw [hs.state, hrun]; simp
  · obtain ⟨rfl, hpc⟩ := hs.alloc p i hi ha
    exact ⟨r.2, hp', hpc⟩
  · by_cases hxr : x = r
    · exact hxr ▸ hs.holds i (hxr ▸ hi)
    · rw [hs.thread x hxr] at hi
      exact hs.recorded x i hxr (h.mutex.holds (hloc.present_of hx) hi)
  · by_cases hxr : x = r
    · subst hxr
      exact ⟨hp', hs.blocked hx⟩
    · rw [Sys.Present, hs.thread x hxr] at *
      exact h.mutex.blocked hx
  · by_cases hxr : x = r
    · exact hxr ▸ hs.fact
    · rw [hs.thread x hxr]
      exact hs.fact_other h (hloc.present_of hx) hxr

/-! ## §2  Sections that leave the tables alone -/

/-- The thread changes its program point and its `blocked` flag only, and takes,
keeps or gives up `mtable.lock`. -/
structure MoveMt (s s' : Sys Cpu) (c : Cpu) (r : ThreadPtr) (b : Bool)
    (pc' : Pc) : Prop where
  run : s.cpu c = .run r
  mt : s.mtlock = none ∨ (s.thread r).pc.holdsMt = true
  self : s'.thread r = { s.thread r with pc := pc', blocked := b }
  thread : ∀ x, x ≠ r → s'.thread x = s.thread x
  mutex : s'.mutex = s.mutex
  proc : s'.proc = s.proc
  cpu : s'.cpu = s.cpu
  ptlock : s'.ptlock = s.ptlock
  old : (∀ i, (s.thread r).pc ≠ .mutexDeallocClear i) ∧
    (s.thread r).pc ≠ .kthreadExitSched
  new : pc'.plain = true ∨ pc'.holdsMt = true ∧ s'.mtlock = some c
  blocked : b = true → pc'.mayBlock = true

theorem Inv.moveMt (h : Inv s) {b : Bool} {pc' : Pc}
    (hs : MoveMt s s' c r b pc') (hfact : s'.MutexFact r pc') : Inv s' := by
  have hp := h.present_of_run hs.run
  refine h.mutexStep ⟨hs.run, hs.mt, hs.thread, hs.cpu, hs.ptlock,
    fun _ => by rw [hs.proc]; exact ⟨rfl, rfl⟩, by rw [hs.self], by rw [hs.self],
    by rw [hs.self], hs.old.2, by rw [hs.self]; exact hs.new, fun x i _ hx => ?_,
    fun x i _ _ h₁ h₂ h₃ => ?_, fun p i hi => ?_, fun p i hi ha => ?_,
    fun i hi => ?_, fun i hi => ?_, by rw [hs.self]; exact hs.blocked,
    by rw [hs.self]; exact hfact⟩
  · simpa only [Sys.Recorded, hs.mutex] using hx
  · rw [hs.mutex, hs.proc]
    exact ⟨h₁, h₂, h₃⟩
  · rw [hs.proc] at hi
    rw [hs.mutex]
    exact h.mutex.owner hi
  · rw [hs.proc] at hi
    rw [hs.mutex] at ha
    have := h.allocated_of_mid hp hs.mt hi (hs.old.1 i)
    exact absurd (this.symm.trans ha) (by decide)
  · rw [hs.mutex] at hi ⊢
    exact h.mutex.tid hi
  · rw [hs.self] at hi
    simpa only [Sys.Recorded, hs.mutex] using h.mutex.holds hp hi

/-- The section starts at a program point at which `blocked` is not set. -/
theorem Inv.gotoMt (h : Inv s) (hr : s.cpu c = .run r) {pc pc' : Pc}
    (hpc : (s.thread r).pc = pc) (hset : pc.settled = true)
    (hmt : s.mtlock = none ∨ pc.holdsMt = true)
    (hs : s'.thread = (s.goto r pc').thread) (hm : s'.mutex = s.mutex)
    (hp : s'.proc = s.proc) (hc : s'.cpu = s.cpu) (hl : s'.ptlock = s.ptlock)
    (hnew : pc'.plain = true ∨ pc'.holdsMt = true ∧ s'.mtlock = some c)
    (hfact : s'.MutexFact r pc') : Inv s' := by
  subst hpc
  have hnb := h.not_blocked (Pc.mayBlock_of_settled hset)
  refine h.moveMt (b := false) ⟨hr, hmt, ?_, fun x hx => ?_, hm, hp, hc, hl,
    ⟨Pc.ne_clear_of_settled hset, Pc.ne_gap_of_settled hset⟩, hnew, nofun⟩ hfact
  · rw [hs, s.goto_self, ← hnb]
  · rw [hs, s.goto_ne r pc' hx]

theorem Inv.mutexEnter (h : Inv s) (hr : s.cpu c = .run r) {i : MutexId}
    {pc pc' : Pc} (hpc : (s.thread r).pc = pc) (he : EntersMt pc i pc')
    (hl : s.mtlock = none) (hi : (s.mutex i).allocated = true) :
    Inv ((s.goto r pc').acquireMt c) := by
  cases he <;> exact h.gotoMt hr hpc rfl (.inl hl) rfl rfl rfl rfl rfl
    (.inr ⟨rfl, rfl⟩) hi

theorem Inv.refuseMt (h : Inv s) (hr : s.cpu c = .run r) (v : ℤ)
    (hpc : (s.thread r).pc.refusesMt = true) : Inv (s.retMt r v) := by
  cases hp : (s.thread r).pc <;> rw [hp] at hpc <;> try cases hpc
  all_goals exact h.gotoMt hr hp rfl (.inr rfl) rfl rfl rfl rfl rfl (.inl rfl) trivial

/-- `kthread_mutex_unlock` looks at every other slot. -/
theorem mem_slotsAfter : ∀ {t u : Slot}, u ≠ t → u ∈ slotsAfter t := by
  decide

/-- The scan finds nobody, so nobody waits. -/
theorem Sys.not_waits_of_waiter {i : MutexId} (h : s.waiter r i = none)
    {u : Slot} (hu : u ≠ r.2) : ¬ s.Waits (r.1, u) i := by
  rintro ⟨hb, hch⟩
  have := List.find?_eq_none.mp h u (mem_slotsAfter hu)
  simp [hb, hch] at this

theorem Inv.gotoMovesMt (h : Inv s) (hr : s.cpu c = .run r) {pc pc' : Pc}
    (hpc : (s.thread r).pc = pc) (hm : MovesMt s r pc pc') :
    Inv (s.goto r pc') := by
  have hp := h.present_of_run hr
  have hfact := h.mutex.fact hp
  have htid := h.slot.tid hp
  rw [hpc] at hfact
  have hmt : pc.holdsMt = true → s.mtlock = some c := fun e => by
    obtain ⟨c', hc', hl⟩ := h.cpu.mt hp (hpc ▸ e)
    rw [hl, h.cpu.unique hr hc']
  cases hm with
  | deallocMid hi | lockMid hi | unlockMid hi =>
      exact h.gotoMt hr hpc rfl (.inr rfl) rfl rfl rfl rfl rfl
        (.inr ⟨rfl, hmt rfl⟩) ⟨hfact, hi⟩
  | lockBlock _ hl =>
      exact h.gotoMt hr hpc rfl (.inr rfl) rfl rfl rfl rfl rfl
        (.inr ⟨rfl, hmt rfl⟩) ⟨hfact.1, hfact.2, hl⟩
  | lockFree _ hl =>
      exact h.gotoMt hr hpc rfl (.inr rfl) rfl rfl rfl rfl rfl
        (.inr ⟨rfl, hmt rfl⟩) fun _ => ⟨hfact.1, h.mutex.owner hfact.2, .inl hl⟩
  | @lockTake i hb =>
      have hself : (s.goto r (.mutexLockTake i)).thread r =
          { s.thread r with pc := .mutexLockTake i, blocked := false } := by
        rw [s.goto_self, ← hb]
      exact h.moveMt ⟨hr, .inr (by rw [hpc]; rfl), hself,
        fun x hx => s.goto_ne r _ hx, rfl, rfl, rfl, rfl,
        by rw [hpc]; exact ⟨nofun, nofun⟩, .inr ⟨rfl, hmt rfl⟩, nofun⟩ (hfact hb)
  | unlockScan ht =>
      exact h.gotoMt hr hpc rfl (.inr rfl) rfl rfl rfl rfl rfl
        (.inr ⟨rfl, hmt rfl⟩) ⟨hfact.1, hfact.2, ht.symm.trans htid⟩
  | @unlockFree i hw =>
      refine h.gotoMt hr hpc rfl (.inr rfl) rfl rfl rfl rfl rfl
        (.inr ⟨rfl, hmt rfl⟩) ⟨hfact.1, hfact.2.1, hfact.2.2, fun u hwt => ?_⟩
      by_cases hu : u = r.2
      · subst hu
        have hnb := h.not_blocked (r := r) (by rw [hpc]; rfl)
        rw [Sys.Waits, s.goto_self] at hwt
        exact absurd (hnb.symm.trans hwt.1) (by decide)
      · rw [Sys.Waits, s.goto_ne r _ fun e => hu (congrArg Prod.snd e)] at hwt
        exact Sys.not_waits_of_waiter hw hu hwt

theorem Inv.mutexLockBlock (h : Inv s) (hr : s.cpu c = .run r) {i : MutexId}
    (hpc : (s.thread r).pc = .mutexLockBlock i) : Inv (s.mutexLockBlock r i) := by
  have hp := h.present_of_run hr
  have hfact := h.mutex.fact hp
  rw [hpc] at hfact
  obtain ⟨c', hc', hl⟩ := h.cpu.mt hp (by rw [hpc]; rfl)
  obtain rfl := h.cpu.unique hr hc'
  exact h.moveMt (b := true) ⟨hr, .inr (by rw [hpc]; rfl), s.setThread_self r _,
    fun x hx => s.setThread_ne r _ hx, rfl, rfl, rfl, rfl,
    by rw [hpc]; exact ⟨nofun, nofun⟩, .inr ⟨rfl, hl⟩, fun _ => rfl⟩
    ⟨hfact.1, hfact.2.1, hfact.2.2, by rw [Sys.mutexLockBlock, Sys.setThread_self]⟩

/-- The waiter is back; `mtable.lock` is taken again. -/
theorem Inv.mutexLockWoken (h : Inv s) (hr : s.cpu c = .run r) {i : MutexId}
    (hpc : (s.thread r).pc = .mutexLockWoken i) (hl : s.mtlock = none) :
    Inv ((s.goto r (.mutexLockCheck i)).acquireMt c) := by
  have hp := h.present_of_run hr
  have hfact := h.mutex.fact hp
  rw [hpc] at hfact
  have hself : ((s.goto r (.mutexLockCheck i)).acquireMt c).thread r =
      { s.thread r with pc := .mutexLockCheck i } := s.goto_self r _
  refine h.moveMt (b := (s.thread r).blocked) ⟨hr, .inl hl, hself,
    fun x hx => s.goto_ne r _ hx, rfl, rfl, rfl, rfl,
    by rw [hpc]; exact ⟨nofun, nofun⟩, .inr ⟨rfl, rfl⟩, fun _ => rfl⟩ fun hb => ?_
  rw [hself] at hb
  obtain ⟨ha, _, ht, ho⟩ := hfact.2.2.1 hb
  exact ⟨ha, ho, .inr ht⟩

/-! ## §3  Sections that change the tables -/

/-- One mutex changes; what the others record of it is not lost. -/
structure SetsMutex (s s' : Sys Cpu) (r : ThreadPtr) (i : MutexId)
    (m : KthreadMutex) (pc' : Pc) (xs : Finset MutexId) : Prop where
  self : s'.thread r = { s.thread r with pc := pc', holds := xs }
  thread : ∀ x, x ≠ r → s'.thread x = s.thread x
  mutex : s'.mutex = Function.update s.mutex i m
  proc : s'.proc = s.proc
  cpu : s'.cpu = s.cpu
  ptlock : s'.ptlock = s.ptlock

namespace SetsMutex

variable {i : MutexId} {m : KthreadMutex} {pc' : Pc} {xs : Finset MutexId}
  (hs : SetsMutex s s' r i m pc' xs)
include hs

theorem mutex_self : s'.mutex i = m := by
  rw [hs.mutex, Function.update_self]

theorem mutex_ne {j : MutexId} (hj : j ≠ i) : s'.mutex j = s.mutex j := by
  rw [hs.mutex, Function.update_of_ne hj]

theorem recorded_ne {x : ThreadPtr} {j : MutexId} (hj : j ≠ i) :
    s'.Recorded x j ↔ s.Recorded x j := by
  rw [Sys.Recorded, Sys.Recorded, hs.mutex_ne hj]

theorem inv (h : Inv s) (hr : s.cpu c = .run r)
    (hset : (s.thread r).pc.settled = true)
    (hmt : s.mtlock = none ∨ (s.thread r).pc.holdsMt = true)
    (hnew : pc'.plain = true ∨ pc'.holdsMt = true ∧ s'.mtlock = some c)
    (hrec : ∀ x, x ≠ r → s.Recorded x i → s'.Recorded x i)
    (hw : ∀ x, x ≠ r → s.Waits x i → (s.mutex i).allocated = true →
      (s.mutex i).locked = true → (s.proc x.1).mid i = true →
      m.allocated = true ∧ m.locked = true)
    (hown : ∀ p, (s.proc p).mid i = true → m.owner = some p)
    (halloc : ∀ p, (s.proc p).mid i = true → m.allocated = false →
      p = r.1 ∧ pc' = .mutexDeallocClear i)
    (htid : m.allocated = true → (m.locked = false ↔ m.tid = -1))
    (hxs : ∀ j, j ∈ xs → j ≠ i ∧ j ∈ (s.thread r).holds ∨
      j = i ∧ s'.Recorded r i)
    (hfact : s'.MutexFact r pc') : Inv s' := by
  have hp := h.present_of_run hr
  have hnb := h.not_blocked (Pc.mayBlock_of_settled hset)
  refine h.mutexStep ⟨hr, hmt, hs.thread, hs.cpu, hs.ptlock,
    fun _ => by rw [hs.proc]; exact ⟨rfl, rfl⟩, by rw [hs.self], by rw [hs.self],
    by rw [hs.self], Pc.ne_gap_of_settled hset, by rw [hs.self]; exact hnew,
    fun x j hx hj => ?_, fun x j hx hwx h₁ h₂ h₃ => ?_, fun p j hj => ?_,
    fun p j hj ha => ?_, fun j hj => ?_, fun j hj => ?_, ?_,
    by rw [hs.self]; exact hfact⟩
  · by_cases hji : j = i
    · subst hji
      exact hrec x hx hj
    · exact (hs.recorded_ne hji).mpr hj
  · rw [hs.proc]
    by_cases hji : j = i
    · subst hji
      rw [hs.mutex_self]
      obtain ⟨e₁, e₂⟩ := hw x hx hwx h₁ h₂ h₃
      exact ⟨e₁, e₂, h₃⟩
    · rw [hs.mutex_ne hji]
      exact ⟨h₁, h₂, h₃⟩
  · rw [hs.proc] at hj
    by_cases hji : j = i
    · subst hji
      rw [hs.mutex_self]
      exact hown p hj
    · rw [hs.mutex_ne hji]
      exact h.mutex.owner hj
  · rw [hs.proc] at hj
    by_cases hji : j = i
    · subst hji
      rw [hs.mutex_self] at ha
      rw [hs.self]
      exact halloc p hj ha
    · rw [hs.mutex_ne hji] at ha
      have := h.allocated_of_mid hp hmt hj (Pc.ne_clear_of_settled hset j)
      exact absurd (this.symm.trans ha) (by decide)
  · by_cases hji : j = i
    · subst hji
      rw [hs.mutex_self] at hj ⊢
      exact htid hj
    · rw [hs.mutex_ne hji] at hj ⊢
      exact h.mutex.tid hj
  · rw [hs.self] at hj
    rcases hxs j hj with ⟨hji, hj⟩ | ⟨rfl, hj⟩
    · exact (hs.recorded_ne hji).mpr (h.mutex.holds hp hj)
    · exact hj
  · rw [hs.self]
    exact fun hb => absurd (hnb.symm.trans hb) (by decide)

end SetsMutex

theorem Inv.mutexAlloc (h : Inv s) (hr : s.cpu c = .run r) {i : MutexId}
    (hpc : (s.thread r).pc = .mutexAlloc) (hl : s.mtlock = none)
    (hi : (s.mutex i).allocated = false) :
    Inv (((s.setMutex i fun _ =>
      { allocated := true, locked := false, tid := -1,
        owner := some r.1 }).goto r (.mutexAllocMid i)).acquireMt c) := by
  have hp := h.present_of_run hr
  have hno : ∀ p, (s.proc p).mid i ≠ true := fun p hm => by
    have := h.allocated_of_mid hp (.inl hl) hm (by rw [hpc]; nofun)
    exact absurd (this.symm.trans hi) (by decide)
  have hs : SetsMutex s (((s.setMutex i fun _ =>
      { allocated := true, locked := false, tid := -1,
        owner := some r.1 }).goto r (.mutexAllocMid i)).acquireMt c) r i
      ⟨false, true, -1, some r.1⟩ (.mutexAllocMid i) (s.thread r).holds :=
    ⟨s.goto_self r _, fun x hx => s.goto_ne r _ hx, rfl, rfl, rfl, rfl⟩
  refine hs.inv h hr (by rw [hpc]; rfl) (.inl hl) (.inr ⟨rfl, rfl⟩)
    (fun x _ hx => ?_) (fun x _ _ ha => ?_) (fun p hm => absurd hm (hno p))
    (fun p hm => absurd hm (hno p)) (fun _ => ⟨fun _ => rfl, fun _ => rfl⟩)
    (fun j hj => ?_) ?_
  · exact absurd (hi.symm.trans hx.1) (by decide)
  · exact absurd (hi.symm.trans ha) (by decide)
  · refine .inl ⟨?_, hj⟩
    rintro rfl
    exact absurd (hi.symm.trans (h.mutex.holds hp hj).1) (by decide)
  · rw [Sys.MutexFact, hs.mutex_self]
    exact ⟨rfl, rfl⟩

theorem Inv.mutexDeallocLocked (h : Inv s) (hr : s.cpu c = .run r) {i : MutexId}
    (hpc : (s.thread r).pc = .mutexDeallocLocked i)
    (hi : (s.mutex i).locked = false) : Inv (s.mutexDeallocLocked r i) := by
  have hp := h.present_of_run hr
  have hfact := h.mutex.fact hp
  rw [hpc] at hfact
  have hmt : s.mtlock = none ∨ (s.thread r).pc.holdsMt = true :=
    .inr (by rw [hpc]; rfl)
  have hl : s.mtlock = some c := by
    obtain ⟨c', hc', hl⟩ := h.cpu.mt hp (by rw [hpc]; rfl)
    rw [hl, h.cpu.unique hr hc']
  have hs : SetsMutex s (s.mutexDeallocLocked r i) r i
      { s.mutex i with allocated := false, locked := false, tid := -1 }
      (.mutexDeallocClear i) (s.thread r).holds := by
    rw [Sys.mutexDeallocLocked, if_neg (by simp [hi])]
    exact ⟨s.goto_self r _, fun x hx => s.goto_ne r _ hx, rfl, rfl, rfl, rfl⟩
  have hown := h.mutex.owner hfact.2
  refine hs.inv h hr (by rw [hpc]; rfl) hmt (.inr ⟨rfl, ?_⟩) (fun x _ hx => ?_)
    (fun x _ _ _ hl => ?_) (fun p hm => h.mutex.owner hm) (fun p hm _ => ⟨?_, rfl⟩)
    (by simp) (fun j hj => ?_) ?_
  · rw [Sys.mutexDeallocLocked, if_neg (by simp [hi])]
    exact hl
  · exact absurd (hi.symm.trans hx.2.1) (by decide)
  · exact absurd (hi.symm.trans hl) (by decide)
  · have := (h.mutex.owner hm).symm.trans hown
    exact Option.some.inj this
  · refine .inl ⟨?_, hj⟩
    rintro rfl
    exact absurd (hi.symm.trans (h.mutex.holds hp hj).2.1) (by decide)
  · rw [Sys.MutexFact, hs.mutex_self]

/-- The tables record at most one holder of a mutex. -/
theorem Sys.Recorded.unique {x y : ThreadPtr} {i : MutexId}
    (hx : s.Recorded x i) (hy : s.Recorded y i) : x = y := by
  have h₁ : x.1 = y.1 := Option.some.inj (hx.2.2.2.symm.trans hy.2.2.2)
  have h₂ : (x.2.val : ℤ) = y.2.val := hx.2.2.1.symm.trans hy.2.2.1
  exact Prod.ext h₁ (Fin.ext (by exact_mod_cast h₂))

theorem Inv.mutexLockTake (h : Inv s) (hr : s.cpu c = .run r) {i : MutexId}
    (hpc : (s.thread r).pc = .mutexLockTake i) : Inv (s.mutexLockTake r i) := by
  have hp := h.present_of_run hr
  have hfact := h.mutex.fact hp
  rw [hpc] at hfact
  obtain ⟨ha, ho, ht⟩ := hfact
  have hs : SetsMutex s (s.mutexLockTake r i) r i
      { s.mutex i with locked := true, tid := (s.thread r).tid } (.sysret 0)
      (insert i (s.thread r).holds) :=
    ⟨s.setThread_self r fun t => { t with pc := .sysret 0, holds := insert i t.holds },
      fun x hx => s.setThread_ne r
        (fun t => { t with pc := .sysret 0, holds := insert i t.holds }) hx,
      rfl, rfl, rfl, rfl⟩
  have htid := h.slot.tid hp
  have hrec : (s.mutexLockTake r i).Recorded r i := by
    rw [Sys.Recorded, hs.mutex_self]
    exact ⟨ha, rfl, htid, ho⟩
  refine hs.inv h hr (by rw [hpc]; rfl) (.inr (by rw [hpc]; rfl)) (.inl rfl)
    (fun x hx hxi => ?_) (fun _ _ _ ha _ _ => ⟨ha, rfl⟩)
    (fun p hm => h.mutex.owner hm) (fun p hm ha' => ?_) (fun _ => ?_)
    (fun j hj => ?_) trivial
  · -- the mutex is free or the thread's own
    rcases ht with ht | ht
    · exact absurd (ht.symm.trans hxi.2.1) (by decide)
    · exact absurd (hxi.unique ⟨ha, hxi.2.1, ht, ho⟩) hx
  · exact absurd (ha.symm.trans ha') (by decide)
  · rw [htid]
    refine ⟨by simp, fun e => ?_⟩
    have : (r.2.val : ℤ) = -1 := e
    omega
  · rcases Finset.mem_insert.mp hj with rfl | hj
    · exact .inr ⟨rfl, hrec⟩
    · by_cases hji : j = i
      · exact .inr ⟨hji, hrec⟩
      · exact .inl ⟨hji, hj⟩

theorem Inv.mutexUnlockFree (h : Inv s) (hr : s.cpu c = .run r) {i : MutexId}
    (hpc : (s.thread r).pc = .mutexUnlockFree i) :
    Inv (s.mutexUnlockFree r i) := by
  have hp := h.present_of_run hr
  have hfact := h.mutex.fact hp
  rw [hpc] at hfact
  obtain ⟨ha, hmid, ht, hno⟩ := hfact
  have ho := h.mutex.owner hmid
  have hs : SetsMutex s (s.mutexUnlockFree r i) r i
      { s.mutex i with locked := false, tid := -1 } (.sysret 0)
      ((s.thread r).holds.erase i) :=
    ⟨s.setThread_self r fun t => { t with pc := .sysret 0, holds := t.holds.erase i },
      fun x hx => s.setThread_ne r
        (fun t => { t with pc := .sysret 0, holds := t.holds.erase i }) hx,
      rfl, rfl, rfl, rfl⟩
  refine hs.inv h hr (by rw [hpc]; rfl) (.inr (by rw [hpc]; rfl)) (.inl rfl)
    (fun x hx hxi => ?_) (fun x _ hw _ _ hm => ?_)
    (fun p hm => h.mutex.owner hm) (fun p hm ha' => ?_)
    (fun _ => ⟨fun _ => rfl, fun _ => rfl⟩) (fun j hj => ?_) trivial
  · exact absurd (hxi.unique ⟨ha, hxi.2.1, ht, ho⟩) hx
  · -- a waiter belongs to the same process, which has none
    have hx : x.1 = r.1 := Option.some.inj ((h.mutex.owner hm).symm.trans ho)
    exact absurd (hx ▸ hw) (hno x.2)
  · exact absurd (ha.symm.trans ha') (by decide)
  · exact .inl ⟨Finset.ne_of_mem_erase hj, Finset.mem_of_mem_erase hj⟩

/-- `mid[i]` of the own process is set for a mutex that belongs to it, or
cleared for one that is not allocated any more. -/
theorem Inv.setMid (h : Inv s) (hr : s.cpu c = .run r) {i : MutexId} {b : Bool}
    (v : ℤ) (hmt : (s.thread r).pc.holdsMt = true)
    (hb : (s.thread r).pc.mayBlock = false)
    (hclear : ∀ j, (s.thread r).pc = .mutexDeallocClear j → j = i ∧ b = false)
    (hset : b = true → (s.mutex i).owner = some r.1 ∧
      (s.mutex i).allocated = true)
    (hunset : b = false → (s.mutex i).allocated = false ∧
      (s.thread r).pc = .mutexDeallocClear i) :
    Inv ((s.setProc r.1 fun x =>
      { x with mid := Function.update x.mid i b }).retMt r v) := by
  have hp := h.present_of_run hr
  have hnb := h.not_blocked hb
  set s' := (s.setProc r.1 fun x =>
    { x with mid := Function.update x.mid i b }).retMt r v with hs'
  have hself : s'.thread r = { s.thread r with pc := .sysret v } :=
    Sys.goto_self _ _ _
  have hmid : ∀ p j, (p = r.1 ∧ j = i → (s'.proc p).mid j = b) ∧
      (¬(p = r.1 ∧ j = i) → (s'.proc p).mid j = (s.proc p).mid j) := by
    intro p j
    have hpr := s.setProc_proc r.1 (fun x =>
      { x with mid := Function.update x.mid i b }) p
    change s'.proc p = _ at hpr
    by_cases e : p = r.1
    · subst e
      rw [if_pos rfl] at hpr
      rw [hpr]
      by_cases e' : j = i
      · subst e'
        simp
      · simp [e']
    · rw [if_neg e] at hpr
      rw [hpr]
      exact ⟨fun e' => absurd e'.1 e, fun _ => rfl⟩
  have hproc : ∀ p, (s'.proc p).state = (s.proc p).state ∧
      (s'.proc p).parent = (s.proc p).parent := fun p => by
    have hpr := s.setProc_proc r.1 (fun x =>
      { x with mid := Function.update x.mid i b }) p
    change s'.proc p = _ at hpr
    rw [hpr]
    split
    · subst_vars; exact ⟨rfl, rfl⟩
    · exact ⟨rfl, rfl⟩
  refine h.mutexStep (c := c) (r := r) ⟨hr, .inr hmt,
    fun x hx => Sys.goto_ne _ _ _ hx, rfl, rfl, hproc, by rw [hself],
    by rw [hself], by rw [hself], ?_, by rw [hself]; exact .inl rfl,
    fun x j _ hx => hx, fun x j hx hwx h₁ h₂ h₃ => ⟨h₁, h₂, ?_⟩,
    fun p j hj => ?_, fun p j hj ha => ?_, fun j => h.mutex.tid,
    fun j hj => ?_, ?_, by rw [hself]; trivial⟩
  · intro e
    rw [e] at hmt
    cases hmt
  · by_cases e : x.1 = r.1 ∧ j = i
    · rw [(hmid x.1 j).1 e]
      cases b with
      | true => rfl
      | false =>
          have h₁' := (hunset rfl).1
          rw [← e.2] at h₁'
          exact absurd (h₁'.symm.trans h₁) (by decide)
    · rwa [(hmid x.1 j).2 e]
  · by_cases e : p = r.1 ∧ j = i
    · rw [(hmid p j).1 e] at hj
      rw [e.1, e.2]
      exact (hset hj).1
    · rw [(hmid p j).2 e] at hj
      exact h.mutex.owner hj
  · exfalso
    by_cases e : p = r.1 ∧ j = i
    · rw [(hmid p j).1 e] at hj
      rw [e.2] at ha
      exact absurd ((hset hj).2.symm.trans ha) (by decide)
    · rw [(hmid p j).2 e] at hj
      obtain ⟨t, ht, hpc⟩ := h.mutex.alloc hj ha
      have hpr := h.mt_unique hp hmt ht (by rw [hpc]; rfl)
      rw [hpr] at hpc
      exact e ⟨congrArg Prod.fst hpr, (hclear j hpc).1⟩
  · rw [hself] at hj
    exact h.mutex.holds hp hj
  · rw [hself]
    exact fun e => absurd (hnb.symm.trans e) (by decide)

theorem Inv.mutexAllocMid (h : Inv s) (hr : s.cpu c = .run r) {i : MutexId}
    (hpc : (s.thread r).pc = .mutexAllocMid i) : Inv (s.mutexAllocMid r i) := by
  have hfact := h.mutex.fact (h.present_of_run hr)
  rw [hpc] at hfact
  refine h.setMid hr _ (by rw [hpc]; rfl) (by rw [hpc]; rfl) ?_
    (fun _ => hfact.symm) nofun
  rw [hpc]
  nofun

theorem Inv.mutexDeallocClear (h : Inv s) (hr : s.cpu c = .run r) {i : MutexId}
    (hpc : (s.thread r).pc = .mutexDeallocClear i) :
    Inv (s.mutexDeallocClear r i) := by
  have hfact := h.mutex.fact (h.present_of_run hr)
  rw [hpc] at hfact
  refine h.setMid hr _ (by rw [hpc]; rfl) (by rw [hpc]; rfl) ?_ nofun
    fun _ => ⟨hfact, hpc⟩
  rw [hpc]
  rintro j ⟨⟩
  exact ⟨rfl, rfl⟩

/-! ## §4  Sleeping and the hand-off -/

/-- The waiter gives up `mtable.lock` inside `sleep`, after its `chan` is
set. -/
theorem Inv.mutexLockSleep (h : Inv s) (hr : s.cpu c = .run r) {i : MutexId}
    (hpc : (s.thread r).pc = .mutexLockSleep i) (hl : s.ptlock = none) :
    Inv (s.mutexLockSleep c r i) := by
  have hp := h.present_of_run hr
  have hfact := h.mutex.fact hp
  rw [hpc] at hfact
  have hm : s.mtlock = none ∨ s.mtlock = some c :=
    h.mtlock_of_mt hr (.inr (by rw [hpc]; rfl))
  rw [Sys.mutexLockSleep, Sys.sleep_eq]
  set pst : States :=
    if s.releaseMt.siblingActive r then .RUNNABLE else .SLEEPING with hpst
  have hpst' : pst ≠ .UNUSED ∧ pst ≠ .EMBRYO := by
    rw [hpst]
    split <;> exact ⟨by decide, by decide⟩
  set s' := s.releaseMt.leave c r pst .SLEEPING (.mutex i) (.mutexLockWoken i)
    .sleep with hs'
  have hloc : Local s (s.leave c r pst .SLEEPING (.mutex i) (.mutexLockWoken i)
    .sleep) c r := h.leave_local hr (.inl hl) hpst'
  have hself : s'.thread r = { s.thread r with
      state := .SLEEPING, chan := .mutex i, pc := .mutexLockWoken i,
      context := some .sleep } := Sys.leave_thread_self _ _ _ _ _ _ _ _
  have hmid : ∀ p, (s'.proc p).mid = (s.proc p).mid :=
    Sys.leave_mid _ _ _ _ _ _ _ _
  have hloc' : Local s s' c r := { hloc with mtlock := .inr hm }
  refine h.leave hloc' (.of_leave rfl nofun)
    ?_ ?_ (.inl ?_) (.inl ?_) ?_ ⟨rfl, hmid, ?_, ?_, ?_, ?_, ?_, ?_⟩
  · exact .inl (by rw [hself])
  · rw [hself]
  · rw [hself]; rfl
  · rw [hself]; rfl
  · rw [hself]; trivial
  · rw [hself]
  · rw [hself]
  · rw [hself]; exact fun _ => rfl
  · rw [hpc]; nofun
  · rw [hpc]; exact fun _ _ => .inr rfl
  · rw [hself]
    refine ⟨.inr (by rw [hself]), fun e => absurd (by rw [hself]) e, fun e => ?_,
      fun _ => ⟨hfact.1, hfact.2.2.1, ?_⟩⟩
    · rw [hself] at e
      exact absurd (hfact.2.2.2.symm.trans e) (by decide)
    · rw [hmid]
      exact hfact.2.1

/-- A waiter that does not hold `mtable.lock` is asleep in
`kthread_mutex_lock`. -/
theorem Inv.woken_of_waits (h : Inv s) {w : ThreadPtr} {i : MutexId}
    (hw : s.Waits w i) (hout : (s.thread w).pc.holdsMt = false) :
    s.Present w ∧ (s.thread w).pc = .mutexLockWoken i ∧
      (s.thread w).context = some .sleep := by
  obtain ⟨hp, hb⟩ := h.mutex.blocked hw.1
  have hfact := h.mutex.fact hp
  cases hpc : (s.thread w).pc <;> rw [hpc] at hb hout hfact <;>
    first | cases hb; done | cases hout; done | skip
  case mutexLockWoken j =>
    obtain ⟨hch, hcx, _⟩ := hfact
    rw [hw.2] at hch hcx
    refine ⟨hp, ?_, ?_⟩
    · rcases hch with e | e
      · cases e
      · rw [Chan.mutex.inj e]
    · by_contra hne
      cases hcx hne

/-- The waiter is handed the mutex: it is woken with `blocked` cleared. -/
theorem Inv.wakeWaiter (h : Inv s) (hmt : s.mtlock = none) {w : ThreadPtr}
    {i : MutexId} (hw : s.Waits w i) (hrec : s.Recorded w i)
    (hself : s'.thread w =
      { s.thread w with chan := .null, state := .RUNNABLE, blocked := false })
    (hne : ∀ x, x ≠ w → s'.thread x = s.thread x) (hm : s'.mutex = s.mutex)
    (hp : s'.proc = s.proc) (hc : s'.cpu = s.cpu) (hpt : s'.ptlock = s.ptlock)
    (hmt' : s'.mtlock = s.mtlock) : Inv s' := by
  obtain ⟨hpw, hpc, hcx⟩ := h.woken_of_waits hw
    (h.not_holdsMt_of_free hmt (h.mutex.blocked hw.1).1)
  have hpark : (s.thread w).Parked := by
    refine ⟨hpw, fun e => ?_, fun e => ?_⟩
    · rw [h.slot.embryo e] at hpc
      cases hpc
    · rw [hcx] at e
      cases e
  have hloose : Loose s s' := by
    refine ⟨fun x => ?_, fun p => by rw [hp]; exact SoftProc.refl _, hc, hpt, hmt'⟩
    by_cases hx : x = w
    · subst hx
      rw [hself]
      exact ⟨rfl, rfl, rfl, .inr ⟨hpark, by simp, by simp⟩⟩
    · rw [hne x hx]
      exact LooseThread.refl _
  refine ⟨h.cpu.loose hloose, h.slot.loose hloose, ⟨fun {p j} hj => ?_,
    fun {p j} hj ha => ?_, fun {j} hj => ?_, fun {x j} hx hj => ?_,
    fun {x} hx => ?_, fun {x} hx => ?_⟩⟩
  · rw [hp] at hj
    rw [hm]
    exact h.mutex.owner hj
  · rw [hp] at hj
    rw [hm] at ha
    obtain ⟨t, ht, htpc⟩ := h.mutex.alloc hj ha
    exact ⟨t, (hloose.present_iff _).mpr ht, (hloose.thread _).pc.trans htpc⟩
  · rw [hm] at hj ⊢
    exact h.mutex.tid hj
  · have hx' := (hloose.present_iff x).mp hx
    rw [Sys.Recorded, hm]
    refine h.mutex.holds hx' ?_
    by_cases hxw : x = w
    · subst hxw
      rwa [hself] at hj
    · rwa [hne x hxw] at hj
  · by_cases hxw : x = w
    · subst hxw
      rw [hself] at hx
      cases hx
    · rw [hne x hxw] at hx
      obtain ⟨h₁, h₂⟩ := h.mutex.blocked hx
      exact ⟨(hloose.present_iff x).mpr h₁, by rwa [hne x hxw]⟩
  · by_cases hxw : x = w
    · subst hxw
      rw [hself, hpc]
      refine ⟨.inl (by rw [hself]), fun _ => by rw [hself], fun _ => ?_, fun e => ?_⟩
      · rwa [Sys.Recorded, hm]
      · rw [Sys.Waits, hself] at e
        cases e.1
    · have hx' := (hloose.present_iff x).mp hx
      rw [hne x hxw]
      refine (h.mutex.fact hx').congr hm (by rw [hp]) (by rw [hne x hxw])
        (fun e => by rwa [hne x hxw] at e) (by rw [hne x hxw]) fun e => ?_
      exact absurd ((h.not_holdsMt_of_free hmt hx').symm.trans e) (by decide)

theorem Sys.waiter_some {i : MutexId} {u : Slot} (h : s.waiter r i = some u) :
    u ≠ r.2 ∧ s.Waits (r.1, u) i := by
  have hmem := List.mem_of_find?_eq_some h
  have hw := List.find?_some h
  simp only [Bool.and_eq_true, decide_eq_true_eq] at hw
  refine ⟨?_, hw⟩
  rintro rfl
  revert hmem
  generalize r.2 = t
  revert t
  decide

/-- The hand-off is the unlocking thread's part followed by the waiter's. -/
theorem Inv.handOff (h : Inv s) (hr : s.cpu c = .run r) {i : MutexId} {u : Slot}
    (hpc : (s.thread r).pc = .mutexUnlockScan i) (hu : s.waiter r i = some u) :
    Inv (s.handOff r i u) := by
  have hp := h.present_of_run hr
  have hfact := h.mutex.fact hp
  rw [hpc] at hfact
  obtain ⟨ha, hmid, ht⟩ := hfact
  have ho := h.mutex.owner hmid
  obtain ⟨hur, hw⟩ := Sys.waiter_some hu
  have hne : (r.1, u) ≠ r := fun e => hur (congrArg Prod.snd e)
  have hut : (s.thread (r.1, u)).tid = u.val := h.slot.tid (h.mutex.blocked hw.1).1
  have hlk : (s.mutex i).locked = true := by
    cases hlk : (s.mutex i).locked with
    | true => rfl
    | false =>
        have := ht.symm.trans ((h.mutex.tid ha).mp hlk)
        omega
  set s₁ : Sys Cpu :=
    ((s.setMutex i fun m => { m with tid := (s.thread (r.1, u)).tid }).setThread
      r fun t => { t with pc := .sysret 0, holds := t.holds.erase i }).releaseMt
    with hs₁
  have hs : SetsMutex s s₁ r i { s.mutex i with tid := (s.thread (r.1, u)).tid }
      (.sysret 0) ((s.thread r).holds.erase i) :=
    ⟨s.setThread_self r fun t => { t with pc := .sysret 0, holds := t.holds.erase i },
      fun x hx => s.setThread_ne r
        (fun t => { t with pc := .sysret 0, holds := t.holds.erase i }) hx,
      rfl, rfl, rfl, rfl⟩
  have h₁ : Inv s₁ := by
    refine hs.inv h hr (by rw [hpc]; rfl) (.inr (by rw [hpc]; rfl)) (.inl rfl)
      (fun x hx hxi => ?_) (fun x _ _ ha hl _ => ⟨ha, hl⟩)
      (fun p hm => h.mutex.owner hm) (fun p hm ha' => ?_) (fun _ => ?_)
      (fun j hj => ?_) trivial
    · exact absurd (hxi.unique ⟨ha, hlk, ht, ho⟩) hx
    · exact absurd (ha.symm.trans ha') (by decide)
    · rw [hut]
      refine ⟨fun e => absurd (hlk.symm.trans e) (by decide), fun e => ?_⟩
      have : (u.val : ℤ) = -1 := e
      omega
    · exact .inl ⟨Finset.ne_of_mem_erase hj, Finset.mem_of_mem_erase hj⟩
  have hw₁ : s₁.Waits (r.1, u) i := by
    rw [Sys.Waits, hs.thread _ hne]
    exact hw
  refine h₁.wakeWaiter (w := (r.1, u)) rfl hw₁ ?_ ?_ (fun x hx => ?_) rfl rfl rfl
    rfl rfl
  · rw [Sys.Recorded, hs.mutex_self]
    exact ⟨ha, hlk, hut, ho⟩
  · rw [hs.thread _ hne]
    simp [Sys.handOff, Sys.releaseMt, Sys.setThread, Function.update_of_ne hne]
  · by_cases hxr : x = r
    · subst hxr
      rw [hs.self]
      simp [Sys.handOff, Sys.releaseMt, Sys.setThread, Function.update_of_ne hne.symm]
    · rw [hs.thread x hxr]
      simp [Sys.handOff, Sys.releaseMt, Sys.setThread, Function.update_of_ne hx,
        Function.update_of_ne hxr]

end Xv6.Kernel
