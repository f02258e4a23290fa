import Xv6.Kernel.Invariant

/-!
# What preserves the invariant

The sections are composed of a few kinds of changes, and each kind is shown
once to preserve `Inv`.

* `Inv.soft`: sleeping or runnable threads are woken or marked `ZOMBIE`
  (`wakeup1`, `kill`, the marking loops of `exit` and `kill_threads`), and
  process states change among those of a live process.
* `Inv.goOn`: the running thread goes on to another section.
* `Inv.leave`: the running thread gives up its CPU (`sched`).

Sections that dispatch, free or fill slots are in `Xv6.Kernel.PreserveSlot`.
The mutex sections are in `Xv6.Kernel.PreserveMutex`.
-/

set_option linter.unusedSectionVars false

namespace Xv6.Kernel

variable {Cpu : Type} [DecidableEq Cpu]

/-! ## §1  Facts depend on little -/

theorem Sys.SlotFact.mono {s s' : Sys Cpu} {r : ThreadPtr} {pc : Pc}
    (hE : ∀ x, x.1 = r.1 ∧ pc.creates = some x.2 ∨ pc.forks = some x.1 →
      (s.thread x).state = .EMBRYO → (s'.thread x).state = .EMBRYO ∧
        (s'.thread x).context = (s.thread x).context)
    (hU : ∀ x, pc = .execClear ∧ x.1 = r.1 ∨ pc.forks = some x.1 →
      (s.thread x).state = .UNUSED → (s'.thread x).state = .UNUSED)
    (hP : ∀ q, pc.forks = some q → (s.proc q).state = .EMBRYO →
      (s'.proc q).state = .EMBRYO)
    (h : s.SlotFact r pc) : s'.SlotFact r pc := by
  have hO : ∀ q xs, pc.forks = some q → s.OnlySlots q xs → s'.OnlySlots q xs :=
    fun q xs hq ho t ht => hU (q, t) (.inr hq) (ho t ht)
  have hR : ∀ x, x.1 = r.1 ∧ pc.creates = some x.2 ∨ pc.forks = some x.1 →
      (s.thread x).Ready → (s'.thread x).Ready := fun x hx hr => by
    obtain ⟨h₁, h₂⟩ := hE x hx hr.1
    exact ⟨h₁, h₂ ▸ hr.2⟩
  cases pc <;> simp only [Sys.SlotFact] at h ⊢
  case createStack u => exact (hE (r.1, u) (.inl ⟨rfl, rfl⟩) h).1
  case createPublish => exact hR _ (.inl ⟨rfl, rfl⟩) h
  case forkThread | forkFail => exact ⟨hP _ rfl h.1, hO _ _ rfl h.2⟩
  case forkStack =>
    exact ⟨hP _ rfl h.1, hO _ _ rfl h.2.1, (hE _ (.inr rfl) h.2.2.1).1,
      h.2.2.2⟩
  case forkCopy | forkThreadRunnable =>
    exact ⟨hP _ rfl h.1, hO _ _ rfl h.2.1, hR _ (.inr rfl) h.2.2⟩
  case forkRunnable => exact hP _ rfl h
  case execClear => exact fun t ht => hU _ (.inl ⟨rfl, rfl⟩) (h t ht)

theorem Sys.MutexFact.congr {s s' : Sys Cpu} {r : ThreadPtr} {pc : Pc}
    (hm : s'.mutex = s.mutex) (hp : (s'.proc r.1).mid = (s.proc r.1).mid)
    (hch : (s'.thread r).chan = (s.thread r).chan)
    (hcx : (s'.thread r).context ≠ some .sleep →
      (s.thread r).context ≠ some .sleep)
    (hb : (s'.thread r).blocked = (s.thread r).blocked)
    (hw : pc.holdsMt = true → ∀ u i, s'.Waits (r.1, u) i → s.Waits (r.1, u) i)
    (h : s.MutexFact r pc) : s'.MutexFact r pc := by
  cases pc <;> simp only [Sys.MutexFact, Sys.Recorded, hm, hp, hb, hch] at h ⊢ <;>
    try exact h
  case mutexLockWoken i =>
    obtain ⟨h1, h2, h3, h4⟩ := h
    refine ⟨h1, fun hc => h2 (hcx hc), h3, fun hwt => h4 ?_⟩
    rwa [Sys.Waits, hb, hch] at hwt
  case mutexUnlockFree i =>
    obtain ⟨h1, h2, h3, h4⟩ := h
    exact ⟨h1, h2, h3, fun u hwt => h4 u (hw rfl u i hwt)⟩

/-! ## §2  Soft changes -/

/-- A thread in use that is on no CPU. -/
def Thread.Parked (t : Thread) : Prop :=
  t.state ≠ .UNUSED ∧ t.state ≠ .EMBRYO ∧
    (t.context = none → t.state ≠ .RUNNING ∧
      (t.state = .ZOMBIE → t.pc ≠ .kthreadExitSched))

/-- A thread that is on no CPU gets another state. -/
structure LooseThread (t t' : Thread) : Prop where
  tid : t'.tid = t.tid
  context : t'.context = t.context
  pc : t'.pc = t.pc
  state : t'.state = t.state ∨
    t.Parked ∧ t'.state ≠ .UNUSED ∧ t'.state ≠ .EMBRYO

/-- In addition it keeps its channel and its mutexes; `killed` is free. -/
structure SoftThread (t t' : Thread) : Prop extends LooseThread t t' where
  chan : t'.chan = t.chan
  blocked : t'.blocked = t.blocked
  holds : t'.holds = t.holds

/-- A process neither appears nor disappears. -/
structure SoftProc (p p' : Proc) : Prop where
  state : p'.state = p.state ∨ p.Alive ∧ p'.Alive
  parent : p.parent = none → p'.parent = none

theorem LooseThread.refl (t : Thread) : LooseThread t t :=
  ⟨rfl, rfl, rfl, .inl rfl⟩

theorem SoftThread.refl (t : Thread) : SoftThread t t :=
  ⟨LooseThread.refl t, rfl, rfl, rfl⟩

theorem SoftProc.refl (p : Proc) : SoftProc p p := ⟨.inl rfl, id⟩

theorem Thread.Parked.of_asleep {t : Thread}
    (h : t.state = .RUNNABLE ∨ t.state = .SLEEPING) : t.Parked := by
  rcases h with h | h <;> simp [Thread.Parked, h]

namespace LooseThread

variable {t t' : Thread} (h : LooseThread t t')
include h

theorem unused_iff : t'.state = .UNUSED ↔ t.state = .UNUSED := by
  rcases h.state with hs | ⟨hs, hs', _⟩
  · rw [hs]
  · exact ⟨fun e => absurd e hs', fun e => absurd e hs.1⟩

theorem embryo_iff : t'.state = .EMBRYO ↔ t.state = .EMBRYO := by
  rcases h.state with hs | ⟨hs, _, hs'⟩
  · rw [hs]
  · exact ⟨fun e => absurd e hs', fun e => absurd e hs.2.1⟩

end LooseThread

namespace SoftProc

variable {p p' : Proc} (h : SoftProc p p')
include h

theorem unused_iff : p'.state = .UNUSED ↔ p.state = .UNUSED := by
  rcases h.state with hs | ⟨hs, hs'⟩
  · rw [hs]
  · exact ⟨fun e => absurd e hs'.1, fun e => absurd e hs.1⟩

theorem embryo_iff : p'.state = .EMBRYO ↔ p.state = .EMBRYO := by
  rcases h.state with hs | ⟨hs, hs'⟩
  · rw [hs]
  · exact ⟨fun e => absurd e hs'.2, fun e => absurd e hs.2⟩

theorem alive (ha : p.Alive) : p'.Alive :=
  ⟨fun e => ha.1 (h.unused_iff.mp e), fun e => ha.2 (h.embryo_iff.mp e)⟩

end SoftProc

/-- Only loose changes. -/
structure Loose (s s' : Sys Cpu) : Prop where
  thread : ∀ r, LooseThread (s.thread r) (s'.thread r)
  proc : ∀ p, SoftProc (s.proc p) (s'.proc p)
  cpu : s'.cpu = s.cpu
  ptlock : s'.ptlock = s.ptlock
  mtlock : s'.mtlock = s.mtlock

/-- Only soft changes. -/
structure Soft (s s' : Sys Cpu) : Prop where
  thread : ∀ r, SoftThread (s.thread r) (s'.thread r)
  proc : ∀ p, SoftProc (s.proc p) (s'.proc p)
  mid : ∀ p, (s'.proc p).mid = (s.proc p).mid
  mutex : s'.mutex = s.mutex
  cpu : s'.cpu = s.cpu
  ptlock : s'.ptlock = s.ptlock
  mtlock : s'.mtlock = s.mtlock

theorem Soft.loose {s s' : Sys Cpu} (hs : Soft s s') : Loose s s' :=
  ⟨fun r => (hs.thread r).toLooseThread, hs.proc, hs.cpu, hs.ptlock, hs.mtlock⟩

theorem SoftThread.trans {t₁ t₂ t₃ : Thread} (h₁ : SoftThread t₁ t₂)
    (h₂ : SoftThread t₂ t₃) : SoftThread t₁ t₃ := by
  refine ⟨⟨h₂.tid.trans h₁.tid, h₂.context.trans h₁.context, h₂.pc.trans h₁.pc, ?_⟩,
    h₂.chan.trans h₁.chan, h₂.blocked.trans h₁.blocked, h₂.holds.trans h₁.holds⟩
  rcases h₁.state with e₁ | ⟨p₁, u₁, m₁⟩ <;> rcases h₂.state with e₂ | ⟨p₂, u₂, m₂⟩
  · exact .inl (e₂.trans e₁)
  · refine .inr ⟨?_, u₂, m₂⟩
    rwa [Thread.Parked, e₁, h₁.context, h₁.pc] at p₂
  · exact .inr ⟨p₁, e₂ ▸ u₁, e₂ ▸ m₁⟩
  · exact .inr ⟨p₁, u₂, m₂⟩

theorem SoftProc.trans {p₁ p₂ p₃ : Proc} (h₁ : SoftProc p₁ p₂)
    (h₂ : SoftProc p₂ p₃) : SoftProc p₁ p₃ := by
  refine ⟨?_, fun e => h₂.parent (h₁.parent e)⟩
  rcases h₁.state with e₁ | ⟨a₁, a₂⟩
  · rcases h₂.state with e₂ | ⟨b₁, b₂⟩
    · exact .inl (e₂.trans e₁)
    · exact .inr ⟨by rwa [Proc.Alive, e₁] at b₁, b₂⟩
  · exact .inr ⟨a₁, h₂.alive a₂⟩

theorem Soft.trans {s₁ s₂ s₃ : Sys Cpu} (h₁ : Soft s₁ s₂) (h₂ : Soft s₂ s₃) :
    Soft s₁ s₃ :=
  ⟨fun r => (h₁.thread r).trans (h₂.thread r),
    fun p => (h₁.proc p).trans (h₂.proc p), fun p => (h₂.mid p).trans (h₁.mid p),
    h₂.mutex.trans h₁.mutex, h₂.cpu.trans h₁.cpu, h₂.ptlock.trans h₁.ptlock,
    h₂.mtlock.trans h₁.mtlock⟩

theorem Soft.refl (s : Sys Cpu) : Soft s s :=
  ⟨fun _ => SoftThread.refl _, fun _ => SoftProc.refl _, fun _ => rfl, rfl, rfl,
    rfl, rfl⟩

namespace Loose

variable {s s' : Sys Cpu} (hs : Loose s s')
include hs

theorem present_iff (r : ThreadPtr) : s'.Present r ↔ s.Present r :=
  not_congr (hs.thread r).unused_iff

theorem slotFact {r : ThreadPtr} {pc : Pc} (h : s.SlotFact r pc) :
    s'.SlotFact r pc :=
  h.mono (fun x _ e => ⟨(hs.thread x).embryo_iff.mpr e, (hs.thread x).context⟩)
    (fun x _ => (hs.thread x).unused_iff.mpr)
    (fun q _ => (hs.proc q).embryo_iff.mpr)

end Loose

theorem Soft.mutexFact {s s' : Sys Cpu} (hs : Soft s s') {r : ThreadPtr}
    {pc : Pc} (h : s.MutexFact r pc) : s'.MutexFact r pc := by
  refine h.congr hs.mutex (hs.mid r.1) (hs.thread r).chan
    (fun e => (hs.thread r).context ▸ e) (hs.thread r).blocked
    fun _ u i hw => ?_
  rwa [Sys.Waits, (hs.thread (r.1, u)).blocked, (hs.thread (r.1, u)).chan] at hw

theorem CpuInv.loose {s s' : Sys Cpu} (h : CpuInv s) (hs : Loose s s') :
    CpuInv s' where
  context {c r} hr := by
    rw [(hs.thread r).context]
    exact h.context (hs.cpu ▸ hr)
  unique h₁ h₂ := h.unique (hs.cpu ▸ h₁) (hs.cpu ▸ h₂)
  state {c r} hr := by
    have hr' := h.state (hs.cpu ▸ hr)
    have hst : (s'.thread r).state = (s.thread r).state := by
      rcases (hs.thread r).state with e | ⟨hp, _⟩
      · exact e
      · obtain ⟨hrun, hgap⟩ := hp.2.2 (h.context (hs.cpu ▸ hr))
        rcases hr' with e | ⟨e, hpc⟩
        · exact absurd e hrun
        · exact absurd hpc (hgap e)
    rwa [hst, (hs.thread r).pc]
  alive {c r} hr := (hs.proc r.1).alive (h.alive (hs.cpu ▸ hr))
  mt {r} hr hp := by
    rw [(hs.thread r).pc] at hp
    rw [hs.cpu, hs.mtlock]
    exact h.mt ((hs.present_iff r).mp hr) hp
  pt {c r} hr hp := by
    rw [(hs.thread r).pc] at hp
    rw [hs.ptlock]
    exact h.pt (hs.cpu ▸ hr) hp
  scan {c p k} hr := by
    obtain ⟨h₁, h₂⟩ := h.scan (hs.cpu ▸ hr)
    exact ⟨hs.ptlock ▸ h₁, (hs.proc p).alive h₂⟩
  held {r k} hr hc hp := by
    rw [(hs.thread r).context] at hc
    rw [(hs.thread r).pc] at hp
    exact h.held ((hs.present_iff r).mp hr) hc hp

theorem SlotInv.loose {s s' : Sys Cpu} (h : SlotInv s) (hs : Loose s s') :
    SlotInv s' where
  tid {r} hr := by
    rw [(hs.thread r).tid]
    exact h.tid ((hs.present_iff r).mp hr)
  embryo {r} hr := by
    rw [(hs.thread r).pc]
    exact h.embryo ((hs.thread r).embryo_iff.mp hr)
  unused {p} hp t ht :=
    (hs.thread (p, t)).unused_iff.mpr
      (h.unused ((hs.proc p).unused_iff.mp hp) t ht)
  orphan {p} hp := (hs.proc p).parent (h.orphan (hp.imp
    (hs.proc p).unused_iff.mp (hs.proc p).embryo_iff.mp))
  fact {r} hr := by
    rw [(hs.thread r).pc]
    exact hs.slotFact (h.fact ((hs.present_iff r).mp hr))
  createUnique h₁ h₂ h₃ h₄ := by
    rw [(hs.thread _).pc] at h₃ h₄
    exact h.createUnique ((hs.present_iff _).mp h₁) ((hs.present_iff _).mp h₂)
      h₃ h₄
  forkUnique h₁ h₂ h₃ h₄ := by
    rw [(hs.thread _).pc] at h₃ h₄
    exact h.forkUnique ((hs.present_iff _).mp h₁) ((hs.present_iff _).mp h₂)
      h₃ h₄

theorem MutexInv.soft {s s' : Sys Cpu} (h : MutexInv s) (hs : Soft s s') :
    MutexInv s' where
  owner {p i} hp := by
    rw [hs.mid p] at hp
    rw [hs.mutex]
    exact h.owner hp
  alloc {p i} hp hi := by
    rw [hs.mid p] at hp
    rw [hs.mutex] at hi
    obtain ⟨t, ht, hpc⟩ := h.alloc hp hi
    exact ⟨t, (hs.loose.present_iff _).mpr ht, (hs.thread _).pc.trans hpc⟩
  tid {i} hi := by
    rw [hs.mutex] at hi ⊢
    exact h.tid hi
  holds {r i} hr hi := by
    rw [(hs.thread r).holds] at hi
    have := h.holds ((hs.loose.present_iff r).mp hr) hi
    simpa only [Sys.Recorded, hs.mutex] using this
  blocked {r} hr := by
    rw [(hs.thread r).blocked] at hr
    rw [(hs.thread r).pc]
    exact ⟨(hs.loose.present_iff r).mpr (h.blocked hr).1, (h.blocked hr).2⟩
  fact {r} hr := by
    rw [(hs.thread r).pc]
    exact hs.mutexFact (h.fact ((hs.loose.present_iff r).mp hr))

theorem Inv.soft {s s' : Sys Cpu} (h : Inv s) (hs : Soft s s') : Inv s' :=
  ⟨h.cpu.loose hs.loose, h.slot.loose hs.loose, h.mutex.soft hs⟩

/-! ## §3  The running thread acts on its own slot -/

/-- Thread `r`, which runs on `c` or is put on it, changes its own slot and
this CPU; the processes change softly, and a spinlock changes only if nobody
else holds it. -/
structure Local (s s' : Sys Cpu) (c : Cpu) (r : ThreadPtr) : Prop where
  only : ∀ c', s.cpu c' = .run r → c' = c
  self : ∀ x, s.cpu c = .run x → x = r
  alive : (s.proc r.1).Alive
  present : s.Present r
  embryo : (s.thread r).state ≠ .EMBRYO
  thread : ∀ x, x ≠ r → s'.thread x = s.thread x
  cpu : ∀ c', c' ≠ c → s'.cpu c' = s.cpu c'
  proc : ∀ p, SoftProc (s.proc p) (s'.proc p)
  ptlock : s'.ptlock = s.ptlock ∨ s.PtFree c
  mtlock : s'.mtlock = s.mtlock ∨ s.mtlock = none ∨ s.mtlock = some c

/-- The thread runs. -/
structure Stays (s' : Sys Cpu) (c : Cpu) (r : ThreadPtr) : Prop where
  cpu : s'.cpu c = .run r
  context : (s'.thread r).context = none
  state : (s'.thread r).state = .RUNNING ∨
    (s'.thread r).state = .ZOMBIE ∧ (s'.thread r).pc = .kthreadExitSched
  mt : (s'.thread r).pc.holdsMt = true → s'.mtlock = some c
  pt : (s'.thread r).pc.holdsPt = true → s'.ptlock = some c

/-- The thread has switched to the scheduler, or its stack is gone. -/
structure Leaves (s' : Sys Cpu) (c : Cpu) (r : ThreadPtr) : Prop where
  cpu : (∃ k, s'.cpu c = .scan r.1 k) ∧ s'.ptlock = some c ∨ s'.cpu c = .junk r
  mt : (s'.thread r).pc.holdsMt = false
  held : ∀ k, (s'.thread r).pc.holdsPt = true →
    (s'.thread r).context = some k → k = .sleepHeld

/-- A thread on its CPU. -/
theorem Local.of_run {s s' : Sys Cpu} {c : Cpu} {r : ThreadPtr} (h : Inv s)
    (hr : s.cpu c = .run r) (ht : ∀ x, x ≠ r → s'.thread x = s.thread x)
    (hc : ∀ c', c' ≠ c → s'.cpu c' = s.cpu c')
    (hp : ∀ p, SoftProc (s.proc p) (s'.proc p))
    (hpt : s'.ptlock = s.ptlock ∨ s.PtFree c)
    (hmt : s'.mtlock = s.mtlock ∨ s.mtlock = none ∨ s.mtlock = some c) :
    Local s s' c r := by
  refine ⟨fun c' hc' => h.cpu.unique hc' hr, fun x hx => ?_, h.cpu.alive hr,
    h.present_of_run hr, ?_, ht, hc, hp, hpt, hmt⟩
  · rw [hr] at hx
    exact (CpuState.run.inj hx).symm
  · rcases h.cpu.state hr with e | ⟨e, _⟩ <;> simp [e]

section Local

variable {s s' : Sys Cpu} {c : Cpu} {r : ThreadPtr}

/-- Another thread runs on another CPU. -/
theorem Local.ne_cpu (hl : Local s s' c r) {c' : Cpu} {x : ThreadPtr}
    (hx : s.cpu c' = .run x) (hxr : x ≠ r) : c' ≠ c := by
  rintro rfl
  exact hxr (hl.self x hx)

/-- What runs on a CPU afterwards: the thread itself, or what ran there. -/
theorem Local.run_cases (hl : Local s s' c r)
    (hr : Stays s' c r ∨ Leaves s' c r) {c' : Cpu} {x : ThreadPtr}
    (hx : s'.cpu c' = .run x) :
    c' = c ∧ x = r ∧ Stays s' c r ∨ c' ≠ c ∧ x ≠ r ∧ s.cpu c' = .run x := by
  by_cases hc : c' = c
  · subst hc
    rcases hr with hr | hr
    · rw [hr.cpu] at hx
      exact .inl ⟨rfl, (CpuState.run.inj hx).symm, hr⟩
    · rcases hr.cpu with ⟨⟨k, hk⟩, _⟩ | hk <;> rw [hk] at hx <;> cases hx
  · rw [hl.cpu c' hc] at hx
    refine .inr ⟨hc, ?_, hx⟩
    rintro rfl
    exact hc (hl.only c' hx)

/-- A lock held by another CPU keeps its holder. -/
theorem Local.ptlock_other (hl : Local s s' c r) {c' : Cpu} (hc : c' ≠ c)
    (hp : s.ptlock = some c') : s'.ptlock = some c' := by
  rcases hl.ptlock with h | h | h
  · rw [h, hp]
  · rw [hp] at h; cases h
  · rw [hp] at h
    exact absurd (Option.some.inj h) hc

theorem Local.mtlock_other (hl : Local s s' c r) {c' : Cpu} (hc : c' ≠ c)
    (hp : s.mtlock = some c') : s'.mtlock = some c' := by
  rcases hl.mtlock with h | h | h
  · rw [h, hp]
  · rw [hp] at h; cases h
  · rw [hp] at h
    exact absurd (Option.some.inj h) hc

theorem Local.present_of (hl : Local s s' c r) {x : ThreadPtr}
    (hx : s'.Present x) : s.Present x := by
  by_cases hxr : x = r
  · exact hxr ▸ hl.present
  · rwa [Sys.Present, hl.thread x hxr] at hx

theorem CpuInv.act (h : CpuInv s) (hl : Local s s' c r)
    (hr : Stays s' c r ∨ Leaves s' c r) : CpuInv s' where
  context {c' x} hx := by
    rcases hl.run_cases hr hx with ⟨_, rfl, hst⟩ | ⟨_, hne, hx'⟩
    · exact hst.context
    · rw [hl.thread x hne]
      exact h.context hx'
  unique {c₁ c₂ x} h₁ h₂ := by
    rcases hl.run_cases hr h₁ with ⟨e₁, hx, _⟩ | ⟨_, hx, h₁⟩ <;>
      rcases hl.run_cases hr h₂ with ⟨e₂, hx', _⟩ | ⟨_, hx', h₂⟩
    · rw [e₁, e₂]
    · exact absurd hx hx'
    · exact absurd hx' hx
    · exact h.unique h₁ h₂
  state {c' x} hx := by
    rcases hl.run_cases hr hx with ⟨_, rfl, hst⟩ | ⟨_, hne, hx'⟩
    · exact hst.state
    · rw [hl.thread x hne]
      exact h.state hx'
  alive {c' x} hx := by
    rcases hl.run_cases hr hx with ⟨_, rfl, _⟩ | ⟨_, _, hx'⟩
    · exact (hl.proc x.1).alive hl.alive
    · exact (hl.proc x.1).alive (h.alive hx')
  mt {x} hx hp := by
    by_cases hxr : x = r
    · subst hxr
      rcases hr with hr | hr
      · exact ⟨c, hr.cpu, hr.mt hp⟩
      · rw [hr.mt] at hp; cases hp
    · rw [hl.thread x hxr] at hp
      obtain ⟨c', hc', hm⟩ := h.mt (hl.present_of hx) hp
      have hne := hl.ne_cpu hc' hxr
      exact ⟨c', (hl.cpu c' hne).trans hc', hl.mtlock_other hne hm⟩
  pt {c' x} hx hp := by
    rcases hl.run_cases hr hx with ⟨rfl, rfl, hst⟩ | ⟨hc, hne, hx'⟩
    · exact hst.pt hp
    · rw [hl.thread x hne] at hp
      exact hl.ptlock_other hc (h.pt hx' hp)
  scan {c' p k} hx := by
    by_cases hc : c' = c
    · subst hc
      rcases hr with hr | hr
      · rw [hr.cpu] at hx; cases hx
      · rcases hr.cpu with ⟨⟨k', hk⟩, hpt⟩ | hk <;> rw [hk] at hx <;> cases hx
        exact ⟨hpt, (hl.proc _).alive hl.alive⟩
    · rw [hl.cpu c' hc] at hx
      obtain ⟨h₁, h₂⟩ := h.scan hx
      exact ⟨hl.ptlock_other hc h₁, (hl.proc p).alive h₂⟩
  held {x k} hx hk hp := by
    by_cases hxr : x = r
    · subst hxr
      rcases hr with hr | hr
      · rw [hr.context] at hk; cases hk
      · exact hr.held k hp hk
    · rw [hl.thread x hxr] at hk hp
      exact h.held (hl.present_of hx) hk hp

theorem Local.unused (hl : Local s s' c r) {x : ThreadPtr}
    (hx : (s.thread x).state = .UNUSED) : (s'.thread x).state = .UNUSED := by
  have hxr : x ≠ r := fun e => hl.present (e ▸ hx)
  rwa [hl.thread x hxr]

/-- The thread was neither free nor under construction, so it changes no fact
about such slots. -/
theorem Local.slotFact (hl : Local s s' c r) {x : ThreadPtr} {pc : Pc}
    (h : s.SlotFact x pc) : s'.SlotFact x pc := by
  refine h.mono (fun y _ hy => ?_) (fun y _ => hl.unused)
    fun q _ => (hl.proc q).embryo_iff.mpr
  have hyr : y ≠ r := fun e => hl.embryo (e ▸ hy)
  rw [hl.thread y hyr]
  exact ⟨hy, rfl⟩

/-- The claims of program point `pc` on slots and processes under construction
are made by no thread but `r`. -/
structure Sys.Claims (s : Sys Cpu) (r : ThreadPtr) (pc : Pc) : Prop where
  creates : ∀ u, pc.creates = some u → ∀ t, t ≠ r.2 → s.Present (r.1, t) →
    (s.thread (r.1, t)).pc.creates ≠ some u
  forks : ∀ q, pc.forks = some q → ∀ x, x ≠ r → s.Present x →
    (s.thread x).pc.forks ≠ some q

theorem Sys.Claims.of_none {pc : Pc} (hc : pc.creates = none)
    (hf : pc.forks = none) : s.Claims r pc := by
  constructor
  · rw [hc]; nofun
  · rw [hf]; nofun

/-- What the slot of the acting thread must keep. Its claim on a slot or a
process under construction is the only one. -/
structure OwnSlot (s s' : Sys Cpu) (r : ThreadPtr) : Prop where
  present : s'.Present r
  embryo : (s'.thread r).state ≠ .EMBRYO
  tid : (s'.thread r).tid = (s.thread r).tid
  fact : s'.SlotFact r (s'.thread r).pc
  claims : s.Claims r (s'.thread r).pc

/-- No claim, or the claim the thread had. -/
theorem OwnSlot.of_same (h : SlotInv s) (hl : Local s s' c r)
    (hp : s'.Present r) (he : (s'.thread r).state ≠ .EMBRYO)
    (htid : (s'.thread r).tid = (s.thread r).tid)
    (hfact : s'.SlotFact r (s'.thread r).pc)
    (hcr : (s'.thread r).pc.creates = none ∨
      (s'.thread r).pc.creates = (s.thread r).pc.creates)
    (hfk : (s'.thread r).pc.forks = none ∨
      (s'.thread r).pc.forks = (s.thread r).pc.forks) : OwnSlot s s' r := by
  refine ⟨hp, he, htid, hfact, fun u hu t ht hpr e => ?_,
    fun q hq x hx hpr e => ?_⟩
  · rcases hcr with e' | e' <;> rw [e'] at hu
    · cases hu
    · exact ht (h.createUnique hpr hl.present e hu)
  · rcases hfk with e' | e' <;> rw [e'] at hq
    · cases hq
    · exact hx (h.forkUnique hpr hl.present e hq)

theorem SlotInv.act (h : SlotInv s) (hl : Local s s' c r)
    (ho : OwnSlot s s' r) : SlotInv s' where
  tid {x} hx := by
    by_cases hxr : x = r
    · subst hxr
      rw [ho.tid]
      exact h.tid hl.present
    · rw [hl.thread x hxr]
      exact h.tid (hl.present_of hx)
  embryo {x} hx := by
    by_cases hxr : x = r
    · exact absurd (hxr ▸ hx) ho.embryo
    · rw [hl.thread x hxr] at hx ⊢
      exact h.embryo hx
  unused {p} hp t ht :=
    hl.unused (h.unused ((hl.proc p).unused_iff.mp hp) t ht)
  orphan {p} hp := (hl.proc p).parent (h.orphan
    (hp.imp (hl.proc p).unused_iff.mp (hl.proc p).embryo_iff.mp))
  fact {x} hx := by
    by_cases hxr : x = r
    · exact hxr ▸ ho.fact
    · rw [hl.thread x hxr]
      exact hl.slotFact (h.fact (hl.present_of hx))
  createUnique {p t t' u} h₁ h₂ h₃ h₄ := by
    have h₁' := hl.present_of h₁
    have h₂' := hl.present_of h₂
    by_cases e₁ : (p, t) = r <;> by_cases e₂ : (p, t') = r
    · exact congrArg Prod.snd (e₁.trans e₂.symm)
    · subst e₁
      rw [hl.thread _ e₂] at h₄
      exact absurd h₄ (ho.claims.creates u h₃ t' (fun e => e₂ (by rw [e])) h₂')
    · subst e₂
      rw [hl.thread _ e₁] at h₃
      exact absurd h₃ (ho.claims.creates u h₄ t (fun e => e₁ (by rw [e])) h₁')
    · rw [hl.thread _ e₁] at h₃
      rw [hl.thread _ e₂] at h₄
      exact h.createUnique h₁' h₂' h₃ h₄
  forkUnique {x y q} h₁ h₂ h₃ h₄ := by
    have h₁' := hl.present_of h₁
    have h₂' := hl.present_of h₂
    by_cases e₁ : x = r <;> by_cases e₂ : y = r
    · rw [e₁, e₂]
    · subst e₁
      rw [hl.thread _ e₂] at h₄
      exact absurd h₄ (ho.claims.forks q h₃ y e₂ h₂')
    · subst e₂
      rw [hl.thread _ e₁] at h₃
      exact absurd h₃ (ho.claims.forks q h₄ x e₁ h₁')
    · rw [hl.thread _ e₁] at h₃
      rw [hl.thread _ e₂] at h₄
      exact h.forkUnique h₁' h₂' h₃ h₄

/-- What the acting thread must keep with respect to the mutexes when it does
not change them. -/
structure OwnMutex (s s' : Sys Cpu) (r : ThreadPtr) : Prop where
  mutex : s'.mutex = s.mutex
  mid : ∀ p, (s'.proc p).mid = (s.proc p).mid
  holds : (s'.thread r).holds = (s.thread r).holds
  blocked : (s'.thread r).blocked = (s.thread r).blocked
  mayBlock : (s.thread r).blocked = true → (s'.thread r).pc.mayBlock = true
  clear : ∀ i, (s.thread r).pc = .mutexDeallocClear i →
    (s'.thread r).pc = .mutexDeallocClear i
  waits : ∀ i, s'.Waits r i → s.Waits r i ∨ (s.thread r).pc.holdsMt = true
  fact : s'.MutexFact r (s'.thread r).pc

theorem MutexInv.act (h : Inv s) (hl : Local s s' c r)
    (hp : s'.Present r) (ho : OwnMutex s s' r) : MutexInv s' where
  owner {p i} hi := by
    rw [ho.mid p] at hi
    rw [ho.mutex]
    exact h.mutex.owner hi
  alloc {p i} hi ha := by
    rw [ho.mid p] at hi
    rw [ho.mutex] at ha
    obtain ⟨t, ht, hpc⟩ := h.mutex.alloc hi ha
    refine ⟨t, ?_⟩
    by_cases hxr : (p, t) = r
    · rw [hxr] at hpc ⊢
      exact ⟨hp, ho.clear i hpc⟩
    · rw [Sys.Present, hl.thread _ hxr]
      exact ⟨ht, hpc⟩
  tid {i} hi := by
    rw [ho.mutex] at hi ⊢
    exact h.mutex.tid hi
  holds {x i} hx hi := by
    have hi' : i ∈ (s.thread x).holds := by
      by_cases hxr : x = r
      · subst hxr
        rwa [ho.holds] at hi
      · rwa [hl.thread x hxr] at hi
    simpa only [Sys.Recorded, ho.mutex] using
      h.mutex.holds (hl.present_of hx) hi'
  blocked {x} hx := by
    by_cases hxr : x = r
    · subst hxr
      rw [ho.blocked] at hx
      exact ⟨hp, ho.mayBlock hx⟩
    · rw [Sys.Present, hl.thread x hxr] at *
      exact h.mutex.blocked hx
  fact {x} hx := by
    by_cases hxr : x = r
    · exact hxr ▸ ho.fact
    have hx' := hl.present_of hx
    have hxt := hl.thread x hxr
    rw [hxt]
    refine (h.mutex.fact hx').congr ho.mutex (ho.mid x.1) (by rw [hxt])
      (fun e => hxt ▸ e) (by rw [hxt]) fun hmt u i hw => ?_
    by_cases hur : (x.1, u) = r
    · rw [hur] at hw ⊢
      rcases ho.waits i hw with hw | hw
      · exact hw
      · -- two threads do not hold `mtable.lock`
        exact absurd (h.mt_unique hl.present hw hx' hmt) hxr
    · rwa [Sys.Waits, hl.thread _ hur] at hw

end Local

/-! ## §4  Program points without facts -/

/-- Program points about which the invariant says nothing. -/
def Pc.bare (pc : Pc) : Bool :=
  pc.plain || pc.holdsPt || decide (pc = .zombieExit) ||
    decide (pc = .kthreadExitSched)

/-- Program points that a running thread may enter without holding a spinlock
and about whose mutexes the invariant says nothing. -/
def Pc.quiet : Pc → Bool
  | .mutexLockWoken _ => false
  | pc => !pc.holdsMt && !pc.holdsPt

/-- Program points that a thread may leave without settling anything. -/
def Pc.settled : Pc → Bool
  | .kthreadExitSched | .mutexDeallocClear _ | .mutexLockSleep _
  | .mutexLockWoken _ | .mutexLockCheck _ => false
  | _ => true

namespace Pc

variable {pc : Pc}

theorem bare_of_plain (h : pc.plain = true) : pc.bare = true := by
  simp [bare, h]

theorem quiet_of_plain (h : pc.plain = true) : pc.quiet = true := by
  cases pc <;> first | rfl | cases h

theorem holdsMt_of_quiet (h : pc.quiet = true) : pc.holdsMt = false := by
  cases pc <;> first | rfl | cases h

theorem holdsPt_of_quiet (h : pc.quiet = true) : pc.holdsPt = false := by
  cases pc <;> first | rfl | cases h

theorem settled_of_plain (h : pc.plain = true) : pc.settled = true := by
  cases pc <;> first | rfl | cases h

theorem holdsMt_of_bare (h : pc.bare = true) : pc.holdsMt = false := by
  cases pc <;> first | rfl | cases h

theorem creates_of_bare (h : pc.bare = true) : pc.creates = none := by
  cases pc <;> first | rfl | cases h

theorem forks_of_bare (h : pc.bare = true) : pc.forks = none := by
  cases pc <;> first | rfl | cases h

theorem mayBlock_of_settled (h : pc.settled = true) : pc.mayBlock = false := by
  cases pc <;> first | rfl | cases h

theorem ne_clear_of_settled (h : pc.settled = true) (i : MutexId) :
    pc ≠ .mutexDeallocClear i := by
  rintro rfl
  cases h

theorem ne_gap_of_settled (h : pc.settled = true) :
    pc ≠ .kthreadExitSched := by
  rintro rfl
  cases h

end Pc

theorem Sys.slotFact_of_bare {s : Sys Cpu} {r : ThreadPtr} {pc : Pc}
    (h : pc.bare = true) : s.SlotFact r pc := by
  cases pc <;> trivial

theorem Sys.mutexFact_of_bare {s : Sys Cpu} {r : ThreadPtr} {pc : Pc}
    (h : pc.bare = true) : s.MutexFact r pc := by
  cases pc <;> trivial

theorem Sys.mutexFact_of_quiet {s : Sys Cpu} {r : ThreadPtr} {pc : Pc}
    (h : pc.quiet = true) : s.MutexFact r pc := by
  cases pc <;> trivial

theorem Inv.not_blocked {s : Sys Cpu} (h : Inv s) {r : ThreadPtr}
    (hp : (s.thread r).pc.mayBlock = false) : (s.thread r).blocked = false := by
  cases hb : (s.thread r).blocked with
  | false => rfl
  | true => exact absurd (hp.symm.trans (h.mutex.blocked hb).2) (by decide)

/-! ## §5  Moving on and leaving -/

section Act

variable {s s' : Sys Cpu} {c : Cpu} {r : ThreadPtr}

/-- What a running thread keeps when it goes on. -/
structure Keeps (t t' : Thread) : Prop where
  tid : t'.tid = t.tid
  state : t'.state = t.state
  context : t'.context = t.context
  blocked : t'.blocked = t.blocked
  holds : t'.holds = t.holds

/-- The running thread goes on to a quiet program point. -/
theorem Inv.goOn (h : Inv s) (hr : s.cpu c = .run r) (hl : Local s s' c r)
    (hcpu : s'.cpu c = .run r) (hm : s'.mutex = s.mutex)
    (hmid : ∀ p, (s'.proc p).mid = (s.proc p).mid)
    (ht : Keeps (s.thread r) (s'.thread r))
    (hold : (s.thread r).pc.settled = true)
    (hnew : (s'.thread r).pc.quiet = true)
    (hsf : s'.SlotFact r (s'.thread r).pc)
    (hcl : s.Claims r (s'.thread r).pc) : Inv s' := by
  have hrun : (s.thread r).state = .RUNNING :=
    h.running hr (Pc.ne_gap_of_settled hold)
  have hst : (s'.thread r).state = .RUNNING := ht.state.trans hrun
  have hnb := h.not_blocked (Pc.mayBlock_of_settled hold)
  refine ⟨h.cpu.act hl (.inl ⟨hcpu, ?_, .inl hst, ?_, ?_⟩),
    h.slot.act hl ⟨?_, ?_, ht.tid, hsf, hcl⟩,
    MutexInv.act h hl ?_ ⟨hm, hmid, ht.holds, ht.blocked, ?_, ?_, ?_,
      Sys.mutexFact_of_quiet hnew⟩⟩
  · exact ht.context.trans (h.cpu.context hr)
  · rw [Pc.holdsMt_of_quiet hnew]; nofun
  · rw [Pc.holdsPt_of_quiet hnew]; nofun
  · simp [Sys.Present, hst]
  · simp [hst]
  · simp [Sys.Present, hst]
  · rw [hnb]; nofun
  · exact fun i hi => absurd hi (Pc.ne_clear_of_settled hold i)
  · rintro i ⟨hb, _⟩
    rw [ht.blocked, hnb] at hb
    cases hb

theorem Inv.goto_quiet (h : Inv s) (hr : s.cpu c = .run r) {pc' : Pc}
    (hold : (s.thread r).pc.settled = true) (hnew : pc'.quiet = true)
    (hsf : s.SlotFact r pc') (hcl : s.Claims r pc') : Inv (s.goto r pc') := by
  have hloc : Local s (s.goto r pc') c r := .of_run h hr
    (fun x hx => s.goto_ne r pc' hx) (fun _ _ => rfl)
    (fun p => SoftProc.refl _) (.inl rfl) (.inl rfl)
  have hself := s.goto_self r pc'
  refine h.goOn hr hloc hr rfl (fun _ => rfl) ?_ hold ?_ ?_ ?_
  · rw [hself]
    exact ⟨rfl, rfl, rfl, rfl, rfl⟩
  · rwa [hself]
  · rw [hself]
    exact hloc.slotFact hsf
  · rwa [hself]

theorem Inv.goto (h : Inv s) (hr : s.cpu c = .run r) {pc' : Pc}
    (hold : (s.thread r).pc.settled = true) (hnew : pc'.plain = true) :
    Inv (s.goto r pc') :=
  have hb := Pc.bare_of_plain hnew
  h.goto_quiet hr hold (Pc.quiet_of_plain hnew) (Sys.slotFact_of_bare hb)
    (.of_none (Pc.creates_of_bare hb) (Pc.forks_of_bare hb))

/-- The section ends with `release(&ptable.lock)`. -/
theorem Inv.gotoRelease (h : Inv s) (hr : s.cpu c = .run r) {pc' : Pc}
    (hold : (s.thread r).pc.settled = true) (hnew : pc'.plain = true)
    (hl : s.PtFree c) : Inv (s.goto r pc').releasePt := by
  have hb := Pc.bare_of_plain hnew
  have hself : (s.goto r pc').releasePt.thread r =
      { s.thread r with pc := pc' } := s.goto_self r _
  refine h.goOn hr (.of_run h hr (fun x hx => s.goto_ne r pc' hx)
    (fun _ _ => rfl) (fun p => SoftProc.refl _) (.inr hl) (.inl rfl)) hr rfl
    (fun _ => rfl) ?_ hold ?_ ?_ ?_
  · rw [hself]
    exact ⟨rfl, rfl, rfl, rfl, rfl⟩
  · rw [hself]
    exact Pc.quiet_of_plain hnew
  · rw [hself]
    exact Sys.slotFact_of_bare hb
  · rw [hself]
    exact .of_none (Pc.creates_of_bare hb) (Pc.forks_of_bare hb)

theorem Inv.ret (h : Inv s) (hr : s.cpu c = .run r)
    (hold : (s.thread r).pc.settled = true) (hl : s.PtFree c) (v : ℤ) :
    Inv (s.ret r v) :=
  h.gotoRelease hr hold rfl hl

/-- The running thread goes on in file system code; the log and the sleeplocks
change with it. -/
theorem Inv.goOnFs (h : Inv s) (hr : s.cpu c = .run r) {pc' : Pc} {b : Bool}
    {ls : List ℕ}
    (hself : s'.thread r = { s.thread r with pc := pc', inop := b, locks := ls })
    (hne : ∀ x, x ≠ r → s'.thread x = s.thread x)
    (hold : (s.thread r).pc.settled = true) (hnew : pc'.plain = true)
    (hp : s'.proc = s.proc)
    (hm : s'.mutex = s.mutex) (hc : s'.cpu = s.cpu) (hpt : s'.ptlock = s.ptlock)
    (hmt : s'.mtlock = s.mtlock) : Inv s' := by
  have hb := Pc.bare_of_plain hnew
  refine h.goOn hr (.of_run h hr hne (fun c' _ => congrFun hc c')
    (fun p => by rw [hp]; exact SoftProc.refl _) (.inl hpt) (.inl hmt))
    ((congrFun hc c).trans hr) hm (fun p => by rw [hp]) ?_ hold ?_ ?_ ?_
  · rw [hself]
    exact ⟨rfl, rfl, rfl, rfl, rfl⟩
  · rw [hself]
    exact Pc.quiet_of_plain hnew
  · rw [hself]
    exact Sys.slotFact_of_bare hb
  · rw [hself]
    exact .of_none (Pc.creates_of_bare hb) (Pc.forks_of_bare hb)

/-- The running thread leaves its CPU. -/
theorem Inv.leave (h : Inv s) (hl : Local s s' c r) (hlv : Leaves s' c r)
    (hst : (s'.thread r).state = .SLEEPING ∨ (s'.thread r).state = .RUNNABLE ∨
      (s'.thread r).state = .ZOMBIE)
    (htid : (s'.thread r).tid = (s.thread r).tid)
    (hcr : (s'.thread r).pc.creates = none ∨
      (s'.thread r).pc.creates = (s.thread r).pc.creates)
    (hfk : (s'.thread r).pc.forks = none ∨
      (s'.thread r).pc.forks = (s.thread r).pc.forks)
    (hsf : s'.SlotFact r (s'.thread r).pc) (hm : OwnMutex s s' r) : Inv s' := by
  have hp : s'.Present r := by
    rcases hst with e | e | e <;> simp [Sys.Present, e]
  have he : (s'.thread r).state ≠ .EMBRYO := by
    rcases hst with e | e | e <;> simp [e]
  exact ⟨h.cpu.act hl (.inr hlv),
    h.slot.act hl (.of_same h.slot hl hp he htid hsf hcr hfk),
    MutexInv.act h hl hp hm⟩

/-- How `leave` acts on its surroundings. -/
theorem Inv.leave_local (h : Inv s) (hr : s.cpu c = .run r) (hl : s.PtFree c)
    {pst st : States} {ch : Chan} {pc' : Pc} {k : Resume}
    (hpst : pst ≠ .UNUSED ∧ pst ≠ .EMBRYO) :
    Local s (s.leave c r pst st ch pc' k) c r := by
  refine .of_run h hr (fun x hx => s.leave_thread_ne _ _ _ _ _ _ _ hx)
    (fun c' hc' => s.leave_cpu_ne _ _ _ _ _ _ _ hc') (fun p => ?_) (.inr hl)
    (.inl rfl)
  by_cases hpr : p = r.1
  · subst hpr
    rw [s.leave_proc_self]
    exact ⟨.inr ⟨h.cpu.alive hr, hpst⟩, id⟩
  · rw [s.leave_proc_ne _ _ _ _ _ _ _ hpr]
    exact SoftProc.refl _

theorem Leaves.of_leave {pst st : States} {ch : Chan} {pc' : Pc} {k : Resume}
    (hmt : pc'.holdsMt = false) (hk : pc'.holdsPt = true → k = .sleepHeld) :
    Leaves (s.leave c r pst st ch pc' k) c r := by
  refine ⟨.inl ⟨⟨_, s.leave_cpu_self _ _ _ _ _ _ _⟩, rfl⟩, ?_, ?_⟩
  · rwa [s.leave_thread_self]
  · rw [s.leave_thread_self]
    exact fun k' e e' => (Option.some.inj e').symm.trans (hk e)

/-- `leave` preserves the invariant when the new program point has no facts. -/
theorem Inv.leave_bare (h : Inv s) (hr : s.cpu c = .run r) (hl : s.PtFree c)
    {pst st : States} {ch : Chan} {pc' : Pc}
    {k : Resume} (hpst : pst ≠ .UNUSED ∧ pst ≠ .EMBRYO)
    (hst : st = .SLEEPING ∨ st = .RUNNABLE ∨ st = .ZOMBIE)
    (hold : (s.thread r).pc.settled = true ∨
      (s.thread r).pc = .kthreadExitSched)
    (hnew : pc'.bare = true) (hk : pc'.holdsPt = true → k = .sleepHeld) :
    Inv (s.leave c r pst st ch pc' k) := by
  have hmb : (s.thread r).pc.mayBlock = false := by
    rcases hold with e | e
    · exact Pc.mayBlock_of_settled e
    · rw [e]; rfl
  have hnb := h.not_blocked hmb
  have hself := s.leave_thread_self c r pst st ch pc' k
  refine h.leave (h.leave_local hr hl hpst)
    (.of_leave (Pc.holdsMt_of_bare hnew) hk)
    ?_ ?_ (.inl ?_) (.inl ?_) ?_
    ⟨rfl, s.leave_mid c r pst st ch pc' k, ?_, ?_, ?_, ?_, ?_, ?_⟩
  · rwa [hself]
  · rw [hself]
  · rw [hself]
    exact Pc.creates_of_bare hnew
  · rw [hself]
    exact Pc.forks_of_bare hnew
  · rw [hself]
    exact Sys.slotFact_of_bare hnew
  · rw [hself]
  · rw [hself]
  · rw [hnb]; nofun
  · intro i hi
    rw [hi] at hold
    rcases hold with e | e <;> cases e
  · rintro i ⟨hb, _⟩
    rw [hself] at hb
    exact absurd (hnb.symm.trans hb) (by decide)
  · rw [hself]
    exact Sys.mutexFact_of_bare hnew

/-- A thread that is preempted in the kernel keeps its facts. -/
theorem Inv.leave_same (h : Inv s) (hr : s.cpu c = .run r) (hl : s.PtFree c)
    (hpc : (s.thread r).pc.preemptible = true) :
    Inv (s.leave c r .RUNNABLE .RUNNABLE (s.thread r).chan (s.thread r).pc
      .yield) := by
  simp only [Pc.preemptible, Bool.and_eq_true, Bool.not_eq_true'] at hpc
  obtain ⟨⟨⟨hmt, hpt⟩, _⟩, _⟩ := hpc
  have hp := h.present_of_run hr
  have hself := s.leave_thread_self c r .RUNNABLE .RUNNABLE (s.thread r).chan
    (s.thread r).pc .yield
  have hloc : Local s (s.leave c r .RUNNABLE .RUNNABLE (s.thread r).chan
      (s.thread r).pc .yield) c r :=
    h.leave_local hr hl ⟨by decide, by decide⟩
  refine h.leave hloc
    (.of_leave hmt fun e => absurd (hpt.symm.trans e) (by decide))
    ?_ ?_ (.inr ?_) (.inr ?_) ?_
    ⟨rfl, s.leave_mid _ _ _ _ _ _ _, ?_, ?_, ?_, ?_, ?_, ?_⟩
  · rw [hself]
    exact .inr (.inl rfl)
  · rw [hself]
  · rw [hself]
  · rw [hself]
  · rw [hself]
    exact hloc.slotFact (h.slot.fact hp)
  · rw [hself]
  · rw [hself]
  · rw [hself]
    exact fun hb => (h.mutex.blocked hb).2
  · rw [hself]
    exact fun i => id
  · intro i hw
    rw [Sys.Waits, hself] at hw
    exact .inl hw
  · rw [hself]
    refine Sys.MutexFact.congr (s := s) rfl (s.leave_mid _ _ _ _ _ _ _ _)
      (by rw [hself]) (fun _ => by rw [h.cpu.context hr]; nofun) (by rw [hself])
      (fun e => absurd (hmt.symm.trans e) (by decide)) (h.mutex.fact hp)

end Act

/-! ## §6  Soft changes of the source -/

section SoftChanges

variable {s : Sys Cpu}

theorem States.alive_of_wakeable {st : States} (h : st.wakeable = true) :
    st ≠ .UNUSED ∧ st ≠ .EMBRYO := by
  cases st <;> first | exact ⟨by decide, by decide⟩ | cases h

theorem Soft.wakeup1 (ch : Chan) : Soft s (s.wakeup1 ch) := by
  refine ⟨fun r => ?_, fun p => ?_, fun p => ?_, rfl, rfl, rfl, rfl⟩
  · simp only [Sys.wakeup1]
    split
    case isTrue hw =>
      obtain ⟨_, hs, _⟩ := Sys.wakes_iff.mp hw
      exact ⟨⟨rfl, rfl, rfl, .inr ⟨.of_asleep (.inr hs), by simp, by simp⟩⟩,
        rfl, rfl, rfl⟩
    case isFalse => exact SoftThread.refl _
  · simp only [Sys.wakeup1]
    split
    case isTrue hw =>
      obtain ⟨t, hw⟩ := hw
      exact ⟨.inr ⟨States.alive_of_wakeable (Sys.wakes_iff.mp hw).1,
        ⟨by simp, by simp⟩⟩, id⟩
    case isFalse => exact SoftProc.refl _
  · simp only [Sys.wakeup1]
    split <;> rfl

/-- A process changes only fields the invariant does not mention. -/
theorem Soft.setProc {p : ProcId} {f : Proc → Proc}
    (hs : SoftProc (s.proc p) (f (s.proc p)))
    (hm : (f (s.proc p)).mid = (s.proc p).mid) : Soft s (s.setProc p f) := by
  refine ⟨fun r => SoftThread.refl _, fun q => ?_, fun q => ?_, rfl, rfl, rfl,
    rfl⟩
  · rw [Sys.setProc_proc]
    split
    · subst_vars; exact hs
    · exact SoftProc.refl _
  · rw [Sys.setProc_proc]
    split
    · subst_vars; exact hm
    · rfl

theorem Soft.setFile (p : ProcId) (fd : Fd) (b : Bool) :
    Soft s (s.setFile p fd b) :=
  .setProc ⟨.inl rfl, id⟩ rfl

theorem Soft.copyFiles (p q : ProcId) : Soft s (s.copyFiles p q) :=
  .setProc ⟨.inl rfl, id⟩ rfl

theorem Soft.killed (p : ProcId) :
    Soft s (s.setProc p fun x => { x with killed := true }) :=
  Soft.setProc ⟨.inl rfl, id⟩ rfl

theorem Soft.makeRunnable {r : ThreadPtr}
    (h : (s.thread r).state = .RUNNABLE ∨ (s.thread r).state = .SLEEPING) :
    Soft s (s.makeRunnable r) := by
  refine ⟨fun x => ?_, fun p => SoftProc.refl _, fun p => rfl, rfl, rfl, rfl, rfl⟩
  simp only [Sys.makeRunnable, Sys.setThread_thread]
  split
  · subst_vars
    exact ⟨⟨rfl, rfl, rfl, .inr ⟨.of_asleep h, by simp, by simp⟩⟩,
      rfl, rfl, rfl⟩
  · exact SoftThread.refl _

theorem Soft.killWake (p : ProcId) : Soft s (s.killWake p) := by
  unfold Sys.killWake
  split
  case isFalse => exact Soft.refl s
  case isTrue hp =>
    have hrun : Soft s (s.setPState p .RUNNABLE) :=
      Soft.setProc ⟨.inr ⟨⟨by simp [hp], by simp [hp]⟩,
        ⟨by simp, by simp⟩⟩, id⟩ rfl
    split
    case h_2 => exact hrun
    case h_1 t ht =>
      have hst : (s.thread (p, t)).state = .SLEEPING := by
        simpa using List.find?_some ht
      exact hrun.trans (Soft.makeRunnable (.inr hst))

theorem Soft.exitMark (r : ThreadPtr) : Soft s (s.exitMark r) := by
  refine ⟨fun x => ?_, fun p => SoftProc.refl _, fun p => rfl, rfl, rfl, rfl, rfl⟩
  simp only [Sys.exitMark]
  split
  · refine ⟨⟨rfl, rfl, rfl, ?_⟩, rfl, rfl, rfl⟩
    simp only [Thread.exitMarked]
    split
    · exact .inr ⟨.of_asleep ‹_›, by simp, by simp⟩
    · exact .inl rfl
  · exact SoftThread.refl _

theorem Soft.execMark (r : ThreadPtr) : Soft s (s.execMark r) := by
  refine ⟨fun x => ?_, fun p => SoftProc.refl _, fun p => rfl, rfl, rfl, rfl, rfl⟩
  simp only [Sys.execMark]
  split
  · refine ⟨⟨rfl, rfl, rfl, ?_⟩, rfl, rfl, rfl⟩
    simp only [Thread.execMarked]
    split
    · exact .inr ⟨.of_asleep (.inr ‹_›), by simp, by simp⟩
    · exact .inl rfl
  · exact SoftThread.refl _

theorem Soft.adopt (p : ProcId) : Soft s (s.adopt p) := by
  refine ⟨fun x => SoftThread.refl _, fun q => ?_, fun q => ?_, rfl, rfl, rfl, rfl⟩
  · simp only [Sys.adopt]
    split
    case isTrue hq => exact ⟨.inl rfl, fun e => by rw [hq] at e; cases e⟩
    case isFalse => exact SoftProc.refl _
  · simp only [Sys.adopt]
    split <;> rfl

theorem Soft.exitWake (p : ProcId) : Soft s (s.exitWake p) := by
  refine Soft.trans ?_ (Soft.wakeup1 _)
  unfold Sys.reparent
  split
  · exact (Soft.adopt p).trans (Soft.wakeup1 _)
  · exact Soft.adopt p

end SoftChanges

end Xv6.Kernel
