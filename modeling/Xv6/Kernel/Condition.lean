import Xv6.Kernel.ProcState

/-!
# Waiting for a condition

Waiters run `acquire(lk); while(!cond) sleep(chan, lk);` and wakers run
`acquire(lk); cond = 1; wakeup(chan); release(lk);`. Here they run inside the
kernel of `Xv6.Kernel.Step`, next to everything else it does: any thread in
kernel code may enter the protocol at any time, as a waiter or as a waker.

A CPU holds `lk` with interrupts off, so it takes no other step before it
releases it. `sleep` is three steps: it takes `ptable.lock`, releases `lk`, and
then marks the thread and calls `sched`, so that other CPUs may take `lk` and
change the condition in between.
-/

set_option linter.unusedSectionVars false

namespace Xv6.Kernel

variable {Cpu : Type} [DecidableEq Cpu]

/-- `ptable.lock` is left alone by the CPUs that do not hold it. -/
theorem Section.ptlock {s s' : Sys Cpu} {a : Act Cpu} {c d : Cpu} {r : ThreadPtr}
    (hs : Section s c r a s') (hp : s'.panicked = none) (hd : s.ptlock = some d)
    (hne : c ≠ d) : s'.ptlock = some d := by
  have hnone : s.ptlock = none → s'.ptlock = some d := by
    intro e
    rw [hd] at e
    cases e
  have hfree : s.PtFree c → s'.ptlock = some d := by
    rintro (e | e)
    · exact hnone e
    · exact absurd (Option.some.inj (e.symm.trans hd)) hne
  cases hs with
  | halt hn => exact absurd hp hn
  | ret _ _ hl | sleep _ _ hl | join _ hl | wait _ hl => exact hfree hl
  | exitWait _ hl => exact hfree (.inr hl)
  | yield _ _ hl | wakeup _ _ hl | beginOp _ hl | endOp _ hl | endCommit _ hl
  | releasesleep _ _ hl | exit _ hl | exitFinal _ hl | kthreadExit _ hl
  | kthreadExitSched _ hl | execWait _ hl | create _ hl | createPublish _ hl
  | kill _ hl | execKill _ hl | execClear _ hl | forkThread _ hl
  | forkThreadRunnable _ hl | forkRunnable _ hl | mutexAllocMid _ hl
  | mutexDeallocClear _ hl | mutexLockBlock _ hl | mutexLockSleep _ hl
  | handOff _ hl => exact hnone hl
  | createStack ok | forkStack ok => cases ok <;> exact hd
  | mutexDeallocLocked _ hi =>
      rw [Sys.mutexDeallocLocked, if_neg (by simp [hi])]
      exact hd
  | _ => exact hd

theorem Change.ptlock {s s' : Sys Cpu} {a : Act Cpu} {d : Cpu}
    (hc : Change s a s') (hp : s'.panicked = none) (hd : s.ptlock = some d)
    (hne : a.cpu ≠ some d) : s'.ptlock = some d := by
  cases hc with
  | wakeup _ _ => exact hd
  | @sched c hc =>
      rcases hc with ⟨_, e⟩ | ⟨_, e⟩
      · rw [hd] at e
        cases e
      · exact absurd (e.symm.trans hd) hne
  | run _ hs ha => exact hs.ptlock hp hd fun e => hne (ha.trans (congrArg some e))
  | junk => cases hp

namespace Condition

/-- Where a CPU is in the protocol. -/
inductive Phase where
  | out         -- `lk` is not held by this CPU
  | held        -- between `acquire(lk)` and `release(lk)`
  | waits       -- `cond` was found false; `sleep` is called
  | locked      -- in `sleep`, holding both locks
  | released    -- in `sleep`, holding `ptable.lock`
deriving DecidableEq, Repr

/-- The CPU holds `lk`. -/
def Phase.hasLk : Phase → Bool
  | .held | .waits | .locked => true
  | _ => false

/-- The CPU holds `ptable.lock` in `sleep`. -/
def Phase.hasPt : Phase → Bool
  | .locked | .released => true
  | _ => false

/-- The CPU has found `cond` false and is on its way to sleep. -/
def Phase.sleepy : Phase → Bool
  | .waits | .locked | .released => true
  | _ => false

/-- The kernel and the protocol. `fresh` is a history variable: `cond` holds and
has held since the last `wakeup(chan)`. -/
structure State (Cpu : Type) where
  sys : Sys Cpu
  lk : Option Cpu
  cond : Bool
  fresh : Bool
  phase : Cpu → Phase

inductive Action (Cpu : Type) where
  | kernel (a : Act Cpu)      -- a step of the kernel outside the protocol
  | acquire (c : Cpu)
  | set (c : Cpu) (b : Bool)  -- `cond = b`
  | wakeup (c : Cpu)
  | release (c : Cpu)
  | test (c : Cpu)            -- `cond` is false: call `sleep`
  | lockPt (c : Cpu)          -- `acquire(&ptable.lock)` in `sleep`
  | unlock (c : Cpu)          -- `release(lk)` in `sleep`
  | sched (c : Cpu)           -- the rest of `sleep`
deriving DecidableEq, Repr

/-- The action calls `wakeup` on channel `n`. -/
def wakes (n : ℕ) : Act Cpu → Bool
  | .wakeup m | .kern _ (.wakeup m) => decide (m = n)
  | _ => false

/-- The action calls `sleep` on channel `n`. -/
def sleeps (n : ℕ) : Act Cpu → Bool
  | .kern _ (.sleep m) => decide (m = n)
  | _ => false

namespace State

/-- The thread in kernel code that CPU `c` runs. -/
def client (σ : State Cpu) (c : Cpu) : Option (ThreadPtr × After) :=
  match σ.sys.cpu c with
  | .run r =>
      match (σ.sys.thread r).pc with
      | .kern k => some (r, k)
      | _ => none
  | _ => none

def goto (σ : State Cpu) (c : Cpu) (f : Phase) : State Cpu :=
  { σ with phase := Function.update σ.phase c f }

end State

/-- One step; `n` is the channel of the protocol, on which nobody sleeps
outside it. -/
def step (n : ℕ) (σ : State Cpu) : Action Cpu → Option (State Cpu)
  | .kernel a =>
      if (∀ c ∈ a.cpu, σ.phase c = .out) ∧ sleeps n a = false then
        (Kernel.step σ.sys a).map fun s =>
          { σ with sys := s, fresh := if wakes n a then σ.cond else σ.fresh }
      else none
  | .acquire c =>
      if σ.phase c = .out ∧ σ.lk = none ∧ (σ.client c).isSome then
        some ({ σ with lk := some c }.goto c .held)
      else none
  | .set c b =>
      if σ.phase c = .held then
        some { σ with cond := b, fresh := σ.fresh && b }
      else none
  | .wakeup c =>
      if σ.phase c = .held ∧ σ.sys.ptlock = none ∧ σ.sys.panicked = none then
        some { σ with sys := σ.sys.wakeup1 (.other n), fresh := σ.cond }
      else none
  | .release c =>
      if σ.phase c = .held then some ({ σ with lk := none }.goto c .out) else none
  | .test c =>
      if σ.phase c = .held ∧ σ.cond = false then some (σ.goto c .waits) else none
  | .lockPt c =>
      if σ.phase c = .waits ∧ σ.sys.ptlock = none then
        some ({ σ with sys := { σ.sys with ptlock := some c } }.goto c .locked)
      else none
  | .unlock c =>
      if σ.phase c = .locked then some ({ σ with lk := none }.goto c .released)
      else none
  | .sched c =>
      match σ.client c with
      | some (r, k) =>
          if σ.phase c = .released ∧ σ.sys.panicked = none then
            some ({ σ with sys := σ.sys.sleep c r (.other n) .sleep (.kern k) }.goto c
              .out)
          else none
      | none => none

/-- The kernel with the protocol on channel `n`. -/
def system (Cpu : Type) [DecidableEq Cpu] (n : ℕ) :
    Lib.System (State Cpu) (Action Cpu) where
  init σ := Initial σ.sys ∧ σ.lk = none ∧ σ.fresh = false ∧ ∀ c, σ.phase c = .out
  step := step n

/-- Steps of the kernel in which `fork` claims free slots and `exit` ends a
process after its threads. -/
def quietOk (σ : State Cpu) : Action Cpu → Prop
  | .kernel a => forkOk σ.sys a ∧ endOk σ.sys a
  | _ => True

instance (σ : State Cpu) (α : Action Cpu) : Decidable (quietOk σ α) := by
  unfold quietOk; split <;> infer_instance

/-! ## §1  The kernel side -/

variable {s s' : Sys Cpu} {σ σ' : State Cpu} {a : Act Cpu} {n : ℕ}

/-- Every sleeping thread is in a process that `wakeup1` looks at. -/
structure Base (s : Sys Cpu) : Prop where
  inv : Inv s
  zombie : ZombieInv s
  sleep : SleepInv s

theorem Base.change (h : Base s) (hc : Change s a s') (hp : s'.panicked = none)
    (hf : forkOk s a) (he : endOk s a) : Base s' := by
  have h' := hc.inv h.inv hf hp
  exact ⟨h', h.zombie.step h.inv he hc hp, h.sleep.step h.inv h' hf hc hp⟩

/-- `ptable.lock` is taken and nothing else happens. -/
theorem Base.lockPt (h : Base s) (hl : s.ptlock = none) (c : Cpu) :
    Base { s with ptlock := some c } := by
  have hpt : ∀ {c r}, s.cpu c = .run r → (s.thread r).pc.holdsPt = true → False := by
    intro c r hr hpc
    have := h.inv.cpu.pt hr hpc
    rw [hl] at this
    cases this
  have hscan : ∀ {c p k}, s.cpu c = .scan p k → False := by
    intro c p k hc
    have := (h.inv.cpu.scan hc).1
    rw [hl] at this
    cases this
  have hcpu := h.inv.cpu
  refine ⟨⟨⟨hcpu.context, hcpu.unique, hcpu.state, hcpu.alive, hcpu.mt, ?_, ?_,
    hcpu.held⟩, ?_, ?_⟩, h.zombie, h.sleep⟩
  · intro c' r hr hpc
    exact (hpt hr hpc).elim
  · intro c' p k hc
    exact (hscan hc).elim
  · exact ⟨h.inv.slot.tid, h.inv.slot.embryo, h.inv.slot.unused, h.inv.slot.orphan,
      h.inv.slot.fact, h.inv.slot.createUnique, h.inv.slot.forkUnique⟩
  · exact ⟨h.inv.mutex.owner, h.inv.mutex.alloc, h.inv.mutex.tid, h.inv.mutex.holds,
      h.inv.mutex.blocked, h.inv.mutex.fact⟩

/-- `wakeup` leaves nobody asleep on its channel. -/
theorem Base.woken (h : Base s) (ch : Chan) (x : ThreadPtr) :
    ¬ (((s.wakeup1 ch).thread x).state = .SLEEPING ∧
      ((s.wakeup1 ch).thread x).chan = ch) := by
  rintro ⟨hs, hch⟩
  rcases s.wakeup1_thread ch x with e | ⟨_, _, e, _⟩
  · rw [e] at hs hch
    have hwakes : s.wakes ch x = true := by
      refine Sys.wakes_iff.mpr ⟨?_, hs, hch⟩
      have hal := h.sleep x hs
      have hz : (s.proc x.1).state ≠ .ZOMBIE := by
        intro hz
        rcases h.zombie x.1 hz x.2 with e' | ⟨e', _⟩ <;>
          exact absurd (hs.symm.trans e') (by decide)
      cases hst : (s.proc x.1).state with
      | UNUSED => exact absurd hst hal.1
      | EMBRYO => exact absurd hst hal.2
      | ZOMBIE => exact absurd hst hz
      | SLEEPING | RUNNABLE | RUNNING => rfl
    have hrun : ((s.wakeup1 ch).thread x).state = .RUNNABLE :=
      congrArg Thread.state (if_pos hwakes)
    rw [e, hs] at hrun
    cases hrun
  · rw [e] at hs
    cases hs

/-- A step that makes a thread sleep on channel `n` is a `sleep` on `n`. -/
theorem asleep_of_step (h : Inv s) (hc : Change s a s') (hp : s'.panicked = none)
    (hn : sleeps n a = false) {x : ThreadPtr}
    (hs : (s'.thread x).state = .SLEEPING) (hch : (s'.thread x).chan = .other n) :
    (s.thread x).state = .SLEEPING ∧ (s.thread x).chan = .other n := by
  rcases hc.effect h hp x with hx | ⟨_, hx⟩
  · cases hx with
    | keep b e =>
        rw [e] at hs hch
        exact ⟨hs, hch⟩
    | reap _ _ e => simp [e] at hs
    | dispatch _ _ e => simp [e, Thread.resumed] at hs
    | stack e' e => simp [e, e'] at hs
    | wake _ _ _ _ _ e | killWake _ _ _ e | execWake _ _ _ e | mark _ _ _ e
    | create _ _ _ e | fork _ _ _ e | drop _ _ e | publish _ e | handOff _ _ _ e =>
        simp [e] at hs
  · cases hx with
    | leave _ e _ _ _ hact =>
        rw [e] at hs hch
        obtain ⟨c, rfl⟩ := hact hs n hch
        simp [sleeps] at hn
    | exitWait _ _ _ e =>
        rw [e] at hch
        cases hch
    | die _ e => simp [e] at hs
    | goOn _ _ _ e | own _ _ e | block _ e | beginOp _ e | endOp _ _ _ e
    | acquire _ e | release _ _ e =>
        rw [e] at hs hch
        exact ⟨hs, hch⟩
    | exitClose hl =>
        rw [hl.thread] at hs hch
        exact ⟨hs, hch⟩

/-- What a `wakeup` on channel `n` does. -/
theorem step_of_wakes (hw : wakes n a = true) (hs : Kernel.step s a = some s')
    (hp : s'.panicked = none) : s.ptlock = none ∧ s' = s.wakeup1 (.other n) := by
  have hpan : s.panicked = none := (step_change hs).1
  unfold Kernel.step at hs
  rw [if_neg (by simp [hpan])] at hs
  cases a with
  | wakeup m =>
      obtain rfl : m = n := of_decide_eq_true hw
      obtain ⟨hl, rfl⟩ := Sys.underPt_eq_some hs
      exact ⟨hl, rfl⟩
  | kern c op =>
      cases op <;> try cases hw
      case wakeup m =>
        obtain rfl : m = n := of_decide_eq_true hw
        simp only [Act.cpu, Option.bind_some, Sys.cpuStep] at hs
        cases hcpu : s.cpu c <;> simp only [hcpu] at hs
        case idle | scan => simp at hs
        case junk =>
          cases hs
          cases hp
        case run r =>
          simp only [Sys.threadStep] at hs
          cases hpc : (s.thread r).pc <;> simp only [hpc] at hs <;> try cases hs
          case kern k =>
            obtain ⟨hl, rfl⟩ := Sys.underPt_eq_some hs
            exact ⟨hl, rfl⟩
  | _ => cases hw

/-! ## §2  The protocol -/

/-- Who holds the locks, and what the ones on their way into `sleep` know. -/
structure Proto (n : ℕ) (σ : State Cpu) : Prop where
  lk : ∀ {c}, (σ.phase c).hasLk = true → σ.lk = some c
  pt : ∀ {c}, (σ.phase c).hasPt = true → σ.sys.ptlock = some c
  cond : ∀ {c}, σ.phase c = .waits → σ.cond = false
  -- from the test of `cond` to the end of `sleep` no `wakeup` finds `cond` true
  stale : ∀ {c}, (σ.phase c).sleepy = true → σ.fresh = false
  fresh : σ.fresh = true → σ.cond = true
  awake : σ.fresh = true → ∀ x, ¬ ((σ.sys.thread x).state = .SLEEPING ∧
    (σ.sys.thread x).chan = .other n)

/-- A CPU on its way to sleep still holds `lk`, or already holds
`ptable.lock`. -/
theorem Phase.sleepy_cases {f : Phase} (h : f.sleepy = true) :
    f = .waits ∨ f.hasPt = true := by
  cases f <;> simp [Phase.sleepy, Phase.hasPt] at h ⊢

theorem Proto.kernel (hI : Proto n σ) (hb : Base σ.sys)
    (hs : Kernel.step σ.sys a = some s') (hp : s'.panicked = none)
    (hout : ∀ c ∈ a.cpu, σ.phase c = .out) (hn : sleeps n a = false) :
    Proto n { σ with sys := s', fresh := if wakes n a then σ.cond else σ.fresh } := by
  obtain ⟨_, hc⟩ := step_change hs
  refine ⟨hI.lk, fun {c} hph => ?_, hI.cond, fun {c} hph => ?_, ?_, ?_⟩
  · refine hc.ptlock hp (hI.pt hph) fun e => ?_
    have hph : (σ.phase c).hasPt = true := hph
    rw [hout c e] at hph
    cases hph
  · split
    case isTrue hw =>
      -- a `wakeup` needs `ptable.lock`, so the CPU has not taken it yet
      have hl := (step_of_wakes hw hs hp).1
      rcases Phase.sleepy_cases hph with e | e
      · exact hI.cond e
      · have := hI.pt e
        simp [hl] at this
    case isFalse => exact hI.stale hph
  · intro hf
    simp only at hf
    split at hf
    · exact hf
    · exact hI.fresh hf
  · intro hf x
    simp only at hf
    split at hf
    case isTrue hw =>
      rw [(step_of_wakes hw hs hp).2]
      exact hb.woken _ x
    case isFalse =>
      rintro ⟨hst, hch⟩
      exact hI.awake hf x (asleep_of_step hb.inv hc hp hn hst hch)

/-- The phases after one CPU has moved. -/
theorem State.goto_phase {c d : Cpu} {f : Phase} {P : Phase → Prop}
    (h : P ((σ.goto c f).phase d)) : d = c ∧ P f ∨ d ≠ c ∧ P (σ.phase d) := by
  by_cases hd : d = c
  · subst hd
    exact .inl ⟨rfl, by simpa [State.goto] using h⟩
  · exact .inr ⟨hd, by simpa [State.goto, hd] using h⟩

/-- One CPU moves. `lk` and `ptable.lock` change hands only for that CPU, and
another CPU on its way to sleep stays behind its locks. -/
theorem Proto.move (hI : Proto n σ) {σ₁ : State Cpu} {c : Cpu} {f : Phase}
    (hph : σ₁.phase = σ.phase)
    (hlk : f.hasLk = true → σ₁.lk = some c)
    (hlk' : ∀ d, d ≠ c → σ.lk = some d → σ₁.lk = some d)
    (hpt : f.hasPt = true → σ₁.sys.ptlock = some c)
    (hpt' : ∀ d, d ≠ c → σ.sys.ptlock = some d → σ₁.sys.ptlock = some d)
    (hcond : σ₁.cond = σ.cond) (hw : f = .waits → σ.cond = false)
    (hfresh : σ₁.fresh = σ.fresh) (hst : f.sleepy = true → σ.fresh = false)
    (hth : σ.fresh = true → σ₁.sys.thread = σ.sys.thread) :
    Proto n (σ₁.goto c f) where
  lk {d} h := by
    rcases State.goto_phase (P := fun f => f.hasLk = true) h with ⟨rfl, e⟩ | ⟨hd, e⟩
    · exact hlk e
    · exact hlk' d hd (hI.lk (hph ▸ e))
  pt {d} h := by
    rcases State.goto_phase (P := fun f => f.hasPt = true) h with ⟨rfl, e⟩ | ⟨hd, e⟩
    · exact hpt e
    · exact hpt' d hd (hI.pt (hph ▸ e))
  cond {d} h := by
    refine hcond.trans ?_
    rcases State.goto_phase (P := fun f => f = .waits) h with ⟨rfl, e⟩ | ⟨_, e⟩
    · exact hw e
    · exact hI.cond (hph ▸ e)
  stale {d} h := by
    refine hfresh.trans ?_
    rcases State.goto_phase (P := fun f => f.sleepy = true) h with ⟨rfl, e⟩ | ⟨_, e⟩
    · exact hst e
    · exact hI.stale (hph ▸ e)
  fresh h := hcond.trans (hI.fresh (hfresh.symm.trans h))
  awake h := by
    have hf : σ.fresh = true := hfresh.symm.trans h
    intro x
    change ¬ ((σ₁.sys.thread x).state = _ ∧ (σ₁.sys.thread x).chan = _)
    rw [hth hf]
    exact hI.awake hf x

/-- A CPU that holds `lk` is the only one. -/
theorem Proto.other (hI : Proto n σ) {c d : Cpu} (hc : (σ.phase c).hasLk = true)
    (hd : d ≠ c) : σ.lk ≠ some d := by
  intro e
  exact hd (Option.some.inj (e.symm.trans (hI.lk hc)))

theorem State.client_some {c : Cpu} {r : ThreadPtr} {k : After}
    (h : σ.client c = some (r, k)) :
    σ.sys.cpu c = .run r ∧ (σ.sys.thread r).pc = .kern k := by
  unfold State.client at h
  split at h
  case h_1 r' hr =>
    split at h
    case h_1 k' hk =>
      obtain ⟨rfl, rfl⟩ := Prod.ext_iff.mp (Option.some.inj h)
      exact ⟨hr, hk⟩
    case h_2 => cases h
  case h_2 => cases h

/-- The steps of the protocol. -/
theorem Proto.step (hI : σ.sys.panicked = none → Base σ.sys ∧ Proto n σ)
    {α : Action Cpu} (hg : quietOk σ α) (hs : step n σ α = some σ')
    (hp : σ'.sys.panicked = none) : Base σ'.sys ∧ Proto n σ' := by
  cases α with
  | kernel a =>
      obtain ⟨⟨hout, hn⟩, hs⟩ := Option.ite_none_right_eq_some.mp hs
      obtain ⟨s', hs', rfl⟩ := Option.map_eq_some_iff.mp hs
      obtain ⟨hpan, hc⟩ := step_change hs'
      obtain ⟨hb, hq⟩ := hI hpan
      exact ⟨hb.change hc hp hg.1 hg.2, hq.kernel hb hs' hp hout hn⟩
  | acquire c =>
      obtain ⟨⟨_, hlk, _⟩, ⟨⟩⟩ := Option.ite_none_right_eq_some.mp hs
      obtain ⟨hb, hq⟩ := hI hp
      refine ⟨hb, hq.move rfl (fun _ => rfl) (fun d _ e => ?_) nofun (fun d _ e => e)
        rfl nofun rfl nofun fun _ => rfl⟩
      rw [hlk] at e
      cases e
  | set c b =>
      obtain ⟨hph, ⟨⟩⟩ := Option.ite_none_right_eq_some.mp hs
      obtain ⟨hb, hq⟩ := hI hp
      refine ⟨hb, hq.lk, hq.pt, fun {d} hd => ?_, fun hd => ?_, fun hf => ?_,
        fun hf => hq.awake (Bool.and_eq_true _ _ ▸ hf).1⟩
      · -- the others are not between their test and `sleep`: `lk` is held here
        have hd : σ.phase d = .waits := hd
        have hc : (σ.phase c).hasLk = true := by rw [hph]; rfl
        have hne : d ≠ c := by
          rintro rfl
          rw [hph] at hd
          cases hd
        exact absurd (hq.lk (by rw [hd]; rfl)) (hq.other hc hne)
      · change (σ.fresh && b) = false
        rw [hq.stale hd, Bool.false_and]
      · exact (Bool.and_eq_true _ _ ▸ hf).2
  | wakeup c =>
      obtain ⟨⟨hph, hl, hpan⟩, ⟨⟩⟩ := Option.ite_none_right_eq_some.mp hs
      obtain ⟨hb, hq⟩ := hI hpan
      have hc : Change σ.sys (.wakeup n) (σ.sys.wakeup1 (.other n)) := .wakeup n hl
      refine ⟨hb.change hc hp nofun nofun, hq.lk, hq.pt, hq.cond, fun {d} hd => ?_, id,
        fun _ x => hb.woken _ x⟩
      rcases Phase.sleepy_cases hd with e | e
      · exact hq.cond e
      · have := hq.pt e
        simp [hl] at this
  | release c =>
      obtain ⟨hph, ⟨⟩⟩ := Option.ite_none_right_eq_some.mp hs
      obtain ⟨hb, hq⟩ := hI hp
      have hc : (σ.phase c).hasLk = true := by rw [hph]; rfl
      exact ⟨hb, hq.move rfl nofun (fun d hd e => absurd e (hq.other hc hd)) nofun
        (fun d _ e => e) rfl nofun rfl nofun fun _ => rfl⟩
  | test c =>
      obtain ⟨⟨hph, hcond⟩, ⟨⟩⟩ := Option.ite_none_right_eq_some.mp hs
      obtain ⟨hb, hq⟩ := hI hp
      refine ⟨hb, hq.move rfl (fun _ => hq.lk (by rw [hph]; rfl)) (fun d _ e => e) nofun
        (fun d _ e => e) rfl (fun _ => hcond) rfl (fun _ => ?_) fun _ => rfl⟩
      refine Bool.eq_false_iff.mpr fun hf => ?_
      rw [hq.fresh hf] at hcond
      cases hcond
  | lockPt c =>
      obtain ⟨⟨hph, hl⟩, ⟨⟩⟩ := Option.ite_none_right_eq_some.mp hs
      obtain ⟨hb, hq⟩ := hI hp
      refine ⟨hb.lockPt hl c, hq.move rfl (fun _ => hq.lk (by rw [hph]; rfl))
        (fun d _ e => e) (fun _ => rfl) (fun d _ e => ?_) rfl nofun rfl
        (fun _ => hq.stale (by rw [hph]; rfl)) fun _ => rfl⟩
      rw [hl] at e
      cases e
  | unlock c =>
      obtain ⟨hph, ⟨⟩⟩ := Option.ite_none_right_eq_some.mp hs
      obtain ⟨hb, hq⟩ := hI hp
      have hc : (σ.phase c).hasLk = true := by rw [hph]; rfl
      exact ⟨hb, hq.move rfl nofun (fun d hd e => absurd e (hq.other hc hd))
        (fun _ => hq.pt (by rw [hph]; rfl)) (fun d _ e => e) rfl nofun rfl
        (fun _ => hq.stale (by rw [hph]; rfl)) fun _ => rfl⟩
  | sched c =>
      simp only [Condition.step] at hs
      split at hs
      case h_2 => cases hs
      case h_1 r k hcl =>
        obtain ⟨⟨hph, hpan⟩, ⟨⟩⟩ := Option.ite_none_right_eq_some.mp hs
        obtain ⟨hb, hq⟩ := hI hpan
        obtain ⟨hr, hpc⟩ := State.client_some hcl
        have hl := hq.pt (c := c) (by rw [hph]; rfl)
        have hc : Change σ.sys (.kern c (.sleep n))
            (σ.sys.sleep c r (.other n) .sleep (.kern k)) := by
          refine .run hr (.sleep hpc (.kern n k) (.inr hl) trivial fun m e => ?_) rfl
          rw [Chan.other.inj e]
        have hst := hq.stale (c := c) (by rw [hph]; rfl)
        refine ⟨hb.change hc hp nofun nofun, hq.move rfl nofun (fun d _ e => e) nofun
          (fun d hd e => ?_) rfl nofun rfl nofun fun hf => ?_⟩
        · exact absurd (Option.some.inj (e.symm.trans hl)) hd
        · rw [hst] at hf
          cases hf

theorem proto_of_reach (h : (system Cpu n).Reach quietOk σ)
    (hp : σ.sys.panicked = none) : Base σ.sys ∧ Proto n σ := by
  refine Lib.System.Reach.invariant
    (I := fun σ : State Cpu => σ.sys.panicked = none → Base σ.sys ∧ Proto n σ)
    (fun σ hi _ => ?_) (fun σ α σ' hI hg hs hp' => Proto.step hI hg hs hp') h hp
  obtain ⟨hi, hlk, hf, hph⟩ := hi
  have hno : ∀ x, (σ.sys.thread x).state ≠ .SLEEPING := by
    intro x hs
    have hfr := hi.fresh (x := x) (by simp [Sys.Present, hs])
    exact absurd (hs.symm.trans hfr.state) (by decide)
  refine ⟨⟨hi.inv, hi.zombieInv, fun x hs => absurd hs (hno x)⟩, ?_, ?_, ?_, ?_, ?_, ?_⟩
  · intro c h
    rw [hph c] at h
    cases h
  · intro c h
    rw [hph c] at h
    cases h
  · intro c h
    rw [hph c] at h
    cases h
  · intro _ _
    exact hf
  · intro h
    rw [hf] at h
    cases h
  · intro _ x hx
    exact hno x hx.1

/-- The state after `boot`, with `cond` false. -/
def start (m : ProcId → ℕ) : State (Fin 2) :=
  { sys := boot (Fin 2) m, lk := none, cond := false, fresh := false,
    phase := fun _ => .out }

/-- Thread (0, 0), on CPU 1, finds the condition false and has taken
`ptable.lock` when thread (0, 1), on CPU 0, takes `lk` and makes the condition
true; the wake-up comes when thread (0, 0) is asleep on channel 7. -/
def wakerRun : List (Action (Fin 2)) :=
  [Act.sched 0, .trap 0, .run 0, .run 0, .syscall 0 .other, .kern 0 (.sleep 9),
    .sched 0, .trap 0, .run 0, .run 0, .syscall 0 .other, .wakeup 9,
    .sched 1].map .kernel ++
  [Action.acquire 1, .test 1, .lockPt 1, .unlock 1, .acquire 0, .set 0 true, .sched 1,
    .kernel (.sched 1), .wakeup 0]

end Condition

end Xv6.Kernel
