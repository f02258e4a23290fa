import Xv6.Kernel.Fresh

/-!
# New processes

`allocproc` takes a process slot as it finds it: `fork` relies on what `exit`,
`wait` and its own error paths have left there. `LiveInv` says that a process
that `wait` finds dead has gone through `exit`, `NewInv` that `exit` has closed
its files by then and that nobody sets the kill flag of a free slot.

The processes that `allocproc` has returned and the pids that `fork` has returned
are recorded in a history.
-/

set_option linter.unusedSectionVars false

namespace Xv6.Kernel

variable {Cpu : Type} [DecidableEq Cpu] {s s' : Sys Cpu} {a : Act Cpu} {c : Cpu}
  {r x : ThreadPtr} {p q : ProcId}

/-! ## §1  Processes and their threads -/

theorem Sys.Waited.child (h : s.Waited r p) :
    (s.proc p).parent = some r.1 ∧ s.allzombies p none := by
  have := List.find?_some h.2
  simpa using this

theorem Sys.Waited.alive (h : s.Waited r p) (hinv : Inv s) : (s.proc p).Alive := by
  by_contra hn
  have hp := hinv.slot.orphan (p := p) (by
    simp only [Proc.Alive, not_and_or, not_not] at hn
    exact hn)
  rw [h.child.1] at hp
  cases hp

theorem Sys.Waited.dead (h : s.Waited r p) (hZ : ZombieInv s) (t : Slot) :
    (s.thread (p, t)).state.dead = true := by
  rcases h.child.2 with hz | hd
  · rcases hZ p hz t with e | ⟨e, _⟩ <;> rw [e] <;> rfl
  · exact hd t nofun

/-- A thread on a CPU is still there after a step, unless it ends itself. -/
theorem Change.live_of_run (h : Inv s) (hZ : ZombieInv s) (hc : Change s a s')
    (hp : s'.panicked = none) (hr : s.cpu c = .run r)
    (hk : (s.thread r).pc ≠ .kthreadExit) (hf : (s.thread r).pc ≠ .exitFinal)
    (hg : (s.thread r).pc ≠ .kthreadExitSched) :
    (s'.thread r).state.dead = false := by
  have hst := h.running hr hg
  have hlive : (s.thread r).state.dead = false := by rw [hst]; rfl
  rcases hc.effect h hp r with hx | ⟨_, hx⟩
  · cases hx with
    | keep _ e => rw [e]; exact hlive
    | execWake _ _ _ e | handOff _ _ _ e => rw [e]; rfl
    | wake _ e | killWake _ _ e | create _ _ e | fork _ _ e | stack e | drop e
    | dispatch _ e => exact absurd (hst.symm.trans e) (by decide)
    | publish e => exact absurd (hst.symm.trans e.1) (by decide)
    | mark _ _ hm =>
        rcases hm.2.2.2 with e | e <;> exact absurd (hst.symm.trans e) (by decide)
    | reap _ hm =>
        rcases hm.zombie_or_waited with e | hw
        · exact absurd (hst.symm.trans e) (by decide)
        · exact absurd (hlive.symm.trans (hw.dead hZ r.2)) (by decide)
  · cases hx with
    | goOn _ _ _ e | own _ _ e | block _ e | beginOp _ e | endOp _ _ _ e
    | acquire _ e | release _ _ e => rw [e]; exact hlive
    | exitClose hl => rw [hl.thread]; exact hlive
    | exitWait _ _ _ e => rw [e]; rfl
    | die e => exact absurd e hk
    | leave hle e =>
        rw [e]
        cases hle with
        | sleep | yield | mutex => rfl
        | final hpc => exact absurd hpc hf
        | gap hpc => exact absurd hpc hg

/-- How a thread can end in a step: a thread of its process is running and one
goes on, or the process ends with it, or `fork` gives it up. -/
theorem Change.ends (h : Inv s) (hZ : ZombieInv s) (hc : Change s a s')
    (hp : s'.panicked = none) (hl : (s.thread x).state.dead = false)
    (hd : (s'.thread x).state.dead = true) :
    (∃ c t, s.cpu c = .run (x.1, t)) ∧
      ((∃ t, (s'.thread (x.1, t)).state.dead = false) ∨
        (s'.proc x.1).state = .ZOMBIE) ∨
    ∃ c r, s.cpu c = .run r ∧ (s.thread r).pc.abandons = some x.1 := by
  have hno : ∀ {st : States} {P : Prop}, (s'.thread x).state = st →
      st.dead = false → P := by
    intro st P e hf
    rw [e, hf] at hd
    cases hd
  -- a sibling that is on a CPU goes on
  have hsib : ∀ {c : Cpu} {r : ThreadPtr}, s.cpu c = .run r → r.1 = x.1 →
      (s.thread r).pc = .exit ∨ (∃ u, (s.thread r).pc = .createStack u) →
      (∃ c t, s.cpu c = .run (x.1, t)) ∧
        ((∃ t, (s'.thread (x.1, t)).state.dead = false) ∨
          (s'.proc x.1).state = .ZOMBIE) := by
    intro c r hr hsame hpc
    have hlive := hc.live_of_run h hZ hp hr
      (by rcases hpc with e | ⟨_, e⟩ <;> rw [e] <;> nofun)
      (by rcases hpc with e | ⟨_, e⟩ <;> rw [e] <;> nofun)
      (by rcases hpc with e | ⟨_, e⟩ <;> rw [e] <;> nofun)
    rw [← hsame]
    exact ⟨⟨c, r.2, hr⟩, .inl ⟨r.2, hlive⟩⟩
  rcases hc.effect h hp x with hx | ⟨⟨c, hr⟩, hx⟩
  · cases hx with
    | keep _ e => exact hno (congrArg Thread.state e) hl
    | wake _ _ _ _ _ e | killWake _ _ _ e | execWake _ _ _ e | publish _ e
    | handOff _ _ _ e | create _ _ _ e | fork _ _ _ e | dispatch _ _ e =>
        exact hno (congrArg Thread.state e) rfl
    | stack hs e => exact hno ((congrArg Thread.state e).trans hs) rfl
    | mark _ hr hm =>
        obtain ⟨c, hr⟩ := Sys.run_of_acting hr
        exact .inl (hsib hr hm.2.1.symm (.inl hm.1))
    | reap _ hm =>
        rcases hm.zombie_or_waited with e | hw
        · rw [e] at hl
          cases hl
        · exact absurd (hl.symm.trans (hw.dead hZ x.2)) (by decide)
    | drop _ _ _ hr =>
        obtain ⟨c, r, hr, ⟨hsame, hpc⟩ | hgive⟩ := hr
        · exact .inl (hsib hr hsame (.inr ⟨_, hpc⟩))
        · exact .inr ⟨c, r, hr, hgive⟩
  · cases hx with
    | goOn _ _ _ e | own _ _ e | block _ e | beginOp _ e | endOp _ _ _ e
    | acquire _ e | release _ _ e => exact hno (congrArg Thread.state e) hl
    | exitClose hle => exact hno (congrArg Thread.state hle.thread) hl
    | exitWait _ _ _ e => exact hno (congrArg Thread.state e) rfl
    | die _ _ _ _ hz =>
        obtain ⟨t, _, ht⟩ := hz
        exact .inl ⟨⟨c, x.2, hr⟩, .inl ⟨t, ht⟩⟩
    | leave hle e _ hz =>
        cases hle with
        | sleep | yield | mutex => exact hno (congrArg Thread.state e) rfl
        | final hpc => exact .inl ⟨⟨c, x.2, hr⟩, .inr (hz rfl hpc)⟩
        | gap _ hs =>
            rw [hs] at hl
            cases hl

/-- A thread that has a new process in its hands had it before the step, or has
come to its program point in the step. -/
theorem Change.forking (h : Inv s) (hc : Change s a s') (hp : s'.panicked = none)
    (hpr : s'.Present r) (hf : (s'.thread r).pc.forks = some q) :
    s.Present r ∧ ((s'.thread r).pc = (s.thread r).pc ∨
      (∃ c, s.cpu c = .run r) ∧ s.Enters r a (s'.thread r).pc) := by
  have hno : ∀ {pc : Pc} {P : Prop}, (s'.thread r).pc = pc → pc.forks = none →
      P := by
    intro pc P e hn
    rw [e, hn] at hf
    cases hf
  have hstay : ∀ {st : States}, (s'.thread r).pc = (s.thread r).pc →
      (s.thread r).state = st → st ≠ .UNUSED →
      s.Present r ∧ ((s'.thread r).pc = (s.thread r).pc ∨
        (∃ c, s.cpu c = .run r) ∧ s.Enters r a (s'.thread r).pc) := by
    intro st e hs hu
    exact ⟨by rw [Sys.Present, hs]; exact hu, .inl e⟩
  rcases hc.effect h hp r with hx | ⟨⟨c, hr⟩, hx⟩
  · cases hx with
    | keep _ e =>
        refine ⟨?_, .inl (by rw [e])⟩
        rw [Sys.Present, e] at hpr
        exact hpr
    | wake _ hs _ _ _ e | killWake _ _ hs e | stack hs e =>
        exact hstay (by rw [e]) hs (by decide)
    | dispatch _ hs e => exact hstay (by rw [e]; rfl) hs (by decide)
    | publish hs e => exact hstay (by rw [e]) hs.1 (by decide)
    | execWake _ _ hk e => exact hstay (by rw [e]) hk.2.2 (by decide)
    | mark _ _ hk e =>
        rcases hk.2.2.2 with hs | hs <;>
          exact hstay (by rw [e]) hs (by decide)
    | handOff _ _ hw e =>
        exact ⟨(h.mutex.blocked hw.1).1, .inl (by rw [e])⟩
    | create _ _ _ e | fork _ _ _ e => exact hno (congrArg Thread.pc e) rfl
    | reap _ _ hs => exact absurd hs hpr
    | drop _ _ e => exact absurd (congrArg Thread.state e) hpr
  · have hpr₀ := h.present_of_run hr
    cases hx with
    | goOn pc' _ _ e he =>
        rw [show (s'.thread r).pc = pc' from congrArg Thread.pc e]
        exact ⟨hpr₀, .inr ⟨⟨c, hr⟩, he⟩⟩
    | own _ _ e | block _ e | beginOp _ e | endOp _ _ _ e | acquire _ e | die _ e
    | exitWait _ _ _ e => exact hno (congrArg Thread.pc e) rfl
    | exitClose hle => exact hno (congrArg Thread.pc hle.thread) rfl
    | release _ _ e => exact ⟨hpr₀, .inl (by rw [e])⟩
    | leave hle e =>
        have e := congrArg Thread.pc e
        cases hle with
        | sleep hsl =>
            generalize (s.thread r).pc = pc at hsl
            cases hsl <;> exact hno e rfl
        | yield hy =>
            refine ⟨hpr₀, ?_⟩
            generalize (s.thread r).pc = pc at hy
            cases hy with
            | user => exact hno e rfl
            | kernel => exact .inl e
        | mutex | final | gap => exact hno e rfl

/-- A process that is in use and has not ended has a thread that has not ended,
and so has one that `fork` is about to make `RUNNABLE`. -/
structure LiveInv (s : Sys Cpu) : Prop where
  live : ∀ {p}, (s.proc p).Alive → (s.proc p).state ≠ .ZOMBIE →
    ∃ t, (s.thread (p, t)).state.dead = false
  started : ∀ {r q pid}, s.Present r → (s.thread r).pc = .forkRunnable q pid →
    (s.thread (q, 0)).state.dead = false

/-- What `wait` reaps has gone through `exit`. -/
theorem LiveInv.zombie_of_waited (hI : LiveInv s) (h : Inv s) (hZ : ZombieInv s)
    (hw : s.Waited r p) : (s.proc p).state = .ZOMBIE := by
  by_contra hz
  obtain ⟨t, ht⟩ := hI.live (hw.alive h) hz
  exact absurd (ht.symm.trans (hw.dead hZ t)) (by decide)

/-- A process that is in use after a step was so before it, or `fork` has just
made it `RUNNABLE`. -/
theorem ProcEffect.of_alive (hx : ProcEffect s a s' p) (h : Inv s)
    (ha : (s'.proc p).Alive) : (s.proc p).Alive ∨
      ∃ r pid, s.acting a = some r ∧ (s.thread r).pc = .forkRunnable p pid ∧
        (s'.thread r).pc = .sysret pid ∧ (s'.proc p).pid = (s.proc p).pid := by
  have hrun : ∀ {c : Cpu} {r : ThreadPtr}, s.cpu c = .run r → r.1 = p →
      (s.proc p).Alive := by
    rintro c r hr rfl
    exact h.cpu.alive hr
  cases hx with
  | keep hs =>
      rw [Proc.Alive, hs] at ha
      exact .inl ha
  | wake _ hw => refine .inl ⟨?_, ?_⟩ <;> intro e <;> simp [e, States.wakeable] at hw
  | killWake e => exact .inl (by simp [Proc.Alive, e])
  | leave hr hp' | final hr _ hp' | setMid hr hp' | clear hr _ hp' | exits hr hp' =>
      exact .inl (hrun hr hp')
  | dispatch _ _ _ _ _ hal => exact .inl hal
  | vacate _ _ e => exact absurd (by rw [e]; rfl) ha.1
  | claim _ _ e => exact absurd e ha.2
  | unclaim _ e => exact absurd e ha.1
  | publish _ _ hk hr =>
      obtain ⟨r, pid, hr, hpc, hret⟩ := hr
      exact .inr ⟨r, pid, hr, hpc, hret, hk.pid⟩

/-- The first thread of a process that `fork` is about to make `RUNNABLE`. -/
theorem Change.started (h : Inv s) (hZ : ZombieInv s) (hc : Change s a s')
    (hp : s'.panicked = none) (hpr : s.Present r) {pid : ℤ}
    (hpc : (s.thread r).pc = .forkThreadRunnable q pid ∨
      (s.thread r).pc = .forkRunnable q pid)
    (hl : (s.thread (q, 0)).state.dead = false) :
    (s'.thread (q, 0)).state.dead = false := by
  have hf : (s.thread r).pc.forks = some q ∧ (s.thread r).pc.abandons = none := by
    rcases hpc with e | e <;> rw [e] <;> exact ⟨rfl, rfl⟩
  have hE := h.embryo_of_forks hpr hf.1
  by_contra hd
  rw [Bool.not_eq_false] at hd
  rcases hc.ends h hZ hp hl hd with ⟨⟨c, t, hr⟩, _⟩ | ⟨c, r', hr, hgive⟩
  · exact (h.cpu.alive hr).2 hE
  · obtain rfl := h.slot.forkUnique hpr (h.present_of_run hr) hf.1
      (Pc.forks_of_abandons hgive)
    rw [hf.2] at hgive
    cases hgive

theorem LiveInv.step (hI : LiveInv s) (h : Inv s) (hZ : ZombieInv s)
    (hg : forkOk s a) (hc : Change s a s') (hp : s'.panicked = none) :
    LiveInv s' where
  live {p} ha hz := by
    have hx := hc.procEffect h hp p
    rcases hx.of_alive h ha with ha₀ | ⟨r, pid, hr, hpc, _⟩
    · have hz₀ : (s.proc p).state ≠ .ZOMBIE := fun e =>
        (hZ.proc h hg hx e).elim hz fun e => ha.1 e.1
      -- follow a thread that lived before the step
      obtain ⟨t, ht⟩ := hI.live ha₀ hz₀
      cases hd : (s'.thread (p, t)).state.dead with
      | false => exact ⟨t, hd⟩
      | true =>
          rcases hc.ends h hZ hp ht hd with ⟨_, hlive | e⟩ | ⟨c, r, hr, hgive⟩
          · exact hlive
          · exact absurd e hz
          · exact absurd (h.embryo_of_forks (h.present_of_run hr)
              (Pc.forks_of_abandons hgive)) ha₀.2
    · obtain ⟨c, hr⟩ := Sys.run_of_acting hr
      have hpr := h.present_of_run hr
      exact ⟨0, hc.started h hZ hp hpr (.inr hpc) (hI.started hpr hpc)⟩
  started {r q pid} hpr hpc := by
    obtain ⟨hpr₀, e | ⟨_, he⟩⟩ := hc.forking h hp hpr (by rw [hpc]; rfl)
    · have hpc₀ := e.symm.trans hpc
      exact hc.started h hZ hp hpr₀ (.inr hpc₀) (hI.started hpr₀ hpc₀)
    · rw [hpc] at he
      have hfact := h.slot.fact hpr₀
      rw [show (s.thread r).pc = _ from he] at hfact
      refine hc.started h hZ hp hpr₀ (.inl he) ?_
      rw [hfact.2.2.1]
      rfl

/-! ## §2  What is left in a process slot -/

/-- `allocproc` works on the process. -/
def Pc.allocates : Pc → Option ProcId
  | .forkThread q | .forkStack q _ | .forkFail q => some q
  | _ => none

theorem Pc.forks_of_allocates {pc : Pc} (h : pc.allocates = some q) :
    pc.forks = some q := by
  cases pc <;> first | exact h | cases h

/-- `allocproc` has just claimed the process, or was at work on it. -/
theorem Sys.Enters.allocates {pc : Pc} (he : s.Enters r a pc)
    (h : pc.allocates = some q) :
    s.acting a = some r ∧ (s.thread r).pc = .forkClaim q ∨
      (s.thread r).pc.allocates = some q := by
  cases pc <;> cases h
  case forkThread =>
    obtain ⟨⟨c, rfl, hr⟩, hpc⟩ := he
    exact .inl ⟨Sys.acting_run hr, hpc⟩
  case forkStack => exact .inr (by rw [show (s.thread r).pc = _ from he]; rfl)
  case forkFail =>
    rcases he with e | ⟨_, e⟩
    · exact .inr (by rw [e]; rfl)
    · exact .inr (by rw [e]; rfl)

/-- `exit` and its waiting loop run as they should, and `kill` finds processes
that are in use. -/
def newOk (s : Sys Cpu) (a : Act Cpu) : Prop :=
  exitOk s a ∧ endOk s a ∧ ∀ r ∈ s.acting a, ∀ p, s.Kills r p → (s.proc p).Alive

instance (p : Proc) : Decidable p.Alive := by
  unfold Proc.Alive; infer_instance

instance (s : Sys Cpu) (a : Act Cpu) : Decidable (newOk s a) := by
  unfold newOk; infer_instance

/-- No file of the process is open. -/
def Proc.Closed (x : Proc) : Prop := ∀ fd, x.ofile fd = false

/-- What `exit`, `wait` and `fork` have left in a process slot. -/
structure NewInv (s : Sys Cpu) : Prop where
  -- `exit` goes through the descriptors in order
  closing : ∀ {x}, (s.thread x).state.dead = false →
    (s.thread x).pc.tearing = true → (s.proc x.1).exiting = some x.2 ∧
      ∀ fd : Fd, fd.val < (s.thread x).pc.closed → (s.proc x.1).ofile fd = false
  closed : ∀ {p}, (s.proc p).state = .UNUSED ∨ (s.proc p).state = .ZOMBIE →
    (s.proc p).Closed
  filling : ∀ {r q}, s.Present r → (s.thread r).pc.allocates = some q ∨
    (s.thread r).pc = .forkCopy q → (s.proc q).Closed
  killed : ∀ {p}, ¬ (s.proc p).Alive → (s.proc p).killed = false
  mid : ∀ {p}, (s.proc p).state = .EMBRYO → ∀ i, (s.proc p).mid i = false

/-- A file is opened by a thread of the process, or copied by `fork`. -/
theorem DataEffect.opened (hx : DataEffect s a s' p) {fd : Fd}
    (ho : (s'.proc p).ofile fd = true) :
    (s.proc p).ofile fd = true ∨
    (∃ c r, s.cpu c = .run r ∧ r.1 = p ∧ (s.thread r).pc = .kern .ret) ∨
    ∃ c r, s.cpu c = .run r ∧ (s.thread r).pc = .forkCopy p ∧
      (s'.proc p).state = (s.proc p).state ∧
      ∃ pid, (s'.thread r).pc = .forkThreadRunnable p pid := by
  cases hx with
  | keep _ e | kill _ _ _ e | fault _ _ _ e | vacate _ _ _ e =>
      rw [e] at ho
      exact .inl ho
  | file _ _ hr hp hpc => exact .inr (.inl ⟨_, _, hr, hp, hpc⟩)
  | @close _ _ fd' _ _ _ _ e =>
      rw [e] at ho
      by_cases hfd : fd = fd'
      · rw [hfd, Function.update_self] at ho
        cases ho
      · rw [Function.update_of_ne hfd] at ho
        exact .inl ho
  | copy hr hpc _ _ hs he => exact .inr (.inr ⟨_, _, hr, hpc, hs, he⟩)

/-- Nobody opens a file of a process that a thread is tearing down. -/
theorem NewInv.not_opened (hI : NewInv s) (hE : ExitInv s) (h : Inv s)
    (hx : DataEffect s a s' x.1) (hl : (s.thread x).state.dead = false)
    (ht : (s.thread x).pc.tearing = true) {fd : Fd}
    (ho : (s.proc x.1).ofile fd = false) : (s'.proc x.1).ofile fd = false := by
  have hexit := (hI.closing hl ht).1
  refine Bool.eq_false_iff.mpr fun ho' => ?_
  rcases hx.opened ho' with e | ⟨c, r, hr, hp, hpc⟩ | ⟨c, r, hr, hpc, _⟩
  · exact absurd (ho.symm.trans e) (by decide)
  · have hlive := h.not_dead_of_run hr (by rw [hpc]; nofun)
    by_cases hrx : r.2 = x.2
    · obtain rfl : r = x := Prod.ext hp hrx
      rw [hpc] at ht
      cases ht
    · have hd := hE.alone hexit r.2 hrx
      rw [← hp] at hd
      exact absurd (hlive.symm.trans hd) (by decide)
  · exact (hE.alive hexit).2
      (h.embryo_of_forks (h.present_of_run hr) (by rw [hpc]; rfl))

/-- A live thread that tears its process down did so before the step, or has
just left the waiting loop of `exit`. -/
theorem Change.closing (h : Inv s) (hc : Change s a s') (hp : s'.panicked = none)
    (hl : (s'.thread x).state.dead = false)
    (ht : (s'.thread x).pc.tearing = true) :
    LeavesLoop s s' x ∨ (s.thread x).state.dead = false ∧
      (s.thread x).pc.tearing = true ∧
      s'.Closes x (s.thread x).pc (s'.thread x).pc := by
  have hno : ∀ {pc : Pc} {P : Prop}, (s'.thread x).pc = pc → pc.tearing = false →
      P := by
    intro pc P e hn
    rw [e, hn] at ht
    cases ht
  have hstay : (s.thread x).state.dead = false →
      (s'.thread x).pc = (s.thread x).pc → (s.thread x).state.dead = false ∧
        (s.thread x).pc.tearing = true ∧
        s'.Closes x (s.thread x).pc (s'.thread x).pc := by
    intro hl₀ e
    rw [e] at ht ⊢
    exact ⟨hl₀, ht, Sys.closes_of_le le_rfl⟩
  rcases hc.effect h hp x with hx | ⟨⟨c, hr⟩, hx⟩
  · refine .inr ?_
    cases hx with
    | keep _ e =>
        refine hstay ?_ (by rw [e])
        rw [e] at hl
        exact hl
    | wake _ hs _ _ _ e | killWake _ _ hs e => exact hstay (by rw [hs]; rfl) (by rw [e])
    | dispatch _ hs e => exact hstay (by rw [hs]; rfl) (by rw [e]; rfl)
    | execWake _ _ hk e => exact hstay (by rw [hk.2.2]; rfl) (by rw [e])
    | mark _ _ _ e | drop _ _ e =>
        rw [e] at hl
        cases hl
    | reap _ _ e =>
        rw [e] at hl
        cases hl
    | create _ _ _ e | fork _ _ _ e => exact hno (congrArg Thread.pc e) rfl
    | stack hs e => exact hno ((congrArg Thread.pc e).trans (h.slot.embryo hs)) rfl
    | publish hs e =>
        exact hno ((congrArg Thread.pc e).trans (h.slot.embryo hs.1)) rfl
    | handOff hr hk hwt e =>
        exact hno ((congrArg Thread.pc e).trans (h.woken_of_handsOff hr hk hwt).2.1)
          rfl
  · have hl₀ : (s.thread x).state.dead = false := by
      rcases h.cpu.state hr with e | ⟨e, hpc⟩
      · rw [e]
        rfl
      · rw [(hx.of_gap hpc e).1] at hl
        cases hl
    cases hx with
    | goOn pc' _ hgo e _ hcl =>
        rw [show (s'.thread x).pc = pc' from congrArg Thread.pc e] at ht ⊢
        exact .inr ⟨hl₀, hgo.tearing.symm.trans ht, hcl⟩
    | beginOp hpc e =>
        have e' := congrArg Thread.pc e
        rw [show (s'.thread x).pc = _ from e'] at ht ⊢
        refine .inr ⟨hl₀, by rw [hpc]; exact ht, ?_⟩
        rw [hpc]
        exact Sys.closes_of_le le_rfl
    | acquire hpc e =>
        have e' := congrArg Thread.pc e
        rw [show (s'.thread x).pc = _ from e'] at ht ⊢
        refine .inr ⟨hl₀, by rw [hpc]; exact ht, ?_⟩
        rw [hpc]
        exact Sys.closes_of_le le_rfl
    | @endOp k k' hpc _ hk e =>
        rw [show (s'.thread x).pc = .kern k' from congrArg Thread.pc e] at ht ⊢
        rw [hpc]
        refine .inr ⟨hl₀, ?_, Sys.closes_of_le hk.2.le⟩
        simp only [Pc.tearing, ← hk.1]
        exact ht
    | release _ _ e => exact .inr (hstay hl₀ (by rw [e]))
    | own _ _ e | block _ e | die _ e | exitWait _ _ _ e =>
        exact hno (congrArg Thread.pc e) rfl
    | exitClose hle => exact .inl hle
    | leave hle e =>
        have e' := congrArg Thread.pc e
        cases hle with
        | sleep hsl =>
            refine .inr (hstay hl₀ ?_)
            generalize (s.thread x).pc = pc at hsl
            cases hsl <;> first | exact e' | exact hno e' rfl
        | yield hy =>
            refine .inr (hstay hl₀ ?_)
            generalize (s.thread x).pc = pc at hy
            cases hy with
            | user => exact hno e' rfl
            | kernel => exact e'
        | mutex | final | gap => exact hno e' rfl

/-- A step keeps `exiting` until `wait` reaps the process. -/
theorem ExitInv.exiting_kept (hI : ExitInv s) (h : Inv s)
    (hx : ProcEffect s a s' p) {t : Slot} (he : (s.proc p).exiting = some t)
    (hu : (s'.proc p).state ≠ .UNUSED) : (s'.proc p).exiting = some t := by
  cases hx with
  | keep _ hk | wake _ _ _ hk | killWake _ _ hk | leave _ _ _ hk
  | final _ _ _ _ _ hk | dispatch _ _ hk | unclaim _ _ hk | publish _ _ hk =>
      exact hk.exiting.trans he
  | claim _ _ _ _ e | setMid _ _ _ _ _ e | clear _ _ _ _ _ _ e => exact e.trans he
  | vacate _ _ e => exact absurd (by rw [e]; rfl) hu
  | @exits c r hr hp hle =>
      -- the thread that leaves the loop is alive, so it is the one recorded
      subst hp
      have hlive := h.not_dead_of_run hr (by
        rcases hle.old with e | ⟨_, e⟩ <;> rw [e] <;> nofun)
      by_cases ht : r.2 = t
      · rw [← ht]
        exact hle.exiting
      · exact absurd (hlive.symm.trans (hI.alone he r.2 ht)) (by decide)

theorem NewInv.closing_step (hI : NewInv s) (hE : ExitInv s) (h : Inv s)
    (h' : Inv s') (hc : Change s a s') (hp : s'.panicked = none)
    (hl : (s'.thread x).state.dead = false)
    (ht : (s'.thread x).pc.tearing = true) :
    (s'.proc x.1).exiting = some x.2 ∧
      ∀ fd : Fd, fd.val < (s'.thread x).pc.closed →
        (s'.proc x.1).ofile fd = false := by
  rcases hc.closing h hp hl ht with hle | ⟨hl₀, ht₀, hcl⟩
  · refine ⟨hle.exiting, fun fd hfd => ?_⟩
    rw [hle.thread] at hfd
    exact absurd hfd (Nat.not_lt_zero _)
  · obtain ⟨hexit, hclosed⟩ := hI.closing hl₀ ht₀
    have hu : (s'.proc x.1).state ≠ .UNUSED := fun e => by
      rw [h'.slot.unused e x.2 List.not_mem_nil] at hl
      cases hl
    refine ⟨hE.exiting_kept h (hc.procEffect h hp x.1) hexit hu, fun fd hfd => ?_⟩
    rcases hcl fd hfd with hlt | ho
    · exact hI.not_opened hE h (hc.dataEffect hp x.1) hl₀ ht₀ (hclosed fd hlt)
    · exact ho

theorem NewInv.closed_step (hI : NewInv s) (hE : ExitInv s) (hZ : ZombieInv s)
    (hL : LiveInv s) (h : Inv s) (hc : Change s a s') (hp : s'.panicked = none)
    (hs : (s'.proc p).state = .UNUSED ∨ (s'.proc p).state = .ZOMBIE) :
    (s'.proc p).Closed := by
  intro fd
  -- `final` is the only step that finds the files of the process open elsewhere
  have hold : (∃ c r, s.cpu c = .run r ∧ r.1 = p ∧ (s.thread r).pc = .exitFinal) ∨
      (s.proc p).Closed ∧ ∀ {c : Cpu} {r : ThreadPtr}, s.cpu c = .run r → r.1 ≠ p := by
    have hnot : (s.proc p).state = .UNUSED ∨ (s.proc p).state = .ZOMBIE →
        (s.proc p).Closed ∧ ∀ {c : Cpu} {r : ThreadPtr}, s.cpu c = .run r → r.1 ≠ p := by
      intro hs₀
      refine ⟨hI.closed hs₀, ?_⟩
      rintro c r hr rfl
      exact hs₀.elim (h.cpu.alive hr).1 (hZ.not_run h hr)
    have hne : ∀ {st : States} {P : Prop}, (s'.proc p).state = st → st ≠ .UNUSED →
        st ≠ .ZOMBIE → P := by
      rintro _ P rfl hu hz
      exact (hs.elim hu hz).elim
    cases hc.procEffect h hp p with
    | keep e =>
        rw [e] at hs
        exact .inr (hnot hs)
    | setMid hr hp' _ e | clear hr _ hp' _ e | exits hr hp' _ e =>
        rw [e] at hs
        exact absurd hp' ((hnot hs).2 hr)
    | final hr _ hp' hpc => exact .inl ⟨_, _, hr, hp', hpc⟩
    | vacate ha hw => exact .inr (hnot (.inr (hL.zombie_of_waited h hZ hw)))
    | unclaim e _ _ hr =>
        obtain ⟨c, r, hr, hpc⟩ := hr
        have hpr := h.present_of_run hr
        refine .inr ⟨hI.filling hpr (hpc.imp (fun e => by rw [e]; rfl) id), ?_⟩
        rintro c' r' hr' rfl
        exact (h.cpu.alive hr').2 e
    | leave _ _ e => rcases e with e | e <;> exact hne e (by decide) (by decide)
    | wake _ _ e | killWake _ e | dispatch _ e | claim _ _ e | publish _ e =>
        exact hne e (by decide) (by decide)
  rcases hold with ⟨c, r, hr, rfl, hpc⟩ | ⟨hclosed, hnone⟩
  · have hl := h.not_dead_of_run hr (by rw [hpc]; nofun)
    have ht : (s.thread r).pc.tearing = true := by rw [hpc]; rfl
    refine hI.not_opened hE h (hc.dataEffect hp r.1) hl ht ?_
    refine (hI.closing hl ht).2 fd ?_
    rw [hpc]
    exact fd.isLt
  · refine Bool.eq_false_iff.mpr fun ho => ?_
    rcases (hc.dataEffect hp p).opened ho with e | ⟨c, r, hr, hp', _⟩ |
      ⟨c, r, hr, hpc, e, _⟩
    · exact absurd ((hclosed fd).symm.trans e) (by decide)
    · exact hnone hr hp'
    · rw [e, h.embryo_of_forks (h.present_of_run hr) (by rw [hpc]; rfl)] at hs
      rcases hs with hs | hs <;> cases hs

theorem NewInv.filling_step (hI : NewInv s) (h : Inv s) (hg : forkOk s a)
    (hc : Change s a s') (hp : s'.panicked = none) (hpr : s'.Present r)
    (hpc : (s'.thread r).pc.allocates = some q ∨ (s'.thread r).pc = .forkCopy q) :
    (s'.proc q).Closed := by
  have hf : (s'.thread r).pc.forks = some q := by
    rcases hpc with e | e
    · exact Pc.forks_of_allocates e
    · rw [e]
      rfl
  obtain ⟨hpr₀, hpc₀⟩ := hc.forking h hp hpr hf
  -- before the step the process was claimed, or it was a free slot
  have hold : (s.thread r).pc.forks = some q ∧ (s.proc q).Closed ∨
      (s.proc q).state = .UNUSED := by
    have hfill : (s.thread r).pc.allocates = some q ∨ (s.thread r).pc = .forkCopy q →
        (s.thread r).pc.forks = some q ∧ (s.proc q).Closed := by
      intro hpc
      refine ⟨?_, hI.filling hpr₀ hpc⟩
      rcases hpc with e | e
      · exact Pc.forks_of_allocates e
      · rw [e]
        rfl
    rcases hpc₀ with e | ⟨_, he⟩
    · rw [e] at hpc
      exact .inl (hfill hpc)
    · rcases hpc with hpc | hpc
      · rcases he.allocates hpc with ⟨ha, hcl⟩ | hal
        · exact .inr (hg r ha q hcl)
        · exact .inl (hfill (.inl hal))
      · rw [hpc] at he
        obtain ⟨u, he⟩ := he
        exact .inl (hfill (.inl (by rw [he]; rfl)))
  have hdead : ¬ (s.proc q).Alive := by
    rcases hold with ⟨hf, _⟩ | hu
    · exact fun hal => hal.2 (h.embryo_of_forks hpr₀ hf)
    · exact fun hal => hal.1 hu
  intro fd
  refine Bool.eq_false_iff.mpr fun ho => ?_
  rcases (hc.dataEffect hp q).opened ho with e | ⟨c, r', hr, rfl, _⟩ |
    ⟨c, r', hr, hcopy, _, pid, hpc'⟩
  · rcases hold with ⟨_, hclosed⟩ | hu
    · exact absurd ((hclosed fd).symm.trans e) (by decide)
    · exact absurd ((hI.closed (.inl hu) fd).symm.trans e) (by decide)
  · exact hdead (h.cpu.alive hr)
  · -- the copy is the end of this phase
    have hpr' := h.present_of_run hr
    have hf' : (s.thread r').pc.forks = some q := by rw [hcopy]; rfl
    rcases hold with ⟨hf₀, _⟩ | hu
    · obtain rfl := h.slot.forkUnique hpr₀ hpr' hf₀ hf'
      rw [hpc'] at hpc
      rcases hpc with e | e <;> cases e
    · exact absurd ((h.embryo_of_forks hpr' hf').symm.trans hu) (by decide)

theorem NewInv.killed_step (hI : NewInv s) (h : Inv s) (hg : newOk s a)
    (hc : Change s a s') (hp : s'.panicked = none) (hd : ¬ (s'.proc p).Alive) :
    (s'.proc p).killed = false := by
  rcases (hc.procEffect h hp p).of_not_alive h hg.1.1 hd with e | ⟨hd₀, _⟩
  · rw [e]
    rfl
  · have hk := hI.killed hd₀
    cases hc.dataEffect hp p with
    | keep e | file _ _ _ _ _ e | close _ _ _ e | copy _ _ e => exact e.trans hk
    | vacate _ _ e => exact e
    | kill ha hpc hq =>
        refine absurd (hg.2.2 _ ha p ?_) hd₀
        simp only [Sys.Kills, hpc]
        exact hq
    | fault _ hr hp' =>
        subst hp'
        exact absurd (h.cpu.alive hr) hd₀

theorem NewInv.mid_step (hI : NewInv s) (h : Inv s) (hc : Change s a s')
    (hp : s'.panicked = none) (hs : (s'.proc p).state = .EMBRYO) (i : MutexId) :
    (s'.proc p).mid i = false := by
  have hrun : ∀ {c : Cpu} {r : ThreadPtr} {P : Prop}, s.cpu c = .run r → r.1 = p →
      (s.proc p).state = .EMBRYO → P := by
    rintro c r P hr rfl e
    exact absurd e (h.cpu.alive hr).2
  cases hc.procEffect h hp p with
  | keep e hk =>
      rw [hk.mid]
      exact hI.mid (e.symm.trans hs) i
  | claim _ _ _ e => rw [e]
  | setMid hr hp' _ e | clear hr _ hp' _ e | exits hr hp' _ e =>
      exact hrun hr hp' (e.symm.trans hs)
  | leave _ _ e => rcases e with e | e <;> exact absurd (hs.symm.trans e) (by decide)
  | wake _ _ e | killWake _ e | final _ _ _ _ e | dispatch _ e | unclaim _ e
  | publish _ e => exact absurd (hs.symm.trans e) (by decide)
  | vacate _ _ e =>
      rw [e] at hs
      cases hs

theorem NewInv.step (hI : NewInv s) (hE : ExitInv s) (hZ : ZombieInv s)
    (hL : LiveInv s) (h : Inv s) (h' : Inv s') (hg : newOk s a)
    (hc : Change s a s') (hp : s'.panicked = none) : NewInv s' where
  closing hl ht := hI.closing_step hE h h' hc hp hl ht
  closed hs := hI.closed_step hE hZ hL h hc hp hs
  filling hpr hpc := hI.filling_step h hg.1.1 hc hp hpr hpc
  killed hd := hI.killed_step h hg hc hp hd
  mid hs i := hI.mid_step h hc hp hs i

theorem Initial.liveInv (hi : Initial s) : LiveInv s where
  live {p} ha _ := by
    obtain ⟨t, ht⟩ := hi.thread p ha.1
    exact ⟨t, by rw [(hi.fresh (x := (p, t)) ht).state]; rfl⟩
  started hpr hpc := absurd ((hi.fresh hpr).pc.symm.trans hpc) nofun

theorem Initial.newInv (hi : Initial s) : NewInv s where
  closing hl ht := by
    rw [hi.user_of_live hl] at ht
    cases ht
  closed {p} hs := by
    rcases hi.proc p with ⟨hf, _⟩ | ⟨e, _⟩
    · exact hf.ofile
    · rw [e] at hs
      rcases hs with hs | hs <;> cases hs
  filling hpr hpc := by
    rw [(hi.fresh hpr).pc] at hpc
    rcases hpc with e | e <;> cases e
  killed {p} hd := by
    rcases hi.proc p with ⟨hf, _⟩ | ⟨e, _⟩
    · exact hf.killed
    · exact absurd (by rw [Proc.Alive, e]; exact ⟨by simp, by simp⟩) hd
  mid _ i := hi.mid _ i

theorem newInv_of_reach (h : (kernel Cpu).Reach newOk s)
    (hp : s.panicked = none) : NewInv s := by
  refine (invariant_of_reach (G := newOk)
    (I := fun s => ExitInv s ∧ ZombieInv s ∧ LiveInv s ∧ NewInv s)
    (fun _ _ hg => hg.1.1) (fun s hi => ?_)
    (fun s a s' h ⟨hE, hZ, hL, hI⟩ hg hc hp' => ?_) h hp).2.2.2
  · exact ⟨hi.exitInv, hi.zombieInv, hi.liveInv, hi.newInv⟩
  · have h' := hc.inv h hg.1.1 hp'
    exact ⟨hE.step h hg.1 hc hp', hZ.step h hg.2.1 hc hp',
      hL.step h hZ hg.1.1 hc hp', hI.step hE hZ hL h h' hg hc hp'⟩

/-! ## §3  What `allocproc` and `fork` have returned -/

/-- The process that `allocproc` returns in a step, with its pid. -/
def Sys.allocproc (s : Sys Cpu) (a : Act Cpu) (s' : Sys Cpu) :
    List (ProcId × ℤ) :=
  match a.cpu.bind s.mythread with
  | some r =>
      match (s.thread r).pc with
      | .forkStack q _ =>
          if (s'.thread r).pc = .forkCopy q then [(q, (s'.proc q).pid)] else []
      | _ => []
  | none => []

/-- The processes that `allocproc` has returned and whose slots have not been
given back, and the pids that `fork` has returned and `wait` has not. -/
structure ForkHistory where
  allocated : List (ProcId × ℤ)
  issued : List ℤ

namespace ForkHistory

/-- The processes of an initial state have been forked before. -/
def start (s : Sys Cpu) : ForkHistory :=
  let ps := (List.finRange nproc).filter fun p =>
    decide ((s.proc p).state ≠ .UNUSED)
  { allocated := ps.map fun p => (p, (s.proc p).pid)
    issued := ps.map fun p => (s.proc p).pid }

def issue (s : Sys Cpu) (a : Act Cpu) (s' : Sys Cpu) (pids : List ℤ) : List ℤ :=
  match s.acting a with
  | some r =>
      match (s.thread r).pc with
      | .forkRunnable _ pid =>
          if (s'.thread r).pc = .sysret pid then pid :: pids else pids
      | .wait | .waitLoop =>
          match s.deadChild r.1 with
          | some q => pids.filter fun pid => decide (pid ≠ (s.proc q).pid)
          | none => pids
      | _ => pids
  | none => pids

def record (s : Sys Cpu) (a : Act Cpu) (s' : Sys Cpu) (k : ForkHistory) :
    ForkHistory where
  allocated := (s.allocproc a s' ++ k.allocated).filter fun e =>
    decide ((s'.proc e.1).state ≠ .UNUSED)
  issued := issue s a s' k.issued

end ForkHistory

/-- The kernel with this history. -/
def forkSystem (Cpu : Type) [DecidableEq Cpu] :
    Lib.System (Sys Cpu × ForkHistory) (Act Cpu) :=
  (kernel Cpu).withHistory ForkHistory.start ForkHistory.record

theorem Sys.mem_allocproc {e : ProcId × ℤ} (he : e ∈ s.allocproc a s') :
    s.allocproc a s' = [e] ∧ (s'.proc e.1).pid = e.2 ∧
      ∃ c r u, s.cpu c = .run r ∧ (s.thread r).pc = .forkStack e.1 u ∧
        (s'.thread r).pc = .forkCopy e.1 := by
  unfold Sys.allocproc at he ⊢
  split at he
  case h_2 => cases he
  case h_1 r hr =>
    obtain ⟨c, _, hr⟩ := Option.bind_eq_some_iff.mp hr
    have hrun : s.cpu c = .run r := by
      unfold Sys.mythread at hr
      split at hr
      case h_1 r' hc =>
        cases hr
        exact hc
      case h_2 => cases hr
    split at he
    case h_2 => cases he
    case h_1 q u hpc =>
      split at he
      case isFalse => cases he
      case isTrue hcopy =>
        obtain rfl := List.mem_singleton.mp he
        exact ⟨if_pos hcopy, rfl, c, r, u, hrun, hpc, hcopy⟩

/-- A pid stays in the history until `wait` reaps its process. -/
theorem ForkHistory.mem_issue (s' : Sys Cpu) (a : Act Cpu) {pids : List ℤ}
    {pid : ℤ} (h : pid ∈ pids) :
    pid ∈ issue s a s' pids ∨
      ∃ r q, s.acting a = some r ∧ s.Waited r q ∧ (s.proc q).pid = pid := by
  have hwait : ∀ r, s.acting a = some r →
      (s.thread r).pc = .wait ∨ (s.thread r).pc = .waitLoop →
      (pid ∈ match s.deadChild r.1 with
        | some q => pids.filter fun pid => decide (pid ≠ (s.proc q).pid)
        | none => pids) ∨
      ∃ r q, s.acting a = some r ∧ s.Waited r q ∧ (s.proc q).pid = pid := by
    intro r hr hpc
    split
    case h_1 q hq =>
      by_cases e : pid = (s.proc q).pid
      · exact .inr ⟨r, q, hr, ⟨hpc, hq⟩, e.symm⟩
      · exact .inl (List.mem_filter.mpr ⟨h, decide_eq_true e⟩)
    case h_2 => exact .inl h
  unfold issue
  split
  case h_1 r hr =>
    split
    case h_1 =>
      split
      · exact .inl (List.mem_cons_of_mem _ h)
      · exact .inl h
    case h_2 hpc => exact hwait r hr (.inl hpc)
    case h_3 hpc => exact hwait r hr (.inr hpc)
    case h_4 => exact .inl h
  case h_2 => exact .inl h

theorem ForkHistory.mem_issue_self {pids : List ℤ} {pid : ℤ}
    (hr : s.acting a = some r) (hpc : (s.thread r).pc = .forkRunnable q pid)
    (hret : (s'.thread r).pc = .sysret pid) : pid ∈ issue s a s' pids := by
  simp [issue, hr, hpc, hret]

variable {k : ForkHistory}

/-- The history and the process table. -/
structure ForkInv (s : Sys Cpu) (k : ForkHistory) : Prop where
  slot : ∀ {e}, e ∈ k.allocated →
    (s.proc e.1).state ≠ .UNUSED ∧ (s.proc e.1).pid = e.2
  nodup : (k.allocated.map Prod.fst).Nodup
  -- a process is not in the list while `allocproc` works on it
  fresh : ∀ {r q}, s.Present r → (s.thread r).pc.allocates = some q →
    ∀ e ∈ k.allocated, e.1 ≠ q
  pid : ∀ {r q pid}, s.Present r → (s.thread r).pc = .forkThreadRunnable q pid ∨
    (s.thread r).pc = .forkRunnable q pid → (s.proc q).pid = pid
  issued : ∀ {p}, (s.proc p).Alive → (s.proc p).pid ∈ k.issued

theorem ForkHistory.mem_record {e : ProcId × ℤ}
    (he : e ∈ (record s a s' k).allocated) :
    (e ∈ s.allocproc a s' ∨ e ∈ k.allocated) ∧ (s'.proc e.1).state ≠ .UNUSED := by
  obtain ⟨hm, hu⟩ := List.mem_filter.mp he
  exact ⟨List.mem_append.mp hm, of_decide_eq_true hu⟩

theorem ForkInv.slot_step (hI : ForkInv s k) (h : Inv s) (hg : forkOk s a)
    (hc : Change s a s') (hp : s'.panicked = none) {e : ProcId × ℤ}
    (he : e ∈ (ForkHistory.record s a s' k).allocated) :
    (s'.proc e.1).state ≠ .UNUSED ∧ (s'.proc e.1).pid = e.2 := by
  obtain ⟨hnew | hold, hu⟩ := ForkHistory.mem_record he
  · exact ⟨hu, (Sys.mem_allocproc hnew).2.1⟩
  · obtain ⟨hu₀, hpid⟩ := hI.slot hold
    rcases (hc.procEffect h hp e.1).pid_cases h with
      ⟨e', _⟩ | ⟨_, e'⟩ | ⟨_, _, r, ha, hpc⟩
    · exact ⟨hu, e'.trans hpid⟩
    · exact absurd e' hu
    · exact absurd (hg r ha _ hpc) hu₀

theorem ForkInv.nodup_step (hI : ForkInv s k) (h : Inv s) :
    ((ForkHistory.record s a s' k).allocated.map Prod.fst).Nodup := by
  refine List.Nodup.sublist (List.filter_sublist.map _) ?_
  cases ha : s.allocproc a s' with
  | nil => exact hI.nodup
  | cons e es =>
      obtain ⟨e', _, c, r, u, hr, hpc, _⟩ := Sys.mem_allocproc (e := e)
        (by rw [ha]; exact List.mem_cons_self)
      obtain rfl : es = [] := (List.cons.inj (ha.symm.trans e')).2
      refine List.nodup_cons.mpr ⟨fun hm => ?_, hI.nodup⟩
      obtain ⟨e₁, hm, he⟩ := List.mem_map.mp hm
      exact hI.fresh (h.present_of_run hr) (by rw [hpc]; rfl) e₁ hm he

theorem ForkInv.fresh_step (hI : ForkInv s k) (h : Inv s) (hg : forkOk s a)
    (hc : Change s a s') (hp : s'.panicked = none) (hpr : s'.Present r)
    (hal : (s'.thread r).pc.allocates = some q) {e : ProcId × ℤ}
    (he : e ∈ (ForkHistory.record s a s' k).allocated) : e.1 ≠ q := by
  rintro rfl
  obtain ⟨hpr₀, hpc₀⟩ := hc.forking h hp hpr (Pc.forks_of_allocates hal)
  have hold : (s.thread r).pc.allocates = some e.1 ∨ (s.proc e.1).state = .UNUSED := by
    rcases hpc₀ with e' | ⟨_, hen⟩
    · rw [e'] at hal
      exact .inl hal
    · rcases hen.allocates hal with ⟨ha, hcl⟩ | hal₀
      · exact .inr (hg r ha _ hcl)
      · exact .inl hal₀
  obtain ⟨hnew | hmem, _⟩ := ForkHistory.mem_record he
  · -- the thread that returns from `allocproc` is past these program points
    obtain ⟨_, _, c, r', u, hr, hpc, hcopy⟩ := Sys.mem_allocproc hnew
    have hpr' := h.present_of_run hr
    have hf' : (s.thread r').pc.forks = some e.1 := by rw [hpc]; rfl
    rcases hold with hal₀ | hu
    · obtain rfl := h.slot.forkUnique hpr₀ hpr' (Pc.forks_of_allocates hal₀) hf'
      rw [hcopy] at hal
      cases hal
    · exact absurd ((h.embryo_of_forks hpr' hf').symm.trans hu) (by decide)
  · rcases hold with hal₀ | hu
    · exact hI.fresh hpr₀ hal₀ e hmem rfl
    · exact (hI.slot hmem).1 hu

theorem ForkInv.pid_step (hI : ForkInv s k) (h : Inv s) (h' : Inv s')
    (hg : forkOk s a) (hc : Change s a s') (hp : s'.panicked = none)
    (hpr : s'.Present r) {pid : ℤ}
    (hpc : (s'.thread r).pc = .forkThreadRunnable q pid ∨
      (s'.thread r).pc = .forkRunnable q pid) : (s'.proc q).pid = pid := by
  have hf : (s'.thread r).pc.forks = some q := by
    rcases hpc with e | e <;> rw [e] <;> rfl
  obtain ⟨hpr₀, hpc₀⟩ := hc.forking h hp hpr hf
  have hold : (s.thread r).pc.forks = some q ∧ (s.proc q).pid = pid := by
    rcases hpc₀ with e | ⟨_, he⟩
    · rw [e] at hpc hf
      exact ⟨hf, hI.pid hpr₀ hpc⟩
    · rcases hpc with e | e
      · rw [e] at he
        exact ⟨by rw [he.1]; rfl, he.2.symm⟩
      · rw [e] at he
        exact ⟨by rw [show (s.thread r).pc = _ from he]; rfl, hI.pid hpr₀ (.inl he)⟩
  have hE := h.embryo_of_forks hpr₀ hold.1
  rcases (hc.procEffect h hp q).pid_cases h with
    ⟨e, _⟩ | ⟨_, e⟩ | ⟨_, _, r', ha, hcl⟩
  · exact e.trans hold.2
  · exact absurd ((h'.embryo_of_forks hpr hf).symm.trans e) (by decide)
  · exact absurd (hE.symm.trans (hg r' ha _ hcl)) (by decide)

/-- The section of a thread in `wait`. -/
theorem Sys.runStep_wait (hpc : (s.thread r).pc = .wait ∨ (s.thread r).pc = .waitLoop)
    (hs : s.runStep c r = some s') : s' = s.waitLoop c r := by
  rcases hpc with hpc | hpc
  · simp only [runStep, hpc] at hs
    exact (underPt_eq_some hs).2.symm
  · simp only [runStep, hpc] at hs
    exact (holdingPt_eq_some hs).2.symm

theorem Sys.Waited.reaped (hw : s.Waited r q) (hr : s.acting a = some r)
    (hs : step s a = some s') : s' = (s.reapProc q).ret r (s.proc q).pid := by
  obtain ⟨c, hrun⟩ := step_run hr hs
  rw [Sys.runStep_wait hw.1 hrun, Sys.waitLoop, hw.2]

/-- `wait` gives back the slot of the child that it reaps. -/
theorem Sys.Waited.vacated (hw : s.Waited r q) (hr : s.acting a = some r)
    (hs : step s a = some s') : (s'.proc q).state = .UNUSED := by
  rw [hw.reaped hr hs]
  exact congrArg Proc.state (Sys.setProc_self _ q Proc.vacated)

theorem ForkInv.issued_step (hI : ForkInv s k) (hP : PidInv s) (h : Inv s)
    (hg : forkOk s a) (hs : step s a = some s') (hp : s'.panicked = none)
    (hal : (s'.proc p).Alive) :
    (s'.proc p).pid ∈ (ForkHistory.record s a s' k).issued := by
  have hx := (step_change hs).2.procEffect h hp p
  rcases hx.of_alive h hal with hal₀ | ⟨r, pid, hr, hpc, hret, e⟩
  · have e : (s'.proc p).pid = (s.proc p).pid := by
      rcases hx.pid_cases h with ⟨e, _⟩ | ⟨_, e⟩ | ⟨_, _, r, ha, hcl⟩
      · exact e
      · exact absurd e hal.1
      · exact absurd (hg r ha _ hcl) hal₀.1
    rw [e]
    rcases ForkHistory.mem_issue s' a (hI.issued hal₀) with hm | ⟨r, q, hr, hw, hpid⟩
    · exact hm
    · obtain rfl := hP.inj hpid.symm (hP.pos hal₀.1)
      exact absurd (hw.vacated hr hs) hal.1
  · obtain ⟨c, hrun⟩ := Sys.run_of_acting hr
    rw [e, hI.pid (h.present_of_run hrun) (.inr hpc)]
    exact ForkHistory.mem_issue_self hr hpc hret

theorem ForkInv.step (hI : ForkInv s k) (hP : PidInv s) (h : Inv s) (h' : Inv s')
    (hg : forkOk s a) (hs : step s a = some s') (hp : s'.panicked = none) :
    ForkInv s' (ForkHistory.record s a s' k) where
  slot he := hI.slot_step h hg (step_change hs).2 hp he
  nodup := hI.nodup_step h
  fresh hpr hal _ he := hI.fresh_step h hg (step_change hs).2 hp hpr hal he
  pid hpr hpc := hI.pid_step h h' hg (step_change hs).2 hp hpr hpc
  issued hal := hI.issued_step hP h hg hs hp hal

theorem Initial.forkInv (hi : Initial s) : ForkInv s (ForkHistory.start s) where
  slot {e} he := by
    obtain ⟨p, hm, rfl⟩ := List.mem_map.mp he
    exact ⟨of_decide_eq_true (List.mem_filter.mp hm).2, rfl⟩
  nodup := by
    simp only [ForkHistory.start, List.map_map]
    refine List.Nodup.map (fun _ _ e => e) ?_
    exact (List.nodup_finRange nproc).filter _
  fresh hpr hal := by
    rw [(hi.fresh hpr).pc] at hal
    cases hal
  pid hpr hpc := by
    rw [(hi.fresh hpr).pc] at hpc
    rcases hpc with e | e <;> cases e
  issued {p} hal := List.mem_map.mpr ⟨p, List.mem_filter.mpr
    ⟨List.mem_finRange p, decide_eq_true hal.1⟩, rfl⟩

theorem forkInv_of_reach {G : Sys Cpu → Act Cpu → Prop}
    (hG : ∀ s a, G s a → forkOk s a)
    (h : (forkSystem Cpu).Reach (fun x a => G x.1 a) (s, k))
    (hp : s.panicked = none) : PidInv s ∧ ForkInv s k := by
  refine history_of_reach (I := fun s k => PidInv s ∧ ForkInv s k) hG
    (fun s hi => ⟨hi.pidInv, hi.forkInv⟩)
    (fun s a s' k h ⟨hP, hI⟩ hg hs hp' => ?_) h hp
  obtain ⟨_, hc⟩ := step_change hs
  have hg := hG s a hg
  exact ⟨hP.step h hc hp', hI.step hP h (hc.inv h hg hp') hg hs hp'⟩

/-- Thread (0, 0) has forked process 2, and process 1 forks another one. -/
def forkTwiceRun : List (Act (Fin 2)) :=
  Act.sched 0 :: call 0 .fork ++ runs 0 3 ++ [Act.kalloc 0 true] ++ Act.sched 1 ::
    call 1 .fork ++ runs 1 3 ++ [Act.kalloc 1 true]

/-- Both processes look for a free slot before one of them claims it. -/
def forkRaceRun : List (Act (Fin 2)) :=
  Act.sched 0 :: call 0 .fork ++ Act.sched 1 :: call 1 .fork ++
    [Act.run 0, .run 1, .run 0, .run 1, .run 0, .kalloc 0 true, .run 1, .kalloc 1 true]

/-- Thread (0, 0) has a new process from `allocproc`, and thread (1, 0) is about
to kill process 0. -/
def forkKillRun (pid : ℤ) : List (Act (Fin 2)) :=
  Act.sched 0 :: call 0 .fork ++ runs 0 3 ++ [Act.kalloc 0 true] ++ Act.sched 1 ::
    call 1 (.kill pid)

/-- Thread (1, 0) calls `kill(0)` before thread (0, 0) forks. -/
def killFreeRun : List (Act (Fin 2)) :=
  .sched 0 :: .sched 1 :: call 1 (.kill 0)

end Xv6.Kernel
