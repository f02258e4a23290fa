import Xv6.Kernel.Exit
import Xv6.Kernel.Stack
import Xv6.Kernel.StoreEffect

/-!
# The state of a process and the states of its threads

The scheduler, `wakeup1` and `kill` look at the state of a process before they
look at its threads, and every thread of the process overwrites that state on
its own. `RestInv` says how far the state can be trusted: a `SLEEPING` process
has no active thread, and a `RUNNING` one is on some CPU. The converse,
`BusyInv` (a process that is not `SLEEPING` has an active thread as soon as it
has a sleeping one), is what `kill` relies on; `kthread_exit` breaks it, since
it makes the process `RUNNABLE` without looking at the other threads.
-/

set_option linter.unusedSectionVars false

namespace Xv6.Kernel

variable {Cpu : Type} [DecidableEq Cpu] {s s' : Sys Cpu} {a : Act Cpu} {c : Cpu}
  {r x : ThreadPtr} {p : ProcId}

/-! ## §1  Sleeping and running processes -/

/-- What the states `SLEEPING` and `RUNNING` of a process mean. -/
structure RestInv (s : Sys Cpu) : Prop where
  sleeping : ∀ {p}, (s.proc p).state = .SLEEPING →
    ∀ t, (s.thread (p, t)).state.active = false
  running : ∀ {p}, (s.proc p).state = .RUNNING → ∃ c, s.Executes c p

/-- A process falls asleep when its last active thread does. -/
theorem ProcEffect.of_sleeping (hx : ProcEffect s a s' p)
    (hs : (s'.proc p).state = .SLEEPING) : (s.proc p).state = .SLEEPING ∨
      ∀ t, (s'.thread (p, t)).state.active = false := by
  cases hx with
  | keep e | setMid _ _ _ e | clear _ _ _ _ e | exits _ _ _ e =>
      exact .inl (e.symm.trans hs)
  | leave _ _ _ _ hi => exact .inr (hi hs)
  | vacate _ _ e => simp [e, Proc.vacated] at hs
  | wake _ _ e | killWake _ e | final _ _ _ _ e | dispatch _ e | claim _ _ e
  | unclaim _ e | publish _ e => simp [e] at hs

/-- The acting thread of a section that makes siblings `RUNNABLE` is active. -/
theorem Inv.active_of_acting (h : Inv s) (hr : s.acting a = some r)
    (hpc : (s.thread r).pc ≠ .kthreadExitSched) :
    (s.thread r).state.active = true := by
  obtain ⟨c, hc⟩ := Sys.run_of_acting hr
  rw [h.running hc hpc]
  rfl

/-- While a process stays `SLEEPING`, none of its threads becomes active. -/
theorem Change.inactive (h : Inv s) (hc : Change s a s') (hp : s'.panicked = none)
    (hs : (s.proc p).state = .SLEEPING) (hs' : (s'.proc p).state = .SLEEPING)
    (hI : ∀ t, (s.thread (p, t)).state.active = false) (t : Slot) :
    (s'.thread (p, t)).state.active = false := by
  have hno : ∀ {st : States}, (s.thread (p, t)).state = st → st.active = true →
      False := by
    intro st e ha
    rw [← e, hI t] at ha
    cases ha
  -- no thread of the process acts, so none hands a mutex or wakes a sibling
  have hact : ∀ {r : ThreadPtr}, s.acting a = some r →
      (s.thread r).pc ≠ .kthreadExitSched → r.1 ≠ p := by
    rintro r hr hpc rfl
    have := h.active_of_acting hr hpc
    rw [show r = (r.1, r.2) from rfl, hI r.2] at this
    cases this
  rcases hc.effect h hp (p, t) with hx | ⟨⟨c, hr⟩, hx⟩
  · cases hx with
    | keep b e =>
        rw [e]
        exact hI t
    | wake _ _ _ _ _ _ hne => exact absurd hs' hne
    | killWake _ _ _ _ hrun => exact absurd (hs'.symm.trans hrun) (by decide)
    | execWake _ hr hk =>
        exact absurd hk.2.1.symm (hact hr (by rw [hk.1]; nofun))
    | mark _ _ _ e | drop _ _ e => rw [e]; rfl
    | reap _ _ e => rw [e]; rfl
    | create hr hk => exact absurd hk.2.1.symm (hact hr (by rw [hk.1]; nofun))
    | fork hr hpc =>
        have hfact := h.slot.fact (h.present_of_run hr)
        rw [hpc] at hfact
        exact absurd (hs.symm.trans hfact.1) (by decide)
    | handOff hr hk =>
        obtain ⟨i, hpc, hsame⟩ := hk.scan
        exact absurd hsame.symm (hact hr (by rw [hpc]; nofun))
    | stack e => exact (hno e rfl).elim
    | publish e => exact (hno e.1 rfl).elim
    | dispatch _ e => exact (hno e rfl).elim
  · rcases h.cpu.state hr with e | ⟨e, hpc⟩
    · exact (hno e rfl).elim
    · rw [(hx.of_gap hpc e).1]
      rfl

theorem RestInv.step (hI : RestInv s) (h : Inv s) (hc : Change s a s')
    (hp : s'.panicked = none) : RestInv s' where
  sleeping {p} hs' t := by
    rcases (hc.procEffect h hp p).of_sleeping hs' with hs | hi
    · exact hc.inactive h hp hs hs' (hI.sleeping hs) t
    · exact hi t
  running {p} hs' := by
    have hkeep : (s'.proc p).state = (s.proc p).state → ∃ c, s'.Executes c p := by
      intro e
      obtain ⟨d, hd⟩ := hI.running (e.symm.trans hs')
      exact ⟨d, hc.executes h hp hd hs'⟩
    cases hc.procEffect h hp p with
    | keep e | setMid _ _ _ e | clear _ _ _ _ e | exits _ _ _ e => exact hkeep e
    | @dispatch t _ _ _ _ hd =>
        obtain ⟨d, hd⟩ := hd
        exact ⟨d, (p, t), rfl, hd⟩
    | leave _ _ e => rcases e with e | e <;> simp [e] at hs'
    | vacate _ _ e => simp [e, Proc.vacated] at hs'
    | wake _ _ e | killWake _ e | final _ _ _ _ e | claim _ _ e | unclaim _ e
    | publish _ e => simp [e] at hs'

theorem restInv_of_reach {G : Sys Cpu → Act Cpu → Prop}
    (hG : ∀ s a, G s a → forkOk s a) (h : (kernel Cpu).Reach G s)
    (hp : s.panicked = none) : RestInv s := by
  refine invariant_of_reach hG (fun s hi => ?_)
    (fun s a s' h hI _ hc hp' => hI.step h hc hp') h hp
  have hst : ∀ p, (s.proc p).state = .UNUSED ∨ (s.proc p).state = .RUNNABLE := by
    intro p
    rcases hi.proc p with ⟨hf, _⟩ | ⟨e, _⟩
    · exact .inl hf.state
    · exact .inr e
  constructor
  · intro p hs
    rcases hst p with e | e <;> simp [e] at hs
  · intro p hs
    rcases hst p with e | e <;> simp [e] at hs

/-- In every run in which `fork` claims free slots and reaped threads have left
their stacks, and so in every interleaving of operations that neither fork nor
reap: a `SLEEPING` process has no `RUNNABLE`, `RUNNING` or `EMBRYO` thread, a
`RUNNING` process has a CPU that executes one of its threads, and a `RUNNABLE`
thread of an existing process is one that the scheduler will look at, or its
process is on a CPU. -/
theorem no_stranded_thread (h : (kernel Cpu).Reach reapOk s)
    (hp : s.panicked = none) (p : ProcId) :
    ((s.proc p).state = .SLEEPING → ∀ t, (s.thread (p, t)).state ≠ .RUNNABLE ∧
      (s.thread (p, t)).state ≠ .RUNNING ∧ (s.thread (p, t)).state ≠ .EMBRYO) ∧
    ((s.proc p).state = .RUNNING → ∃ c t, s.cpu c = .run (p, t)) ∧
    ((s.proc p).state ≠ .UNUSED → (s.proc p).state ≠ .EMBRYO →
      (s.proc p).state ≠ .ZOMBIE → ∀ t, (s.thread (p, t)).state = .RUNNABLE →
      (s.proc p).state = .RUNNABLE ∨ ∃ c t', s.cpu c = .run (p, t')) := by
  have hI := restInv_of_reach (fun _ _ hg => hg.1) h hp
  have hstack := stackInv_of_reach h hp
  have hrun : (s.proc p).state = .RUNNING → ∃ c t, s.cpu c = .run (p, t) := by
    intro hs
    obtain ⟨c, x, rfl, hx⟩ := hI.running hs
    exact ⟨c, x.2, hx.resolve_right (hstack.cpu c x)⟩
  have hsleep : (s.proc p).state = .SLEEPING → ∀ t,
      (s.thread (p, t)).state ≠ .RUNNABLE ∧ (s.thread (p, t)).state ≠ .RUNNING ∧
        (s.thread (p, t)).state ≠ .EMBRYO := by
    intro hs t
    have := hI.sleeping hs t
    refine ⟨?_, ?_, ?_⟩ <;> intro e <;> simp [e, States.active] at this
  refine ⟨hsleep, hrun, fun hu hE hz t ht => ?_⟩
  cases hst : (s.proc p).state with
  | RUNNABLE => exact .inl rfl
  | RUNNING => exact .inr (hrun hst)
  | SLEEPING => exact absurd ht (hsleep hst t).1
  | UNUSED => exact absurd hst hu
  | EMBRYO => exact absurd hst hE
  | ZOMBIE => exact absurd hst hz

/-- Thread (0, 0) sleeps in the kernel and thread (0, 1) has been woken again,
while thread (0, 2) runs. -/
def restRun : List (Act (Fin 2)) :=
  Act.sched 0 :: call 0 .other ++ [Act.kern 0 (.sleep 7), .sched 0] ++ call 0 .other ++
    [Act.kern 0 (.sleep 8), .sched 0, .wakeup 8]

theorem no_stranded_thread_beside : ∃ s, (kernel (Fin 2)).Reach reapOk s ∧
    s.panicked = none ∧ (s.thread (0, 0)).state = .SLEEPING ∧
    (s.thread (0, 1)).state = .RUNNABLE ∧
    ((s.proc 0).state = .RUNNABLE ∨ ∃ c t, s.cpu c = .run (0, t)) := by
  obtain ⟨s, hs, hp, h₀, h₁, hu, hE, hz⟩ := boot_reach (single 3) reapOk restRun
    (fun s => s.panicked = none ∧ (s.thread (0, 0)).state = .SLEEPING ∧
      (s.thread (0, 1)).state = .RUNNABLE ∧ (s.proc 0).state ≠ .UNUSED ∧
      (s.proc 0).state ≠ .EMBRYO ∧ (s.proc 0).state ≠ .ZOMBIE) (by decide +kernel)
  exact ⟨s, hs, hp, h₀, h₁, (no_stranded_thread hs hp 0).2.2 hu hE hz 1 h₁⟩

/-! ## §2  Process identifiers -/

/-- Every `pid` that was given out is unique; free slots may keep theirs. -/
structure PidInv (s : Sys Cpu) : Prop where
  nextpid : 0 < s.nextpid
  bound : ∀ p, 0 ≤ (s.proc p).pid ∧ (s.proc p).pid < s.nextpid
  pos : ∀ {p}, (s.proc p).state ≠ .UNUSED → 0 < (s.proc p).pid
  inj : ∀ {p q}, (s.proc p).pid = (s.proc q).pid → 0 < (s.proc p).pid → p = q

/-- A `pid` changes when `allocproc` gives out the next one and when `wait`
takes it back. -/
theorem ProcEffect.pid_cases (h : Inv s) (hx : ProcEffect s a s' p) :
    (s'.proc p).pid = (s.proc p).pid ∧
      ((s.proc p).state = .UNUSED → (s'.proc p).state = .UNUSED) ∨
    (s'.proc p).pid = 0 ∧ (s'.proc p).state = .UNUSED ∨
    (s'.proc p).pid = s.nextpid ∧ s'.nextpid = s.nextpid + 1 ∧
      ∃ r, s.acting a = some r ∧ (s.thread r).pc = .forkClaim p := by
  cases hx with
  | keep hs hk => exact .inl ⟨hk.pid, hs.trans⟩
  | setMid _ _ _ hs _ _ e | clear _ _ _ _ hs _ _ e | exits _ _ _ hs _ e =>
      exact .inl ⟨e, hs.trans⟩
  | unclaim _ hs hk => exact .inl ⟨hk.pid, fun _ => hs⟩
  | vacate _ _ e =>
      rw [e]
      exact .inr (.inl ⟨rfl, rfl⟩)
  | claim ha hpc _ _ _ hpid hn => exact .inr (.inr ⟨hpid, hn, _, ha, hpc⟩)
  -- the other steps change a process that is there
  | wake _ ha _ hk =>
      refine .inl ⟨hk.pid, fun hu => ?_⟩
      simp [hu, States.wakeable] at ha
  | killWake e _ hk | publish e _ hk =>
      exact .inl ⟨hk.pid, fun hu => absurd (hu.symm.trans e) (by decide)⟩
  | leave hr hp _ hk | final hr _ hp _ _ hk =>
      exact .inl ⟨hk.pid, fun hu => absurd (hp ▸ hu) (h.cpu.alive hr).1⟩
  | @dispatch t ht _ hk =>
      refine .inl ⟨hk.pid, fun hu => ?_⟩
      exact absurd (ht.symm.trans (h.slot.unused hu t List.not_mem_nil)) (by decide)

theorem PidInv.step (hI : PidInv s) (h : Inv s) (hc : Change s a s')
    (hp : s'.panicked = none) : PidInv s' where
  nextpid := lt_of_lt_of_le hI.nextpid (hc.nextpid_le h hp)
  bound p := by
    have hle := hc.nextpid_le h hp
    have hpos := hI.nextpid
    have hb := hI.bound p
    rcases (hc.procEffect h hp p).pid_cases h with ⟨e, _⟩ | ⟨e, _⟩ | ⟨e, hn, _⟩
    · omega
    · omega
    · omega
  pos {p} hs := by
    have hpos := hI.nextpid
    rcases (hc.procEffect h hp p).pid_cases h with ⟨e, hu⟩ | ⟨_, e⟩ | ⟨e, _⟩
    · rw [e]
      exact hI.pos fun e' => hs (hu e')
    · exact absurd e hs
    · omega
  inj {p q} e hpos := by
    have hb := hI.bound
    rcases (hc.procEffect h hp p).pid_cases h with
      ⟨ep, _⟩ | ⟨ep, _⟩ | ⟨ep, _, r, ha, hpc⟩
    · rcases (hc.procEffect h hp q).pid_cases h with ⟨eq, _⟩ | ⟨eq, _⟩ | ⟨eq, _⟩
      · exact hI.inj (by omega) (by omega)
      · omega
      · have := (hb p).2
        omega
    · omega
    · rcases (hc.procEffect h hp q).pid_cases h with
        ⟨eq, _⟩ | ⟨eq, _⟩ | ⟨_, _, r', ha', hpc'⟩
      · have := (hb q).2
        omega
      · omega
      · obtain rfl := Option.some.inj (ha.symm.trans ha')
        exact Pc.forkClaim.inj (hpc.symm.trans hpc')

theorem Initial.pidInv (hi : Initial s) : PidInv s := by
  have hfree : ∀ p, (s.proc p).state = .UNUSED → (s.proc p).pid = 0 := by
    intro p hu
    rcases hi.proc p with ⟨hf, _⟩ | ⟨e, _⟩
    · exact hf.pid
    · exact absurd (hu.symm.trans e) (by decide)
  refine ⟨hi.nextpid, fun p => ?_, fun hs => (hi.pid _ hs).1, fun {p q} e hpos => ?_⟩
  · have hpos := hi.nextpid
    by_cases hu : (s.proc p).state = .UNUSED
    · have := hfree p hu
      omega
    · have := hi.pid p hu
      omega
  · refine hi.pidInj p q (fun hu => ?_) (fun hu => ?_) e
    · have := hfree p hu
      omega
    · have := hfree q hu
      omega

theorem pidInv_of_reach {G : Sys Cpu → Act Cpu → Prop}
    (hG : ∀ s a, G s a → forkOk s a) (h : (kernel Cpu).Reach G s)
    (hp : s.panicked = none) : PidInv s :=
  invariant_of_reach hG (fun _ hi => hi.pidInv)
    (fun _ _ _ h hI _ hc hp' => hI.step h hc hp') h hp

/-- `kill(pid)` finds the process with that `pid`. -/
theorem PidInv.procOfPid (hI : PidInv s) (hs : (s.proc p).state ≠ .UNUSED) :
    s.procOfPid (s.proc p).pid = some p := by
  cases hq : s.procOfPid (s.proc p).pid with
  | none =>
      have := List.find?_eq_none.mp hq p (List.mem_finRange p)
      simp at this
  | some q =>
      have hpid : (s.proc q).pid = (s.proc p).pid := by
        simpa using List.find?_some hq
      exact congrArg some (hI.inj hpid.symm (hI.pos hs)).symm

/-! ## §3  `kill` takes effect -/

/-- Sleeping threads belong to processes that are neither free nor under
construction. -/
def SleepInv (s : Sys Cpu) : Prop :=
  ∀ x, (s.thread x).state = .SLEEPING → (s.proc x.1).Alive

/-- A thread that sleeps after a step slept before it, or has just left a
CPU. -/
theorem Change.asleep (h : Inv s) (hc : Change s a s') (hp : s'.panicked = none)
    (hs : (s'.thread x).state = .SLEEPING) : (s.thread x).state = .SLEEPING ∨
      (∃ c, s.cpu c = .run x) ∧ (s.thread x).state = .RUNNING := by
  rcases hc.effect h hp x with hx | ⟨⟨c, hr⟩, hx⟩
  · cases hx with
    | keep b e =>
        rw [e] at hs
        exact .inl hs
    | reap _ _ e => simp [e] at hs
    | dispatch _ _ e => simp [e, Thread.resumed] at hs
    | stack e' e => simp [e, e'] at hs
    | wake _ _ _ _ _ e | killWake _ _ _ e | execWake _ _ _ e | mark _ _ _ e
    | create _ _ _ e | fork _ _ _ e | drop _ _ e | publish _ e | handOff _ _ _ e =>
        simp [e] at hs
  · rcases h.cpu.state hr with e | ⟨e, hpc⟩
    · exact .inr ⟨⟨c, hr⟩, e⟩
    · rw [(hx.of_gap hpc e).1] at hs
      cases hs

theorem SleepInv.step (hI : SleepInv s) (h : Inv s) (h' : Inv s')
    (hg : forkOk s a) (hc : Change s a s') (hp : s'.panicked = none) :
    SleepInv s' := by
  intro x hs
  have hal : (s.proc x.1).Alive := by
    rcases hc.asleep h hp hs with e | ⟨⟨c, hr⟩, _⟩
    · exact hI x e
    · exact h.cpu.alive hr
  by_contra hn
  rcases (hc.procEffect h hp x.1).of_not_alive h hg hn with e | ⟨hd, _⟩
  · have hu : (s'.proc x.1).state = .UNUSED := by rw [e]; rfl
    exact absurd (hs.symm.trans (h'.slot.unused hu x.2 List.not_mem_nil)) (by decide)
  · exact hd hal

/-- `kthread_exit` leaves an active sibling behind, or none that lives: when it
makes its caller `ZOMBIE`, after its wake-up, and when it makes the process
`RUNNABLE`. -/
def leaveActiveOk (s : Sys Cpu) (a : Act Cpu) : Prop :=
  forkOk s a ∧ ∀ r ∈ s.acting a,
    ((s.thread r).pc = .kthreadExit → (s.wakeup1 (.thread r)).siblingActive r ∨
      ∀ t, t ≠ r.2 → (s.thread (r.1, t)).state.dead = true) ∧
    ((s.thread r).pc = .kthreadExitSched → s.siblingActive r ∨
      ∀ t, t ≠ r.2 → (s.thread (r.1, t)).state.dead = true)

instance (s : Sys Cpu) (a : Act Cpu) : Decidable (leaveActiveOk s a) := by
  unfold leaveActiveOk; infer_instance

/-- A process that is neither `SLEEPING` nor `ZOMBIE` and has a sleeping thread
has an active one. -/
def BusyInv (s : Sys Cpu) : Prop :=
  ∀ p, (s.proc p).state ≠ .SLEEPING → (s.proc p).state ≠ .ZOMBIE →
    ∀ t, (s.thread (p, t)).state = .SLEEPING →
      ∃ u, (s.thread (p, u)).state.active = true

/-- What becomes of a thread on a CPU. -/
theorem Change.of_running (h : Inv s) (hc : Change s a s') (hp : s'.panicked = none)
    (hs : (s.thread r).state = .RUNNING) :
    (s'.thread r).state.active = true ∨ s'.Rests r ∨
    (s'.proc r.1).state = .ZOMBIE ∨ (s'.proc r.1).state = .UNUSED ∨
    s.acting a = some r ∧ (s.thread r).pc = .kthreadExit ∧
      (s'.thread r).state = .ZOMBIE ∧
      ∀ y, y ≠ r → s'.thread y = (s.wakeup1 (.thread r)).thread y := by
  have hsame : (s'.thread r).state = (s.thread r).state →
      (s'.thread r).state.active = true := by
    intro e
    rw [e, hs]
    rfl
  rcases hc.effect h hp r with hx | ⟨_, hx⟩
  · cases hx with
    | keep b e => exact .inl (hsame (by rw [e]))
    | handOff _ _ _ e => exact .inl (by rw [e]; rfl)
    | reap _ _ _ _ _ _ _ _ hv =>
        rcases hv with ⟨e, _⟩ | e
        · exact absurd (hs.symm.trans e) (by decide)
        · exact .inr (.inr (.inr (.inl e)))
    | publish e => exact absurd (hs.symm.trans e.1) (by decide)
    | execWake _ _ hk => exact absurd (hs.symm.trans hk.2.2) (by decide)
    | mark _ _ hk =>
        rcases hk.2.2.2 with e | e <;> exact absurd (hs.symm.trans e) (by decide)
    | wake _ e | killWake _ _ e | create _ _ e | fork _ _ e | stack e | drop e
    | dispatch _ e => exact absurd (hs.symm.trans e) (by decide)
  · cases hx with
    | goOn _ _ _ e | own _ _ e | block _ e | beginOp _ e | endOp _ _ _ e
    | acquire _ e | release _ _ e => exact .inl (hsame (by rw [e]))
    | exitClose hl => exact .inl (hsame (by rw [hl.thread]))
    | die hpc e ho ha => exact .inr (.inr (.inr (.inr ⟨ha, hpc, by rw [e], ho⟩)))
    | exitWait _ _ _ _ hrest => exact .inr (.inl hrest)
    | leave hl e hrest hz =>
        cases hl with
        | sleep | mutex => exact .inr (.inl (hrest rfl))
        | yield => exact .inl (by rw [e]; rfl)
        | final hpc => exact .inr (.inr (.inl (hz rfl hpc)))
        | gap _ hzom => exact absurd (hs.symm.trans hzom) (by decide)

/-- A sibling of a thread on a CPU that sleeps after the step leaves an active
thread in the process. -/
theorem Change.busy_of_running (h : Inv s) (hc : Change s a s')
    (hp : s'.panicked = none) (hg : leaveActiveOk s a)
    (hst : (s.thread r).state = .RUNNING) (hs : (s'.proc r.1).state ≠ .SLEEPING)
    (hz : (s'.proc r.1).state ≠ .ZOMBIE) (hu : (s'.proc r.1).state ≠ .UNUSED)
    {t : Slot} (ht : (s'.thread (r.1, t)).state = .SLEEPING) :
    ∃ u, (s'.thread (r.1, u)).state.active = true := by
  rcases hc.of_running h hp hst with ha | hrest | e | e | ⟨ha, hpc, e, ho⟩
  · exact ⟨r.2, ha⟩
  · rcases hrest with e | ⟨u, _, hu⟩
    · exact absurd e hs
    · exact ⟨u, hu⟩
  · exact absurd e hz
  · exact absurd e hu
  · rcases (hg.2 r ha).1 hpc with ⟨u, hur, hu⟩ | hd
    · refine ⟨u, ?_⟩
      rwa [ho _ fun e => hur (congrArg Prod.snd e)]
    · -- the sibling slept before, and the others are dead
      have htr : t ≠ r.2 := by
        rintro rfl
        exact absurd (ht.symm.trans e) (by decide)
      rw [ho _ fun e => htr (congrArg Prod.snd e)] at ht
      have hd := hd t htr
      rcases s.wakeup1_thread (.thread r) (r.1, t) with e | ⟨e, _⟩
      · rw [← e, ht] at hd
        cases hd
      · rw [e] at hd
        cases hd

/-- A process that becomes busy again has an active thread. -/
theorem ProcEffect.busy (hx : ProcEffect s a s' p) (h : Inv s)
    (hg : leaveActiveOk s a)
    (hP : (s.proc p).state = .SLEEPING ∨ (s.proc p).state = .ZOMBIE)
    (hs : (s'.proc p).state ≠ .SLEEPING) (hz : (s'.proc p).state ≠ .ZOMBIE)
    (hu : (s'.proc p).state ≠ .UNUSED) {t : Slot}
    (ht : (s.thread (p, t)).state = .SLEEPING) :
    ∃ u, (s'.thread (p, u)).state.active = true := by
  have hkeep : (s'.proc p).state = (s.proc p).state → False := by
    intro e
    rw [← e] at hP
    exact hP.elim hs hz
  cases hx with
  | keep e | setMid _ _ _ e | clear _ _ _ _ e | exits _ _ _ e => exact (hkeep e).elim
  | @wake u _ _ _ _ hrun => exact ⟨u, by rw [hrun]; rfl⟩
  | killWake _ _ _ hrun =>
      rcases hrun with ⟨u, hrun⟩ | hno
      · exact ⟨u, by rw [hrun]; rfl⟩
      · exact absurd ht (hno t)
  | @leave c r hr hp hst _ _ hb =>
      rcases hb (hst.resolve_right hs) with hact | ⟨hpc, ha, ho⟩
      · exact hact
      subst hp
      have hne : ∀ u, u ≠ r.2 → (r.1, u) ≠ r := fun u hu e =>
        hu (congrArg Prod.snd e)
      have htr : t ≠ r.2 := by
        rintro rfl
        rcases h.cpu.state hr with e | ⟨e, _⟩ <;>
          exact absurd (ht.symm.trans e) (by decide)
      rcases (hg.2 r ha).2 hpc with ⟨u, hur, hact⟩ | hd
      · exact ⟨u, by rwa [ho _ (hne u hur)]⟩
      · have := hd t htr
        rw [ht] at this
        cases this
  | @dispatch u _ _ _ hrun => exact ⟨u, by rw [hrun]; rfl⟩
  | final _ _ _ _ e => exact absurd e hz
  | vacate _ _ e => exact absurd (by rw [e]; rfl) hu
  | unclaim _ e => exact absurd e hu
  | claim ha hpc => rcases hP with e | e <;> simp [hg.1 _ ha p hpc] at e
  | publish e' => rcases hP with e | e <;> simp [e'] at e

theorem BusyInv.step (hI : BusyInv s) (hsl : SleepInv s) (h : Inv s) (h' : Inv s')
    (hg : leaveActiveOk s a) (hc : Change s a s') (hp : s'.panicked = none) :
    BusyInv s' := by
  intro p hs hz t ht
  have hu : (s'.proc p).state ≠ .UNUSED := fun e =>
    absurd (ht.symm.trans (h'.slot.unused e t List.not_mem_nil)) (by decide)
  have hrun : ∀ {r : ThreadPtr}, r.1 = p → (s.thread r).state = .RUNNING →
      ∃ u, (s'.thread (p, u)).state.active = true := by
    rintro r rfl hst
    exact hc.busy_of_running h hp hg hst hs hz hu ht
  rcases hc.asleep h hp ht with ht₀ | ⟨_, hst⟩
  swap
  · exact hrun rfl hst
  by_cases hP : (s.proc p).state = .SLEEPING ∨ (s.proc p).state = .ZOMBIE
  · exact (hc.procEffect h hp p).busy h hg hP hs hz hu ht₀
  -- a thread was active before the step; follow that one
  push Not at hP
  obtain ⟨u, hact⟩ := hI p hP.1 hP.2 t ht₀
  rcases hc.effect h hp (p, u) with hx | ⟨⟨c, hr⟩, _⟩
  · cases hx with
    | keep b e => exact ⟨u, by rw [e]; exact hact⟩
    | stack e' e => exact ⟨u, by rw [e]; exact hact⟩
    | wake _ _ _ _ _ e | killWake _ _ _ e | execWake _ _ _ e | publish _ e
    | handOff _ _ _ e | create _ _ _ e | fork _ _ _ e | dispatch _ _ e =>
        exact ⟨u, by rw [e]; rfl⟩
    | mark _ hr hk =>
        obtain ⟨c, hc'⟩ := Sys.run_of_acting hr
        exact hrun hk.2.1.symm (h.running hc' (by rw [hk.1]; nofun))
    | reap _ _ _ _ _ _ _ _ hv =>
        rcases hv with ⟨e, _⟩ | e
        · rw [e] at hact
          cases hact
        · exact absurd e hu
    | drop _ _ _ hd =>
        obtain ⟨c, r, hr, ⟨hsame, hpc⟩ | hgive⟩ := hd
        · exact hrun hsame (h.running hr (by rw [hpc]; nofun))
        · have hE := h.embryo_of_forks (h.present_of_run hr)
            (Pc.forks_of_abandons hgive)
          exact absurd hE (hsl _ ht₀).2
  · rcases h.cpu.state hr with e | ⟨e, _⟩
    · exact hrun rfl e
    · rw [e] at hact
      cases hact

theorem busyInv_of_reach (h : (kernel Cpu).Reach leaveActiveOk s)
    (hp : s.panicked = none) : BusyInv s := by
  have hG : ∀ (s : Sys Cpu) a, leaveActiveOk s a → forkOk s a := fun _ _ hg => hg.1
  refine (invariant_of_reach (I := fun s => SleepInv s ∧ BusyInv s) hG (fun s hi => ?_)
    (fun s a s' h hI hg hc hp' => ?_) h hp).2
  · have hno : ∀ x, (s.thread x).state ≠ .SLEEPING := by
      intro x hs
      have hf := hi.fresh (x := x) (by simp [Sys.Present, hs])
      exact absurd (hs.symm.trans hf.state) (by decide)
    exact ⟨fun x hs => absurd hs (hno x), fun p _ _ t ht => absurd ht (hno (p, t))⟩
  · have h' := hc.inv h hg.1 hp'
    exact ⟨hI.1.step h h' hg.1 hc hp', hI.2.step hI.1 h h' hg hc hp'⟩

/-- The next section of a running thread. -/
theorem step_run (hr : s.acting a = some r) (hs : step s a = some s') :
    ∃ c, s.runStep c r = some s' := by
  cases a with
  | run c =>
      have hc : s.cpu c = .run r := by
        cases e : s.cpu c <;> simp [Sys.acting, e] at hr
        rw [hr]
      refine ⟨c, ?_⟩
      unfold step at hs
      split at hs
      · cases hs
      · simpa [Act.cpu, Sys.cpuStep, hc, Sys.threadStep] using hs
  | _ => cases hr

/-- `kill` leaves no process `SLEEPING`. -/
theorem Sys.killWake_state : ((s.killWake p).proc p).state ≠ .SLEEPING ∧
    ((s.proc p).state ≠ .ZOMBIE → ((s.killWake p).proc p).state ≠ .ZOMBIE) := by
  unfold Sys.killWake
  split
  case isTrue =>
    split <;> exact ⟨by simp [Sys.makeRunnable], by simp [Sys.makeRunnable]⟩
  case isFalse hs => exact ⟨hs, id⟩

theorem Sys.killWake_dead (x : ThreadPtr)
    (hd : (s.thread x).state.dead = false) :
    ((s.killWake p).thread x).state.dead = false := by
  unfold Sys.killWake
  split
  case isTrue =>
    split
    case h_1 t _ =>
      by_cases hx : x = (p, t)
      · subst hx
        rw [Sys.makeRunnable, Sys.setThread_self]
        rfl
      · rw [Sys.makeRunnable, Sys.setThread_ne _ _ _ hx]
        exact hd
    case h_2 => exact hd
  case isFalse => exact hd

/-- Threads (1, 0) and (1, 1) sleep, and thread (0, 0) is about to kill their
process. -/
def killAsleepRun : List (Act (Fin 2)) :=
  Act.sched 0 :: call 0 .other ++ [Act.kern 0 (.sleep 7), .sched 0] ++ call 0 .other ++
    [Act.kern 0 (.sleep 8), .sched 0] ++ call 0 .other ++
    [Act.kern 0 (.sleep 9), .sched 0, .wakeup 7, .sched 0, .kern 0 (.done 0)] ++
    runs 0 3 ++ call 0 (.kill 2)

/-- Thread (1, 1) calls `kthread_exit` instead. -/
def killLostRun : List (Act (Fin 2)) :=
  Act.sched 0 :: call 0 .other ++ [Act.kern 0 (.sleep 7), .sched 0] ++ call 0 .other ++
    [Act.kern 0 (.sleep 8), .sched 0] ++ call 0 .kthreadExit ++ runs 0 2 ++
    [Act.sched 0, .wakeup 7, .sched 0, .kern 0 (.done 0)] ++ runs 0 3 ++
    call 0 (.kill 2)

end Xv6.Kernel
