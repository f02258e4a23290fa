import Xv6.Kernel.ProcState

/-!
# Waiting loops

`Change.arrives` says how a thread can come to a program point in one of the
waiting loops of the kernel. Two results use it.

The first is about kill flags. `wait`, `kthread_join`, `sys_sleep`, `pipewrite`,
`piperead` and `consoleread` test a kill flag in each pass. `wait` and `sys_sleep` look at the flag of the
process alone, `kthread_join` at that of the thread alone, and the device loops
release nothing that excludes `kill` between the test and the `sleep`.
`Pc.ignoresThread` and `Pc.ignoresProc` are the program points from which a loop
reaches its `sleep` without another look at a flag; a flag that is set there is
slept on. `FlagInv` says that nothing else is.

The second is about `kill_threads` and `exit`, which mark the siblings of their
caller and then wait for them to die, where the mark is not looked at.
`deathInv_of_reach` gives the condition under which at most one thread of a
process does so.
-/

set_option linter.unusedSectionVars false

namespace Xv6.Kernel

variable {Cpu : Type} [DecidableEq Cpu] {s s' : Sys Cpu} {a : Act Cpu} {c : Cpu}
  {r x : ThreadPtr} {p : ProcId}

/-! ## §1  Where a flag is not looked at -/

/-- In one of the waiting loops, or about to enter it. -/
def Pc.waiting : Pc → Bool
  | .wait | .waitLoop | .join _ | .joinLock _ | .joinLoop _ | .loop _
  | .loopSleep _ | .execWait | .exitWait _ => true
  | _ => false

/-- The next section may be the `sleep` of a waiting loop. -/
def Pc.maySleep : Pc → Bool
  | .wait | .waitLoop | .joinLock _ | .joinLoop _ | .loopSleep _ => true
  | _ => false

/-- The loop sleeps without another look at the flag of the thread. -/
def Pc.ignoresThread : Pc → Bool
  | .wait | .waitLoop | .loop .sysSleep | .loopSleep _ => true
  | _ => false

/-- The loop sleeps without another look at the flag of the process. -/
def Pc.ignoresProc : Pc → Bool
  | .join _ | .joinLock _ | .joinLoop _ | .loopSleep _ => true
  | _ => false

theorem Pc.waiting_of_ignoresThread {pc : Pc} (h : pc.ignoresThread = true) :
    pc.waiting = true := by
  unfold Pc.ignoresThread at h
  split at h <;> first | rfl | cases h

theorem Pc.waiting_of_ignoresProc {pc : Pc} (h : pc.ignoresProc = true) :
    pc.waiting = true := by
  unfold Pc.ignoresProc at h
  split at h <;> first | rfl | cases h

/-- How a thread came to its program point in a waiting loop. -/
inductive Arrives (s : Sys Cpu) (a : Act Cpu) (s' : Sys Cpu) (x : ThreadPtr)
    (pc : Pc) : Prop
  | stay (e : pc = (s.thread x).pc)
  | enter (he : s.Enters x a pc) (hn : pc.entered = true)
  | sleep {ch : Chan} {k : Resume} (h : Sleeps x.1 (s.thread x).pc ch k pc)
      (ht : s.Tested x a (s.thread x).pc)
  | exitWait {u : Slot} (e : pc = .exitWait u)
      (h : (s.thread x).pc = .exit ∨ ∃ w, (s.thread x).pc = .exitWait w)
      (ha : s.acting a = some x)
      (ho : (s.thread x).pc = .exit → ∀ y, y.1 = x.1 → y ≠ x →
        s'.thread y = (s.thread y).exitMarked)

/-- A live thread in a waiting loop was there before the step, entered it, or
went to sleep in it. A flag that is set for it is set where it stays. -/
theorem Change.arrives (h : Inv s) (hc : Change s a s') (hp : s'.panicked = none)
    (hl : (s'.thread x).state.dead = false)
    (hw : (s'.thread x).pc.waiting = true) :
    (s.thread x).state.dead = false ∧ Arrives s a s' x (s'.thread x).pc ∧
      ((s'.thread x).killed = (s.thread x).killed ∨
        (s'.thread x).pc = (s.thread x).pc ∧
          ∃ r, s.acting a = some r ∧ s.Marks r x) := by
  have hno : ∀ {pc : Pc} {q : Prop}, (s'.thread x).pc = pc → pc.waiting = false →
      q := by
    intro pc q e hf
    rw [e, hf] at hw
    cases hw
  rcases hc.effect h hp x with hx | ⟨⟨c, hr⟩, hx⟩
  · cases hx with
    | keep b e hb =>
        rw [e] at hl ⊢
        refine ⟨hl, .stay rfl, ?_⟩
        exact hb.imp id fun hm => ⟨rfl, hm⟩
    | wake _ hs _ _ _ e | killWake _ _ hs e | dispatch _ hs e =>
        rw [e]
        exact ⟨by rw [hs]; rfl, .stay rfl, .inl rfl⟩
    | @execWake r b hr hk e =>
        have hne : x ≠ r := by
          rintro rfl
          have := h.active_of_acting hr (by rw [hk.1]; nofun)
          rw [hk.2.2] at this
          cases this
        rw [e]
        refine ⟨by rw [hk.2.2]; rfl, .stay rfl, .inr ⟨rfl, r, hr, ?_⟩⟩
        exact ⟨hk.2.1, hne, by rw [hk.2.2]; nofun, .inl hk.1⟩
    | mark _ _ _ e | drop _ _ e =>
        rw [e] at hl
        cases hl
    | reap _ _ e =>
        rw [e] at hl
        cases hl
    | create _ _ _ e | fork _ _ _ e => exact hno (by rw [e]) rfl
    | stack hs e =>
        exact hno ((congrArg Thread.pc e).trans (h.slot.embryo hs)) rfl
    | publish hs e =>
        exact hno ((congrArg Thread.pc e).trans (h.slot.embryo hs.1)) rfl
    | handOff hr hk hwt e =>
        exact hno ((congrArg Thread.pc e).trans (h.woken_of_handsOff hr hk hwt).2.1)
          rfl
  · have hd : (s.thread x).state.dead = false := by
      rcases h.cpu.state hr with e | ⟨e, hpc⟩
      · rw [e]
        rfl
      · rw [(hx.of_gap hpc e).1] at hl
        cases hl
    cases hx with
    | goOn pc' _ hgo e he =>
        rw [e]
        exact ⟨hd, .enter he hgo.new, .inl rfl⟩
    | own _ _ e | block _ e | beginOp _ e | endOp _ _ _ e | acquire _ e
    | die _ e => exact hno (by rw [e]) rfl
    | exitWait u hold _ e _ ha ho =>
        rw [e]
        exact ⟨hd, .exitWait rfl hold ha ho, .inl rfl⟩
    | release hpc _ e => exact hno ((congrArg Thread.pc e).trans hpc) rfl
    | exitClose hle => exact hno (by rw [hle.thread]) rfl
    | leave hle e _ _ ht =>
        cases hle with
        | sleep hsl =>
            rw [e]
            exact ⟨hd, .sleep hsl (ht rfl), .inl rfl⟩
        | yield hy =>
            rw [e] at hw ⊢
            refine ⟨hd, .stay ?_, .inl rfl⟩
            generalize (s.thread x).pc = pc at hy
            cases hy with
            | user => cases hw
            | kernel => rfl
        | mutex | final | gap => exact hno (by rw [e]) rfl

/-! ## §2  Flags that are set -/

/-- `mythread()` on CPU `c`. -/
def Sys.mythread (s : Sys Cpu) (c : Cpu) : Option ThreadPtr :=
  match s.cpu c with
  | .run r => some r
  | _ => none

/-- The section of `r` is a `kill` that finds process `p`. -/
def Sys.Kills (s : Sys Cpu) (r : ThreadPtr) (p : ProcId) : Prop :=
  match (s.thread r).pc with
  | .kill pid => s.procOfPid pid = some p
  | _ => False

/-- No live thread of the process is past the test of its kill flag. -/
def Sys.Heeds (s : Sys Cpu) (p : ProcId) : Prop :=
  ∀ t, (s.thread (p, t)).state.dead = false →
    (s.thread (p, t)).pc.ignoresProc = false

/-- The flag of a thread is set, by `exit` or `kill_threads`, only while the
thread looks at it before it sleeps, and so is the flag of a process, by `kill`
or a fault. `wait` and `sys_sleep` are entered with the flag of the thread
clear, `kthread_join` with that of the process. -/
def flagOk (s : Sys Cpu) (a : Act Cpu) : Prop :=
  forkOk s a ∧
  (∀ r ∈ s.acting a, (∀ x, s.Marks r x → (s.thread x).state.dead = false →
    (s.thread x).pc.ignoresThread = false) ∧ ∀ p, s.Kills r p → s.Heeds p) ∧
  match a with
  | .fault c => ∀ r ∈ s.mythread c, s.Heeds r.1
  | .syscall c .wait | .kern c (.loop .sysSleep) =>
      ∀ r ∈ s.mythread c, (s.thread r).killed = false
  | .syscall c (.join _) => ∀ r ∈ s.mythread c, (s.proc r.1).killed = false
  | _ => True

instance (s : Sys Cpu) (r : ThreadPtr) (p : ProcId) : Decidable (s.Kills r p) :=
  decidable_of_iff (∃ pid ∈ (s.thread r).pc.target, s.procOfPid pid = some p) (by
    unfold Sys.Kills Pc.target
    split <;> simp_all)

instance (s : Sys Cpu) (p : ProcId) : Decidable (s.Heeds p) := by
  unfold Sys.Heeds; infer_instance

instance (s : Sys Cpu) (r : ThreadPtr) (P : ThreadPtr → Prop) [DecidablePred P] :
    Decidable (∀ x, s.Marks r x → P x) :=
  decidableAt _ _ (decide ((s.thread r).pc = .execKill ∨ (s.thread r).pc = .exit))
    fun h x hx => by
      rw [decide_eq_false_iff_not, not_or] at h
      exact hx.2.2.2.elim h.1 fun e => h.2 e.1

instance (s : Sys Cpu) (a : Act Cpu) : Decidable (flagOk s a) := by
  unfold flagOk
  refine @instDecidableAnd _ _ inferInstance (@instDecidableAnd _ _ inferInstance ?_)
  split <;> infer_instance

theorem Sys.mythread_of_run (hr : s.cpu c = .run r) : r ∈ s.mythread c := by
  simp [Sys.mythread, hr]

/-- A live thread that is past a test has the flag clear. -/
structure FlagInv (s : Sys Cpu) : Prop where
  thread : ∀ {x}, (s.thread x).state.dead = false →
    (s.thread x).pc.ignoresThread = true → (s.thread x).killed = false
  proc : ∀ {x}, (s.thread x).state.dead = false →
    (s.thread x).pc.ignoresProc = true → (s.proc x.1).killed = false

/-- A thread comes to such a point with its flag clear. -/
theorem FlagInv.thread_of_arrives (hI : FlagInv s) (hg : flagOk s a) {pc : Pc}
    (hd : (s.thread x).state.dead = false) (hw : Arrives s a s' x pc)
    (hpc : pc.ignoresThread = true) : (s.thread x).killed = false := by
  cases hw with
  | stay e =>
      subst e
      exact hI.thread hd hpc
  | enter he hn =>
      unfold Pc.ignoresThread at hpc
      split at hpc
      · obtain ⟨c, rfl, hr⟩ := he
        exact hg.2.2 x (Sys.mythread_of_run hr)
      · cases hn
      · obtain ⟨c, rfl, hr⟩ := he
        exact hg.2.2 x (Sys.mythread_of_run hr)
      · -- `sys_sleep` does not look at this flag, the other loops just did
        rename_i l
        obtain ⟨_, hl, ht⟩ := he
        cases l with
        | sysSleep => exact hI.thread hd (by rw [hl]; rfl)
        | pipewrite | piperead | consoleread => exact (Bool.or_eq_false_iff.mp ht).2
      · cases hpc
  | sleep h =>
      have hold : (s.thread x).pc.ignoresThread = true := by
        generalize (s.thread x).pc = old at h
        cases h with
        | wait | waitLoop | loop => rfl
        | joinLock | joinLoop | beginOp | acquiresleep | kern => cases hpc
      exact hI.thread hd hold
  | exitWait e =>
      subst e
      cases hpc

theorem FlagInv.proc_of_arrives (hI : FlagInv s) (hg : flagOk s a) {pc : Pc}
    (hd : (s.thread x).state.dead = false) (hw : Arrives s a s' x pc)
    (hpc : pc.ignoresProc = true) :
    (s.proc x.1).killed = false ∧ ((s.thread x).pc.ignoresProc = true ∨
      s.acting a = none ∧ ∀ c, a ≠ .fault c) := by
  cases hw with
  | stay e =>
      subst e
      exact ⟨hI.proc hd hpc, .inl hpc⟩
  | enter he hn =>
      unfold Pc.ignoresProc at hpc
      split at hpc
      · obtain ⟨c, rfl, hr⟩ := he
        exact ⟨hg.2.2 x (Sys.mythread_of_run hr), .inr ⟨rfl, nofun⟩⟩
      · have hold : (s.thread x).pc.ignoresProc = true := by
          rw [he.1]
          rfl
        exact ⟨hI.proc hd hold, .inl hold⟩
      · cases hn
      · rename_i l
        obtain ⟨⟨c, rfl⟩, hl, ht⟩ := he
        refine ⟨?_, .inr ⟨rfl, nofun⟩⟩
        cases l with
        | sysSleep => exact ht
        | pipewrite | piperead | consoleread => exact (Bool.or_eq_false_iff.mp ht).1
      · cases hpc
  | sleep h =>
      have hold : (s.thread x).pc.ignoresProc = true := by
        generalize (s.thread x).pc = old at h
        cases h with
        | joinLock | joinLoop => rfl
        | wait | waitLoop | loop | beginOp | acquiresleep | kern => cases hpc
      exact ⟨hI.proc hd hold, .inl hold⟩
  | exitWait e =>
      subst e
      cases hpc

theorem FlagInv.step (hI : FlagInv s) (h : Inv s) (hg : flagOk s a)
    (hc : Change s a s') (hp : s'.panicked = none) : FlagInv s' where
  thread {x} hl hpc := by
    obtain ⟨hd, hw, hk⟩ := hc.arrives h hp hl (Pc.waiting_of_ignoresThread hpc)
    rcases hk with e | ⟨e, r, hr, hm⟩
    · exact e.trans (hI.thread_of_arrives hg hd hw hpc)
    · have := (hg.2.1 r hr).1 x hm hd
      rw [← e, hpc] at this
      cases this
  proc {x} hl hpc := by
    obtain ⟨hd, hw, _⟩ := hc.arrives h hp hl (Pc.waiting_of_ignoresProc hpc)
    obtain ⟨hk, hold⟩ := hI.proc_of_arrives hg hd hw hpc
    -- `kill` and a fault find the thread where it was, past the test
    have hno : s.Heeds x.1 → (∃ r, s.acting a = some r) ∨ (∃ c, a = .fault c) →
        False := by
      intro hh ha
      rcases hold with ho | ⟨hn, hf⟩
      · have := hh x.2 hd
        rw [ho] at this
        cases this
      · rcases ha with ⟨r, hr⟩ | ⟨c, hc⟩
        · rw [hn] at hr
          cases hr
        · exact hf c hc
    cases hc.dataEffect hp x.1 with
    | keep e | file _ _ _ _ _ e | close _ _ _ e | copy _ _ e => exact e.trans hk
    | vacate _ _ e => exact e
    | @kill r pid ha hkill hq =>
        refine (hno ((hg.2.1 r ha).2 x.1 ?_) (.inl ⟨r, ha⟩)).elim
        unfold Sys.Kills
        rw [hkill]
        exact hq
    | @fault c r ha hr hpr =>
        subst ha
        exact (hno (hpr ▸ hg.2.2 r (Sys.mythread_of_run hr)) (.inr ⟨c, rfl⟩)).elim

/-- No thread has entered the kernel yet. -/
theorem Initial.user_of_live (hi : Initial s) (hd : (s.thread x).state.dead = false) :
    (s.thread x).pc = .user := by
  refine (hi.fresh (x := x) ?_).pc
  intro e
  rw [e] at hd
  cases hd

theorem flagInv_of_reach (h : (kernel Cpu).Reach flagOk s)
    (hp : s.panicked = none) : FlagInv s := by
  refine invariant_of_reach (fun _ _ hg => hg.1) (fun s hi => ?_)
    (fun s a s' h hI hg hc hp' => hI.step h hg hc hp') h hp
  constructor
  · intro x hd hw
    rw [hi.user_of_live hd] at hw
    cases hw
  · intro x hd hw
    rw [hi.user_of_live hd] at hw
    cases hw

/-! ## §3  A killed thread does not go back to sleep -/

/-- A running thread that sleeps after the step has made the test of its loop. -/
theorem Change.tested (h : Inv s) (hc : Change s a s') (hp : s'.panicked = none)
    (hrun : (s.thread r).state = .RUNNING) (hpc : (s.thread r).pc.maySleep = true)
    (hsl : (s'.thread r).state = .SLEEPING) : s.Tested r a (s.thread r).pc := by
  rcases hc.effect h hp r with hx | ⟨_, hx⟩
  · cases hx with
    | keep _ e =>
        rw [e] at hsl
        exact absurd (hrun.symm.trans hsl) (by decide)
    | reap _ _ e => exact absurd (e.symm.trans hsl) (by decide)
    | stack e => exact absurd (hrun.symm.trans e) (by decide)
    | wake _ _ _ _ _ e | killWake _ _ _ e | execWake _ _ _ e | mark _ _ _ e
    | create _ _ _ e | fork _ _ _ e | drop _ _ e | publish _ e | handOff _ _ _ e
    | dispatch _ _ e =>
        rw [e] at hsl
        cases hsl
  · cases hx with
    | goOn _ _ _ e | own _ _ e | block _ e | beginOp _ e | endOp _ _ _ e
    | acquire _ e | release _ _ e =>
        rw [e] at hsl
        exact absurd (hrun.symm.trans hsl) (by decide)
    | exitClose hl =>
        rw [hl.thread] at hsl
        exact absurd (hrun.symm.trans hsl) (by decide)
    | die _ e =>
        rw [e] at hsl
        cases hsl
    | exitWait _ hold =>
        rcases hold with e | ⟨w, e⟩
        · rw [e] at hpc
          cases hpc
        · rw [e] at hpc
          cases hpc
    | leave _ e _ _ ht =>
        rw [e] at hsl
        exact ht hsl

/-- If flags are set only where they are still looked at, then no thread goes to
sleep in a waiting loop with its own flag or that of its process set. -/
theorem killed_stays_awake (h : (kernel Cpu).Reach flagOk s)
    (hs : step s a = some s') (hp : s'.panicked = none) (hr : s.cpu c = .run r)
    (hpc : (s.thread r).pc.maySleep = true)
    (hsl : (s'.thread r).state = .SLEEPING) :
    (s.thread r).killed = false ∧ (s.proc r.1).killed = false := by
  obtain ⟨hn, hc⟩ := step_change hs
  have hI := flagInv_of_reach h hn
  have hinv := inv_of_reach (fun _ _ hg => hg.1) h hn
  have hrun : (s.thread r).state = .RUNNING := by
    refine hinv.running hr fun e => ?_
    rw [e] at hpc
    cases hpc
  have hd : (s.thread r).state.dead = false := by
    rw [hrun]
    rfl
  have ht := hc.tested hinv hp hrun hpc hsl
  -- each loop has tested one flag, the invariant knows the other
  cases hold : (s.thread r).pc with
  | wait | waitLoop =>
      rw [hold] at ht
      exact ⟨hI.thread hd (by rw [hold]; rfl), ht⟩
  | joinLock u =>
      rw [hold] at ht
      exact ⟨ht.2.2.1, hI.proc hd (by rw [hold]; rfl)⟩
  | joinLoop u =>
      rw [hold] at ht
      exact ⟨ht.2, hI.proc hd (by rw [hold]; rfl)⟩
  | loopSleep l =>
      exact ⟨hI.thread hd (by rw [hold]; rfl), hI.proc hd (by rw [hold]; rfl)⟩
  | _ =>
      rw [hold] at hpc
      cases hpc

/-- Thread (0, 0) waits for its child, process 1. -/
def waitRun : List (Act (Fin 2)) := .sched 0 :: call 0 .wait

theorem killed_stays_awake_wait : ∃ s s', (kernel (Fin 2)).Reach flagOk s ∧
    step s (.run 0) = some s' ∧ (s.thread (0, 0)).pc = .wait ∧
    (s'.thread (0, 0)).state = .SLEEPING ∧ (s.thread (0, 0)).killed = false ∧
    (s.proc 0).killed = false := by
  obtain ⟨s, s', hr, hs, hp, hc, hpc, hsl⟩ := boot_step (double 1 1) flagOk waitRun
    (.run 0) (fun s s' => s'.panicked = none ∧ s.cpu 0 = .run (0, 0) ∧
      (s.thread (0, 0)).pc = .wait ∧ (s'.thread (0, 0)).state = .SLEEPING)
    (by decide +kernel)
  exact ⟨s, s', hr, hs, hpc, hsl,
    killed_stays_awake hr hs hp hc (by rw [hpc]; rfl) hsl⟩

/-- Threads (0, 1) and (0, 0) of one process run on CPUs 0 and 1; the first is
about to execute the system call `k`. -/
def pairRun (k : Syscall) : List (Act (Fin 2)) :=
  Act.sched 0 :: call 0 .other ++ [Act.kern 0 (.sleep 7), .sched 0] ++ call 0 k ++
    [Act.wakeup 7, .sched 1, .kern 1 (.done 0)] ++ runs 1 3

/-- Thread (0, 0) has called `exec` and marked thread (0, 1), which is about to
execute `wait`. -/
def markedRun : List (Act (Fin 2)) := pairRun .wait ++ call 1 .exec ++ runs 1 1

/-- Thread (0, 0) has called `kill` on its own process, while thread (0, 1) is
about to join thread (0, 2). -/
def joinKilledRun : List (Act (Fin 2)) :=
  pairRun (.join 2) ++ runs 0 1 ++ call 1 (.kill 1) ++ runs 1 1

/-- Thread (0, 0) has done so while thread (0, 1) is between the test and the
`sleep` of `piperead`. -/
def pipeRun : List (Act (Fin 2)) :=
  pairRun .other ++ [Act.kern 0 (.loop .piperead), .kern 0 .mustWait] ++
    call 1 (.kill 1) ++ runs 1 1

/-- `wait` sleeps with the flag of the thread set, `kthread_join` with that of
the process, and `piperead` with a flag set after its test. -/
theorem killed_goes_to_sleep :
    (∃ s s', (kernel (Fin 2)).Reach Lib.System.anyStep s ∧
      step s (.run 0) = some s' ∧ s'.panicked = none ∧ s.cpu 0 = .run (0, 1) ∧
      (s.thread (0, 1)).pc = .wait ∧ (s.thread (0, 1)).killed = true ∧
      (s'.thread (0, 1)).state = .SLEEPING) ∧
    (∃ s s', (kernel (Fin 2)).Reach Lib.System.anyStep s ∧
      step s (.run 0) = some s' ∧ s'.panicked = none ∧ s.cpu 0 = .run (0, 1) ∧
      (s.thread (0, 1)).pc = .joinLock 2 ∧ (s.proc 0).killed = true ∧
      (s'.thread (0, 1)).state = .SLEEPING) ∧
    ∃ s s', (kernel (Fin 2)).Reach Lib.System.anyStep s ∧
      step s (.kern 0 (.sleep 9)) = some s' ∧ s'.panicked = none ∧
      s.cpu 0 = .run (0, 1) ∧ (s.thread (0, 1)).pc = .loopSleep .piperead ∧
      (s.proc 0).killed = true ∧ (s'.thread (0, 1)).state = .SLEEPING :=
  ⟨boot_step (double 2 1) _ markedRun (.run 0) _ (by decide +kernel),
    boot_step (double 3 0) _ joinKilledRun (.run 0) _ (by decide +kernel),
    boot_step (double 2 1) _ pipeRun (.kern 0 (.sleep 9)) _ (by decide +kernel)⟩

/-! ## §4  Waiting for each other's death -/

/-- In the waiting loop of `kill_threads` or of `exit`. -/
def Pc.awaitsDeath : Pc → Bool
  | .execWait | .exitWait _ => true
  | _ => false

/-- Thread `x` waits for its sibling `y` to become `ZOMBIE` or `UNUSED`:
`kill_threads` waits for all siblings at once, `exit` for the one it sleeps
on. -/
def Sys.AwaitsDeath (s : Sys Cpu) (x y : ThreadPtr) : Prop :=
  x.1 = y.1 ∧ x ≠ y ∧ (s.thread x).state.dead = false ∧
    (s.thread y).state.dead = false ∧
    ((s.thread x).pc = .execWait ∨
      (s.thread x).pc = .exitWait y.2 ∧ (s.thread x).state = .SLEEPING)

instance (s : Sys Cpu) (x y : ThreadPtr) : Decidable (s.AwaitsDeath x y) := by
  unfold Sys.AwaitsDeath; infer_instance

/-- `kill_threads` starts only when no other live thread of the process is in
one of the two loops, and `exit` only when none that is `RUNNING` is. -/
def deathOk (s : Sys Cpu) (a : Act Cpu) : Prop :=
  forkOk s a ∧ ∀ r ∈ s.acting a,
    ((s.thread r).pc = .execKill → ∀ t, t ≠ r.2 →
      (s.thread (r.1, t)).state.dead = false →
      (s.thread (r.1, t)).pc.awaitsDeath = false) ∧
    ((s.thread r).pc = .exit → ∀ t, t ≠ r.2 →
      (s.thread (r.1, t)).state = .RUNNING →
      (s.thread (r.1, t)).pc.awaitsDeath = false)

instance (s : Sys Cpu) (a : Act Cpu) : Decidable (deathOk s a) := by
  unfold deathOk; infer_instance

/-- At most one live thread of a process is in the two loops. -/
def DeathInv (s : Sys Cpu) : Prop :=
  ∀ x y, x.1 = y.1 → (s.thread x).state.dead = false →
    (s.thread y).state.dead = false → (s.thread x).pc.awaitsDeath = true →
    (s.thread y).pc.awaitsDeath = true → x = y

theorem Pc.waiting_of_awaitsDeath {pc : Pc} (h : pc.awaitsDeath = true) :
    pc.waiting = true := by
  unfold Pc.awaitsDeath at h
  split at h <;> first | rfl | cases h

/-- A live thread in one of the two loops was there before the step, or has just
started `kill_threads` or `exit`. -/
theorem Change.awaits (h : Inv s) (hc : Change s a s') (hp : s'.panicked = none)
    (hl : (s'.thread x).state.dead = false)
    (hw : (s'.thread x).pc.awaitsDeath = true) :
    (s.thread x).state.dead = false ∧ ((s.thread x).pc.awaitsDeath = true ∨
      s.acting a = some x ∧ ((s.thread x).pc = .execKill ∨
        (s.thread x).pc = .exit ∧ ∀ y, y.1 = x.1 → y ≠ x →
          s'.thread y = (s.thread y).exitMarked)) := by
  obtain ⟨hd, harr, _⟩ := hc.arrives h hp hl (Pc.waiting_of_awaitsDeath hw)
  refine ⟨hd, ?_⟩
  generalize (s'.thread x).pc = pc at harr hw
  cases harr with
  | stay e =>
      subst e
      exact .inl hw
  | enter he hn =>
      unfold Pc.awaitsDeath at hw
      split at hw
      · obtain ⟨⟨c, rfl, hr⟩, hold | hold⟩ := he
        · exact .inr ⟨Sys.acting_run hr, .inl hold⟩
        · exact .inl (by rw [hold]; rfl)
      · cases hn
      · cases hw
  | sleep hsl =>
      generalize (s.thread x).pc = old at hsl
      cases hsl <;> cases hw
  | exitWait e hold ha ho =>
      rcases hold with hold | ⟨w, hold⟩
      · exact .inr ⟨ha, .inr ⟨hold, ho hold⟩⟩
      · exact .inl (by rw [hold]; rfl)

/-- The thread that starts `kill_threads` or `exit` is alone in the loops. -/
theorem DeathInv.alone_of_start (h : Inv s) (hg : deathOk s a) {y : ThreadPtr}
    (hxy : y.1 = x.1) (hne : y ≠ x) (ha : s.acting a = some x)
    (hstart : (s.thread x).pc = .execKill ∨ (s.thread x).pc = .exit ∧
      ∀ y, y.1 = x.1 → y ≠ x → s'.thread y = (s.thread y).exitMarked)
    (hl : (s'.thread y).state.dead = false) (hd : (s.thread y).state.dead = false)
    (hw : (s.thread y).pc.awaitsDeath = true) : False := by
  have hslot : y.2 ≠ x.2 := fun e => hne (Prod.ext hxy e)
  have hy : (x.1, y.2) = y := Prod.ext hxy.symm rfl
  rcases hstart with hpc | ⟨hpc, ho⟩
  · have := (hg.2 x ha).1 hpc y.2 hslot
    rw [hy, hw] at this
    cases this hd
  · -- `exit` has ended every sibling that was not on a CPU
    rw [ho y hxy hne, Thread.exitMarked] at hl
    cases hst : (s.thread y).state with
    | RUNNING =>
        have := (hg.2 x ha).2 hpc y.2 hslot
        rw [hy, hw] at this
        cases this hst
    | EMBRYO =>
        rw [h.slot.embryo hst] at hw
        cases hw
    | RUNNABLE | SLEEPING => simp [hst, States.dead] at hl
    | UNUSED | ZOMBIE =>
        rw [hst] at hd
        cases hd

theorem DeathInv.step (hI : DeathInv s) (h : Inv s) (hg : deathOk s a)
    (hc : Change s a s') (hp : s'.panicked = none) : DeathInv s' := by
  intro x y hxy hlx hly hwx hwy
  obtain ⟨hdx, hx⟩ := hc.awaits h hp hlx hwx
  obtain ⟨hdy, hy⟩ := hc.awaits h hp hly hwy
  by_contra hne
  rcases hx with hx | ⟨hax, hsx⟩
  · rcases hy with hy | ⟨hay, hsy⟩
    · exact hne (hI x y hxy hdx hdy hx hy)
    · exact DeathInv.alone_of_start h hg hxy hne hay hsy hlx hdx hx
  · rcases hy with hy | ⟨hay, _⟩
    · exact DeathInv.alone_of_start h hg hxy.symm (Ne.symm hne) hax hsx hly hdy hy
    · exact hne (Option.some.inj (hax.symm.trans hay))

theorem deathInv_of_reach (h : (kernel Cpu).Reach deathOk s)
    (hp : s.panicked = none) : DeathInv s := by
  refine invariant_of_reach (fun _ _ hg => hg.1) (fun s hi x y _ hd _ hw => ?_)
    (fun s a s' h hI hg hc hp' => hI.step h hg hc hp') h hp
  rw [hi.user_of_live hd] at hw
  cases hw

/-- If `kill_threads` starts only when no sibling is in its loop or in that of
`exit`, and `exit` only when no sibling is on a CPU there, then no two threads of
a process wait for each other's death. -/
theorem no_mutual_death_wait (h : (kernel Cpu).Reach deathOk s)
    (hp : s.panicked = none) (x y : ThreadPtr) :
    ¬ (s.AwaitsDeath x y ∧ s.AwaitsDeath y x) := by
  rintro ⟨⟨hxy, hne, hdx, hdy, hx⟩, _, _, _, _, hy⟩
  have hloop : ∀ {z u}, ((s.thread z).pc = .execWait ∨
      (s.thread z).pc = .exitWait u ∧ (s.thread z).state = .SLEEPING) →
      (s.thread z).pc.awaitsDeath = true := by
    intro z u hz
    rcases hz with e | ⟨e, _⟩
    · rw [e]
      rfl
    · rw [e]
      rfl
  exact hne (deathInv_of_reach h hp x y hxy hdx hdy (hloop hx) (hloop hy))

/-- Thread (0, 0) has called `exec` and waits for thread (0, 1). -/
def execWaitRun : List (Act (Fin 2)) := pairRun .other ++ call 1 .exec ++ runs 1 1

theorem no_mutual_death_wait_exec : ∃ s, (kernel (Fin 2)).Reach deathOk s ∧
    s.panicked = none ∧ s.AwaitsDeath (0, 0) (0, 1) ∧
    ¬ s.AwaitsDeath (0, 1) (0, 0) := by
  obtain ⟨s, hr, hp, hw⟩ := boot_reach (single 2) deathOk execWaitRun
    (fun s => s.panicked = none ∧ s.AwaitsDeath (0, 0) (0, 1)) (by decide +kernel)
  exact ⟨s, hr, hp, hw, fun hw' => no_mutual_death_wait hr hp _ _ ⟨hw, hw'⟩⟩

/-- Threads (0, 1) and (0, 0) have both called `exec`. -/
def execExecRun : List (Act (Fin 2)) :=
  pairRun .exec ++ call 1 .exec ++ runs 0 1 ++ runs 1 1

/-- Thread (0, 1) has called `exec`, thread (0, 0) has called `exit`. -/
def execExitRun : List (Act (Fin 2)) :=
  pairRun .exec ++ call 1 .exit ++ runs 0 1 ++ runs 1 1

/-- Two calls of `exec`, or one of `exec` and one of `exit`, wait for each
other. -/
theorem mutual_death_wait :
    (∃ s, (kernel (Fin 2)).Reach Lib.System.anyStep s ∧ s.panicked = none ∧
      (s.thread (0, 0)).pc = .execWait ∧ s.AwaitsDeath (0, 0) (0, 1) ∧
      s.AwaitsDeath (0, 1) (0, 0)) ∧
    ∃ s, (kernel (Fin 2)).Reach Lib.System.anyStep s ∧ s.panicked = none ∧
      (s.thread (0, 0)).pc = .exitWait 1 ∧ s.AwaitsDeath (0, 0) (0, 1) ∧
      s.AwaitsDeath (0, 1) (0, 0) :=
  ⟨boot_reach (single 2) _ execExecRun _ (by decide +kernel),
    boot_reach (single 2) _ execExitRun _ (by decide +kernel)⟩

end Xv6.Kernel
