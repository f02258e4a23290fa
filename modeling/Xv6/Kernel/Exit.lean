import Xv6.Kernel.Boot
import Xv6.Kernel.ProcEffect

/-!
# The end of threads and processes

`exit` and `kthread_exit` make threads and processes `ZOMBIE`, and a reaper
makes them `UNUSED`. Three steps of the code break this order, and each has a
condition of its own here: a mutex is handed to a waiter that has ended
(`handOffOk`), `exit` ends a process while a sibling is in the window of
`kthread_exit` (`endOk`), and the waiting loop of `exit`, which sleeps once for
each sibling, is woken early or overtaken (`exitOk`).
-/

set_option linter.unusedSectionVars false

namespace Xv6.Kernel

variable {Cpu : Type} [DecidableEq Cpu] {s s' : Sys Cpu} {a : Act Cpu} {c : Cpu}
  {r x : ThreadPtr} {p : ProcId}

/-! ## §1  Threads that have ended -/

/-- A mutex is handed to a thread that has not ended. -/
def handOffOk (s : Sys Cpu) (a : Act Cpu) : Prop :=
  ∀ r ∈ s.acting a, ∀ x, s.HandsOff r x → (s.thread x).state ≠ .ZOMBIE

instance (s : Sys Cpu) (a : Act Cpu) : Decidable (handOffOk s a) := by
  unfold handOffOk; infer_instance

/-- A `ZOMBIE` stays one until it is reaped, and leaves the window of
`kthread_exit` for good. -/
theorem Change.zombie (h : Inv s) (hc : Change s a s') (hp : s'.panicked = none)
    (hg : ∀ r, s.acting a = some r → s.HandsOff r x →
      (s.thread x).state ≠ .ZOMBIE) (hz : (s.thread x).state = .ZOMBIE) :
    (s'.thread x).state = .ZOMBIE ∧ ((s.thread x).pc ≠ .kthreadExitSched →
      (s'.thread x).pc ≠ .kthreadExitSched) ∨
    (s'.thread x).state = .UNUSED ∧ ∃ r, s.acting a = some r ∧ s.Reaps r x := by
  rcases hc.effect h hp x with hx | ⟨⟨c, hr⟩, hx⟩
  · cases hx with
    | keep b e => exact .inl (by rw [e]; exact ⟨hz, id⟩)
    | reap hr hk hs => exact .inr ⟨hs, _, hr, hk⟩
    | handOff hr hk => exact absurd hz (hg _ hr hk)
    | execWake _ _ hk _ => exact absurd (hz.symm.trans hk.2.2) (by decide)
    | mark _ _ hk _ =>
        rcases hk.2.2.2 with e | e <;> exact absurd (hz.symm.trans e) (by decide)
    | publish hs _ => exact absurd (hz.symm.trans hs.1) (by decide)
    | wake _ hs | killWake _ _ hs | create _ _ hs | fork _ _ hs | stack hs
    | drop hs | dispatch _ hs => exact absurd (hz.symm.trans hs) (by decide)
  · -- a `ZOMBIE` on a CPU is in the window, and its section is the second one
    have hpc : (s.thread x).pc = .kthreadExitSched := by
      by_contra hpc
      exact absurd (hz.symm.trans (h.running hr hpc)) (by decide)
    exact .inl ⟨(hx.of_gap hpc hz).1, fun hne => absurd hpc hne⟩

/-- A process that `fork` has claimed and given no thread yet. -/
def Sys.Claimed (s : Sys Cpu) (p : ProcId) : Prop :=
  (s.proc p).state = .EMBRYO ∧ s.OnlySlots p []

theorem Proc.Alive.not_claimed (h : (s.proc p).Alive) : ¬ s.Claimed p :=
  fun hcl => h.2 hcl.1

theorem Sys.Present.not_claimed (h : s.Present x) : ¬ s.Claimed x.1 :=
  fun hcl => h (hcl.2 x.2 List.not_mem_nil)

/-- A free slot stays free until `allocthread` takes it. -/
theorem Change.unused (h : Inv s) (hc : Change s a s') (hp : s'.panicked = none)
    (hu : (s.thread x).state = .UNUSED) :
    (s'.thread x).state = .UNUSED ∨ (s'.thread x).state = .EMBRYO ∧
      ((∃ r, s.acting a = some r ∧ s.Creates r x) ∨ s.Claimed x.1) := by
  rcases hc.effect h hp x with hx | ⟨⟨c, hr⟩, _⟩
  · cases hx with
    | keep b e => exact .inl (by rw [e]; exact hu)
    | reap _ _ hs => exact .inl hs
    | drop _ _ e => exact .inl (by rw [e])
    | create hr hk _ e => exact .inr ⟨by rw [e], .inl ⟨_, hr, hk⟩⟩
    | fork hr hpc _ e =>
        have hfact := h.slot.fact (h.present_of_run hr)
        rw [hpc] at hfact
        exact .inr ⟨by rw [e], .inr hfact⟩
    | handOff _ _ hw => exact absurd hu (h.mutex.blocked hw.1).1
    | execWake _ _ hk _ => exact absurd (hu.symm.trans hk.2.2) (by decide)
    | mark _ _ hk _ =>
        rcases hk.2.2.2 with e | e <;> exact absurd (hu.symm.trans e) (by decide)
    | publish hs _ => exact absurd (hu.symm.trans hs.1) (by decide)
    | wake _ hs | killWake _ _ hs | stack hs | dispatch _ hs =>
        exact absurd (hu.symm.trans hs) (by decide)
  · exact absurd hu (h.present_of_run hr)

/-- A dead slot stays dead until `kthread_create` takes it. -/
theorem Change.dead (h : Inv s) (hc : Change s a s') (hp : s'.panicked = none)
    (hg : ∀ r, s.acting a = some r → s.HandsOff r x →
      (s.thread x).state ≠ .ZOMBIE) (hcl : ¬ s.Claimed x.1)
    (hcr : ∀ r, s.acting a = some r → ¬ s.Creates r x)
    (hd : (s.thread x).state.dead = true) : (s'.thread x).state.dead = true := by
  rw [States.dead_iff] at hd ⊢
  rcases hd with hu | hz
  · rcases hc.unused h hp hu with hu' | ⟨_, ⟨r, hr, hk⟩ | hn⟩
    · exact .inl hu'
    · exact absurd hk (hcr r hr)
    · exact absurd hn hcl
  · rcases hc.zombie h hp hg hz with ⟨hz', _⟩ | ⟨hu', _⟩
    · exact .inr hz'
    · exact .inl hu'

/-- The same, for threads that have left their stack. -/
theorem Change.ended (h : Inv s) (hc : Change s a s') (hp : s'.panicked = none)
    (hg : ∀ r, s.acting a = some r → s.HandsOff r x →
      (s.thread x).state ≠ .ZOMBIE) (hcl : ¬ s.Claimed x.1)
    (hcr : ∀ r, s.acting a = some r → ¬ s.Creates r x)
    (hd : (s.thread x).Ended) : (s'.thread x).Ended := by
  rcases hd with hu | ⟨hz, hpc⟩
  · rcases hc.unused h hp hu with hu' | ⟨_, ⟨r, hr, hk⟩ | hn⟩
    · exact .inl hu'
    · exact absurd hk (hcr r hr)
    · exact absurd hn hcl
  · rcases hc.zombie h hp hg hz with ⟨hz', hpc'⟩ | ⟨hu', _⟩
    · exact .inr ⟨hz', hpc' hpc⟩
    · exact .inl hu'

/-! ## §2  `ZOMBIE` is final until reaped -/

/-- `exit` ends a process when its other threads have left their stacks. -/
def endOk (s : Sys Cpu) (a : Act Cpu) : Prop :=
  ∀ r ∈ s.acting a, (s.thread r).pc = .exitFinal →
    ∀ t, t ≠ r.2 → (s.thread (r.1, t)).Ended

instance (s : Sys Cpu) (a : Act Cpu) : Decidable (endOk s a) := by
  unfold endOk; infer_instance

/-- No mutex is handed to a thread that has ended, and no process ends before
its threads. -/
def zombieOk (s : Sys Cpu) (a : Act Cpu) : Prop :=
  forkOk s a ∧ handOffOk s a ∧ endOk s a

instance (s : Sys Cpu) (a : Act Cpu) : Decidable (zombieOk s a) := by
  unfold zombieOk; infer_instance

/-- The threads of a `ZOMBIE` process have left their stacks. -/
def ZombieInv (s : Sys Cpu) : Prop :=
  ∀ p, (s.proc p).state = .ZOMBIE → ∀ t, (s.thread (p, t)).Ended

theorem ZombieInv.not_run (hI : ZombieInv s) (h : Inv s) (hr : s.cpu c = .run r) :
    (s.proc r.1).state ≠ .ZOMBIE := fun hz =>
  h.not_run_of_ended (hI r.1 hz r.2) hr

theorem ZombieInv.step (hI : ZombieInv s) (h : Inv s) (hg : endOk s a)
    (hc : Change s a s') (hp : s'.panicked = none) : ZombieInv s' := by
  intro p hz' t
  have hkeep : (s'.proc p).state = (s.proc p).state → (s'.thread (p, t)).Ended := by
    intro hs
    have hz := hs.symm.trans hz'
    have hno : ∀ r, s.acting a = some r → p ≠ r.1 := by
      rintro r hr rfl
      obtain ⟨c, hr⟩ := Sys.run_of_acting hr
      exact hI.not_run h hr hz
    refine hc.ended h hp (fun r hr hk => ?_) (fun hcl => ?_) (fun r hr hk => ?_)
      (hI p hz t)
    · exact absurd hk.scan.choose_spec.2 (hno r hr)
    · exact absurd (hz.symm.trans hcl.1) (by decide)
    · exact absurd hk.2.1 (hno r hr)
  cases hc.procEffect h hp p with
  | keep hs | setMid _ _ _ hs | clear _ _ _ _ hs | exits _ _ _ hs => exact hkeep hs
  | @final c r hr ha hpr hpc _ _ he =>
      subst hpr
      by_cases ht : t = r.2
      · subst ht
        exact he
      · refine hc.ended h hp (fun r' hr' hk => ?_) (h.cpu.alive hr).not_claimed
          (fun r' hr' hk => ?_) (hg r ha hpc t ht)
        · obtain rfl := Option.some.inj (ha.symm.trans hr')
          exact absurd (hpc.symm.trans hk.scan.choose_spec.1) nofun
        · obtain rfl := Option.some.inj (ha.symm.trans hr')
          exact absurd (hpc.symm.trans hk.1) nofun
  | leave _ _ hs => rcases hs with hs | hs <;> simp [hs] at hz'
  | vacate _ _ e => simp [e, Proc.vacated] at hz'
  | wake _ _ hs | killWake _ hs | dispatch _ hs | claim _ _ hs | unclaim _ hs
  | publish _ hs => simp [hs] at hz'

theorem Initial.zombieInv (hi : Initial s) : ZombieInv s := by
  intro p hz
  rcases hi.proc p with ⟨hf, _⟩ | ⟨e, _⟩
  · exact absurd (hf.state.symm.trans hz) (by decide)
  · exact absurd (e.symm.trans hz) (by decide)

theorem zombieInv_of_reach {G : Sys Cpu → Act Cpu → Prop}
    (hG : ∀ s a, G s a → forkOk s a ∧ endOk s a) (h : (kernel Cpu).Reach G s)
    (hp : s.panicked = none) : ZombieInv s :=
  invariant_of_reach (fun s a hg => (hG s a hg).1) (fun _ hi => hi.zombieInv)
    (fun s a _ h hI hg hc hp' => hI.step h (hG s a hg).2 hc hp') h hp

/-- A `ZOMBIE` process stays one until `wait` reaps it. -/
theorem ZombieInv.proc (hI : ZombieInv s) (h : Inv s) (hg : forkOk s a)
    (hx : ProcEffect s a s' p) (hz : (s.proc p).state = .ZOMBIE) :
    (s'.proc p).state = .ZOMBIE ∨
      (s'.proc p).state = .UNUSED ∧ ∃ r, s.acting a = some r ∧ s.Waited r p := by
  cases hx with
  | keep hs | setMid _ _ _ hs | clear _ _ _ _ hs | exits _ _ _ hs =>
      exact .inl (hs.trans hz)
  | final _ _ _ _ hs => exact .inl hs
  | vacate ha hw e => exact .inr ⟨by rw [e]; rfl, _, ha, hw⟩
  | wake _ ha => simp [hz, States.wakeable] at ha
  | leave hr hp => exact absurd (hp ▸ hz) (hI.not_run h hr)
  | @dispatch t ht =>
      rcases hI p hz t with e | ⟨e, _⟩ <;> simp [ht] at e
  | claim ha hpc => exact absurd (hz.symm.trans (hg _ ha p hpc)) (by decide)
  | killWake e | unclaim e | publish e => exact absurd (hz.symm.trans e) (by decide)

/-- A free process slot stays free until `allocproc` claims it. -/
theorem ProcEffect.of_unused (h : Inv s) (hx : ProcEffect s a s' p)
    (hu : (s.proc p).state = .UNUSED) : (s'.proc p).state = .UNUSED ∨
      (s'.proc p).state = .EMBRYO ∧
        ∃ r, s.acting a = some r ∧ (s.thread r).pc = .forkClaim p := by
  cases hx with
  | keep hs | setMid _ _ _ hs | clear _ _ _ _ hs | exits _ _ _ hs =>
      exact .inl (hs.trans hu)
  | vacate _ _ e => exact .inl (by rw [e]; rfl)
  | unclaim _ hs => exact .inl hs
  | claim ha hpc hs => exact .inr ⟨hs, _, ha, hpc⟩
  | wake _ ha => simp [hu, States.wakeable] at ha
  | leave hr hp => exact absurd (hp ▸ hu) (h.cpu.alive hr).1
  | final hr _ hp => exact absurd (hp ▸ hu) (h.cpu.alive hr).1
  | @dispatch t ht =>
      exact absurd (ht.symm.trans (h.slot.unused hu t List.not_mem_nil)) (by decide)
  | killWake e | publish e => exact absurd (hu.symm.trans e) (by decide)

/-- If no mutex is handed to a thread that has ended and no process ends before
its threads: a `ZOMBIE` thread or process stays one until its reaper makes it
`UNUSED`, and an `UNUSED` process slot is left through `allocproc` alone. -/
theorem zombie_final (h : (kernel Cpu).Reach zombieOk s) (hg : zombieOk s a)
    (hs : step s a = some s') (hp : s'.panicked = none) :
    (∀ x, (s.thread x).state = .ZOMBIE → (s'.thread x).state = .ZOMBIE ∨
      (s'.thread x).state = .UNUSED ∧ ∃ r, s.acting a = some r ∧ s.Reaps r x) ∧
    (∀ p, (s.proc p).state = .ZOMBIE → (s'.proc p).state = .ZOMBIE ∨
      (s'.proc p).state = .UNUSED ∧ ∃ r, s.acting a = some r ∧ s.Waited r p) ∧
    ∀ p, (s.proc p).state = .UNUSED → (s'.proc p).state = .UNUSED ∨
      (s'.proc p).state = .EMBRYO ∧
        ∃ r, s.acting a = some r ∧ (s.thread r).pc = .forkClaim p := by
  obtain ⟨hn, hc⟩ := step_change hs
  have hinv := inv_of_reach (fun _ _ hg => hg.1) h hn
  refine ⟨fun x hz => ?_, fun p hz => ?_, fun p hu => ?_⟩
  · exact (hc.zombie hinv hp (fun r hr => hg.2.1 r hr x) hz).imp_left And.left
  · exact (zombieInv_of_reach (fun _ _ hg => ⟨hg.1, hg.2.2⟩) h hn).proc hinv hg.1 (hc.procEffect hinv hp p) hz
  · exact (hc.procEffect hinv hp p).of_unused hinv hu

/-- Thread (0, 0) is resumed in `kthread_join` after thread (0, 1) has left its
stack. -/
def joinedRun : List (Act (Fin 2)) :=
  Act.sched 0 :: call 0 (.join 1) ++ runs 0 2 ++ Act.sched 0 :: call 0 .kthreadExit ++
    runs 0 2 ++ [Act.sched 0, .sched 0]

theorem zombie_final_joined : ∃ s s', (kernel (Fin 2)).Reach zombieOk s ∧
    step s (.run 0) = some s' ∧ (s.thread (0, 1)).state = .ZOMBIE ∧
    ((s'.thread (0, 1)).state = .ZOMBIE ∨ (s'.thread (0, 1)).state = .UNUSED ∧
      ∃ r, s.acting (.run 0) = some r ∧ s.Reaps r (0, 1)) := by
  obtain ⟨s, s', hr, hs, hg, hp, hz⟩ := boot_step (single 2) zombieOk joinedRun
    (.run 0) (fun s s' => zombieOk s (.run 0) ∧ s'.panicked = none ∧
      (s.thread (0, 1)).state = .ZOMBIE) (by decide +kernel)
  exact ⟨s, s', hr, hs, hz, (zombie_final hr hg hs hp).1 (0, 1) hz⟩

/-- Thread (0, 0) holds a mutex and is about to unlock it, thread (0, 1) waits
for it, and thread (0, 2) calls `exit`. -/
def revivedRun : List (Act (Fin 2)) :=
  Act.sched 0 :: call 0 .mutexAlloc ++ runs 0 5 ++ call 0 (.mutexLock 0) ++
    runs 0 8 ++ preempted 0 ++ call 0 (.mutexLock 0) ++ runs 0 5 ++
    Act.sched 0 :: call 0 .other ++ [Act.kern 0 (.sleep 7), .sched 0, .sched 0] ++
    runs 0 2 ++ call 0 (.mutexUnlock 0) ++
    [Act.wakeup 7, .sched 1, .kern 1 (.done 0)] ++ runs 1 3 ++ call 1 .exit ++
    runs 1 1 ++ Act.sched 1 :: runs 0 3

/-- Thread (0, 0) sleeps in the kernel, thread (1, 0) is on CPU 1 and thread
(1, 1) on CPU 0, where it makes the system call `k`. -/
def besideRun (k : Syscall) : List (Act (Fin 2)) :=
  Act.sched 0 :: call 0 .other ++ [Act.kern 0 (.sleep 7), .sched 0] ++ call 0 .other ++
    [Act.kern 0 (.sleep 8), .sched 0] ++ call 0 k ++
    [Act.wakeup 8, .sched 1, .kern 1 (.done 0)] ++ runs 1 3

/-- Thread (1, 0) runs through `exit` while thread (1, 1) is in the window of
`kthread_exit`. -/
def overtakenRun : List (Act (Fin 2)) :=
  besideRun .kthreadExit ++ call 1 .exit ++ runs 0 1 ++ runs 1 2 ++
    Act.kern 1 (.done 0) :: runs 1 1 ++ [Act.sched 1]

/-- The hand-off makes a `ZOMBIE` thread `RUNNABLE`, and the second section of
`kthread_exit` makes a `ZOMBIE` process `RUNNABLE`. -/
theorem zombie_revived :
    (∃ s s', (kernel (Fin 2)).Reach Lib.System.anyStep s ∧
      step s (.run 0) = some s' ∧ s'.panicked = none ∧
      (s.thread (0, 1)).state = .ZOMBIE ∧ (s'.thread (0, 1)).state = .RUNNABLE) ∧
    ∃ s s', (kernel (Fin 2)).Reach Lib.System.anyStep s ∧
      step s (.run 0) = some s' ∧ s'.panicked = none ∧
      (s.proc 1).state = .ZOMBIE ∧ (s'.proc 1).state = .RUNNABLE :=
  ⟨boot_step (single 3) _ revivedRun (.run 0) _ (by decide +kernel),
    boot_step (double 1 2) _ overtakenRun (.run 0) _ (by decide +kernel)⟩

/-! ## §3  `exit` tears a process down alone -/

/-- In the waiting loop of `exit`. -/
def Pc.exitWaits : Pc → Bool
  | .exitWait _ => true
  | _ => false

/-- `kill` and `kill_threads` wake no thread in the waiting loop of `exit`, no
thread is created while a sibling is there, and no mutex is handed to a thread
that has ended. -/
def exitOk (s : Sys Cpu) (a : Act Cpu) : Prop :=
  forkOk s a ∧ handOffOk s a ∧ ∀ r ∈ s.acting a,
    (∀ x, s.KillWakes r x → (s.thread x).pc.exitWaits = false) ∧
    (∀ x, s.ExecWakes r x → (s.thread x).pc.exitWaits = false) ∧
    ((s.thread r).pc = .create → ∀ t, (s.thread (r.1, t)).state.dead = true ∨
      (s.thread (r.1, t)).pc.exitWaits = false)

instance (s : Sys Cpu) (a : Act Cpu) : Decidable (exitOk s a) := by
  unfold exitOk; infer_instance

/-- The waiting loop of `exit` and what follows it. -/
structure ExitInv (s : Sys Cpu) : Prop where
  -- the slots before `u` are dead; `u` is dead, or the thread sleeps on it
  waiting : ∀ {p t u}, (s.thread (p, t)).state.dead = false →
    (s.thread (p, t)).pc = .exitWait u →
    (∀ v, v < u → v ≠ t → (s.thread (p, v)).state.dead = true) ∧
    ((s.thread (p, t)).state = .SLEEPING ∧
        (s.thread (p, t)).chan = .thread (p, u) ∨
      (s.thread (p, u)).state.dead = true)
  alone : ∀ {p t}, (s.proc p).exiting = some t → ∀ v, v ≠ t →
    (s.thread (p, v)).state.dead = true
  torn : ∀ {p t}, (s.proc p).exiting = some t →
    (s.thread (p, t)).state.dead = true ∨ (s.thread (p, t)).pc.tearing = true
  absent : ∀ {p}, ¬ (s.proc p).Alive → (s.proc p).exiting = none

theorem Inv.not_dead_of_run (h : Inv s) (hr : s.cpu c = .run r)
    (hpc : (s.thread r).pc ≠ .kthreadExitSched) :
    (s.thread r).state.dead = false := by
  rw [h.running hr hpc]
  rfl

/-- While a sibling is in the waiting loop of `exit`, dead slots stay dead. -/
theorem Change.dead_of_waiting (h : Inv s) (hc : Change s a s')
    (hp : s'.panicked = none) (hg : exitOk s a) {t u v : Slot}
    (ht : (s.thread (p, t)).state.dead = false)
    (hpc : (s.thread (p, t)).pc = .exitWait u)
    (hd : (s.thread (p, v)).state.dead = true) :
    (s'.thread (p, v)).state.dead = true := by
  have hpr : s.Present (p, t) := fun e => by simp [e, States.dead] at ht
  refine hc.dead h hp (fun r hr => hg.2.1 r hr _) hpr.not_claimed
    (fun r hr hk => ?_) hd
  obtain ⟨hcr, rfl, _⟩ := hk
  rcases (hg.2.2 r hr).2.2 hcr t with e | e
  · exact absurd (ht.symm.trans e) (by decide)
  · rw [hpc] at e
    cases e

/-- A process that is being torn down creates no thread. -/
theorem ExitInv.not_creates (hI : ExitInv s) (h : Inv s) {t v : Slot}
    (hx : (s.proc p).exiting = some t) (hr : s.acting a = some r) :
    ¬ s.Creates r (p, v) := by
  rintro ⟨hcr, rfl, _⟩
  obtain ⟨c, hc⟩ := Sys.run_of_acting hr
  have hlive := h.not_dead_of_run hc (by rw [hcr]; nofun)
  by_cases ht : r.2 = t
  · subst ht
    rcases hI.torn hx with e | e
    · exact absurd (hlive.symm.trans e) (by decide)
    · rw [show (r.1, r.2) = r from rfl, hcr] at e
      cases e
  · exact absurd (hlive.symm.trans (hI.alone hx r.2 ht)) (by decide)

theorem ExitInv.alive (hI : ExitInv s) {t : Slot}
    (hx : (s.proc p).exiting = some t) : (s.proc p).Alive := by
  by_contra hn
  rw [hI.absent hn] at hx
  cases hx

/-- The slots that `exit`'s loop has passed before it was last resumed. -/
theorem ExitInv.passed (hI : ExitInv s) (h : Inv s) (hg : exitOk s a)
    (hc : Change s a s') (hp : s'.panicked = none) (hr : s.cpu c = .run r)
    {v : Slot} (hv : v ≠ r.2)
    (hd : (∀ w, (s.thread r).pc = .exitWait w → w < v) →
      (s'.thread (r.1, v)).state.dead = true) :
    (s'.thread (r.1, v)).state.dead = true := by
  by_cases hw : ∀ w, (s.thread r).pc = .exitWait w → w < v
  · exact hd hw
  · push Not at hw
    obtain ⟨w, hpc, hvw⟩ := hw
    have hst := h.running hr (by rw [hpc]; nofun)
    have hlive : (s.thread r).state.dead = false := by rw [hst]; rfl
    obtain ⟨hbefore, hwu⟩ := hI.waiting (t := r.2) hlive hpc
    refine hc.dead_of_waiting h hp hg (t := r.2) hlive hpc ?_
    rcases lt_or_eq_of_le hvw with hlt | rfl
    · exact hbefore v hlt hv
    · refine hwu.resolve_left fun e => ?_
      exact absurd (hst.symm.trans e.1) (by decide)

theorem ExitInv.waiting_passive (hI : ExitInv s) (h : Inv s) (hg : exitOk s a)
    (hc : Change s a s') (hp : s'.panicked = none) {t u : Slot}
    (hx : Passive s a s' (p, t)) (hlive : (s'.thread (p, t)).state.dead = false)
    (hpc : (s'.thread (p, t)).pc = .exitWait u) :
    (∀ v, v < u → v ≠ t → (s'.thread (p, v)).state.dead = true) ∧
    ((s'.thread (p, t)).state = .SLEEPING ∧
        (s'.thread (p, t)).chan = .thread (p, u) ∨
      (s'.thread (p, u)).state.dead = true) := by
  -- the thread was waiting before, and what it waits for is still true
  have hold : (s.thread (p, t)).state.dead = false →
      (s.thread (p, t)).pc = .exitWait u →
      ((s.thread (p, t)).state = .SLEEPING →
        (s.thread (p, t)).chan = .thread (p, u) →
        (s'.thread (p, t)).state = .SLEEPING ∧
            (s'.thread (p, t)).chan = .thread (p, u) ∨
          (s'.thread (p, u)).state.dead = true) →
      (∀ v, v < u → v ≠ t → (s'.thread (p, v)).state.dead = true) ∧
      ((s'.thread (p, t)).state = .SLEEPING ∧
          (s'.thread (p, t)).chan = .thread (p, u) ∨
        (s'.thread (p, u)).state.dead = true) := by
    intro hl hw hsl
    obtain ⟨hbefore, hu⟩ := hI.waiting hl hw
    refine ⟨fun v hv hvt => ?_, ?_⟩
    · exact hc.dead_of_waiting h hp hg hl hw (hbefore v hv hvt)
    · rcases hu with ⟨h₁, h₂⟩ | hd
      · exact hsl h₁ h₂
      · exact .inr (hc.dead_of_waiting h hp hg hl hw hd)
  cases hx with
  | keep b e =>
      rw [e] at hlive hpc
      exact hold hlive hpc fun h₁ h₂ => .inl (by rw [e]; exact ⟨h₁, h₂⟩)
  | wake ch hs hch _ hy e =>
      rw [e] at hpc
      refine hold (by rw [hs]; rfl) hpc fun _ h₂ => .inr ?_
      rw [hy (p, u) (hch.symm.trans h₂) rfl]
      rfl
  | killWake hr hk _ e =>
      rw [e] at hpc
      have := (hg.2.2 _ hr).1 _ hk
      rw [hpc] at this
      cases this
  | execWake _ hr hk e =>
      rw [e] at hpc
      have := (hg.2.2 _ hr).2.1 _ hk
      rw [hpc] at this
      cases this
  | dispatch _ hs e =>
      rw [e] at hpc
      refine hold (by rw [hs]; rfl) hpc fun h₁ _ => ?_
      exact absurd (hs.symm.trans h₁) (by decide)
  | handOff hr hk hw e =>
      rw [e] at hpc
      exact absurd (hpc.symm.trans (h.woken_of_handsOff hr hk hw).2.1) nofun
  | create _ _ _ e | fork _ _ _ e =>
      rw [e] at hpc
      cases hpc
  | stack hs e =>
      rw [e] at hpc
      exact absurd (hpc.symm.trans (h.slot.embryo hs)) nofun
  | publish hs e =>
      rw [e] at hpc
      exact absurd (hpc.symm.trans (h.slot.embryo hs.1)) nofun
  | mark _ _ _ e | drop _ _ e =>
      rw [e] at hlive
      cases hlive
  | reap _ _ hs =>
      rw [hs] at hlive
      cases hlive

/-- The other ways off a CPU do not lead into the loop. -/
theorem Leaving.not_exitWaits {t : Thread} {st : States} {ch : Chan} {k : Resume}
    {pc' : Pc} (h : Leaving r t st ch k pc') : pc'.exitWaits = false := by
  cases h with
  | sleep h =>
      generalize t.pc = pc at h
      cases h <;> rfl
  | yield h _ =>
      generalize t.pc = pc at h
      cases h with
      | user => rfl
      | kernel hpre => cases pc' <;> first | rfl | cases hpre
  | mutex | final | gap => rfl

theorem ExitInv.waiting_active (hI : ExitInv s) (h : Inv s) (hg : exitOk s a)
    (hc : Change s a s') (hp : s'.panicked = none) {u : Slot}
    (hr : s.cpu c = .run r) (hx : Active s a s' r)
    (hpc : (s'.thread r).pc = .exitWait u) :
    (∀ v, v < u → v ≠ r.2 → (s'.thread (r.1, v)).state.dead = true) ∧
      (s'.thread r).state = .SLEEPING ∧
      (s'.thread r).chan = .thread (r.1, u) := by
  cases hx with
  | exitWait w _ hd e =>
      rw [e] at hpc
      obtain rfl := Pc.exitWait.inj hpc
      refine ⟨fun v hv hvr => hI.passed h hg hc hp hr hvr (hd v hv hvr), ?_⟩
      rw [e]
      exact ⟨rfl, rfl⟩
  | goOn pc' _ hgo e =>
      rw [e] at hpc
      have := hgo.new
      rw [show pc' = _ from hpc] at this
      cases this
  | @leave _ _ _ pc' hl e =>
      rw [e] at hpc
      have := hl.not_exitWaits
      rw [show pc' = _ from hpc] at this
      cases this
  | release h' _ e =>
      rw [e] at hpc
      exact absurd (hpc.symm.trans h') nofun
  | exitClose hl =>
      rw [hl.thread] at hpc
      cases hpc
  | own _ _ e | block _ e | beginOp _ e | endOp _ _ _ e | acquire _ e | die _ e =>
      rw [e] at hpc
      cases hpc

theorem Leaving.tearing {t : Thread} {st : States} {ch : Chan} {k : Resume}
    {pc' : Pc} (h : Leaving r t st ch k pc') (ht : t.pc.tearing = true) :
    st.dead = true ∨ pc'.tearing = true := by
  cases h with
  | sleep h =>
      generalize t.pc = pc at h ht
      cases h <;> exact .inr ht
  | yield h _ =>
      generalize t.pc = pc at h ht
      cases h with
      | user => cases ht
      | kernel _ => exact .inr ht
  | mutex h =>
      rw [h] at ht
      cases ht
  | final | gap => exact .inl rfl

/-- A thread that tears its process down does nothing else. -/
theorem Change.tearing (h : Inv s) (hc : Change s a s') (hp : s'.panicked = none)
    (hlive : (s.thread x).state.dead = false) (ht : (s.thread x).pc.tearing = true) :
    (s'.thread x).state.dead = true ∨ (s'.thread x).pc.tearing = true := by
  have hembryo : (s.thread x).state ≠ .EMBRYO := by
    intro e
    rw [h.slot.embryo e] at ht
    cases ht
  rcases hc.effect h hp x with hx | ⟨_, hx⟩
  · cases hx with
    | keep _ e | wake _ _ _ _ _ e | killWake _ _ _ e | execWake _ _ _ e
    | handOff _ _ _ e | dispatch _ _ e => exact .inr (by rw [e]; exact ht)
    | mark _ _ _ e | drop _ _ e => exact .inl (by rw [e]; rfl)
    | reap _ _ hs => exact .inl (by rw [hs]; rfl)
    | create _ _ hs | fork _ _ hs => simp [hs, States.dead] at hlive
    | stack hs => exact absurd hs hembryo
    | publish hs => exact absurd hs.1 hembryo
  · cases hx with
    | goOn _ _ hgo e => exact .inr (by rw [e]; exact hgo.tearing.trans ht)
    | release _ _ e => exact .inr (by rw [e]; exact ht)
    | beginOp h e | acquire h e =>
        rw [h] at ht
        exact .inr (by rw [e]; exact ht)
    | endOp h _ hk e =>
        rw [h] at ht
        refine .inr ?_
        rw [e]
        simpa [Pc.tearing, hk] using ht
    | leave hl e =>
        rw [e]
        exact hl.tearing ht
    | exitClose hl =>
        rw [hl.thread]
        exact .inr rfl
    | die _ e => exact .inl (by rw [e]; rfl)
    | own h | block h =>
        rw [h] at ht
        cases ht
    | exitWait _ h =>
        rcases h with h | ⟨_, h⟩ <;> rw [h] at ht <;> cases ht

/-- `exiting` changes when a thread leaves the waiting loop, and when `wait`
reaps the process. -/
theorem ProcEffect.exiting_eq (hx : ProcEffect s a s' p) {t : Slot}
    (he : (s'.proc p).exiting = some t) : (s.proc p).exiting = some t ∨
      ∃ c, s.cpu c = .run (p, t) ∧ LeavesLoop s s' (p, t) := by
  cases hx with
  | keep _ hk | wake _ _ _ hk | killWake _ _ hk | leave _ _ _ hk
  | final _ _ _ _ _ hk | dispatch _ _ hk | unclaim _ _ hk | publish _ _ hk =>
      exact .inl (hk.exiting.symm.trans he)
  | claim _ _ _ _ he' | setMid _ _ _ _ _ he' | clear _ _ _ _ _ _ he' =>
      exact .inl (he'.symm.trans he)
  | vacate _ _ e => simp [e, Proc.vacated] at he
  | @exits c r hr hp hl =>
      subst hp
      obtain rfl := Option.some.inj (hl.exiting.symm.trans he)
      exact .inr ⟨c, hr, hl⟩

theorem ExitInv.step (hI : ExitInv s) (h : Inv s) (hg : exitOk s a)
    (hc : Change s a s') (hp : s'.panicked = none) : ExitInv s' where
  waiting {p t u} hlive hpc := by
    rcases hc.effect h hp (p, t) with hx | ⟨⟨c, hr⟩, hx⟩
    · exact hI.waiting_passive h hg hc hp hx hlive hpc
    · exact (hI.waiting_active h hg hc hp hr hx hpc).imp_right .inl
  alone {p t} he v hv := by
    rcases (hc.procEffect h hp p).exiting_eq he with he | ⟨c, hr, hl⟩
    · exact hc.dead h hp (fun r hr => hg.2.1 r hr _) (hI.alive he).not_claimed
        (fun r hr => hI.not_creates h he hr) (hI.alone he v hv)
    · exact hI.passed h hg hc hp hr hv (hl.dead v hv)
  torn {p t} he := by
    rcases (hc.procEffect h hp p).exiting_eq he with he | ⟨_, _, hl⟩
    · cases hd : (s.thread (p, t)).state.dead with
      | true =>
          exact .inl (hc.dead h hp (fun r hr => hg.2.1 r hr _)
            (hI.alive he).not_claimed (fun r hr => hI.not_creates h he hr) hd)
      | false =>
          exact hc.tearing h hp hd ((hI.torn he).resolve_left (by simp [hd]))
    · rw [hl.thread]
      exact .inr rfl
  absent {p} hd := by
    rcases (hc.procEffect h hp p).of_not_alive h hg.1 hd with e | ⟨hd₀, he, _⟩
    · rw [e]
      rfl
    · exact he.trans (hI.absent hd₀)

theorem Initial.exitInv (hi : Initial s) : ExitInv s := by
  have hno : ∀ {p t}, (s.proc p).exiting = some t → False := by
    intro p t he
    rw [hi.exiting p] at he
    cases he
  refine ⟨fun {p t u} hlive hpc => ?_, fun he => (hno he).elim,
    fun he => (hno he).elim, fun _ => hi.exiting _⟩
  have hf := hi.fresh (x := (p, t)) fun e => by simp [e, States.dead] at hlive
  exact absurd (hf.pc.symm.trans hpc) (by simp)

theorem exitInv_of_reach (h : (kernel Cpu).Reach exitOk s)
    (hp : s.panicked = none) : ExitInv s :=
  invariant_of_reach (G := exitOk) (fun _ _ hg => hg.1) (fun _ hi => hi.exitInv)
    (fun _ _ _ h hI hg hc hp' => hI.step h hg hc hp') h hp

/-- If nothing but the end of a sibling wakes the waiting loop of `exit`, no
thread is created meanwhile and no mutex is handed to a thread that has ended:
from the moment a thread leaves the loop until `wait` has reaped the process,
every other thread of the process is `UNUSED` or `ZOMBIE`. -/
theorem exit_alone (h : (kernel Cpu).Reach exitOk s) (hp : s.panicked = none)
    {p : ProcId} {t : Slot} (he : (s.proc p).exiting = some t) :
    ∀ v, v ≠ t → (s.thread (p, v)).state = .UNUSED ∨
      (s.thread (p, v)).state = .ZOMBIE := fun v hv =>
  States.dead_iff.mp ((exitInv_of_reach h hp).alone he v hv)

/-- Thread (1, 0) waits in `exit` for thread (1, 1), which is in the kernel. -/
def waitingRun : List (Act (Fin 2)) :=
  besideRun .other ++ call 1 .exit ++ runs 1 1 ++ [Act.sched 1]

/-- Thread (1, 1) ends, and thread (1, 0) leaves the loop. -/
def aloneRun : List (Act (Fin 2)) :=
  waitingRun ++ Act.kern 0 (.done 0) :: runs 0 4 ++ [Act.sched 0, .sched 0] ++ runs 0 1

theorem exit_alone_waited : ∃ s, (kernel (Fin 2)).Reach exitOk s ∧
    s.panicked = none ∧ (s.thread (1, 0)).pc = .exitClose ∧
    (s.proc 1).exiting = some 0 ∧ ∀ v, v ≠ 0 →
      (s.thread (1, v)).state = .UNUSED ∨ (s.thread (1, v)).state = .ZOMBIE := by
  obtain ⟨s, hs, hp, hpc, he⟩ := boot_reach (double 1 2) exitOk aloneRun
    (fun s => s.panicked = none ∧ (s.thread (1, 0)).pc = .exitClose ∧
      (s.proc 1).exiting = some 0) (by decide +kernel)
  exact ⟨s, hs, hp, hpc, he, exit_alone hs hp he⟩

/-- Thread (1, 1) sleeps in the kernel, and thread (0, 0) kills the process. -/
def earlyRun : List (Act (Fin 2)) :=
  waitingRun ++ [Act.kern 0 (.sleep 9), .sched 0, .wakeup 7, .sched 0,
    .kern 0 (.done 0)] ++ runs 0 3 ++ call 0 (.kill 2) ++ runs 0 1 ++
    Act.sched 1 :: runs 1 1

/-- `kill` wakes thread (1, 0), which leaves the loop and starts to close files
while its sibling is asleep. -/
theorem exit_not_alone : ∃ s, (kernel (Fin 2)).Reach Lib.System.anyStep s ∧
    s.panicked = none ∧ (s.thread (1, 0)).pc = .exitClose ∧
    (s.proc 1).exiting = some 0 ∧ (s.thread (1, 1)).state = .SLEEPING :=
  boot_reach (double 1 2) _ earlyRun _ (by decide +kernel)

end Xv6.Kernel
