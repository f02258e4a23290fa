import Xv6.Kernel.Boot
import Xv6.Kernel.ProcEffect

/-!
# Safety of the kthread mutexes

Consequences of the invariant for the mutex table: mutual exclusion, no lost
waiter, what the panic "Thread is Blocked" depends on, and when an allocated
mutex has an owner.
-/

set_option linter.unusedSectionVars false

namespace Xv6.Kernel

variable {Cpu : Type} [DecidableEq Cpu] {s s' : Sys Cpu} {a : Act Cpu} {c : Cpu}
  {r : ThreadPtr}

/-! ## §1  Mutual exclusion -/

namespace Sys

/-- Thread `r` has been handed mutex `i` inside `kthread_mutex_lock`: it has
been woken by the hand-off, or has returned from `sleep` with the mutex still
locked for it. -/
def Handed (s : Sys Cpu) (r : ThreadPtr) (i : MutexId) : Prop :=
  (s.thread r).blocked = false ∧
    ((s.thread r).pc = .mutexLockWoken i ∨ (s.mutex i).locked = true ∧
      ((s.thread r).pc = .mutexLockCheck i ∨ (s.thread r).pc = .mutexLockTake i))

/-- Thread `r` is between a `kthread_mutex_lock(i)` that returned 0 and its
next successful `kthread_mutex_unlock(i)`, or has been handed the mutex and is
about to return. -/
def InCritical (s : Sys Cpu) (r : ThreadPtr) (i : MutexId) : Prop :=
  i ∈ (s.thread r).holds ∨ s.Handed r i

instance (s : Sys Cpu) (r : ThreadPtr) (i : MutexId) :
    Decidable (s.InCritical r i) := by
  unfold InCritical Handed; infer_instance

instance (s : Sys Cpu) (r : ThreadPtr) : Decidable (s.Present r) := by
  unfold Present; infer_instance

end Sys

/-- A thread in its critical section is the recorded holder. -/
theorem Inv.recorded_of_inCritical (h : Inv s) (hr : s.Present r) {i : MutexId}
    (hc : s.InCritical r i) : s.Recorded r i := by
  have hfact := h.mutex.fact hr
  rcases hc with hc | ⟨hb, hpc | ⟨hl, hpc | hpc⟩⟩
  · exact h.mutex.holds hr hc
  · rw [hpc] at hfact
    exact hfact.2.2.1 hb
  · rw [hpc] at hfact
    obtain ⟨ha, ho, ht⟩ := hfact hb
    exact ⟨ha, hl, ht.resolve_left (by simp [hl]), ho⟩
  · rw [hpc] at hfact
    obtain ⟨ha, ho, ht⟩ := hfact
    exact ⟨ha, hl, ht.resolve_left (by simp [hl]), ho⟩

/-- At most one thread of the whole system is in the critical section of a
mutex, dead threads included. -/
theorem mutual_exclusion (h : (kernel Cpu).Reach forkOk s)
    (hp : s.panicked = none) {i : MutexId} {r r' : ThreadPtr}
    (hr : s.Present r) (hr' : s.Present r') (hc : s.InCritical r i)
    (hc' : s.InCritical r' i) : r = r' := by
  have hinv := inv_of_reach (fun _ _ => id) h hp
  exact (hinv.recorded_of_inCritical hr hc).unique
    (hinv.recorded_of_inCritical hr' hc')

/-- Thread 0 locks mutex 0, thread 1 sleeps on it, and thread 0 hands it over. -/
def handOffRun : List (Act (Fin 2)) :=
  Act.sched 0 :: call 0 .mutexAlloc ++ runs 0 5 ++ call 0 (.mutexLock 0) ++
    runs 0 8 ++ preempted 0 ++ call 0 (.mutexLock 0) ++ runs 0 5 ++
    [Act.sched 0, .sched 0] ++ runs 0 2 ++ call 0 (.mutexUnlock 0) ++ runs 0 4

/-- In the window after the hand-off the waiter alone is in the critical
section. -/
theorem mutual_exclusion_handOff : ∃ s, (kernel (Fin 2)).Reach forkOk s ∧
    s.panicked = none ∧ (s.thread (0, 1)).state = .RUNNABLE ∧
    s.InCritical (0, 1) 0 ∧
    ∀ r, s.Present r → s.InCritical r 0 → r = (0, 1) := by
  obtain ⟨s, hs, hp, hrun, hc, hpr⟩ := boot_reach (single 2) forkOk handOffRun
    (fun s => s.panicked = none ∧ (s.thread (0, 1)).state = .RUNNABLE ∧
      s.InCritical (0, 1) 0 ∧ s.Present (0, 1)) (by decide +kernel)
  exact ⟨s, hs, hp, hrun, hc, fun r hr hcr => mutual_exclusion hs hp hr hpr hcr hc⟩

/-! ## §2  No waiter is lost -/

instance (s : Sys Cpu) (r : ThreadPtr) (i : MutexId) :
    Decidable (s.Waits r i) := by
  unfold Sys.Waits; infer_instance

/-- A waiter that does not hold `mtable.lock` waits for a locked mutex of its
process. -/
theorem Inv.locked_of_waits (h : Inv s) {w : ThreadPtr} {i : MutexId}
    (hw : s.Waits w i) (hout : (s.thread w).pc.holdsMt = false) :
    (s.mutex i).locked = true ∧ (s.proc w.1).mid i = true := by
  obtain ⟨hp, hpc, _⟩ := h.woken_of_waits hw hout
  have hfact := h.mutex.fact hp
  rw [hpc] at hfact
  exact (hfact.2.2.2 hw).2

/-- While nobody holds `mtable.lock`: an allocated mutex is free if and only if
it has no owner thread, a free mutex has no waiter, and all waiters belong to
the one process that owns the mutex. And `kthread_mutex_dealloc`, about to free
a mutex that it found unlocked, frees one without waiters. -/
theorem no_lost_waiter (h : (kernel Cpu).Reach forkOk s)
    (hp : s.panicked = none) :
    (s.mtlock = none → ∀ i, (s.mutex i).allocated = true →
      ((s.mutex i).locked = false ↔ (s.mutex i).tid = -1) ∧
      ((s.mutex i).locked = false → ∀ w, ¬ s.Waits w i) ∧
      ∀ w, s.Waits w i → ∀ p, (s.proc p).mid i = true ↔ p = w.1) ∧
    ∀ c r i, s.cpu c = .run r → (s.thread r).pc = .mutexDeallocLocked i →
      (s.mutex i).locked = false → ∀ w, ¬ s.Waits w i := by
  have hinv := inv_of_reach (fun _ _ => id) h hp
  refine ⟨fun hmt i ha => ⟨hinv.mutex.tid ha, fun hl w hw => ?_,
    fun w hw p => ⟨fun hm => ?_, ?_⟩⟩, fun c r i hr hpc hl w hw => ?_⟩
  · have hout := hinv.not_holdsMt_of_free hmt (hinv.mutex.blocked hw.1).1
    exact absurd (hl.symm.trans (hinv.locked_of_waits hw hout).1) (by decide)
  · have hout := hinv.not_holdsMt_of_free hmt (hinv.mutex.blocked hw.1).1
    exact Option.some.inj ((hinv.mutex.owner hm).symm.trans
      (hinv.mutex.owner (hinv.locked_of_waits hw hout).2))
  · rintro rfl
    have hout := hinv.not_holdsMt_of_free hmt (hinv.mutex.blocked hw.1).1
    exact (hinv.locked_of_waits hw hout).2
  · have hwr : w ≠ r := by
      rintro rfl
      have := hinv.not_blocked (r := w) (by rw [hpc]; rfl)
      exact absurd (this.symm.trans hw.1) (by decide)
    have hout := hinv.others_outside (hinv.present_of_run hr)
      (.inr (by rw [hpc]; rfl)) (hinv.mutex.blocked hw.1).1 hwr
    exact absurd (hl.symm.trans (hinv.locked_of_waits hw hout).1) (by decide)

/-- Thread 1 sleeps on the mutex that thread 0 holds; both locks are free. -/
def waiterRun : List (Act (Fin 2)) :=
  Act.sched 0 :: call 0 .mutexAlloc ++ runs 0 5 ++ call 0 (.mutexLock 0) ++
    runs 0 8 ++ preempted 0 ++ call 0 (.mutexLock 0) ++ runs 0 5 ++
    [Act.sched 0]

theorem no_lost_waiter_asleep : ∃ s, (kernel (Fin 2)).Reach forkOk s ∧
    s.panicked = none ∧ s.mtlock = none ∧ s.ptlock = none ∧ s.Waits (0, 1) 0 ∧
    (s.mutex 0).tid ≠ -1 ∧ ∀ p, (s.proc p).mid 0 = true ↔ p = 0 := by
  obtain ⟨s, hs, hp, hmt, hpt, ha, hl, hw⟩ := boot_reach (single 2) forkOk waiterRun
    (fun s => s.panicked = none ∧ s.mtlock = none ∧ s.ptlock = none ∧
      (s.mutex 0).allocated = true ∧ (s.mutex 0).locked = true ∧ s.Waits (0, 1) 0)
    (by decide +kernel)
  obtain ⟨h₁, _, h₃⟩ := (no_lost_waiter hs hp).1 hmt 0 ha
  refine ⟨s, hs, hp, hmt, hpt, hw, fun e => ?_, h₃ (0, 1) hw⟩
  exact absurd (hl.symm.trans (h₁.mpr e)) (by decide)

/-! ## §3  The panic "Thread is Blocked" -/

/-- `kill` and `kill_threads` wake no thread that is blocked on a mutex. -/
def wakeOk (s : Sys Cpu) (a : Act Cpu) : Prop :=
  forkOk s a ∧ ∀ r ∈ s.acting a,
    (∀ x, s.KillWakes r x → (s.thread x).blocked = false) ∧
    ∀ x, s.ExecWakes r x → (s.thread x).blocked = false

instance (s : Sys Cpu) (a : Act Cpu) : Decidable (wakeOk s a) := by
  unfold wakeOk; infer_instance

/-- A blocked thread is about to sleep, or asleep on its mutex, or dead. -/
def BlockedInv (s : Sys Cpu) : Prop :=
  ∀ x, (s.thread x).blocked = true → ∃ i, (s.thread x).pc = .mutexLockSleep i ∨
    (s.thread x).pc = .mutexLockWoken i ∧ (s.thread x).chan = .mutex i ∧
      ((s.thread x).state = .SLEEPING ∨ (s.thread x).state = .ZOMBIE)

theorem Inv.running_of_lockSleep (h : Inv s) (hb : (s.thread r).blocked = true)
    {i : MutexId} (hpc : (s.thread r).pc = .mutexLockSleep i) :
    (s.thread r).state = .RUNNING := by
  obtain ⟨c, hc, _⟩ := h.cpu.mt (h.mutex.blocked hb).1 (by rw [hpc]; rfl)
  exact h.running hc (by rw [hpc]; nofun)

/-- A thread on a CPU that is blocked has not slept yet. -/
theorem BlockedInv.lockSleep (hI : BlockedInv s) (h : Inv s)
    (hr : s.cpu c = .run r) (hb : (s.thread r).blocked = true) :
    ∃ i, (s.thread r).pc = .mutexLockSleep i := by
  obtain ⟨i, hpc | ⟨hpc, _, hst⟩⟩ := hI r hb
  · exact ⟨i, hpc⟩
  · have := h.running hr (by rw [hpc]; nofun)
    rw [this] at hst
    rcases hst with e | e <;> cases e

theorem BlockedInv.passive (hI : BlockedInv s) (h : Inv s) (hg : wakeOk s a)
    {x : ThreadPtr} (hx : Passive s a s' x)
    (hb : (s'.thread x).blocked = true) : ∃ i,
      (s'.thread x).pc = .mutexLockSleep i ∨
      (s'.thread x).pc = .mutexLockWoken i ∧ (s'.thread x).chan = .mutex i ∧
        ((s'.thread x).state = .SLEEPING ∨ (s'.thread x).state = .ZOMBIE) := by
  have hembryo : (s.thread x).state = .EMBRYO → (s.thread x).blocked = false :=
    fun e => h.not_blocked (by rw [h.slot.embryo e]; rfl)
  have hunused : (s.thread x).state = .UNUSED → (s.thread x).blocked = false := by
    intro e
    cases hb : (s.thread x).blocked with
    | false => rfl
    | true => exact absurd e (h.mutex.blocked hb).1
  cases hx with
  | keep b e =>
      rw [e] at hb ⊢
      exact hI x hb
  | wake ch hs hch hm _ e =>
      rw [e] at hb ⊢
      obtain ⟨i, hpc | ⟨_, hc, _⟩⟩ := hI x hb
      · exact ⟨i, .inl hpc⟩
      · exact absurd (hch.symm.trans hc) (hm i)
  | killWake hr hk _ e =>
      rw [e] at hb
      exact absurd (((hg.2 _ hr).1 x hk).symm.trans hb) (by decide)
  | execWake b hr hk e =>
      rw [e] at hb
      exact absurd (((hg.2 _ hr).2 x hk).symm.trans hb) (by decide)
  | mark b hr hk e =>
      rw [e] at hb ⊢
      obtain ⟨i, hpc | ⟨hpc, hc, _⟩⟩ := hI x hb
      · exact ⟨i, .inl hpc⟩
      · exact ⟨i, .inr ⟨hpc, hc, .inr rfl⟩⟩
  | reap _ _ _ hb' => exact absurd (hb'.symm.trans hb) (by decide)
  | create _ _ hs e | fork _ _ hs e =>
      rw [e] at hb
      exact absurd ((hunused hs).symm.trans hb) (by decide)
  | stack hs e | drop hs _ e =>
      rw [e] at hb
      exact absurd ((hembryo hs).symm.trans hb) (by decide)
  | publish hs e =>
      rw [e] at hb
      exact absurd ((hembryo hs.1).symm.trans hb) (by decide)
  | handOff _ _ _ e =>
      rw [e] at hb
      cases hb
  | dispatch _ hs e =>
      rw [e] at hb
      obtain ⟨i, hpc | ⟨_, _, hst⟩⟩ := hI x hb
      · rw [h.running_of_lockSleep hb hpc] at hs
        cases hs
      · rw [hs] at hst
        rcases hst with e | e <;> cases e

theorem BlockedInv.active (hI : BlockedInv s) (h : Inv s)
    (hr : s.cpu c = .run r) (hx : Active s a s' r)
    (hb : (s'.thread r).blocked = true) : ∃ i,
      (s'.thread r).pc = .mutexLockSleep i ∨
      (s'.thread r).pc = .mutexLockWoken i ∧ (s'.thread r).chan = .mutex i ∧
        ((s'.thread r).state = .SLEEPING ∨ (s'.thread r).state = .ZOMBIE) := by
  -- every section but `mutexLockBlock` keeps the flag
  have hpc : ∀ pc, (s.thread r).pc = pc → (∀ i, pc ≠ .mutexLockSleep i) →
      (s.thread r).blocked ≠ true := by
    rintro _ rfl hne hb
    obtain ⟨i, hpc⟩ := hI.lockSleep h hr hb
    exact hne i hpc
  cases hx with
  | block _ e => exact ⟨_, .inl (by rw [e])⟩
  | goOn pc' xs hgo e =>
      rw [e] at hb
      refine absurd hb (hpc _ rfl fun i hi => ?_)
      have := hgo.old
      rw [hi] at this
      cases this
  | leave hl e =>
      rw [e] at hb ⊢
      cases hl with
      | mutex _ => exact ⟨_, .inr ⟨rfl, rfl, .inl rfl⟩⟩
      | sleep hsl =>
          refine absurd hb (hpc _ rfl fun i hi => ?_)
          rw [hi] at hsl
          cases hsl
      | yield hy =>
          refine absurd hb (hpc _ rfl fun i hi => ?_)
          rw [hi] at hy
          cases hy with
          | kernel hpre => cases hpre
      | final hp => exact absurd hb (hpc _ hp nofun)
      | gap hp _ => exact absurd hb (hpc _ hp nofun)
  | own hp _ e | beginOp hp e | endOp hp _ _ e | acquire hp e | release hp _ e
  | die hp e =>
      rw [e] at hb
      exact absurd hb (hpc _ hp nofun)
  | exitWait u hp _ e =>
      rw [e] at hb
      rcases hp with hp | ⟨w, hp⟩ <;> exact absurd hb (hpc _ hp nofun)
  | exitClose hl =>
      rw [hl.thread] at hb
      rcases hl.old with hp | ⟨w, hp⟩ <;> exact absurd hb (hpc _ hp nofun)

theorem blockedInv_of_reach (h : (kernel Cpu).Reach wakeOk s)
    (hp : s.panicked = none) : BlockedInv s := by
  refine invariant_of_reach (G := wakeOk) (fun _ _ hg => hg.1) (fun s hi x hb => ?_)
    (fun s a s' h hI hg hc hp' x hb => ?_) h hp
  · rw [hi.not_blocked] at hb
    cases hb
  · rcases hc.effect h hp' x with hx | ⟨⟨c, hr⟩, hx⟩
    · exact hI.passive h hg hx hb
    · exact hI.active h hr hx hb

theorem Sys.leave_panicked {pst st : States} {ch : Chan} {pc : Pc} {k : Resume} :
    (s.leave c r pst st ch pc k).panicked = s.panicked := rfl

theorem Sys.exitWake_panicked {p : ProcId} :
    (s.exitWake p).panicked = s.panicked := by
  unfold Sys.exitWake Sys.reparent
  split <;> rfl

theorem Sys.exitLoop_panicked {k : ℕ} :
    (s.exitLoop c r k).panicked = s.panicked := by
  unfold Sys.exitLoop
  split
  · rw [Sys.sleep_eq]
    rfl
  · rfl

/-- The panic comes from the check after `sleep`. -/
theorem Section.blocked_of_panic (hs : Section s c r a s') :
    (s'.panicked = some .threadIsBlocked → ∃ i,
      (s.thread r).pc = .mutexLockCheck i ∧ (s.thread r).blocked = true) ∨
    s'.panicked = s.panicked := by
  cases hs with
  | halt _ hb => exact .inl hb
  | sleep => exact .inr (by rw [Sys.sleep_eq]; rfl)
  | mutexLockSleep => exact .inr (by rw [Sys.mutexLockSleep, Sys.sleep_eq]; rfl)
  | yield => exact .inr (by rw [Sys.yield_eq]; rfl)
  | beginOp _ _ hw => exact .inr (by rw [Sys.beginOp, if_neg (by simp [hw])]; rfl)
  | endOp _ _ _ hc =>
      refine .inr ?_
      rw [Sys.endOp, if_neg (by simp [hc])]
      simp only
      split <;> rfl
  | exit | exitWait => exact .inr Sys.exitLoop_panicked
  | exitFinal =>
      refine .inr ?_
      rw [Sys.exitFinal_eq, Sys.leave_panicked, Sys.exitWake_panicked]
  | kthreadExit =>
      refine .inr ?_
      unfold Sys.kthreadExit
      simp only
      split <;> rfl
  | kthreadExitSched _ _ hs =>
      exact .inr (by rw [Sys.kthreadExitSched_eq s c r hs]; rfl)
  | createStack ok | forkStack ok => cases ok <;> exact .inr rfl
  | @kill pid p =>
      refine .inr ?_
      change ((s.setProc p fun x => { x with killed := true }).killWake p).panicked = _
      unfold Sys.killWake
      split
      · split <;> rfl
      · rfl
  | forkThread =>
      refine .inr ?_
      unfold Sys.forkThread
      split <;> rfl
  | mutexDeallocLocked _ hi =>
      exact .inr (by rw [Sys.mutexDeallocLocked, if_neg (by simp [hi])]; rfl)
  | _ => exact .inr rfl

theorem Change.blocked_of_panic (hs : Change s a s') (hn : s.panicked = none)
    (hp : s'.panicked = some .threadIsBlocked) : ∃ c r i, s.cpu c = .run r ∧
      (s.thread r).pc = .mutexLockCheck i ∧ (s.thread r).blocked = true := by
  have hno : s'.panicked ≠ s.panicked := by
    rw [hn, hp]
    nofun
  cases hs with
  | wakeup => exact absurd rfl hno
  | sched =>
      refine absurd ?_ hno
      unfold Sys.scheduler
      split <;> rfl
  | run hr hs =>
      obtain ⟨i, hpc, hb⟩ := (hs.blocked_of_panic.resolve_right hno) hp
      exact ⟨_, _, i, hr, hpc, hb⟩
  | junk => cases hp

/-- If `kill` and `kill_threads` wake no blocked thread, the panic is
unreachable, and a thread that is back from its `sleep` in `kthread_mutex_lock`
finds its flag cleared. -/
theorem blocked_panic_unreachable (h : (kernel Cpu).Reach wakeOk s) :
    s.panicked ≠ some .threadIsBlocked ∧
    (s.panicked = none → ∀ c r i, s.cpu c = .run r →
      (s.thread r).pc = .mutexLockWoken i ∨ (s.thread r).pc = .mutexLockCheck i →
      (s.thread r).blocked = false) := by
  have hflag : ∀ {s : Sys Cpu}, (kernel Cpu).Reach wakeOk s → s.panicked = none →
      ∀ c r i, s.cpu c = .run r → (s.thread r).pc = .mutexLockWoken i ∨
        (s.thread r).pc = .mutexLockCheck i → (s.thread r).blocked ≠ true := by
    intro s h hp c r i hr hpc hb
    have hinv := inv_of_reach (fun _ _ hg => hg.1) h hp
    obtain ⟨j, hj⟩ := (blockedInv_of_reach h hp).lockSleep hinv hr hb
    rw [hj] at hpc
    rcases hpc with e | e <;> cases e
  refine ⟨fun hb => ?_, fun hp c r i hr hpc => by simpa using hflag h hp c r i hr hpc⟩
  cases h with
  | init hi =>
      rw [Initial.panicked hi] at hb
      cases hb
  | step h _ hs =>
      obtain ⟨hn, hc⟩ := step_change hs
      obtain ⟨c, r, i, hr, hpc, hbl⟩ := hc.blocked_of_panic hn hb
      exact hflag h hn c r i hr (.inr hpc) hbl

/-- The hand-off, after which the waiter runs up to its check. -/
def wokenRun : List (Act (Fin 2)) :=
  handOffRun ++ runs 0 3 ++ preempted 0 ++ runs 0 1

theorem blocked_panic_unreachable_woken : ∃ s,
    (kernel (Fin 2)).Reach wakeOk s ∧ s.cpu 0 = .run (0, 1) ∧
    (s.thread (0, 1)).pc = .mutexLockCheck 0 ∧
    (s.thread (0, 1)).blocked = false := by
  obtain ⟨s, hs, hp, hr, hpc⟩ := boot_reach (single 2) wakeOk wokenRun
    (fun s => s.panicked = none ∧ s.cpu 0 = .run (0, 1) ∧
      (s.thread (0, 1)).pc = .mutexLockCheck 0) (by decide +kernel)
  exact ⟨s, hs, hr, hpc,
    (blocked_panic_unreachable hs).2 hp 0 (0, 1) 0 hr (.inr hpc)⟩

/-- Thread (0, 1) holds the mutex and sleeps in the kernel, thread (0, 0) waits
for the mutex, and a thread of process 1 kills process 0. -/
def killRun : List (Act (Fin 2)) :=
  Act.sched 0 :: preempted 0 ++ call 0 .mutexAlloc ++ runs 0 5 ++
    call 0 (.mutexLock 0) ++ runs 0 8 ++ preempted 0 ++ preempted 0 ++
    Act.sched 0 :: runs 0 2 ++ call 0 (.mutexLock 0) ++ runs 0 5 ++
    Act.sched 0 :: runs 0 2 ++ call 0 .other ++ [Act.kern 0 (.sleep 7), .sched 0] ++
    runs 0 2 ++ call 0 (.kill 1) ++ runs 0 1 ++ Act.sched 1 :: runs 1 2

/-- `kill` wakes the waiter, and the kernel panics. -/
theorem blocked_panic_reached : ∃ s,
    (kernel (Fin 2)).Reach Lib.System.anyStep s ∧
    s.panicked = some .threadIsBlocked :=
  boot_reach (double 2 1) _ killRun (fun s => s.panicked = some .threadIsBlocked)
    (by decide +kernel)

/-! ## §4  Allocated mutexes and their owners -/

/-- No process that still owns an allocated mutex is reaped by `wait` or has
its `mid[]` cleared by `exec`. -/
def releaseOk (s : Sys Cpu) (a : Act Cpu) : Prop :=
  forkOk s a ∧ ∀ r ∈ s.acting a, ∀ p, s.Clears r p →
    ∀ i, (s.mutex i).allocated = true → (s.mutex i).owner ≠ some p

instance (s : Sys Cpu) (a : Act Cpu) : Decidable (releaseOk s a) := by
  unfold releaseOk; infer_instance

/-- An allocated mutex is in the `mid[]` of its owner, or about to be; a process
that does not exist owns nothing. -/
structure OwnerInv (s : Sys Cpu) : Prop where
  owned : ∀ i, (s.mutex i).allocated = true → ∃ p, (s.mutex i).owner = some p ∧
    ((s.proc p).mid i = true ∨
      ∃ t, s.Present (p, t) ∧ (s.thread (p, t)).pc = .mutexAllocMid i)
  absent : ∀ p, ¬ (s.proc p).Alive → ∀ i, (s.proc p).mid i = false

theorem Sys.exitLoop_mutex {k : ℕ} : (s.exitLoop c r k).mutex = s.mutex := by
  unfold Sys.exitLoop
  split
  · rw [Sys.sleep_eq]
    rfl
  · rfl

theorem Sys.leave_mutex {pst st : States} {ch : Chan} {pc : Pc} {k : Resume} :
    (s.leave c r pst st ch pc k).mutex = s.mutex := rfl

/-- How a section of `r` on CPU `c` changes the record of mutex `i`. -/
inductive MutexWrite (s s' : Sys Cpu) (c : Cpu) (r : ThreadPtr) (a : Act Cpu)
    (i : MutexId) : Prop
  | alloc (hi : (s.mutex i).allocated = false)
      (ho : (s'.mutex i).owner = some r.1)
      (e : s'.thread r = { s.thread r with pc := .mutexAllocMid i })
  | dealloc (hpc : (s.thread r).pc = .mutexDeallocLocked i)
      (hi : (s.mutex i).locked = false)
      (e : s'.mutex i = { s.mutex i with
        allocated := false, locked := false, tid := -1 })
  | take (hpc : (s.thread r).pc = .mutexLockTake i)
      (e : s'.mutex i = { s.mutex i with
        locked := true, tid := (s.thread r).tid })
  | handOff {u : Slot} (ha : a = .run c)
      (hpc : (s.thread r).pc = .mutexUnlockScan i)
      (hu : s.waiter r i = some u) (e : s' = s.handOff r i u)
  | free (hpc : (s.thread r).pc = .mutexUnlockFree i)
      (e : s'.mutex i = { s.mutex i with locked := false, tid := -1 })

/-- A section that writes one record of the mutex table. -/
theorem mutex_cases_of_update {i j : MutexId} {m : KthreadMutex}
    (e : s'.mutex = Function.update s.mutex j m)
    (h : i = j → s'.mutex i = m → MutexWrite s s' c r a i) :
    s'.mutex i = s.mutex i ∨ MutexWrite s s' c r a i := by
  by_cases hij : i = j
  · subst hij
    exact .inr (h rfl (by rw [e, Function.update_self]))
  · exact .inl (by rw [e, Function.update_of_ne hij])

theorem Section.mutex_cases (hs : Section s c r a s') (hp : s'.panicked = none)
    (i : MutexId) : s'.mutex i = s.mutex i ∨ MutexWrite s s' c r a i := by
  have of_eq : ∀ {s' : Sys Cpu}, s'.mutex = s.mutex →
      s'.mutex i = s.mutex i ∨ MutexWrite s s' c r a i := fun e => .inl (by rw [e])
  cases hs with
  | halt hn _ => exact absurd hp hn
  | sleep => exact of_eq (by rw [Sys.sleep_eq]; rfl)
  | mutexLockSleep => exact of_eq (by rw [Sys.mutexLockSleep, Sys.sleep_eq]; rfl)
  | yield => exact of_eq (by rw [Sys.yield_eq]; rfl)
  | beginOp _ _ hw => exact of_eq (by rw [Sys.beginOp, if_neg (by simp [hw])]; rfl)
  | endOp _ _ _ hc =>
      refine of_eq ?_
      rw [Sys.endOp, if_neg (by simp [hc])]
      simp only
      split <;> rfl
  | exit | exitWait => exact of_eq Sys.exitLoop_mutex
  | exitFinal =>
      refine of_eq ?_
      rw [Sys.exitFinal_eq, Sys.leave_mutex, (Soft.exitWake r.1).mutex]
  | kthreadExit =>
      refine of_eq ?_
      unfold Sys.kthreadExit
      simp only
      split <;> rfl
  | kthreadExitSched _ _ hs => exact of_eq (by rw [Sys.kthreadExitSched_eq s c r hs]; rfl)
  | createStack ok | forkStack ok => cases ok <;> exact of_eq rfl
  | @kill pid p => exact of_eq ((Soft.killed (s := s) p).trans (Soft.killWake p)).mutex
  | forkThread =>
      refine of_eq ?_
      unfold Sys.forkThread
      split <;> rfl
  | @mutexAlloc _ j _ _ hi =>
      refine mutex_cases_of_update (j := j) rfl ?_
      rintro rfl e
      exact .alloc hi (by rw [e]) (Sys.goto_self _ _ _)
  | @mutexDeallocLocked _ j hpc hi =>
      rw [Sys.mutexDeallocLocked, if_neg (by simp [hi])]
      refine mutex_cases_of_update (j := j) rfl ?_
      rintro rfl e
      exact .dealloc hpc hi e
  | @mutexLockTake _ j hpc =>
      refine mutex_cases_of_update (j := j) rfl ?_
      rintro rfl e
      exact .take hpc e
  | @mutexUnlockFree _ j hpc =>
      refine mutex_cases_of_update (j := j) rfl ?_
      rintro rfl e
      exact .free hpc e
  | @handOff j u hpc _ hu =>
      refine mutex_cases_of_update (j := j) rfl ?_
      rintro rfl _
      exact .handOff rfl hpc hu rfl
  | _ => exact of_eq rfl

/-- Mutex `i` keeps its owner and does not become allocated. -/
structure KeepsOwner (s s' : Sys Cpu) (i : MutexId) : Prop where
  owner : (s'.mutex i).owner = (s.mutex i).owner
  allocated : (s'.mutex i).allocated = true → (s.mutex i).allocated = true

theorem KeepsOwner.of_eq {i : MutexId} (e : s'.mutex i = s.mutex i) :
    KeepsOwner s s' i :=
  ⟨by rw [e], by rw [e]; exact id⟩

/-- A mutex becomes allocated only for the thread that goes on to record it. -/
theorem Section.allocates (hs : Section s c r a s') (hp : s'.panicked = none)
    (i : MutexId) : KeepsOwner s s' i ∨ (s'.mutex i).owner = some r.1 ∧
      s'.thread r = { s.thread r with pc := .mutexAllocMid i } := by
  rcases hs.mutex_cases hp i with e | hw
  · exact .inl (.of_eq e)
  · cases hw with
    | alloc _ ho e => exact .inr ⟨ho, e⟩
    | dealloc _ _ e => exact .inl ⟨by rw [e], by rw [e]; nofun⟩
    | take _ e | free _ e => exact .inl ⟨by rw [e], by rw [e]; exact id⟩
    | @handOff u _ _ _ e =>
        have hm : s'.mutex i = { s.mutex i with tid := (s.thread (r.1, u)).tid } := by
          rw [e]
          exact Function.update_self ..
        exact .inl ⟨by rw [hm], by rw [hm]; exact id⟩

theorem Change.allocates (hs : Change s a s') (hp : s'.panicked = none)
    (i : MutexId) : KeepsOwner s s' i ∨ ∃ c r, s.cpu c = .run r ∧
      (s'.mutex i).owner = some r.1 ∧
      s'.thread r = { s.thread r with pc := .mutexAllocMid i } := by
  cases hs with
  | wakeup => exact .inl (.of_eq rfl)
  | sched =>
      refine .inl (.of_eq (congrFun (f := Sys.mutex _) ?_ i))
      unfold Sys.scheduler
      split <;> rfl
  | run hr hs =>
      exact (hs.allocates hp i).imp_right fun h => ⟨_, _, hr, h⟩
  | junk => cases hp

/-- A process keeps a mutex that stays allocated. -/
theorem OwnerInv.mid (hI : OwnerInv s) (h : Inv s) (hg : releaseOk s a)
    {p : ProcId} {i : MutexId} (hx : ProcEffect s a s' p)
    (ha : (s.mutex i).allocated = true) (hm : (s.proc p).mid i = true) :
    (s'.proc p).mid i = true := by
  have howner := h.mutex.owner hm
  cases hx with
  | keep _ hk | wake _ _ _ hk | killWake _ _ hk | leave _ _ _ hk
  | final _ _ _ _ _ hk | dispatch _ _ hk | unclaim _ _ hk | publish _ _ hk =>
      rw [hk.mid, hm]
  | vacate hr hw _ => exact absurd howner (hg.2 _ hr p hw.clears i ha)
  | claim hr hpc _ _ _ =>
      have hfree := hg.1 _ hr p hpc
      rw [hI.absent p (fun hal => hal.1 hfree) i] at hm
      cases hm
  | @setMid c r j b hr hp hpc _ hm' _ =>
      by_cases hij : i = j
      · subst hij
        rcases hpc with ⟨_, rfl⟩ | ⟨hpc, _⟩
        · rw [hm', Function.update_self]
        · have hfact := h.mutex.fact (h.present_of_run hr)
          rw [hpc] at hfact
          exact absurd (ha.symm.trans hfact) (by decide)
      · rw [hm', Function.update_of_ne hij, hm]
  | clear _ hr hp hpc =>
      refine absurd howner (hg.2 _ hr p ?_ i ha)
      simp only [Sys.Clears, hpc, hp]
  | exits _ _ _ _ hm' => rw [hm', hm]

/-- A thread that is about to record its new mutex stays there until it does. -/
theorem OwnerInv.pending (h : Inv s) (hg : releaseOk s a) (hc : Change s a s')
    (hp : s'.panicked = none) {x : ThreadPtr} {i : MutexId}
    (ha : (s.mutex i).allocated = true) (hx : s.Present x)
    (hpc : (s.thread x).pc = .mutexAllocMid i) :
    (s'.proc x.1).mid i = true ∨
      s'.Present x ∧ (s'.thread x).pc = .mutexAllocMid i := by
  obtain ⟨c, hr, _⟩ := h.cpu.mt hx (by rw [hpc]; rfl)
  have hst : (s.thread x).state = .RUNNING := h.running hr (by rw [hpc]; simp)
  rcases hc.effect h hp x with hx' | ⟨_, hx'⟩
  · cases hx' with
    | keep b e => exact .inr ⟨by rw [Sys.Present, e]; exact hx, by rw [e]; exact hpc⟩
    | reap hr hk =>
        have hfact := h.mutex.fact hx
        rw [hpc] at hfact
        rcases hk.zombie_or_waited with e | hw
        · exact absurd (hst.symm.trans e) (by decide)
        · exact absurd hfact.2 (hg.2 _ hr x.1 hw.clears i ha)
    | handOff _ _ hw _ =>
        have := h.not_blocked (r := x) (by rw [hpc]; rfl)
        exact absurd (this.symm.trans hw.1) (by decide)
    | execWake _ _ hk _ => exact absurd (hst.symm.trans hk.2.2) (by decide)
    | mark _ _ hk _ =>
        rcases hk.2.2.2 with e | e <;> exact absurd (hst.symm.trans e) (by decide)
    | publish hs _ => exact absurd (hst.symm.trans hs.1) (by decide)
    | wake _ hs | killWake _ _ hs | create _ _ hs | fork _ _ hs | stack hs
    | drop hs | dispatch _ hs => exact absurd (hst.symm.trans hs) (by decide)
  · rcases hx'.of_not_goesOn (by rw [hpc]; rfl) with ⟨j, h', hm⟩ | ⟨_, _, _, _, hl, _⟩
    · obtain rfl := Pc.mutexAllocMid.inj (h'.symm.trans hpc)
      exact .inl hm
    · cases hl with
      | sleep hsl =>
          rw [hpc] at hsl
          cases hsl
      | yield hy =>
          rw [hpc] at hy
          cases hy with
          | kernel hpre => cases hpre
      | mutex h' | final h' | gap h' => exact absurd (h'.symm.trans hpc) (by simp)

theorem OwnerInv.step (hI : OwnerInv s) (h : Inv s) (hg : releaseOk s a)
    (hc : Change s a s') (hp : s'.panicked = none) : OwnerInv s' where
  owned i ha := by
    rcases hc.allocates hp i with hk | ⟨c, r, hr, ho, e⟩
    · have ha₀ := hk.allocated ha
      obtain ⟨p, ho, hm | ⟨t, hx, hpc⟩⟩ := hI.owned i ha₀
      · exact ⟨p, hk.owner.trans ho, .inl (hI.mid h hg (hc.procEffect h hp p) ha₀ hm)⟩
      · refine ⟨p, hk.owner.trans ho, ?_⟩
        exact (OwnerInv.pending h hg hc hp ha₀ hx hpc).imp_right fun hx' => ⟨t, hx'⟩
    · refine ⟨r.1, ho, .inr ⟨r.2, ?_, by rw [e]⟩⟩
      rw [Sys.Present, e]
      exact h.present_of_run hr
  absent p hd i := by
    rcases (hc.procEffect h hp p).of_not_alive h hg.1 hd with e | ⟨hd₀, _, hm⟩
    · rw [e]
      rfl
    · refine Bool.eq_false_iff.mpr fun hi => ?_
      exact absurd ((hI.absent p hd₀ i).symm.trans (hm i hi)) (by decide)

/-- If no process is reaped or replaced by `exec` while it owns mutexes, then
between the mutex calls a mutex is allocated if and only if exactly one process
has it in its `mid[]`. -/
theorem allocated_iff_owned (h : (kernel Cpu).Reach releaseOk s)
    (hp : s.panicked = none) (hmt : s.mtlock = none) (i : MutexId) :
    (s.mutex i).allocated = true ↔
      ∃! p, (s.proc p).state ≠ .UNUSED ∧ (s.proc p).mid i = true := by
  have hinv := inv_of_reach (fun _ _ hg => hg.1) h hp
  have hI : OwnerInv s := invariant_of_reach (G := releaseOk) (fun _ _ hg => hg.1)
    (fun s hi => ⟨fun i ha => by simp [hi.mutex] at ha, fun p _ i => hi.mid p i⟩)
    (fun s a s' h hI hg hc hp' => hI.step h hg hc hp') h hp
  constructor
  · intro ha
    obtain ⟨p, ho, hm | ⟨t, hx, hpc⟩⟩ := hI.owned i ha
    · refine ⟨p, ⟨fun hs => ?_, hm⟩, fun q hq => ?_⟩
      · rw [hI.absent p (fun hal => hal.1 hs) i] at hm
        cases hm
      · exact Option.some.inj ((hinv.mutex.owner hq.2).symm.trans ho)
    · have := hinv.not_holdsMt_of_free hmt hx
      rw [hpc] at this
      cases this
  · rintro ⟨p, ⟨_, hm⟩, _⟩
    cases ha : (s.mutex i).allocated with
    | true => rfl
    | false =>
        obtain ⟨t, hx, hpc⟩ := hinv.mutex.alloc hm ha
        have := hinv.not_holdsMt_of_free hmt hx
        rw [hpc] at this
        cases this

/-- Thread (0, 0) allocates mutex 0 and is back in user mode. -/
def ownRun : List (Act (Fin 2)) :=
  Act.sched 0 :: call 0 .mutexAlloc ++ runs 0 5

theorem allocated_iff_owned_alloc : ∃ s, (kernel (Fin 2)).Reach releaseOk s ∧
    s.panicked = none ∧ s.mtlock = none ∧
    ∃! p, (s.proc p).state ≠ .UNUSED ∧ (s.proc p).mid 0 = true := by
  obtain ⟨s, hs, hp, hmt, ha⟩ := boot_reach (single 1) releaseOk ownRun
    (fun s => s.panicked = none ∧ s.mtlock = none ∧ (s.mutex 0).allocated = true)
    (by decide +kernel)
  exact ⟨s, hs, hp, hmt, (allocated_iff_owned hs hp hmt 0).mp ha⟩

/-- Thread (0, 0) allocates mutex 0 and calls `exec`. -/
def leakRun : List (Act (Fin 2)) :=
  ownRun ++ call 0 .exec ++ runs 0 3 ++ Act.kern 0 (.done 0) :: runs 0 4

/-- `exec` clears `mid[]` and leaves the mutex allocated: back in user mode, no
process owns it. -/
theorem mutex_leaked : ∃ s, (kernel (Fin 2)).Reach Lib.System.anyStep s ∧
    s.panicked = none ∧ s.mtlock = none ∧ s.cpu 0 = .run (0, 0) ∧
    (s.thread (0, 0)).pc = .user ∧ (s.mutex 0).allocated = true ∧
    ∀ p, (s.proc p).mid 0 = false :=
  boot_reach (single 1) _ leakRun _ (by decide +kernel)

end Xv6.Kernel
