import Xv6.Kernel.Boot
import Xv6.Kernel.CpuEffect

/-!
# Kernel stacks

A thread that calls `kthread_exit` is `ZOMBIE` when it releases `ptable.lock`
and leaves its stack in a later section. In between, a reaper on another CPU
frees the stack under it. In the runs in which no reaper acts in that window,
and `wait` frees no thread that has not ended, no CPU ever runs on a freed
stack, and no thread is on two CPUs.
-/

set_option linter.unusedSectionVars false

namespace Xv6.Kernel

variable {Cpu : Type} [DecidableEq Cpu] {s s' : Sys Cpu} {a : Act Cpu} {c : Cpu}
  {r x : ThreadPtr}

/-! ## §1  Contexts -/

/-- Every reaped thread has ended and is not in the window of
`kthread_exit`. -/
def reapOk (s : Sys Cpu) (a : Act Cpu) : Prop :=
  forkOk s a ∧ ∀ r ∈ s.acting a, ∀ x, s.Reaps r x →
    (s.thread x).state = .ZOMBIE ∧ (s.thread x).pc ≠ .kthreadExitSched

instance (s : Sys Cpu) (a : Act Cpu) : Decidable (reapOk s a) := by
  unfold reapOk; infer_instance

/-- A thread that may be switched to has a context, and no CPU runs on a freed
stack. -/
structure StackInv (s : Sys Cpu) : Prop where
  context : ∀ x, (s.thread x).state = .RUNNABLE ∨ (s.thread x).state = .SLEEPING →
    (s.thread x).context ≠ none
  cpu : ∀ d x, s.cpu d ≠ .junk x

theorem StackInv.passive (hI : StackInv s) (h : Inv s) (hx : Passive s a s' x)
    (hs : (s'.thread x).state = .RUNNABLE ∨ (s'.thread x).state = .SLEEPING) :
    (s'.thread x).context ≠ none := by
  cases hx with
  | keep b e =>
      rw [e] at hs ⊢
      exact hI.context x hs
  | wake _ hsl _ _ _ e | killWake _ _ hsl e =>
      rw [e]
      exact hI.context x (.inr hsl)
  | execWake _ _ hk e =>
      rw [e]
      exact hI.context x (.inr hk.2.2)
  | publish hrd e =>
      rw [e]
      exact hrd.2
  | handOff hr hk hw e =>
      rw [e]
      simp [(h.woken_of_handsOff hr hk hw).2.2]
  | reap _ _ hst => simp [hst] at hs
  | mark _ _ _ e | create _ _ _ e | fork _ _ _ e | drop _ _ e | dispatch _ _ e =>
      simp [e, Thread.resumed] at hs
  | stack hst e => simp [e, hst] at hs

theorem StackInv.active (h : Inv s) (hr : s.cpu c = .run r) (hx : Active s a s' r)
    (hs : (s'.thread r).state = .RUNNABLE ∨ (s'.thread r).state = .SLEEPING) :
    (s'.thread r).context ≠ none := by
  -- a section that keeps the state leaves the thread on its CPU
  have hst : ¬ ((s.thread r).state = .RUNNABLE ∨ (s.thread r).state = .SLEEPING) := by
    rcases h.cpu.state hr with e | ⟨e, _⟩ <;> simp [e]
  cases hx with
  | leave _ e | exitWait _ _ _ e => simp [e]
  | die _ e => simp [e] at hs
  | goOn _ _ _ e | own _ _ e | block _ e | beginOp _ e | endOp _ _ _ e
  | acquire _ e | release _ _ e =>
      rw [e] at hs
      exact absurd hs hst
  | exitClose hl =>
      rw [hl.thread] at hs
      exact absurd hs hst

/-! ## §2  No CPU runs on a freed stack -/

theorem StackInv.cpu_step (hI : StackInv s) (h : Inv s) (hg : reapOk s a)
    (hc : Change s a s') (hp : s'.panicked = none) (d : Cpu) (y : ThreadPtr) :
    s'.cpu d ≠ .junk y := by
  cases hc with
  | wakeup => exact hI.cpu d y
  | junk => cases hp
  | @sched c =>
      unfold Sys.scheduler
      split
      case h_1 z hz =>
        by_cases hd : d = c
        · subst hd
          rw [Sys.dispatch_cpu_self, if_neg (hI.context z (.inl (s.pick_some hz).1))]
          nofun
        · rw [Sys.dispatch_cpu_ne hd]
          exact hI.cpu d y
      case h_2 =>
        by_cases hd : d = c
        · subst hd
          exact (s.setCpu_self d .idle).trans_ne nofun
        · exact (s.setCpu_ne c .idle hd).trans_ne (hI.cpu d y)
  | run hr hs =>
      cases hs.cpuEffect h hr hp d with
      | keep e => exact e.trans_ne (hI.cpu d y)
      | scan _ e => exact e.trans_ne nofun
      | @freed z hz _ hf =>
          rcases hf with ⟨r, hact, hf⟩ | hf
          · obtain ⟨hzom, hpc⟩ := hg.2 r hact z hf
            exact absurd hz (h.not_run_of_ended (.inr ⟨hzom, hpc⟩))
          · rcases h.cpu.state hz with e | ⟨e, _⟩ <;> simp [hf] at e

theorem stackInv_of_reach (h : (kernel Cpu).Reach reapOk s)
    (hp : s.panicked = none) : StackInv s := by
  refine invariant_of_reach (G := reapOk) (fun _ _ hg => hg.1) (fun s hi => ?_)
    (fun s a s' h hI hg hc hp' => ⟨fun x hs => ?_, hI.cpu_step h hg hc hp'⟩) h hp
  · refine ⟨fun x hs => ?_, fun d x => by rw [hi.cpu d]; nofun⟩
    have hf := hi.fresh (x := x) (by rcases hs with e | e <;> simp [Sys.Present, e])
    simp [hf.context]
  · rcases hc.effect h hp' x with hx | ⟨⟨c, hr⟩, hx⟩
    · exact hI.passive h hx hs
    · exact StackInv.active h hr hx hs

/-- If every reaped thread has ended and is not in the window of
`kthread_exit`, then no CPU executes a thread whose stack is freed, no CPU runs
on a freed stack, and no thread is on two CPUs. -/
theorem stack_not_freed (h : (kernel Cpu).Reach reapOk s)
    (hp : s.panicked = none) :
    (∀ a r x, reapOk s a → s.acting a = some r → s.Reaps r x →
      ∀ d, s.cpu d ≠ .run x) ∧
    (∀ d x, s.cpu d ≠ .junk x) ∧
    ∀ c d x, s.cpu c = .run x → s.cpu d = .run x → c = d := by
  have hinv := inv_of_reach (fun _ _ hg => hg.1) h hp
  refine ⟨fun a r x hg hr hx d => ?_, (stackInv_of_reach h hp).cpu,
    fun c d x hc hd => hinv.cpu.unique hc hd⟩
  obtain ⟨hz, hpc⟩ := hg.2 r hr x hx
  exact hinv.not_run_of_ended (.inr ⟨hz, hpc⟩)

/-- Thread (0, 0) sleeps in `kthread_join` until thread (0, 1) has called
`kthread_exit`. -/
def gapRun : List (Act (Fin 2)) :=
  Act.sched 0 :: call 0 (.join 1) ++ runs 0 2 ++ Act.sched 0 :: call 0 .kthreadExit ++
    runs 0 1

/-- Thread (0, 1) leaves its stack before thread (0, 0) is resumed. -/
def endedRun : List (Act (Fin 2)) := gapRun ++ runs 0 1 ++ [Act.sched 0, .sched 0]

theorem stack_not_freed_joined : ∃ s, (kernel (Fin 2)).Reach reapOk s ∧
    s.panicked = none ∧ reapOk s (.run 0) ∧ s.acting (.run 0) = some (0, 0) ∧
    s.Reaps (0, 0) (0, 1) ∧ (∀ d, s.cpu d ≠ .run (0, 1)) ∧
    ∀ d x, s.cpu d ≠ .junk x := by
  obtain ⟨s, hs, hp, hg, hr, hx⟩ := boot_reach (single 2) reapOk endedRun
    (fun s => s.panicked = none ∧ reapOk s (.run 0) ∧
      s.acting (.run 0) = some (0, 0) ∧ s.Reaps (0, 0) (0, 1)) (by decide +kernel)
  obtain ⟨hno, hjunk, _⟩ := stack_not_freed hs hp
  exact ⟨s, hs, hp, hg, hr, hx, hno _ _ _ hg hr hx, hjunk⟩

/-- Thread (0, 0) is resumed on CPU 1 while thread (0, 1) is still in its
window on CPU 0, frees its stack and creates another thread in the slot. -/
def reusedRun : List (Act (Fin 2)) :=
  gapRun ++ Act.sched 1 :: runs 1 4 ++ call 1 .create ++ Act.run 1 :: .kalloc 1 true ::
    runs 1 5 ++ preempted 1

/-- CPU 0 is still on the freed stack of the slot when CPU 1 executes the new
thread there. -/
theorem stack_freed_running : ∃ s,
    (kernel (Fin 2)).Reach Lib.System.anyStep s ∧ s.panicked = none ∧
    s.cpu 0 = .junk (0, 1) ∧ s.cpu 1 = .run (0, 1) :=
  boot_reach (single 2) _ reusedRun _ (by decide +kernel)

end Xv6.Kernel
