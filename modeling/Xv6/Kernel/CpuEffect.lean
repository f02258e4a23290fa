import Xv6.Kernel.ProcEffect

/-!
# What a section does to one CPU

The CPU of the acting thread goes on with it or returns to its scheduler; a
reaper may take the stack away under another CPU.
-/

set_option linter.unusedSectionVars false

namespace Xv6.Kernel

variable {Cpu : Type} [DecidableEq Cpu] {s s' : Sys Cpu} {a : Act Cpu} {c : Cpu}
  {r x : ThreadPtr}

/-- What a section of a thread does to CPU `d`. -/
inductive CpuEffect (s : Sys Cpu) (a : Act Cpu) (s' : Sys Cpu) (d : Cpu) : Prop
  | keep (e : s'.cpu d = s.cpu d)
  | scan {x : ThreadPtr} {p : ProcId} {k : ℕ} (hx : s.cpu d = .run x)
      (e : s'.cpu d = .scan p k) (hs : (s'.proc x.1).state ≠ .RUNNING)
  | freed {x : ThreadPtr} (hx : s.cpu d = .run x) (e : s'.cpu d = .junk x)
      (hf : (∃ r, s.acting a = some r ∧ s.Reaps r x) ∨
        (s.thread x).state = .EMBRYO)

namespace CpuEffect

theorem of_leave {s₁ : Sys Cpu} {pst st : States} {ch : Chan} {pc : Pc}
    {k : Resume} (hr : s.cpu c = .run r) (h₁ : s₁.cpu = s.cpu)
    (hs : pst ≠ .RUNNING) (d : Cpu) :
    CpuEffect s a (s₁.leave c r pst st ch pc k) d := by
  by_cases hd : d = c
  · subst hd
    refine .scan hr (s₁.leave_cpu_self d r pst st ch pc k) ?_
    rw [Sys.leave_proc_self]
    exact hs
  · exact .keep ((s₁.leave_cpu_ne c r pst st ch pc k hd).trans (by rw [h₁]))

theorem of_sleep {s₁ : Sys Cpu} {ch : Chan} {pc : Pc} {k : Resume}
    (hr : s.cpu c = .run r) (h₁ : s₁.cpu = s.cpu) (d : Cpu) :
    CpuEffect s a (s₁.sleep c r ch k pc) d := by
  rw [Sys.sleep_eq]
  refine .of_leave hr h₁ ?_ d
  split <;> nofun

theorem of_exitLoop {s₁ : Sys Cpu} {k : ℕ} (hr : s.cpu c = .run r)
    (h₁ : s₁.cpu = s.cpu) (d : Cpu) : CpuEffect s a (s₁.exitLoop c r k) d := by
  unfold Sys.exitLoop
  split
  · exact .of_sleep hr h₁ d
  · exact .keep (congrFun h₁ d)

theorem of_freed (p : ProcId) (F : Slot → Prop) [DecidablePred F]
    (f : Thread → Thread) (hF : ∀ y : ThreadPtr, y.1 = p ∧ F y.2 →
      (∃ r, s.acting a = some r ∧ s.Reaps r y) ∨ (s.thread y).state = .EMBRYO)
    (d : Cpu)
    (e : s'.cpu d = (s.freed p F f).cpu d) : CpuEffect s a s' d := by
  cases hd : s.cpu d with
  | run y =>
      by_cases hy : y.1 = p ∧ F y.2
      · exact .freed hd (by simp [e, Sys.freed, hd, hy]) (hF y hy)
      · exact .keep (by simp [e, Sys.freed, hd, hy])
  | idle | scan | junk => exact .keep (by simp [e, Sys.freed, hd])

end CpuEffect

theorem Section.cpuEffect (h : Inv s) (hr : s.cpu c = .run r)
    (hs : Section s c r a s') (hp : s'.panicked = none) (d : Cpu) :
    CpuEffect s a s' d := by
  have hpr := h.present_of_run hr
  have hact : s.acting (.run c) = some r := Sys.acting_run hr
  cases hs with
  | halt hn _ => exact absurd hp hn
  | sleep => exact .of_sleep hr rfl d
  | mutexLockSleep =>
      rw [Sys.mutexLockSleep]
      exact .of_sleep hr (by rfl) d
  | yield =>
      rw [Sys.yield_eq]
      exact .of_leave hr rfl (by decide) d
  | beginOp _ _ hw =>
      rw [Sys.beginOp, if_neg (by simp [hw])]
      exact .keep rfl
  | endOp _ _ _ hc =>
      rw [Sys.endOp, if_neg (by simp [hc])]
      simp only
      split <;> exact .keep rfl
  | exit =>
      rw [Sys.exit]
      exact .of_exitLoop hr (by rfl) d
  | exitWait => exact .of_exitLoop hr rfl d
  | exitFinal =>
      rw [Sys.exitFinal_eq]
      exact .of_leave hr (Soft.exitWake r.1).cpu (by decide) d
  | kthreadExit =>
      unfold Sys.kthreadExit
      simp only
      split <;> exact .keep rfl
  | kthreadExitSched _ _ hs =>
      rw [Sys.kthreadExitSched_eq s c r hs]
      exact .of_leave hr rfl (by decide) d
  | createStack ok | forkStack ok => cases ok <;> exact .keep rfl
  | @kill pid p =>
      exact .keep (congrFun ((Soft.killed (s := s) p).trans (Soft.killWake p)).cpu d)
  | forkThread =>
      unfold Sys.forkThread
      split <;> exact .keep rfl
  | mutexDeallocLocked _ hi =>
      rw [Sys.mutexDeallocLocked, if_neg (by simp [hi])]
      exact .keep rfl
  | @join u hpc _ hz =>
      exact .of_freed r.1 (· = u) Thread.cleared
        (fun y hy => .inl ⟨r, hact, Sys.reaps_of_join hpc hz hy⟩) d rfl
  | @wait q hpc _ hq =>
      exact .of_freed q (fun t => (s.thread (q, t)).state ≠ .UNUSED) Thread.cleared
        (fun y hy => .inl ⟨r, hact, Sys.reaps_of_wait hpc hq hy⟩) d rfl
  | execWait hpc _ =>
      exact .of_freed r.1 (fun t => t ≠ r.2 ∧ (s.thread (r.1, t)).state = .ZOMBIE)
        Thread.reaped (fun y hy => .inl ⟨r, hact, Sys.reaps_of_exec hpc hy⟩) d rfl
  | @forkUncopied _ q hpc =>
      have hfact := h.slot.fact hpr
      rw [hpc] at hfact
      refine .of_freed q (· = 0) Thread.uncopied (fun y hy => .inr ?_) d rfl
      obtain rfl : y = (q, 0) := Prod.ext hy.1 hy.2
      exact hfact.2.2.1
  | _ => exact .keep rfl

/-- CPU `d` executes a thread of process `p`, on its stack or on what is left
of it. -/
def Sys.Executes (s : Sys Cpu) (d : Cpu) (p : ProcId) : Prop :=
  ∃ x : ThreadPtr, x.1 = p ∧ (s.cpu d = .run x ∨ s.cpu d = .junk x)

/-- A CPU leaves a process by taking `RUNNING` from it. -/
theorem Change.executes (h : Inv s) (hc : Change s a s') (hp : s'.panicked = none)
    {p : ProcId} {d : Cpu} (hd : s.Executes d p)
    (hs : (s'.proc p).state = .RUNNING) : s'.Executes d p := by
  obtain ⟨x, rfl, hx⟩ := hd
  have hkeep : s'.cpu d = s.cpu d → s'.Executes d x.1 := by
    intro e
    exact ⟨x, rfl, by rwa [e]⟩
  cases hc with
  | wakeup n _ => exact hkeep rfl
  | @sched c hc =>
      apply hkeep
      have hdc : d ≠ c := by
        rintro rfl
        rcases hc with ⟨e, _⟩ | ⟨⟨_, _, e⟩, _⟩ <;> rw [e] at hx <;> simp at hx
      unfold Sys.scheduler
      split
      · exact Sys.dispatch_cpu_ne hdc
      · exact s.setCpu_ne c .idle hdc
  | run hr hsec =>
      cases hsec.cpuEffect h hr hp d with
      | keep e => exact hkeep e
      | @scan y _ _ hy _ hne =>
          rw [hy] at hx
          rcases hx with e | e
          · exact absurd (CpuState.run.inj e ▸ hs) hne
          · cases e
      | @freed y hy e _ =>
          rw [hy] at hx
          rcases hx with e' | e'
          · exact ⟨y, by rw [CpuState.run.inj e'], .inr e⟩
          · cases e'
  | junk _ => cases hp

end Xv6.Kernel
