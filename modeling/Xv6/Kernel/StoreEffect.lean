import Xv6.Kernel.ProcEffect

/-!
# What a section does to the log, the sleeplocks and `nextpid`

`Section.store` lists the sections of the acting thread that change one of the
three, together with what they do to the history variables `inop` and `locks`
of that thread. `Passive.holdings` says that no other thread's are touched.
-/

set_option linter.unusedSectionVars false

namespace Xv6.Kernel

open Xv6.Fs (Log)

variable {Cpu : Type} [DecidableEq Cpu] {s s' : Sys Cpu} {a : Act Cpu} {c : Cpu}
  {r x : ThreadPtr}

/-- The transaction and the sleeplocks that a thread is in. -/
def Thread.held (t : Thread) : Bool × List ℕ := (t.inop, t.locks)

/-- What a section of thread `r` does to the log, the sleeplocks and
`nextpid`. -/
inductive StoreEffect (s : Sys Cpu) (r : ThreadPtr) (s' : Sys Cpu) : Prop
  | keep (hl : s'.log = s.log) (hk : s'.sleeplock = s.sleeplock)
      (hn : s'.nextpid = s.nextpid) (hh : (s'.thread r).held = (s.thread r).held)
  | claim (hl : s'.log = s.log) (hk : s'.sleeplock = s.sleeplock)
      (hn : s'.nextpid = s.nextpid + 1)
      (hh : (s'.thread r).held = (s.thread r).held)
  -- the log
  | record (b : ℕ) (hi : (s.thread r).inop = true)
      (hb : s.log.tooBig Sys.nlog = false) (hl : s'.log = s.log.record b)
      (hk : s'.sleeplock = s.sleeplock) (hn : s'.nextpid = s.nextpid)
      (hh : (s'.thread r).held = (s.thread r).held)
  | beginOp {k : After} (hpc : (s.thread r).pc = .beginOp k)
      (hw : s.log.mustWait = false) (hl : s'.log = s.log.enter)
      (hk : s'.sleeplock = s.sleeplock) (hn : s'.nextpid = s.nextpid)
      (hh : (s'.thread r).held = (true, (s.thread r).locks))
  | endOp {k : After} (hpc : (s.thread r).pc = .kern k)
      (hi : (s.thread r).inop = true) (hc : s.log.committing = false)
      (hl : s'.log = s.log.leave) (hk : s'.sleeplock = s.sleeplock)
      (hn : s'.nextpid = s.nextpid)
      (hh : (s'.thread r).held = (false, (s.thread r).locks))
  | commit {k : After} (hpc : (s.thread r).pc = .kern (.commit k))
      (hl : s'.log = s.log.committed) (hk : s'.sleeplock = s.sleeplock)
      (hn : s'.nextpid = s.nextpid) (hh : (s'.thread r).held = (s.thread r).held)
  -- the sleeplocks
  | take {l : ℕ} {k : After} (hpc : (s.thread r).pc = .acquiresleep l k)
      (hf : (s.sleeplock l).locked = false) (hl : s'.log = s.log)
      (hk : s'.sleeplock = Function.update s.sleeplock l ⟨true, (s.proc r.1).pid⟩)
      (hn : s'.nextpid = s.nextpid)
      (hh : (s'.thread r).held = ((s.thread r).inop, l :: (s.thread r).locks))
  | release {l : ℕ} {k : After} (hpc : (s.thread r).pc = .kern k)
      (hm : l ∈ (s.thread r).locks) (hl : s'.log = s.log)
      (hk : s'.sleeplock = Function.update s.sleeplock l ⟨false, 0⟩)
      (hn : s'.nextpid = s.nextpid)
      (hh : (s'.thread r).held =
        ((s.thread r).inop, (s.thread r).locks.erase l))

theorem Sys.goto_held (s : Sys Cpu) (r : ThreadPtr) (pc : Pc) :
    ((s.goto r pc).thread r).held = (s.thread r).held := by
  rw [goto_self]
  rfl

theorem Sys.setThread_held (s : Sys Cpu) (r : ThreadPtr) (f : Thread → Thread) :
    ((s.setThread r f).thread r).held = (f (s.thread r)).held :=
  congrArg Thread.held (s.setThread_self r f)

theorem Sys.wakeup1_held (ch : Chan) (x : ThreadPtr) :
    ((s.wakeup1 ch).thread x).held = (s.thread x).held := by
  rcases s.wakeup1_thread ch x with e | ⟨_, _, e, _⟩ <;> rw [e]
  rfl

namespace StoreEffect

/-- A section that changes nothing but its own thread's program point after
steps that keep the three. -/
theorem of_goto {s₁ : Sys Cpu} {pc : Pc} (hl : s₁.log = s.log)
    (hk : s₁.sleeplock = s.sleeplock) (hn : s₁.nextpid = s.nextpid)
    (hh : (s₁.thread r).held = (s.thread r).held) :
    StoreEffect s r (s₁.goto r pc) :=
  .keep hl hk hn (by rw [Sys.goto_self]; exact hh)

theorem of_leave {s₁ : Sys Cpu} {pst st : States} {ch : Chan} {pc : Pc}
    {k : Resume} (hl : s₁.log = s.log) (hk : s₁.sleeplock = s.sleeplock)
    (hn : s₁.nextpid = s.nextpid) (hh : (s₁.thread r).held = (s.thread r).held) :
    StoreEffect s r (s₁.leave c r pst st ch pc k) :=
  .keep hl hk hn (by rw [Sys.leave_thread_self]; exact hh)

theorem of_sleep {s₁ : Sys Cpu} {ch : Chan} {pc : Pc} {k : Resume}
    (hl : s₁.log = s.log) (hk : s₁.sleeplock = s.sleeplock)
    (hn : s₁.nextpid = s.nextpid) (hh : (s₁.thread r).held = (s.thread r).held) :
    StoreEffect s r (s₁.sleep c r ch k pc) := by
  rw [Sys.sleep_eq]
  exact .of_leave hl hk hn hh

theorem of_exitLoop {s₁ : Sys Cpu} {k : ℕ} (hl : s₁.log = s.log)
    (hk : s₁.sleeplock = s.sleeplock) (hn : s₁.nextpid = s.nextpid)
    (hh : (s₁.thread r).held = (s.thread r).held) :
    StoreEffect s r (s₁.exitLoop c r k) := by
  unfold Sys.exitLoop
  split
  · exact .of_sleep hl hk hn hh
  · exact .keep hl hk hn ((s₁.goto_held r .exitClose).trans hh)

theorem of_freed (p : ProcId) (F : Slot → Prop) [DecidablePred F]
    (f : Thread → Thread) (pc : Pc) (hf : ∀ t : Thread, (f t).held = t.held)
    (hl : s'.log = s.log) (hk : s'.sleeplock = s.sleeplock)
    (hn : s'.nextpid = s.nextpid)
    (e : s'.thread r = ((s.freed p F f).goto r pc).thread r) :
    StoreEffect s r s' := by
  refine .keep hl hk hn ?_
  rw [e, Sys.goto_held]
  by_cases hF : r.1 = p ∧ F r.2
  · rw [Sys.freed_of s p F f hF]
    exact hf (s.thread r)
  · rw [Sys.freed_of_not s p F f hF]

end StoreEffect

/-- `exit`'s last wake-ups. -/
theorem Sys.exitWake_store (p : ProcId) : (s.exitWake p).log = s.log ∧
    (s.exitWake p).sleeplock = s.sleeplock ∧ (s.exitWake p).nextpid = s.nextpid := by
  unfold Sys.exitWake Sys.reparent
  split <;> exact ⟨rfl, rfl, rfl⟩

theorem Sys.killWake_store (p : ProcId) : (s.killWake p).log = s.log ∧
    (s.killWake p).sleeplock = s.sleeplock ∧ (s.killWake p).nextpid = s.nextpid := by
  unfold Sys.killWake
  split
  · split <;> exact ⟨rfl, rfl, rfl⟩
  · exact ⟨rfl, rfl, rfl⟩

theorem Section.store (h : Inv s) (hr : s.cpu c = .run r)
    (hs : Section s c r a s') (hp : s'.panicked = none) : StoreEffect s r s' := by
  have hpr := h.present_of_run hr
  have hnsl : (s.thread r).state ≠ .SLEEPING := by
    rcases h.cpu.state hr with e | ⟨e, _⟩ <;> simp [e]
  have hne : ∀ y, (s.thread y).state = .UNUSED ∨ (s.thread y).state = .EMBRYO →
      r ≠ y := by
    rintro y hy rfl
    rcases h.cpu.state hr with e | ⟨e, _⟩ <;> simp [e] at hy
  cases hs with
  | halt hn => exact absurd hp hn
  | move | fault | ret | moveMt | refuseMt | mutexEnter | mutexLockWoken
  | mutexAlloc | mutexAllocMid | mutexDeallocClear | forkFail | forkCopied
  | forkRunnable | execClear | exitFile | exitClose =>
      exact .keep rfl rfl rfl (s.goto_held r _)
  | setFile => exact .keep rfl rfl rfl rfl
  | sleep | mutexLockSleep => exact .of_sleep rfl rfl rfl rfl
  | yield =>
      rw [Sys.yield_eq]
      exact .of_leave rfl rfl rfl rfl
  | wakeup n => exact .keep rfl rfl rfl (Sys.wakeup1_held _ r)
  | logWrite b _ hi hb => exact .record b hi hb rfl rfl rfl rfl
  | beginOp hpc _ hw =>
      rw [Sys.beginOp, if_neg (by simp [hw])]
      exact .beginOp hpc hw rfl rfl rfl (s.setThread_held r fun t =>
        { t with pc := .kern _, inop := true })
  | @endOp _ k hpc _ hi hc =>
      rw [Sys.endOp, if_neg (by simp [hc])]
      simp only
      split
      · refine .endOp hpc hi hc rfl rfl rfl ?_
        rw [Sys.goto_self]
        exact s.setThread_held r fun t => { t with inop := false }
      · refine .endOp hpc hi hc rfl rfl rfl ?_
        rw [Sys.wakeup1_held]
        exact s.setThread_held r fun t => { t with inop := false }
  | endCommit hpc =>
      refine .commit hpc rfl rfl rfl ?_
      rw [Sys.endCommit, Sys.goto_self]
      exact Sys.wakeup1_held .log r
  | @takeSleep _ l k hpc hf =>
      exact .take hpc hf rfl rfl rfl (s.setThread_held r fun t =>
        { t with pc := .kern k, locks := l :: t.locks })
  | releasesleep l hpc _ hm =>
      refine .release hpc hm rfl rfl rfl ?_
      rw [Sys.releasesleep, Sys.wakeup1_held]
      exact s.setThread_held r fun t => { t with locks := t.locks.erase l }
  | exit =>
      have hheld : ((s.exitMark r).thread r).held = (s.thread r).held :=
        congrArg Thread.held Sys.exitMark_self
      exact .of_exitLoop rfl rfl rfl hheld
  | exitWait => exact .of_exitLoop rfl rfl rfl rfl
  | exitFinal =>
      rw [Sys.exitFinal_eq]
      obtain ⟨hl, hk, hn⟩ := s.exitWake_store r.1
      exact .of_leave hl hk hn (congrArg Thread.held (Sys.exitWake_awake hnsl))
  | kthreadExit =>
      unfold Sys.kthreadExit
      simp only
      split
      · exact .of_goto rfl rfl rfl (Sys.wakeup1_held _ r)
      · refine .keep rfl rfl rfl ?_
        rw [Sys.setThread_self]
        exact Sys.wakeup1_held (.thread r) r
  | kthreadExitSched _ _ hs =>
      rw [Sys.kthreadExitSched_eq s c r hs]
      exact .of_leave rfl rfl rfl rfl
  | @join u =>
      exact .of_freed r.1 (· = u) Thread.cleared _ (fun _ => rfl) rfl rfl rfl rfl
  | @wait q =>
      exact .of_freed q (fun t => (s.thread (q, t)).state ≠ .UNUSED) Thread.cleared
        _ (fun _ => rfl) rfl rfl rfl rfl
  | execWait =>
      exact .of_freed r.1 (fun t => t ≠ r.2 ∧ (s.thread (r.1, t)).state = .ZOMBIE)
        Thread.reaped _ (fun _ => rfl) rfl rfl rfl rfl
  | create _ _ hu =>
      exact .of_goto rfl rfl rfl (congrArg Thread.held
        (s.setThread_ne _ _ (hne _ (.inl (s.unusedSlot_some hu)))))
  | createStack ok hpc =>
      have hE := hne _ (.inr (h.embryo_of_creates hpr (by rw [hpc]; rfl)))
      cases ok <;>
        exact .of_goto rfl rfl rfl (congrArg Thread.held (s.setThread_ne _ _ hE))
  | createPublish hpc =>
      have hE := hne _ (.inr (h.embryo_of_creates hpr (by rw [hpc]; rfl)))
      exact .of_goto rfl rfl rfl (congrArg Thread.held (s.setThread_ne _ _ hE))
  | @kill pid p =>
      obtain ⟨hl, hk, hn⟩ := (s.setProc p fun x =>
        { x with killed := true }).killWake_store p
      exact .keep hl hk hn ((Sys.goto_held _ r (.sysret 0)).trans
        (congrArg Thread.held (Sys.killWake_awake hnsl)))
  | execKill =>
      exact .of_goto rfl rfl rfl (congrArg Thread.held (Sys.execMark_self hnsl))
  | forkClaim => exact .claim rfl rfl rfl (s.goto_held r _)
  | forkThread =>
      unfold Sys.forkThread
      split
      case h_1 u hu =>
        exact .of_goto rfl rfl rfl (congrArg Thread.held
          (s.setThread_ne _ _ (hne _ (.inl (s.unusedSlot_some hu)))))
      case h_2 => exact .of_goto rfl rfl rfl rfl
  | forkStack ok hpc =>
      have hfact := h.slot.fact hpr
      rw [hpc] at hfact
      have hE := hne _ (.inr hfact.2.2.1)
      cases ok <;>
        exact .of_goto rfl rfl rfl (congrArg Thread.held (s.setThread_ne _ _ hE))
  | @forkUncopied _ q =>
      exact .of_freed q (· = 0) Thread.uncopied _ (fun _ => rfl) rfl rfl rfl rfl
  | forkThreadRunnable hpc =>
      have hfact := h.slot.fact hpr
      rw [hpc] at hfact
      have hE := hne _ (.inr hfact.2.2.1)
      exact .of_goto rfl rfl rfl (congrArg Thread.held (s.setThread_ne _ _ hE))
  | mutexDeallocLocked _ hi =>
      rw [Sys.mutexDeallocLocked, if_neg (by simp [hi])]
      exact .of_goto rfl rfl rfl rfl
  | @mutexLockBlock _ i =>
      exact .keep rfl rfl rfl (s.setThread_held r fun t =>
        { t with blocked := true, pc := .mutexLockSleep i })
  | @mutexLockTake _ i =>
      exact .keep rfl rfl rfl (s.setThread_held r fun t =>
        { t with pc := .sysret 0, holds := insert i t.holds })
  | @mutexUnlockFree _ i =>
      exact .keep rfl rfl rfl (s.setThread_held r fun t =>
        { t with pc := .sysret 0, holds := t.holds.erase i })
  | @handOff i u _ _ hu =>
      have hur : r ≠ (r.1, u) := fun e =>
        (Sys.waiter_some hu).1 (congrArg Prod.snd e).symm
      refine .keep rfl rfl rfl ?_
      simp [Sys.handOff, Sys.releaseMt, Sys.setThread, Function.update_of_ne hur,
        Thread.held]

/-- Threads that do not act keep what they hold; a slot that is filled starts
with nothing. -/
theorem Passive.holdings (hx : Passive s a s' x) :
    (s'.thread x).held = (s.thread x).held ∨
      (s.thread x).state = .UNUSED ∧ (s'.thread x).held = (false, []) := by
  cases hx with
  | create _ _ hs e | fork _ _ hs e => exact .inr ⟨hs, by rw [e]; rfl⟩
  | reap _ _ _ _ hi hl => exact .inl (Prod.ext hi hl)
  | keep _ e | wake _ _ _ _ _ e | killWake _ _ _ e | execWake _ _ _ e
  | mark _ _ _ e | stack _ e | drop _ _ e | publish _ e | handOff _ _ _ e
  | dispatch _ _ e => exact .inl (by rw [e]; rfl)

/-- `nextpid` only grows. -/
theorem Change.nextpid_le (h : Inv s) (hc : Change s a s')
    (hp : s'.panicked = none) : s.nextpid ≤ s'.nextpid := by
  cases hc with
  | wakeup => exact le_refl _
  | sched =>
      unfold Sys.scheduler
      split <;> exact le_refl _
  | run hr hs =>
      cases hs.store h hr hp with
      | claim _ _ hn => omega
      | keep _ _ hn | record _ _ _ _ _ hn | beginOp _ _ _ _ hn | endOp _ _ _ _ _ hn
      | commit _ _ _ hn | take _ _ _ _ hn | release _ _ _ _ hn => exact hn.ge
  | junk => cases hp

end Xv6.Kernel
