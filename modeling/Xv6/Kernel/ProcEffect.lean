import Xv6.Kernel.Effect

/-!
# What a step does to one process

`Change.procEffect` is the counterpart of `Change.effect` for a slot of the
process table: which steps change the state of a process, its `mid[]` and the
record of the thread that tears it down. `Change.dataEffect` says the same of
the `killed` flag and the open files.
-/

set_option linter.unusedSectionVars false

namespace Xv6.Kernel

variable {Cpu : Type} [DecidableEq Cpu] {s s' : Sys Cpu} {a : Act Cpu} {c : Cpu}
  {r : ThreadPtr} {p : ProcId}

/-- The section of `r` clears `mid[]` of process `p`: `wait` for a dead child,
or the last section of `kill_threads`. -/
def Sys.Clears (s : Sys Cpu) (r : ThreadPtr) (p : ProcId) : Prop :=
  match (s.thread r).pc with
  | .wait | .waitLoop => s.deadChild r.1 = some p
  | .execClear => p = r.1
  | _ => False

instance (s : Sys Cpu) (r : ThreadPtr) (p : ProcId) :
    Decidable (s.Clears r p) :=
  decidable_of_iff (((s.thread r).pc = .wait ∨ (s.thread r).pc = .waitLoop) ∧
      s.deadChild r.1 = some p ∨ (s.thread r).pc = .execClear ∧ p = r.1) (by
    unfold Sys.Clears
    split <;> simp_all)

/-- The section of `r` is a `wait` that finds the child `p` dead. -/
def Sys.Waited (s : Sys Cpu) (r : ThreadPtr) (p : ProcId) : Prop :=
  ((s.thread r).pc = .wait ∨ (s.thread r).pc = .waitLoop) ∧
    s.deadChild r.1 = some p

theorem Sys.Waited.clears (h : s.Waited r p) : s.Clears r p := by
  unfold Sys.Clears
  rcases h with ⟨hpc | hpc, hd⟩ <;> simpa only [hpc] using hd

/-- `kthread_join` and `kill_threads` reap zombies; `wait` reaps what it finds. -/
theorem Sys.Reaps.zombie_or_waited {x : ThreadPtr} (h : s.Reaps r x) :
    (s.thread x).state = .ZOMBIE ∨ s.Waited r x.1 := by
  unfold Sys.Reaps at h
  split at h
  case h_1 | h_2 => exact .inl h.2
  case h_3 hpc => exact .inr ⟨.inl hpc, h.1⟩
  case h_4 hpc => exact .inr ⟨.inr hpc, h.1⟩
  case h_5 => exact .inl h.2.2
  case h_6 => exact h.elim

/-- Nothing but the state, `parent`, `killed` and the open files changes. -/
structure Proc.Rest (y y' : Proc) : Prop where
  mid : y'.mid = y.mid
  exiting : y'.exiting = y.exiting
  pid : y'.pid = y.pid

/-- What a step does to a process. -/
inductive ProcEffect (s : Sys Cpu) (a : Act Cpu) (s' : Sys Cpu) (p : ProcId) :
    Prop
  | keep (hs : (s'.proc p).state = (s.proc p).state)
      (hk : (s.proc p).Rest (s'.proc p))
  | wake {t : Slot} (h : (s.thread (p, t)).state = .SLEEPING)
      (ha : (s.proc p).state.wakeable = true)
      (hs : (s'.proc p).state = .RUNNABLE) (hk : (s.proc p).Rest (s'.proc p))
      (ht : (s'.thread (p, t)).state = .RUNNABLE)
  | killWake (h : (s.proc p).state = .SLEEPING)
      (hs : (s'.proc p).state = .RUNNABLE) (hk : (s.proc p).Rest (s'.proc p))
      (ht : (∃ t, (s'.thread (p, t)).state = .RUNNABLE) ∨
        ∀ t, (s.thread (p, t)).state ≠ .SLEEPING)
  | leave {c : Cpu} {r : ThreadPtr} (hr : s.cpu c = .run r) (hp : r.1 = p)
      (hs : (s'.proc p).state = .RUNNABLE ∨ (s'.proc p).state = .SLEEPING)
      (hk : (s.proc p).Rest (s'.proc p))
      -- `sleep` leaves the process `SLEEPING` only when nobody else is active
      (hi : (s'.proc p).state = .SLEEPING →
        ∀ t, (s'.thread (p, t)).state.active = false)
      -- `kthread_exit` makes it `RUNNABLE` without looking
      (hb : (s'.proc p).state = .RUNNABLE →
        (∃ t, (s'.thread (p, t)).state.active = true) ∨
        (s.thread r).pc = .kthreadExitSched ∧ s.acting a = some r ∧
          ∀ y, y ≠ r → s'.thread y = s.thread y)
  | final {c : Cpu} {r : ThreadPtr} (hr : s.cpu c = .run r)
      (ha : s.acting a = some r) (hp : r.1 = p)
      (hpc : (s.thread r).pc = .exitFinal) (hs : (s'.proc p).state = .ZOMBIE)
      (hk : (s.proc p).Rest (s'.proc p)) (he : (s'.thread r).Ended)
  | dispatch {t : Slot} (h : (s.thread (p, t)).state = .RUNNABLE)
      (hs : (s'.proc p).state = .RUNNING) (hk : (s.proc p).Rest (s'.proc p))
      (ht : (s'.thread (p, t)).state = .RUNNING)
      (hd : ∃ c, s'.cpu c = .run (p, t) ∨ s'.cpu c = .junk (p, t))
      (hl : (s.proc p).Alive)
  | vacate {r : ThreadPtr} (ha : s.acting a = some r) (hw : s.Waited r p)
      (e : s'.proc p = (s.proc p).vacated)
  | claim {r : ThreadPtr} (ha : s.acting a = some r)
      (hpc : (s.thread r).pc = .forkClaim p) (hs : (s'.proc p).state = .EMBRYO)
      (hm : (s'.proc p).mid = fun _ => false)
      (he : (s'.proc p).exiting = (s.proc p).exiting)
      (hpid : (s'.proc p).pid = s.nextpid) (hn : s'.nextpid = s.nextpid + 1)
  | unclaim (h : (s.proc p).state = .EMBRYO) (hs : (s'.proc p).state = .UNUSED)
      (hk : (s.proc p).Rest (s'.proc p))
      (hr : ∃ c r, s.cpu c = .run r ∧
        ((s.thread r).pc = .forkFail p ∨ (s.thread r).pc = .forkCopy p))
  | publish (h : (s.proc p).state = .EMBRYO)
      (hs : (s'.proc p).state = .RUNNABLE) (hk : (s.proc p).Rest (s'.proc p))
      (hr : ∃ r pid, s.acting a = some r ∧ (s.thread r).pc = .forkRunnable p pid ∧
        (s'.thread r).pc = .sysret pid)
  | setMid {c : Cpu} {r : ThreadPtr} {i : MutexId} {b : Bool}
      (hr : s.cpu c = .run r) (hp : r.1 = p)
      (hpc : (s.thread r).pc = .mutexAllocMid i ∧ b = true ∨
        (s.thread r).pc = .mutexDeallocClear i ∧ b = false)
      (hs : (s'.proc p).state = (s.proc p).state)
      (hm : (s'.proc p).mid = Function.update (s.proc p).mid i b)
      (he : (s'.proc p).exiting = (s.proc p).exiting)
      (hpid : (s'.proc p).pid = (s.proc p).pid)
  | clear {c : Cpu} {r : ThreadPtr} (hr : s.cpu c = .run r)
      (ha : s.acting a = some r) (hp : r.1 = p)
      (hpc : (s.thread r).pc = .execClear)
      (hs : (s'.proc p).state = (s.proc p).state)
      (hm : (s'.proc p).mid = fun _ => false)
      (he : (s'.proc p).exiting = (s.proc p).exiting)
      (hpid : (s'.proc p).pid = (s.proc p).pid)
  | exits {c : Cpu} {r : ThreadPtr} (hr : s.cpu c = .run r) (hp : r.1 = p)
      (h : LeavesLoop s s' r) (hs : (s'.proc p).state = (s.proc p).state)
      (hm : (s'.proc p).mid = (s.proc p).mid)
      (hpid : (s'.proc p).pid = (s.proc p).pid)

/-! ## §1  Sections -/

namespace ProcEffect

theorem same (e : s'.proc p = s.proc p) : ProcEffect s a s' p :=
  .keep (by rw [e]) ⟨by rw [e], by rw [e], by rw [e]⟩

/-- One process changes, the others do not. -/
theorem of_setProc (q : ProcId) (f : Proc → Proc) (e : s'.proc p = (s.setProc q f).proc p)
    (hq : p = q → s'.proc p = f (s.proc p) → ProcEffect s a s' p) :
    ProcEffect s a s' p := by
  by_cases hp : p = q
  · subst hp
    exact hq rfl (e.trans (s.setProc_self p f))
  · exact .same (e.trans (s.setProc_ne q f hp))

theorem of_leave {s₁ : Sys Cpu} {pst st : States} {ch : Chan} {pc : Pc}
    {k : Resume} (hr : s.cpu c = .run r)
    (hpst : pst = .RUNNABLE ∨ pst = .SLEEPING) (h₁ : s₁.proc = s.proc)
    (hi : pst = .SLEEPING → st.active = false ∧ ¬ s₁.siblingActive r)
    (hb : pst = .RUNNABLE → st = .RUNNABLE ∨ s₁.siblingActive r ∨
      (s.thread r).pc = .kthreadExitSched ∧ s.acting a = some r ∧
        s₁.thread = s.thread) :
    ProcEffect s a (s₁.leave c r pst st ch pc k) p := by
  by_cases hp : r.1 = p
  · subst hp
    have e := s₁.leave_proc_self c r pst st ch pc k
    rw [h₁] at e
    refine .leave hr rfl (by rw [e]; exact hpst)
      ⟨by rw [e], by rw [e], by rw [e]⟩ (fun hsl t => ?_) fun hrun => ?_
    · rw [e] at hsl
      obtain ⟨hst, hsib⟩ := hi hsl
      by_cases ht : (r.1, t) = r
      · rw [ht, Sys.leave_thread_self]
        exact hst
      · rw [Sys.leave_thread_ne _ _ _ _ _ _ _ _ ht]
        refine Bool.eq_false_iff.mpr fun ha => hsib ⟨t, ?_, ha⟩
        exact fun e => ht (Prod.ext rfl e)
    · rw [e] at hrun
      rcases hb hrun with rfl | ⟨t, ht, ha⟩ | ⟨hpc, ha, ho⟩
      · refine .inl ⟨r.2, ?_⟩
        rw [show (r.1, r.2) = r from rfl, Sys.leave_thread_self]
        rfl
      · refine .inl ⟨t, ?_⟩
        rwa [Sys.leave_thread_ne _ _ _ _ _ _ _ _
          fun e => ht (congrArg Prod.snd e)]
      · refine .inr ⟨hpc, ha, fun y hy => ?_⟩
        rw [Sys.leave_thread_ne _ _ _ _ _ _ _ _ hy, ho]
  · have e := s₁.leave_proc_ne c r pst st ch pc k (Ne.symm hp)
    rw [h₁] at e
    exact .same e

theorem of_sleep {s₁ : Sys Cpu} {ch : Chan} {pc : Pc} {k : Resume}
    (hr : s.cpu c = .run r) (h₁ : s₁.proc = s.proc) :
    ProcEffect s a (s₁.sleep c r ch k pc) p := by
  rw [Sys.sleep_eq]
  by_cases hsib : s₁.siblingActive r
  · rw [if_pos hsib]
    exact .of_leave hr (.inl rfl) h₁ nofun fun _ => .inr (.inl hsib)
  · rw [if_neg hsib]
    exact .of_leave hr (.inr rfl) h₁ (fun _ => ⟨rfl, hsib⟩) nofun

theorem of_exitLoop {s₁ : Sys Cpu} {k : ℕ} (hr : s.cpu c = .run r)
    (hl : s₁.exitNext r k = none → LeavesLoop s (s₁.exitLoop c r k) r)
    (h₁ : s₁.proc = s.proc) : ProcEffect s a (s₁.exitLoop c r k) p := by
  cases hn : s₁.exitNext r k with
  | some u =>
      rw [Sys.exitLoop, hn]
      exact .of_sleep hr h₁
  | none =>
      replace hl := hl hn
      have hproc : (s₁.exitLoop c r k).proc =
          (s₁.setProc r.1 fun x => { x with exiting := some r.2 }).proc := by
        rw [Sys.exitLoop, hn]
        rfl
      by_cases hp : r.1 = p
      · subst hp
        have e := s₁.setProc_self r.1 fun x => { x with exiting := some r.2 }
        rw [h₁, ← hproc] at e
        exact .exits hr rfl hl (by rw [e]) (by rw [e]) (by rw [e])
      · refine .same ?_
        rw [hproc, ← h₁]
        exact s₁.setProc_ne r.1 (fun x => { x with exiting := some r.2 }) (Ne.symm hp)

end ProcEffect

/-- A process is woken, or keeps its state. -/
def Sys.Woken (s s' : Sys Cpu) (p : ProcId) : Prop :=
  (s.proc p).Rest (s'.proc p) ∧
    (∀ t, (s'.thread (p, t)).state = .SLEEPING →
      (s.thread (p, t)).state = .SLEEPING) ∧
    ((s'.proc p).state = (s.proc p).state ∨ (s'.proc p).state = .RUNNABLE ∧
      (s.proc p).state.wakeable = true ∧ ∃ t, (s.thread (p, t)).state = .SLEEPING ∧
        (s'.thread (p, t)).state = .RUNNABLE)

theorem Sys.Woken.wakeup1 {s₁ : Sys Cpu} (h : s.Woken s₁ p) (ch : Chan) :
    s.Woken (s₁.wakeup1 ch) p := by
  obtain ⟨hk, ht, hs⟩ := h
  have ht' : ∀ t, ((s₁.wakeup1 ch).thread (p, t)).state = .SLEEPING →
      (s.thread (p, t)).state = .SLEEPING := by
    intro t hst
    rcases s₁.wakeup1_thread ch (p, t) with e | ⟨_, _, e, _⟩
    · exact ht t (e ▸ hst)
    · rw [e] at hst
      cases hst
  by_cases hw : ∃ t, s₁.wakes ch (p, t) = true
  · have e : (s₁.wakeup1 ch).proc p = { s₁.proc p with state := .RUNNABLE } :=
      if_pos hw
    obtain ⟨t, hw⟩ := hw
    obtain ⟨ha, hsl, _⟩ := Sys.wakes_iff.mp hw
    have hrun : ((s₁.wakeup1 ch).thread (p, t)).state = .RUNNABLE :=
      congrArg Thread.state (if_pos hw)
    refine ⟨⟨by rw [e]; exact hk.mid, by rw [e]; exact hk.exiting,
        by rw [e]; exact hk.pid⟩, ht',
      .inr ⟨by rw [e], ?_, t, ht t hsl, hrun⟩⟩
    rcases hs with hs | ⟨_, hs, _⟩
    · exact hs ▸ ha
    · exact hs
  · have e : (s₁.wakeup1 ch).proc p = s₁.proc p := if_neg hw
    refine ⟨by rw [e]; exact hk, ht', ?_⟩
    rw [e]
    refine hs.imp_right fun ⟨hr, ha, t, hsl, hrun⟩ => ⟨hr, ha, t, hsl, ?_⟩
    rwa [Sys.wakeup1_awake (by rw [hrun]; nofun)]

theorem Sys.Woken.exitWake (s : Sys Cpu) (q p : ProcId) :
    s.Woken (s.exitWake q) p := by
  have hadopt : s.Woken (s.adopt q) p := by
    refine ⟨?_, fun _ => id, .inl ?_⟩
    · simp only [Sys.adopt]
      split <;> exact ⟨rfl, rfl, rfl⟩
    · simp only [Sys.adopt]
      split <;> rfl
  refine Sys.Woken.wakeup1 ?_ _
  unfold Sys.reparent
  split
  · exact hadopt.wakeup1 _
  · exact hadopt

theorem Sys.Woken.of_state {s₁ : Sys Cpu} (hp : s₁.proc = s.proc)
    (ht : ∀ x, (s₁.thread x).state = (s.thread x).state) : s.Woken s₁ p := by
  refine ⟨⟨by rw [hp], by rw [hp], by rw [hp]⟩, fun t e => ?_, .inl (by rw [hp])⟩
  rwa [ht] at e

theorem Sys.Woken.effect {s₁ : Sys Cpu} (h : s.Woken s₁ p)
    (e : s'.proc p = s₁.proc p)
    (et : ∀ t, (s.thread (p, t)).state = .SLEEPING →
      (s'.thread (p, t)).state = (s₁.thread (p, t)).state) :
    ProcEffect s a s' p := by
  obtain ⟨hk, _, hs⟩ := h
  rw [← e] at hk hs
  rcases hs with hs | ⟨hs, ha, t, ht, hrun⟩
  · exact .keep hs hk
  · exact .wake ht ha hs hk ((et t ht).trans hrun)

theorem ProcEffect.of_wakeup1 (ch : Chan) (e : s'.proc p = (s.wakeup1 ch).proc p)
    (et : ∀ t, (s.thread (p, t)).state = .SLEEPING →
      (s'.thread (p, t)).state = ((s.wakeup1 ch).thread (p, t)).state) :
    ProcEffect s a s' p :=
  ((Sys.Woken.of_state rfl fun _ => rfl).wakeup1 ch).effect e et

/-- A wake-up after a change of the acting thread's history variables. -/
theorem ProcEffect.of_history {f : Thread → Thread} {l : Fs.Log}
    {m : ℕ → SleepLock} (ch : Chan) (hf : ∀ t : Thread, (f t).state = t.state) :
    ProcEffect s a
      (({ s.setThread r f with log := l, sleeplock := m } : Sys Cpu).wakeup1 ch) p := by
  have hw : s.Woken { s.setThread r f with log := l, sleeplock := m } p := by
    refine .of_state rfl fun x => ?_
    by_cases hx : x = r
    · subst hx
      exact (congrArg Thread.state (s.setThread_self x f)).trans (hf _)
    · exact congrArg Thread.state (s.setThread_ne r f hx)
  exact (hw.wakeup1 ch).effect rfl fun _ _ => rfl

/-- `exit`'s last section, after its wake-ups. -/
theorem ProcEffect.of_final {s₁ : Sys Cpu} {ch : Chan} {k : Resume}
    (hr : s.cpu c = .run r) (ha : s.acting a = some r)
    (hpc : (s.thread r).pc = .exitFinal) (hw : s.Woken s₁ p) :
    ProcEffect s a (s₁.leave c r .ZOMBIE .ZOMBIE ch .zombieExit k) p := by
  by_cases hp : r.1 = p
  · subst hp
    have e := s₁.leave_proc_self c r .ZOMBIE .ZOMBIE ch .zombieExit k
    have ht := s₁.leave_thread_self c r .ZOMBIE .ZOMBIE ch .zombieExit k
    obtain ⟨hk, _⟩ := hw
    exact .final hr ha rfl hpc (by rw [e])
      ⟨by rw [e]; exact hk.mid, by rw [e]; exact hk.exiting, by rw [e]; exact hk.pid⟩
      (by rw [ht]; exact .inr ⟨rfl, nofun⟩)
  · refine hw.effect
      (s₁.leave_proc_ne c r .ZOMBIE .ZOMBIE ch .zombieExit k (Ne.symm hp))
      fun t _ => ?_
    rw [Sys.leave_thread_ne _ _ _ _ _ _ _ _ fun e => hp (congrArg Prod.fst e).symm]

theorem ProcEffect.of_killWake {q : ProcId}
    (e : s'.proc p =
      ((s.setProc q fun x => { x with killed := true }).killWake q).proc p)
    (et : ∀ x, (s'.thread x).state = (((s.setProc q fun x =>
      { x with killed := true }).killWake q).thread x).state) :
    ProcEffect s a s' p := by
  by_cases hp : p = q
  · subst hp
    have h₁ := s.setProc_self p fun x => { x with killed := true }
    unfold Sys.killWake at e
    split at e
    case isFalse =>
      rw [h₁] at e
      exact .keep (by rw [e]) ⟨by rw [e], by rw [e], by rw [e]⟩
    case isTrue hst =>
      rw [h₁] at hst
      have e' : s'.proc p = { s.proc p with killed := true, state := .RUNNABLE } := by
        rw [e]
        split
        · exact (Sys.setPState_self _ p _).trans (by rw [h₁])
        · rw [Sys.setPState_self, h₁]
      refine .killWake hst (by rw [e']) ⟨by rw [e'], by rw [e'], by rw [e']⟩ ?_
      cases hsl : s.sleepingSlot p with
      | some t =>
          have hsl' : (s.setProc p fun x => { x with killed := true }).sleepingSlot p =
            some t := hsl
          refine .inl ⟨t, ?_⟩
          rw [et, Sys.killWake, if_pos (by rw [h₁]; exact hst), hsl']
          simp only
          rw [Sys.makeRunnable, Sys.setThread_self]
      | none =>
          refine .inr fun t ht => ?_
          have := List.find?_eq_none.mp hsl t (List.mem_finRange t)
          simp [ht] at this
  · refine .same (e.trans ?_)
    unfold Sys.killWake
    split
    · split
      · exact (Sys.setPState_ne _ q _ hp).trans (s.setProc_ne q _ hp)
      · rw [Sys.setPState_ne _ q _ hp, s.setProc_ne q _ hp]
    · exact s.setProc_ne q _ hp

theorem ProcEffect.of_scheduler (h : Inv s) :
    ProcEffect s (.sched c) (s.scheduler c) p := by
  unfold Sys.scheduler
  split
  case h_1 r hr =>
    have e := Sys.dispatch_proc (s := s) (c := c) (r := r) p
    by_cases hp : p = r.1
    · subst hp
      rw [if_pos rfl] at e
      refine .dispatch (t := r.2) (s.pick_some hr).1 (by rw [e])
        ⟨by rw [e], by rw [e], by rw [e]⟩ ?_ ⟨c, ?_⟩ (h.alive_of_pick hr)
      · exact congrArg Thread.state Sys.dispatch_thread_self
      · simp only [Sys.dispatch, Sys.setCpu_self]
        split
        · exact .inr rfl
        · exact .inl rfl
    · rw [if_neg hp] at e
      exact .same e
  case h_2 => exact .same rfl

theorem Section.procEffect (h : Inv s) (hr : s.cpu c = .run r)
    (hs : Section s c r a s') (hp : s'.panicked = none) (p : ProcId) :
    ProcEffect s a s' p := by
  have hpr := h.present_of_run hr
  have hact : s.acting (.run c) = some r := Sys.acting_run hr
  cases hs with
  | halt hn => exact absurd hp hn
  | move | ret | moveMt | refuseMt | mutexEnter | mutexLockWoken | mutexAlloc
  | logWrite | takeSleep | join | execWait | create | createPublish | execKill
  | exitClose | forkThreadRunnable | mutexLockBlock | mutexLockTake | handOff
  | mutexUnlockFree => exact .same rfl
  | fault _ =>
      exact .of_setProc r.1 (fun x => { x with killed := true }) rfl fun _ e =>
        .keep (by rw [e]) ⟨by rw [e], by rw [e], by rw [e]⟩
  | @setFile _ fd b _ =>
      exact .of_setProc r.1 (fun x => { x with ofile := Function.update x.ofile fd b })
        rfl fun _ e => .keep (by rw [e]) ⟨by rw [e], by rw [e], by rw [e]⟩
  | @exitFile _ fd _ _ _ =>
      exact .of_setProc r.1
        (fun x => { x with ofile := Function.update x.ofile fd false })
        rfl fun _ e => .keep (by rw [e]) ⟨by rw [e], by rw [e], by rw [e]⟩
  | @forkCopied _ q _ =>
      exact .of_setProc q
        (fun x => { x with ofile := fun fd => (s.proc r.1).ofile fd || x.ofile fd })
        rfl fun _ e => .keep (by rw [e]) ⟨by rw [e], by rw [e], by rw [e]⟩
  | sleep | mutexLockSleep => exact .of_sleep hr rfl
  | yield =>
      rw [Sys.yield_eq]
      exact .of_leave hr (.inl rfl) rfl (by simp) fun _ => .inl rfl
  | wakeup n _ _ => exact .of_wakeup1 (.other n) rfl fun _ _ => rfl
  | beginOp _ _ hw =>
      rw [Sys.beginOp, if_neg (by simp [hw])]
      exact .same rfl
  | endOp _ _ _ hc =>
      rw [Sys.endOp, if_neg (by simp [hc])]
      simp only
      split
      · exact .same rfl
      · exact .of_history .log fun _ => rfl
  | endCommit =>
      exact .of_wakeup1 .log rfl fun _ _ => (Sys.goto_state _ _).1
  | releasesleep l _ _ _ => exact .of_history (.sleeplock l) fun _ => rfl
  | exit hpc _ =>
      exact .of_exitLoop hr (.of_exitNext (.inl hpc) (fun v _ => Nat.zero_le _)
        Sys.exitMark_self) rfl
  | exitWait hpc _ =>
      exact .of_exitLoop hr (.of_exitNext (.inr ⟨_, hpc⟩) (fun v hv => hv _ hpc) rfl)
        rfl
  | exitFinal hpc _ =>
      rw [Sys.exitFinal_eq]
      exact .of_final hr hact hpc (Sys.Woken.exitWake s r.1 p)
  | kthreadExit hpc _ =>
      have hnsl : (s.thread r).state ≠ .SLEEPING := by
        rw [h.running hr (by rw [hpc]; simp)]
        simp
      refine .of_wakeup1 (.thread r) ?_ fun t ht => ?_
      · unfold Sys.kthreadExit
        simp only
        split <;> rfl
      · unfold Sys.kthreadExit
        simp only
        split
        · exact (Sys.goto_state _ _).1
        · have hne : (p, t) ≠ r := by
            rintro rfl
            exact hnsl ht
          rw [Sys.setThread_ne _ _ _ hne]
  | kthreadExitSched hpc _ hs =>
      rw [Sys.kthreadExitSched_eq s c r hs]
      exact .of_leave hr (.inl rfl) rfl (by simp) fun _ =>
        .inr (.inr ⟨hpc, hact, rfl⟩)
  | @wait q hpc _ hq =>
      exact .of_setProc q Proc.vacated rfl fun hpq e =>
        .vacate hact ⟨hpc, hpq ▸ hq⟩ e
  | createStack ok _ => cases ok <;> exact .same rfl
  | kill _ _ _ => exact .of_killWake rfl fun _ => (Sys.goto_state _ _).1
  | execClear hpc _ =>
      exact .of_setProc r.1 (fun x => { x with mid := fun _ => false }) rfl
        fun hpr e => .clear hr hact hpr.symm hpc (by rw [e]) (by rw [e]) (by rw [e])
          (by rw [e])
  | @forkClaim q hpc =>
      refine .of_setProc q (fun x => { x with
        state := .EMBRYO, mid := fun _ => false, pid := s.nextpid }) rfl
        fun hpq e => ?_
      subst hpq
      exact .claim hact hpc (by rw [e]) (by rw [e]) (by rw [e]) (by rw [e]) rfl
  | forkThread hpc _ =>
      unfold Sys.forkThread
      split <;> exact .same rfl
  | forkStack ok _ => cases ok <;> exact .same rfl
  | @forkFail _ q hpc =>
      have hE : (s.proc q).state = .EMBRYO := h.embryo_of_forks hpr (by rw [hpc]; rfl)
      refine .of_setProc q (fun x => { x with state := .UNUSED }) rfl fun hpq e => ?_
      subst hpq
      exact .unclaim hE (by rw [e]) ⟨by rw [e], by rw [e], by rw [e]⟩
        ⟨c, r, hr, .inl hpc⟩
  | @forkUncopied _ q hpc =>
      have hE : (s.proc q).state = .EMBRYO := h.embryo_of_forks hpr (by rw [hpc]; rfl)
      refine .of_setProc q (fun x => { x with state := .UNUSED }) rfl fun hpq e => ?_
      subst hpq
      exact .unclaim hE (by rw [e]) ⟨by rw [e], by rw [e], by rw [e]⟩
        ⟨c, r, hr, .inr hpc⟩
  | @forkRunnable q pid hpc _ =>
      have hE : (s.proc q).state = .EMBRYO := h.embryo_of_forks hpr (by rw [hpc]; rfl)
      refine .of_setProc q (fun x => { x with
        parent := some r.1, state := .RUNNABLE }) rfl fun hpq e => ?_
      subst hpq
      exact .publish hE (by rw [e]) ⟨by rw [e], by rw [e], by rw [e]⟩
        ⟨r, pid, hact, hpc, congrArg Thread.pc (Sys.goto_self _ _ _)⟩
  | @mutexAllocMid _ i hpc _ =>
      exact .of_setProc r.1 (fun x => { x with mid := Function.update x.mid i true })
        rfl fun hpr e => .setMid hr hpr.symm (.inl ⟨hpc, rfl⟩) (by rw [e])
          (by rw [e]) (by rw [e]) (by rw [e])
  | mutexDeallocLocked _ hi =>
      rw [Sys.mutexDeallocLocked, if_neg (by simp [hi])]
      exact .same rfl
  | @mutexDeallocClear _ i hpc _ =>
      exact .of_setProc r.1 (fun x => { x with mid := Function.update x.mid i false })
        rfl fun hpr e => .setMid hr hpr.symm (.inr ⟨hpc, rfl⟩) (by rw [e])
          (by rw [e]) (by rw [e]) (by rw [e])

theorem Change.procEffect (h : Inv s) (hs : Change s a s')
    (hp : s'.panicked = none) (p : ProcId) : ProcEffect s a s' p := by
  cases hs with
  | wakeup n _ => exact .of_wakeup1 (.other n) rfl fun _ _ => rfl
  | sched _ => exact .of_scheduler h
  | run hr hs => exact hs.procEffect h hr hp p
  | junk _ => cases hp

/-- A process that is not there after a step was not there before, or has just
been reaped. -/
theorem ProcEffect.of_not_alive (hx : ProcEffect s a s' p) (h : Inv s)
    (hg : forkOk s a) (hd : ¬ (s'.proc p).Alive) :
    s'.proc p = (s.proc p).vacated ∨ ¬ (s.proc p).Alive ∧
      (s'.proc p).exiting = (s.proc p).exiting ∧
      ∀ i, (s'.proc p).mid i = true → (s.proc p).mid i = true := by
  have hrun : ∀ {c : Cpu} {r : ThreadPtr}, s.cpu c = .run r → r.1 = p →
      (s.proc p).Alive := by
    rintro c r hr rfl
    exact h.cpu.alive hr
  cases hx with
  | keep hs hk =>
      exact .inr ⟨by rwa [Proc.Alive, ← hs], hk.exiting, fun i => by rw [hk.mid]; exact id⟩
  | wake _ _ hs | killWake _ hs | dispatch _ hs | publish _ hs | final _ _ _ _ hs =>
      exact absurd ⟨by rw [hs]; simp, by rw [hs]; simp⟩ hd
  | leave _ _ hs =>
      rcases hs with hs | hs <;>
        exact absurd ⟨by rw [hs]; simp, by rw [hs]; simp⟩ hd
  | vacate _ _ e => exact .inl e
  | claim hr hpc _ hm he =>
      exact .inr ⟨fun hal => hal.1 (hg _ hr p hpc), he, fun i => by rw [hm]; simp⟩
  | unclaim h₀ _ hk =>
      exact .inr ⟨fun hal => hal.2 h₀, hk.exiting, fun i => by rw [hk.mid]; exact id⟩
  | setMid hr hp' _ hs | clear hr _ hp' _ hs | exits hr hp' _ hs =>
      exact absurd (by rw [Proc.Alive, hs]; exact hrun hr hp') hd

/-! ## §2  The kill flag and the open files -/

/-- What a step does to the `killed` flag and the open files of a process. -/
inductive DataEffect (s : Sys Cpu) (a : Act Cpu) (s' : Sys Cpu) (p : ProcId) :
    Prop
  | keep (hk : (s'.proc p).killed = (s.proc p).killed)
      (ho : (s'.proc p).ofile = (s.proc p).ofile)
  | kill {r : ThreadPtr} {pid : ℤ} (ha : s.acting a = some r)
      (hpc : (s.thread r).pc = .kill pid) (hq : s.procOfPid pid = some p)
      (ho : (s'.proc p).ofile = (s.proc p).ofile)
  | fault {c : Cpu} {r : ThreadPtr} (ha : a = .fault c) (hr : s.cpu c = .run r)
      (hp : r.1 = p) (ho : (s'.proc p).ofile = (s.proc p).ofile)
  | vacate {r : ThreadPtr} (ha : s.acting a = some r) (hw : s.Waited r p)
      (hk : (s'.proc p).killed = false)
      (ho : (s'.proc p).ofile = (s.proc p).ofile)
  | file {c : Cpu} {r : ThreadPtr} (fd : Fd) (b : Bool) (hr : s.cpu c = .run r)
      (hp : r.1 = p) (hpc : (s.thread r).pc = .kern .ret)
      (hk : (s'.proc p).killed = (s.proc p).killed)
      (ho : (s'.proc p).ofile = Function.update (s.proc p).ofile fd b)
  | close {c : Cpu} {r : ThreadPtr} {fd : Fd} (hr : s.cpu c = .run r)
      (hp : r.1 = p) (hpc : (s.thread r).pc = .kern (.exitFile fd))
      (hk : (s'.proc p).killed = (s.proc p).killed)
      (ho : (s'.proc p).ofile = Function.update (s.proc p).ofile fd false)
  | copy {c : Cpu} {r : ThreadPtr} (hr : s.cpu c = .run r)
      (hpc : (s.thread r).pc = .forkCopy p)
      (hk : (s'.proc p).killed = (s.proc p).killed)
      (ho : ∀ fd, (s'.proc p).ofile fd =
        ((s.proc r.1).ofile fd || (s.proc p).ofile fd))
      (hs : (s'.proc p).state = (s.proc p).state)
      (hpc' : ∃ pid, (s'.thread r).pc = .forkThreadRunnable p pid)

namespace DataEffect

theorem same (e : s'.proc p = s.proc p) : DataEffect s a s' p :=
  .keep (by rw [e]) (by rw [e])

theorem of_setProc (q : ProcId) (f : Proc → Proc)
    (e : s'.proc p = (s.setProc q f).proc p)
    (hq : p = q → s'.proc p = f (s.proc p) → DataEffect s a s' p) :
    DataEffect s a s' p := by
  by_cases hp : p = q
  · subst hp
    exact hq rfl (e.trans (s.setProc_self p f))
  · exact .same (e.trans (s.setProc_ne q f hp))

theorem wakeup1 {s₁ : Sys Cpu} (ch : Chan)
    (h : (s₁.proc p).killed = (s.proc p).killed ∧
      (s₁.proc p).ofile = (s.proc p).ofile) :
    ((s₁.wakeup1 ch).proc p).killed = (s.proc p).killed ∧
      ((s₁.wakeup1 ch).proc p).ofile = (s.proc p).ofile := by
  simp only [Sys.wakeup1]
  split <;> exact h

theorem of_wakeup1 {s₁ : Sys Cpu} (ch : Chan)
    (e : s'.proc = (s₁.wakeup1 ch).proc) (h₁ : s₁.proc = s.proc) :
    DataEffect s a s' p := by
  have h : (s₁.proc p).killed = (s.proc p).killed ∧
      (s₁.proc p).ofile = (s.proc p).ofile := by
    rw [h₁]
    exact ⟨rfl, rfl⟩
  obtain ⟨hk, ho⟩ := wakeup1 ch h
  exact .keep (by rw [e, hk]) (by rw [e, ho])

theorem of_leave {s₁ : Sys Cpu} {pst st : States} {ch : Chan} {pc : Pc}
    {k : Resume} (h : (s₁.proc p).killed = (s.proc p).killed ∧
      (s₁.proc p).ofile = (s.proc p).ofile) :
    DataEffect s a (s₁.leave c r pst st ch pc k) p := by
  by_cases hp : p = r.1
  · subst hp
    have e := s₁.leave_proc_self c r pst st ch pc k
    exact .keep (by rw [e]; exact h.1) (by rw [e]; exact h.2)
  · have e := s₁.leave_proc_ne c r pst st ch pc k hp
    exact .keep (by rw [e]; exact h.1) (by rw [e]; exact h.2)

theorem of_sleep {s₁ : Sys Cpu} {ch : Chan} {pc : Pc} {k : Resume}
    (h₁ : s₁.proc = s.proc) : DataEffect s a (s₁.sleep c r ch k pc) p := by
  rw [Sys.sleep_eq]
  exact .of_leave ⟨by rw [h₁], by rw [h₁]⟩

theorem of_exitLoop {s₁ : Sys Cpu} {k : ℕ} (h₁ : s₁.proc = s.proc) :
    DataEffect s a (s₁.exitLoop c r k) p := by
  unfold Sys.exitLoop
  split
  · exact .of_sleep h₁
  · refine .of_setProc r.1 (fun x => { x with exiting := some r.2 }) ?_ fun _ e =>
      .keep (by rw [e]) (by rw [e])
    simp only [Sys.setProc, ← h₁]
    rfl

theorem exitWake (q : ProcId) :
    ((s.exitWake q).proc p).killed = (s.proc p).killed ∧
      ((s.exitWake q).proc p).ofile = (s.proc p).ofile := by
  have hadopt : ((s.adopt q).proc p).killed = (s.proc p).killed ∧
      ((s.adopt q).proc p).ofile = (s.proc p).ofile := by
    simp only [Sys.adopt]
    split <;> exact ⟨rfl, rfl⟩
  refine DataEffect.wakeup1 _ ?_
  unfold Sys.reparent
  split
  · exact DataEffect.wakeup1 _ hadopt
  · exact hadopt

theorem killWake {q : ProcId} :
    ((s.killWake q).proc p).killed = (s.proc p).killed ∧
      ((s.killWake q).proc p).ofile = (s.proc p).ofile := by
  have hst : (((s.setPState q .RUNNABLE).proc p).killed = (s.proc p).killed) ∧
      ((s.setPState q .RUNNABLE).proc p).ofile = (s.proc p).ofile := by
    by_cases hp : p = q
    · subst hp
      rw [Sys.setPState_self]
      exact ⟨rfl, rfl⟩
    · rw [Sys.setPState_ne _ _ _ hp]
      exact ⟨rfl, rfl⟩
  unfold Sys.killWake
  split
  · split <;> exact hst
  · exact ⟨rfl, rfl⟩

end DataEffect

theorem Section.dataEffect (hr : s.cpu c = .run r) (hs : Section s c r a s')
    (hp : s'.panicked = none) (p : ProcId) : DataEffect s a s' p := by
  have hact : s.acting (.run c) = some r := Sys.acting_run hr
  cases hs with
  | halt hn => exact absurd hp hn
  | move | ret | moveMt | refuseMt | mutexEnter | mutexLockWoken | mutexAlloc
  | logWrite | takeSleep | join | execWait | create | createPublish | execKill
  | exitClose | forkThreadRunnable | mutexLockBlock | mutexLockTake | handOff
  | mutexUnlockFree => exact .same rfl
  | fault =>
      exact .of_setProc r.1 (fun x => { x with killed := true }) rfl fun hpr e =>
        .fault rfl hr hpr.symm (by rw [e])
  | setFile fd b hpc =>
      exact .of_setProc r.1 (fun x => { x with ofile := Function.update x.ofile fd b })
        rfl fun hpr e => .file fd b hr hpr.symm hpc (by rw [e]) (by rw [e])
  | @exitFile _ fd hpc =>
      exact .of_setProc r.1
        (fun x => { x with ofile := Function.update x.ofile fd false })
        rfl fun hpr e => .close hr hpr.symm hpc (by rw [e]) (by rw [e])
  | @forkCopied _ q hpc =>
      refine .of_setProc q
        (fun x => { x with ofile := fun fd => (s.proc r.1).ofile fd || x.ofile fd })
        rfl fun hpq e => ?_
      subst hpq
      exact .copy hr hpc (by rw [e]) (fun fd => by rw [e]) (by rw [e])
        ⟨_, congrArg Thread.pc (Sys.goto_self _ _ _)⟩
  | sleep | mutexLockSleep => exact .of_sleep rfl
  | yield =>
      rw [Sys.yield_eq]
      exact .of_leave ⟨rfl, rfl⟩
  | wakeup n => exact .of_wakeup1 (.other n) rfl rfl
  | beginOp _ _ hw =>
      rw [Sys.beginOp, if_neg (by simp [hw])]
      exact .same rfl
  | endOp _ _ _ hc =>
      rw [Sys.endOp, if_neg (by simp [hc])]
      simp only
      split
      · exact .same rfl
      · exact .of_wakeup1 .log rfl rfl
  | endCommit => exact .of_wakeup1 .log rfl rfl
  | releasesleep l => exact .of_wakeup1 (.sleeplock l) rfl rfl
  | exit | exitWait => exact .of_exitLoop rfl
  | exitFinal =>
      rw [Sys.exitFinal_eq]
      exact .of_leave (DataEffect.exitWake r.1)
  | kthreadExit =>
      refine .of_wakeup1 (.thread r) ?_ rfl
      unfold Sys.kthreadExit
      simp only
      split <;> rfl
  | kthreadExitSched _ _ hs =>
      rw [Sys.kthreadExitSched_eq s c r hs]
      exact .of_leave ⟨rfl, rfl⟩
  | @wait q hpc _ hq =>
      exact .of_setProc q Proc.vacated rfl fun hpq e =>
        .vacate hact ⟨hpc, hpq ▸ hq⟩ (by rw [e]; rfl) (by rw [e]; rfl)
  | createStack ok => cases ok <;> exact .same rfl
  | @kill pid q hpc _ hq =>
      obtain ⟨hk, ho⟩ := DataEffect.killWake
        (s := s.setProc q fun x => { x with killed := true }) (p := p) (q := q)
      by_cases hpq : p = q
      · subst hpq
        refine .kill hact hpc hq (ho.trans ?_)
        rw [Sys.setProc_self]
      · rw [Sys.setProc_ne _ _ _ hpq] at hk ho
        exact .keep hk ho
  | execClear =>
      exact .of_setProc r.1 (fun x => { x with mid := fun _ => false }) rfl
        fun _ e => .keep (by rw [e]) (by rw [e])
  | @forkClaim q =>
      exact .of_setProc q (fun x => { x with
        state := .EMBRYO, mid := fun _ => false, pid := s.nextpid }) rfl
        fun _ e => .keep (by rw [e]) (by rw [e])
  | forkThread =>
      unfold Sys.forkThread
      split <;> exact .same rfl
  | forkStack ok => cases ok <;> exact .same rfl
  | @forkFail _ q | @forkUncopied _ q =>
      exact .of_setProc q (fun x => { x with state := .UNUSED }) rfl
        fun _ e => .keep (by rw [e]) (by rw [e])
  | @forkRunnable q =>
      exact .of_setProc q (fun x => { x with
        parent := some r.1, state := .RUNNABLE }) rfl
        fun _ e => .keep (by rw [e]) (by rw [e])
  | @mutexAllocMid _ i =>
      exact .of_setProc r.1 (fun x => { x with mid := Function.update x.mid i true })
        rfl fun _ e => .keep (by rw [e]) (by rw [e])
  | mutexDeallocLocked _ hi =>
      rw [Sys.mutexDeallocLocked, if_neg (by simp [hi])]
      exact .same rfl
  | @mutexDeallocClear _ i =>
      exact .of_setProc r.1 (fun x => { x with mid := Function.update x.mid i false })
        rfl fun _ e => .keep (by rw [e]) (by rw [e])

theorem Change.dataEffect (hs : Change s a s') (hp : s'.panicked = none)
    (p : ProcId) : DataEffect s a s' p := by
  cases hs with
  | wakeup n _ => exact .of_wakeup1 (.other n) rfl rfl
  | @sched c _ =>
      unfold Sys.scheduler
      split
      case h_1 r _ =>
        have e := Sys.dispatch_proc (s := s) (c := c) (r := r) p
        by_cases hpr : p = r.1
        · subst hpr
          rw [if_pos rfl] at e
          exact .keep (by rw [e]) (by rw [e])
        · rw [if_neg hpr] at e
          exact .same e
      case h_2 => exact .same rfl
  | run hr hs => exact hs.dataEffect hr hp p
  | junk _ => cases hp

end Xv6.Kernel
