import Mathlib.Data.Fintype.Prod
import Xv6.Kernel.Reachable

/-!
# What a step does to one thread

The invariants of the later modules are about single threads and about the
threads of one process. `Change.effect` says once what can happen to a thread
in a step: it is passive (`Passive`: woken, marked, reaped, filled, handed a
mutex, dispatched) or it acts (`Active`). The steps that a condition on runs
may have to exclude carry a name of their own (`Sys.Reaps`, `Sys.KillWakes`,
`Sys.ExecWakes`, `Sys.ExitMarks`, `Sys.HandsOff`, `Sys.Creates`); all are
conditions on the state before the step and on the acting thread.
-/

set_option linter.unusedSectionVars false

namespace Xv6.Kernel

variable {Cpu : Type} [DecidableEq Cpu] {s s' : Sys Cpu} {a : Act Cpu} {c : Cpu}
  {r x : ThreadPtr}

/-! ## §1  Steps with a name -/

/-- The argument of `kill`. -/
def Pc.target : Pc → Option ℤ
  | .kill pid => some pid
  | _ => none

namespace Sys

/-- The section of `r` frees the stack of `x`: `kthread_join`, `wait` or
`kill_threads`. -/
def Reaps (s : Sys Cpu) (r x : ThreadPtr) : Prop :=
  match (s.thread r).pc with
  | .joinLock u | .joinLoop u => x = (r.1, u) ∧ (s.thread x).state = .ZOMBIE
  | .wait | .waitLoop =>
      s.deadChild r.1 = some x.1 ∧ (s.thread x).state ≠ .UNUSED
  | .execWait => x.1 = r.1 ∧ x ≠ r ∧ (s.thread x).state = .ZOMBIE
  | _ => False

/-- Thread `r`, which frees the stack of `x`, is in `kill_threads` or returns 0
from `kthread_join`. -/
def Returns (s s' : Sys Cpu) (r x : ThreadPtr) : Prop :=
  (s.thread r).pc = .execWait ∨ x.1 = r.1 ∧ (s'.thread r).pc = .sysret 0 ∧
    ((s.thread r).pc = .joinLock x.2 ∨ (s.thread r).pc = .joinLoop x.2)

/-- The section of `r` is a `kill` that wakes `x`. -/
def KillWakes (s : Sys Cpu) (r x : ThreadPtr) : Prop :=
  match (s.thread r).pc with
  | .kill pid => s.procOfPid pid = some x.1 ∧
      (s.proc x.1).state = .SLEEPING ∧ s.sleepingSlot x.1 = some x.2
  | _ => False

/-- The section of `r` is the marking loop of `kill_threads` and wakes `x`. -/
def ExecWakes (s : Sys Cpu) (r x : ThreadPtr) : Prop :=
  (s.thread r).pc = .execKill ∧ x.1 = r.1 ∧ (s.thread x).state = .SLEEPING

/-- The section of `r` is the marking loop of `exit` and makes `x` a
`ZOMBIE`. -/
def ExitMarks (s : Sys Cpu) (r x : ThreadPtr) : Prop :=
  (s.thread r).pc = .exit ∧ x.1 = r.1 ∧ x ≠ r ∧
    ((s.thread x).state = .RUNNABLE ∨ (s.thread x).state = .SLEEPING)

/-- The section of `r` is the marking loop of `exit` or of `kill_threads`, sets
the `killed` flag of `x` and does not end `x` itself. -/
def Marks (s : Sys Cpu) (r x : ThreadPtr) : Prop :=
  x.1 = r.1 ∧ x ≠ r ∧ (s.thread x).state ≠ .UNUSED ∧
    ((s.thread r).pc = .execKill ∨ (s.thread r).pc = .exit ∧
      (s.thread x).state ≠ .RUNNABLE ∧ (s.thread x).state ≠ .SLEEPING)

/-- The section of `r` hands a mutex to `x`. -/
def HandsOff (s : Sys Cpu) (r x : ThreadPtr) : Prop :=
  match (s.thread r).pc with
  | .mutexUnlockScan i => x.1 = r.1 ∧ s.waiter r i = some x.2
  | _ => False

/-- The section of `r` is `kthread_create`'s `allocthread` and takes `x`. -/
def Creates (s : Sys Cpu) (r x : ThreadPtr) : Prop :=
  (s.thread r).pc = .create ∧ x.1 = r.1 ∧ s.unusedSlot x.1 = some x.2

instance (s : Sys Cpu) (r x : ThreadPtr) : Decidable (s.Reaps r x) := by
  unfold Reaps; split <;> infer_instance

instance (s : Sys Cpu) (r x : ThreadPtr) : Decidable (s.KillWakes r x) := by
  unfold KillWakes; split <;> infer_instance

instance (s : Sys Cpu) (r x : ThreadPtr) : Decidable (s.ExecWakes r x) := by
  unfold ExecWakes; infer_instance

instance (s : Sys Cpu) (r x : ThreadPtr) : Decidable (s.ExitMarks r x) := by
  unfold ExitMarks; infer_instance

instance (s : Sys Cpu) (r x : ThreadPtr) : Decidable (s.Marks r x) := by
  unfold Marks; infer_instance

instance (s : Sys Cpu) (r x : ThreadPtr) : Decidable (s.HandsOff r x) := by
  unfold HandsOff; split <;> infer_instance

end Sys

theorem Sys.HandsOff.scan (h : s.HandsOff r x) :
    ∃ i, (s.thread r).pc = .mutexUnlockScan i ∧ x.1 = r.1 := by
  unfold Sys.HandsOff at h
  split at h
  case h_1 i hpc => exact ⟨i, hpc, h.1⟩
  case h_2 => exact h.elim

/-- The thread has ended and left its stack, or was never there. -/
def Thread.Ended (t : Thread) : Prop :=
  t.state = .UNUSED ∨ t.state = .ZOMBIE ∧ t.pc ≠ .kthreadExitSched

instance (t : Thread) : Decidable t.Ended := by
  unfold Thread.Ended; infer_instance

theorem Inv.not_run_of_ended (h : Inv s) (he : (s.thread x).Ended) :
    s.cpu c ≠ .run x := by
  intro hc
  rcases he with e | ⟨e, hpc⟩
  · exact h.present_of_run hc e
  · exact absurd (e.symm.trans (h.running hc hpc)) (by decide)

/-- The program points at which a thread reaps. -/
def Pc.reaps : Pc → Bool
  | .joinLock _ | .joinLoop _ | .wait | .waitLoop | .execWait => true
  | _ => false

def Pc.kills : Pc → Bool
  | .kill _ => true
  | _ => false

def Pc.handsOff : Pc → Bool
  | .mutexUnlockScan _ => true
  | _ => false

/-- A condition on the threads that a section affects is decided by looking at
the program point first. -/
def decidableAt (R P : ThreadPtr → Prop) [DecidablePred R] [DecidablePred P]
    (b : Bool) (h : b = false → ∀ x, ¬ R x) : Decidable (∀ x, R x → P x) :=
  if hb : b = true then inferInstance
  else isTrue fun x hx => absurd hx (h (by simpa using hb) x)

section DecidableAt

variable (s : Sys Cpu) (r : ThreadPtr) (P : ThreadPtr → Prop) [DecidablePred P]

instance : Decidable (∀ x, s.Reaps r x → P x) :=
  decidableAt _ _ (s.thread r).pc.reaps fun h x hx => by
    unfold Sys.Reaps at hx
    split at hx <;> simp_all [Pc.reaps]

instance : Decidable (∀ x, s.KillWakes r x → P x) :=
  decidableAt _ _ (s.thread r).pc.kills fun h x hx => by
    unfold Sys.KillWakes at hx
    split at hx <;> simp_all [Pc.kills]

instance : Decidable (∀ x, s.ExecWakes r x → P x) :=
  decidableAt _ _ (decide ((s.thread r).pc = .execKill)) fun h x hx => by
    simp [hx.1] at h

instance : Decidable (∀ x, s.ExitMarks r x → P x) :=
  decidableAt _ _ (decide ((s.thread r).pc = .exit)) fun h x hx => by
    simp [hx.1] at h

instance : Decidable (∀ x, s.HandsOff r x → P x) :=
  decidableAt _ _ (s.thread r).pc.handsOff fun h x hx => by
    unfold Sys.HandsOff at hx
    split at hx <;> simp_all [Pc.handsOff]

end DecidableAt

/-! ## §2  Effects on a thread -/

/-- The process whose first thread `fork` may give up. -/
def Pc.abandons : Pc → Option ProcId
  | .forkStack q _ | .forkCopy q => some q
  | _ => none

theorem Pc.forks_of_abandons {pc : Pc} {q : ProcId} (h : pc.abandons = some q) :
    pc.forks = some q := by
  cases pc <;> first | exact h | cases h

/-- What a step does to a thread that does not act, or that is reaped. -/
inductive Passive (s : Sys Cpu) (a : Act Cpu) (s' : Sys Cpu) (x : ThreadPtr) :
    Prop
  | keep (b : Bool) (e : s'.thread x = { s.thread x with killed := b })
      (hb : b = (s.thread x).killed ∨ ∃ r, s.acting a = some r ∧ s.Marks r x)
  | wake (ch : Chan) (hs : (s.thread x).state = .SLEEPING)
      (hch : (s.thread x).chan = ch) (hm : ∀ i, ch ≠ .mutex i)
      -- a sibling that waits for a thread is woken when that thread dies
      (hy : ∀ y, ch = .thread y → y.1 = x.1 → (s'.thread y).state = .ZOMBIE)
      (e : s'.thread x = { s.thread x with state := .RUNNABLE })
      (hp : (s'.proc x.1).state ≠ .SLEEPING)
  | killWake {r : ThreadPtr} (hr : s.acting a = some r) (hk : s.KillWakes r x)
      (hs : (s.thread x).state = .SLEEPING)
      (e : s'.thread x = { s.thread x with state := .RUNNABLE })
      (hp : (s'.proc x.1).state = .RUNNABLE)
  | execWake {r : ThreadPtr} (b : Bool) (hr : s.acting a = some r)
      (hk : s.ExecWakes r x)
      (e : s'.thread x = { s.thread x with state := .RUNNABLE, killed := b })
  | mark {r : ThreadPtr} (b : Bool) (hr : s.acting a = some r)
      (hk : s.ExitMarks r x)
      (e : s'.thread x = { s.thread x with state := .ZOMBIE, killed := b })
  | reap {r : ThreadPtr} (hr : s.acting a = some r) (hk : s.Reaps r x)
      (hs : (s'.thread x).state = .UNUSED) (hb : (s'.thread x).blocked = false)
      (hi : (s'.thread x).inop = (s.thread x).inop)
      (hl : (s'.thread x).locks = (s.thread x).locks)
      (ht : (s'.thread x).tid = -1)
      -- `kill_threads` resets fewer fields than the other two
      (hc : (s'.thread x).killed = false ∧ (s'.thread x).chan = .null ∨
        (s.thread r).pc = .execWait ∧ (s'.thread x).killed = (s.thread x).killed ∧
          (s'.thread x).chan = (s.thread x).chan)
      (hv : (s.thread x).state = .ZOMBIE ∧ s.Returns s' r x ∨
        (s'.proc x.1).state = .UNUSED)
  | create {r : ThreadPtr} (hr : s.acting a = some r) (hk : s.Creates r x)
      (hs : (s.thread x).state = .UNUSED)
      (e : s'.thread x = { s.thread x with
        state := .EMBRYO, tid := x.2.val, pc := .user, holds := ∅,
        inop := false, locks := [] })
  | fork {c : Cpu} {r : ThreadPtr} (hr : s.cpu c = .run r)
      (hpc : (s.thread r).pc = .forkThread x.1)
      (hs : (s.thread x).state = .UNUSED)
      (e : s'.thread x = { s.thread x with
        state := .EMBRYO, tid := x.2.val, pc := .user, holds := ∅,
        inop := false, locks := [] })
  | stack (hs : (s.thread x).state = .EMBRYO)
      (e : s'.thread x = { s.thread x with
        kstack := true, context := some .forkret })
  | drop (hs : (s.thread x).state = .EMBRYO) (k : Option Resume)
      (e : s'.thread x = { s.thread x with
        kstack := false, state := .UNUSED, context := k })
      (hr : ∃ c r, s.cpu c = .run r ∧
        (r.1 = x.1 ∧ (s.thread r).pc = .createStack x.2 ∨
          (s.thread r).pc.abandons = some x.1))
  | publish (hs : (s.thread x).Ready)
      (e : s'.thread x = { s.thread x with state := .RUNNABLE })
  | handOff {r : ThreadPtr} {i : MutexId} (hr : s.acting a = some r)
      (hk : s.HandsOff r x) (hw : s.Waits x i)
      (e : s'.thread x = { s.thread x with
        chan := .null, state := .RUNNABLE, blocked := false })
  | dispatch {c : Cpu} (ha : a = .sched c) (hs : (s.thread x).state = .RUNNABLE)
      (e : s'.thread x = (s.thread x).resumed)

/-- Program points that a thread enters while it stays on its CPU. -/
def Pc.entered : Pc → Bool
  | .mutexLockSleep _ | .mutexLockWoken _ | .exitWait _ | .waitLoop | .joinLoop _
  | .zombieExit | .kthreadExitSched => false
  | _ => true

/-- Program points from which a thread goes on with nothing more to say: not
where it is about to sleep or to be switched out, and not where it records a
mutex as its own. -/
def Pc.goesOn : Pc → Bool
  | .mutexLockSleep _ | .mutexAllocMid _ | .zombieExit | .kthreadExitSched => false
  | _ => true

/-- The thread goes on to `pc'`. File system code is left outside every
transaction and without sleeplocks, and a transaction is not begun twice. -/
structure GoesOn (t : Thread) (pc' : Pc) : Prop where
  old : t.pc.goesOn = true
  new : pc'.entered = true
  fs : t.pc.inFs = true → pc'.inFs = false → t.inop = false ∧ t.locks = []
  begin : ∀ k, pc' = .beginOp k → t.inop = false
  tearing : pc'.tearing = t.pc.tearing

/-- How a thread leaves its CPU: its program point before, its new state and
channel, how it resumes, and its new program point. -/
inductive Leaving (r : ThreadPtr) (t : Thread) :
    States → Chan → Resume → Pc → Prop
  | sleep {ch : Chan} {k : Resume} {pc' : Pc} (h : Sleeps r.1 t.pc ch k pc') :
      Leaving r t .SLEEPING ch k pc'
  | yield {pc' : Pc} (h : Yields t.pc pc') (hs : t.state = .RUNNING) :
      Leaving r t .RUNNABLE t.chan .yield pc'
  | mutex {i : MutexId} (h : t.pc = .mutexLockSleep i) :
      Leaving r t .SLEEPING (.mutex i) .sleep (.mutexLockWoken i)
  | final (h : t.pc = .exitFinal) : Leaving r t .ZOMBIE t.chan .yield .zombieExit
  | gap (h : t.pc = .kthreadExitSched) (hs : t.state = .ZOMBIE) :
      Leaving r t .ZOMBIE t.chan .yield .zombieExit

/-- Thread `r` leaves the waiting loop of `exit`. The slots that the loop has
passed since it was last resumed are dead. -/
structure LeavesLoop (s s' : Sys Cpu) (r : ThreadPtr) : Prop where
  old : (s.thread r).pc = .exit ∨ ∃ w, (s.thread r).pc = .exitWait w
  dead : ∀ v, v ≠ r.2 → (∀ w, (s.thread r).pc = .exitWait w → w < v) →
    (s'.thread (r.1, v)).state.dead = true
  exiting : (s'.proc r.1).exiting = some r.2
  thread : s'.thread r = { s.thread r with pc := .exitClose }

/-- `sleep` leaves the process `SLEEPING`, or a sibling active. -/
def Sys.Rests (s : Sys Cpu) (r : ThreadPtr) : Prop :=
  (s.proc r.1).state = .SLEEPING ∨ s.siblingActive r

theorem Sys.Rests.sleep {ch : Chan} {k : Resume} {pc : Pc} :
    (s.sleep c r ch k pc).Rests r := by
  rw [Sys.sleep_eq]
  by_cases hs : s.siblingActive r
  · obtain ⟨t, ht, ha⟩ := hs
    have hne : (r.1, t) ≠ r := fun e => ht (congrArg Prod.snd e)
    exact .inr ⟨t, ht, by rwa [Sys.leave_thread_ne _ _ _ _ _ _ _ _ hne]⟩
  · rw [if_neg hs]
    exact .inl (by rw [Sys.leave_proc_self])

/-- A descriptor that `exit` has closed at `pc'` was closed at `pc`, or is closed
in `s`, the state after the step. -/
def Sys.Closes (s : Sys Cpu) (r : ThreadPtr) (pc pc' : Pc) : Prop :=
  ∀ fd : Fd, fd.val < pc'.closed →
    fd.val < pc.closed ∨ (s.proc r.1).ofile fd = false

/-- What a step does to the thread that acts. -/
inductive Active (s : Sys Cpu) (a : Act Cpu) (s' : Sys Cpu) (r : ThreadPtr) :
    Prop
  | goOn (pc' : Pc) (xs : Finset MutexId) (h : GoesOn (s.thread r) pc')
      (e : s'.thread r = { s.thread r with pc := pc', holds := xs })
      (he : s.Enters r a pc') (hcl : s'.Closes r (s.thread r).pc pc')
  | own {i : MutexId} (h : (s.thread r).pc = .mutexAllocMid i)
      (hm : (s'.proc r.1).mid i = true)
      (e : s'.thread r = { s.thread r with pc := .sysret i.val })
  | block {i : MutexId} (h : (s.thread r).pc = .mutexLockBlock i)
      (e : s'.thread r =
        { s.thread r with blocked := true, pc := .mutexLockSleep i })
  | beginOp {k : After} (h : (s.thread r).pc = .beginOp k)
      (e : s'.thread r = { s.thread r with pc := .kern k, inop := true })
  | endOp {k k' : After} (h : (s.thread r).pc = .kern k)
      (hi : (s.thread r).inop = true)
      (hk : k'.root = k.root ∧ k'.closed = k.closed)
      (e : s'.thread r = { s.thread r with pc := .kern k', inop := false })
  | acquire {l : ℕ} {k : After} (h : (s.thread r).pc = .acquiresleep l k)
      (e : s'.thread r =
        { s.thread r with pc := .kern k, locks := l :: (s.thread r).locks })
  | release {l : ℕ} {k : After} (h : (s.thread r).pc = .kern k)
      (hl : l ∈ (s.thread r).locks)
      (e : s'.thread r =
        { s.thread r with locks := (s.thread r).locks.erase l })
  | die (h : (s.thread r).pc = .kthreadExit)
      (e : s'.thread r =
        { s.thread r with state := .ZOMBIE, pc := .kthreadExitSched })
      (ho : ∀ y, y ≠ r → s'.thread y = (s.wakeup1 (.thread r)).thread y)
      (ha : s.acting a = some r)
      (hz : ∃ t, t ≠ r.2 ∧ (s'.thread (r.1, t)).state.dead = false)
  -- the loop of `exit`: slots that it has passed are dead
  | exitWait (u : Slot)
      (h : (s.thread r).pc = .exit ∨ ∃ w, (s.thread r).pc = .exitWait w)
      (hd : ∀ v, v < u → v ≠ r.2 → (∀ w, (s.thread r).pc = .exitWait w → w < v) →
        (s'.thread (r.1, v)).state.dead = true)
      (e : s'.thread r = { s.thread r with
        state := .SLEEPING, chan := .thread (r.1, u), pc := .exitWait u,
        context := some .sleepHeld })
      (hp : s'.Rests r) (ha : s.acting a = some r)
      (ho : (s.thread r).pc = .exit → ∀ y, y.1 = r.1 → y ≠ r →
        s'.thread y = (s.thread y).exitMarked)
  | exitClose (h : LeavesLoop s s' r)
  | leave {st : States} {ch : Chan} {k : Resume} {pc' : Pc}
      (h : Leaving r (s.thread r) st ch k pc')
      (e : s'.thread r = { s.thread r with
        state := st, chan := ch, pc := pc', context := some k })
      (hp : st = .SLEEPING → s'.Rests r)
      (hz : st = .ZOMBIE → (s.thread r).pc = .exitFinal →
        (s'.proc r.1).state = .ZOMBIE)
      (ht : st = .SLEEPING → s.Tested r a (s.thread r).pc)
      (hn : st = .SLEEPING → ∀ n, ch = .other n → ∃ c, a = .kern c (.sleep n))

theorem Passive.same (e : s'.thread x = s.thread x) : Passive s a s' x :=
  .keep (s.thread x).killed e (.inl rfl)

/-! ## §3  Threads that do not act -/

theorem Sys.wakeup1_thread (ch : Chan) (x : ThreadPtr) :
    (s.wakeup1 ch).thread x = s.thread x ∨
      (s.thread x).state = .SLEEPING ∧ (s.thread x).chan = ch ∧
      (s.wakeup1 ch).thread x = { s.thread x with state := .RUNNABLE } ∧
      ((s.wakeup1 ch).proc x.1).state = .RUNNABLE := by
  cases hw : s.wakes ch x with
  | true =>
      obtain ⟨_, hs, hch⟩ := Sys.wakes_iff.mp hw
      exact .inr ⟨hs, hch, if_pos hw,
        congrArg Proc.state (if_pos ⟨x.2, hw⟩)⟩
  | false => exact .inl (if_neg (by simp [hw]))

/-- `wakeup1` changes no thread that is not asleep. -/
theorem Sys.wakeup1_awake {ch : Chan} (hs : (s.thread x).state ≠ .SLEEPING) :
    (s.wakeup1 ch).thread x = s.thread x :=
  (s.wakeup1_thread ch x).resolve_right fun h => hs h.1

theorem Sys.wakeup1_runnable {ch : Chan} {p : ProcId}
    (hp : (s.proc p).state = .RUNNABLE) :
    ((s.wakeup1 ch).proc p).state = .RUNNABLE := by
  simp only [Sys.wakeup1]
  split
  · rfl
  · exact hp

/-- A wake-up of a channel that is neither a mutex nor a thread. -/
theorem Passive.of_wakeup1 {s₁ : Sys Cpu} (ch : Chan)
    (hm : ∀ i, ch ≠ .mutex i) (hy : ∀ y, ch ≠ .thread y)
    (e : s'.thread x = (s₁.wakeup1 ch).thread x)
    (h₁ : s₁.thread x = s.thread x)
    (hp : s'.proc = (s₁.wakeup1 ch).proc) : Passive s a s' x := by
  rcases s₁.wakeup1_thread ch x with e₁ | ⟨hs, hch, e₁, hw⟩
  · exact .same (e.trans (e₁.trans h₁))
  · rw [h₁] at hs hch e₁
    exact .wake ch hs hch hm (fun y hc => absurd hc (hy y)) (e.trans e₁)
      (by rw [hp, hw]; nofun)

theorem Sys.exitLoop_thread_ne {k : ℕ} (hx : x ≠ r) :
    (s.exitLoop c r k).thread x = s.thread x := by
  unfold Sys.exitLoop
  split
  · rw [Sys.sleep_eq]
    exact s.leave_thread_ne _ _ _ _ _ _ _ hx
  · exact s.goto_ne r _ hx

theorem Passive.of_exitMark (hr : s.acting a = some r)
    (hpc : (s.thread r).pc = .exit) (hx : x ≠ r)
    (e : s'.thread x = (s.exitMark r).thread x) : Passive s a s' x := by
  by_cases hp : x.1 = r.1
  · replace e : s'.thread x = (s.thread x).exitMarked := e.trans (if_pos ⟨hp, hx⟩)
    by_cases hs : (s.thread x).state = .RUNNABLE ∨ (s.thread x).state = .SLEEPING
    · rw [Thread.exitMarked, if_pos hs] at e
      exact .mark _ hr ⟨hpc, hp, hx, hs⟩ e
    · rw [Thread.exitMarked, if_neg hs] at e
      refine .keep _ e ?_
      by_cases hu : (s.thread x).state = .UNUSED
      · exact .inl (by simp [hu])
      · exact .inr ⟨r, hr, hp, hx, hu, .inr ⟨hpc, not_or.mp hs⟩⟩
  · exact .same (e.trans (if_neg fun h => hp h.1))

theorem Passive.of_execMark (hr : s.acting a = some r)
    (hpc : (s.thread r).pc = .execKill)
    (e : s'.thread x = (s.execMark r).thread x) : Passive s a s' x := by
  by_cases hp : x.1 = r.1
  · replace e : s'.thread x = (s.thread x).execMarked (decide (x ≠ r)) :=
      e.trans (if_pos hp)
    by_cases hs : (s.thread x).state = .SLEEPING
    · rw [Thread.execMarked, if_pos hs] at e
      exact .execWake _ hr ⟨hpc, hp, hs⟩ e
    · rw [Thread.execMarked, if_neg hs] at e
      refine .keep _ e ?_
      by_cases hu : x ≠ r ∧ (s.thread x).state ≠ .UNUSED
      · exact .inr ⟨r, hr, hp, hu.1, hu.2, .inl hpc⟩
      · refine .inl ?_
        rw [← Bool.decide_and, decide_eq_false hu, Bool.or_false]
  · exact .same (e.trans (if_neg hp))

theorem Sys.parentChan_cases (p : ProcId) :
    s.parentChan p = .null ∨ ∃ q, s.parentChan p = .proc q := by
  unfold Sys.parentChan
  split
  · exact .inr ⟨_, rfl⟩
  · exact .inl rfl

/-- `exit`'s wake-ups go to parents. -/
theorem Passive.of_exitWake {p : ProcId}
    (e : s'.thread x = (s.exitWake p).thread x)
    (hp : (s'.proc x.1).state = .ZOMBIE ∨
      s'.proc x.1 = (s.exitWake p).proc x.1) : Passive s a s' x := by
  have hwake : ∀ ch, ch = .null ∨ (∃ q, ch = .proc q) →
      (s.thread x).state = .SLEEPING → (s.thread x).chan = ch →
      s'.thread x = { s.thread x with state := .RUNNABLE } →
      ((s.exitWake p).proc x.1).state = .RUNNABLE → Passive s a s' x := by
    intro ch hc hs hch e hw
    have hn : (s'.proc x.1).state ≠ .SLEEPING := by
      rcases hp with hp | hp
      · rw [hp]; nofun
      · rw [hp, hw]; nofun
    rcases hc with rfl | ⟨q, rfl⟩
    · exact .wake .null hs hch nofun nofun e hn
    · exact .wake (.proc q) hs hch nofun nofun e hn
  have hfirst : (s.reparent p).thread x = s.thread x ∨
      (s.thread x).state = .SLEEPING ∧ (s.thread x).chan = .proc initproc ∧
      (s.reparent p).thread x = { s.thread x with state := .RUNNABLE } ∧
      ((s.reparent p).proc x.1).state = .RUNNABLE := by
    unfold Sys.reparent
    split
    · exact (s.adopt p).wakeup1_thread _ x
    · exact .inl rfl
  rcases (s.reparent p).wakeup1_thread ((s.reparent p).parentChan p) x with
    e₂ | ⟨hs, hch, e₂, hw⟩
  · rcases hfirst with e₁ | ⟨hs, hch, e₁, hw⟩
    · exact .same (e.trans (e₂.trans e₁))
    · exact hwake _ (.inr ⟨_, rfl⟩) hs hch (e.trans (e₂.trans e₁))
        (Sys.wakeup1_runnable hw)
  · rcases hfirst with e₁ | ⟨_, _, e₁, _⟩
    · rw [e₁] at hs hch
      exact hwake _ ((s.reparent p).parentChan_cases p) hs hch
        (e.trans (e₂.trans (by rw [e₁]))) hw
    · rw [e₁] at hs
      cases hs

/-- A sibling that waits for the caller of `kthread_exit` keeps it from being
the last thread. -/
theorem Sys.live_of_not_allzombies {p : ProcId} {u : Slot}
    (h : ¬ s.allzombies p (some u)) :
    ∃ t, t ≠ u ∧ (s.thread (p, t)).state.dead = false := by
  simp only [Sys.allzombies, not_or, not_forall, Bool.not_eq_true] at h
  obtain ⟨_, t, ht, hd⟩ := h
  exact ⟨t, fun e => ht (congrArg some e), hd⟩

theorem Passive.of_kthreadExit (hx : x ≠ r) :
    Passive s a (s.kthreadExit r) x := by
  have hne : (s.kthreadExit r).thread x = (s.wakeup1 (.thread r)).thread x := by
    unfold Sys.kthreadExit
    simp only
    split
    · exact Sys.goto_ne _ _ _ hx
    · exact Sys.setThread_ne _ _ _ hx
  cases hw : s.wakes (.thread r) x with
  | false => exact .same (hne.trans (if_neg (by simp [hw])))
  | true =>
  obtain ⟨_, hs, hch⟩ := Sys.wakes_iff.mp hw
  have hproc : (s.kthreadExit r).proc = (s.wakeup1 (.thread r)).proc := by
    unfold Sys.kthreadExit
    simp only
    split <;> rfl
  refine .wake _ hs hch nofun ?_ (hne.trans (if_pos hw)) ?_
  swap
  · rw [hproc, show ((s.wakeup1 (.thread r)).proc x.1).state = .RUNNABLE from
      congrArg Proc.state (if_pos ⟨x.2, hw⟩)]
    nofun
  rintro _ ⟨⟩ hp
  have hnot : ¬ (s.wakeup1 (.thread r)).allzombies r.1 (some r.2) := by
    rintro (hz | hz)
    · have hst : ((s.wakeup1 (.thread r)).proc r.1).state = .RUNNABLE := by
        simp only [Sys.wakeup1]
        rw [if_pos ⟨x.2, by rw [hp]; exact hw⟩]
      rw [hst] at hz
      cases hz
    · have hd := hz x.2 fun e => hx (Prod.ext hp.symm (Option.some.inj e))
      rw [hp, show (x.1, x.2) = x from rfl] at hd
      have hst : ((s.wakeup1 (.thread r)).thread x).state = .RUNNABLE :=
        congrArg Thread.state (if_pos hw)
      rw [hst] at hd
      cases hd
  unfold Sys.kthreadExit
  simp only
  rw [if_neg hnot, Sys.setThread_self]

theorem Sys.reaps_of_join {u : Slot} {y : ThreadPtr}
    (hpc : (s.thread r).pc = .joinLock u ∨ (s.thread r).pc = .joinLoop u)
    (hz : (s.thread (r.1, u)).state = .ZOMBIE) (hy : y.1 = r.1 ∧ y.2 = u) :
    s.Reaps r y := by
  obtain rfl : y = (r.1, u) := Prod.ext hy.1 hy.2
  rcases hpc with e | e <;> rw [Sys.Reaps, e] <;> exact ⟨rfl, hz⟩

theorem Sys.reaps_of_wait {q : ProcId} {y : ThreadPtr}
    (hpc : (s.thread r).pc = .wait ∨ (s.thread r).pc = .waitLoop)
    (hq : s.deadChild r.1 = some q)
    (hy : y.1 = q ∧ (s.thread (q, y.2)).state ≠ .UNUSED) : s.Reaps r y := by
  obtain ⟨rfl, hy⟩ := hy
  rcases hpc with e | e <;> rw [Sys.Reaps, e] <;> exact ⟨hq, hy⟩

theorem Sys.reaps_of_exec {y : ThreadPtr} (hpc : (s.thread r).pc = .execWait)
    (hy : y.1 = r.1 ∧ y.2 ≠ r.2 ∧ (s.thread (r.1, y.2)).state = .ZOMBIE) :
    s.Reaps r y := by
  rw [Sys.Reaps, hpc]
  refine ⟨hy.1, fun e => hy.2.1 (congrArg Prod.snd e), ?_⟩
  rw [← hy.2.2, ← hy.1]

/-- The slots a reaper frees. -/
theorem Passive.of_freed (p : ProcId) (F : Slot → Prop) [DecidablePred F]
    (f : Thread → Thread) (pc : Pc) (hr : s.acting a = some r)
    (hk : ∀ y : ThreadPtr, y.1 = p ∧ F y.2 → s.Reaps r y)
    (hf : ∀ t : Thread, (f t).state = .UNUSED ∧ (f t).blocked = false ∧
      (f t).inop = t.inop ∧ (f t).locks = t.locks ∧ (f t).tid = -1 ∧
      ((f t).killed = false ∧ (f t).chan = .null ∨ (s.thread r).pc = .execWait ∧
        (f t).killed = t.killed ∧ (f t).chan = t.chan))
    (hv : (∀ y : ThreadPtr, y.1 = p ∧ F y.2 → (s.thread y).state = .ZOMBIE ∧
      s.Returns s' r y) ∨ (s'.proc p).state = .UNUSED)
    (hx : x ≠ r ∨ x.1 = p ∧ F x.2)
    (e : s'.thread x = ((s.freed p F f).goto r pc).thread x) :
    Passive s a s' x := by
  by_cases hF : x.1 = p ∧ F x.2
  · obtain ⟨pc', e'⟩ := s.freed_goto_eq (r := r) p F f pc x hF
    obtain ⟨h₁, h₂, h₃, h₄, h₅, h₆⟩ := hf (s.thread x)
    rw [e'] at e
    exact .reap hr (hk x hF) (by rw [e]; exact h₁) (by rw [e]; exact h₂)
      (by rw [e]; exact h₃) (by rw [e]; exact h₄) (by rw [e]; exact h₅)
      (by rw [e]; exact h₆) (hv.imp (fun hz => hz x hF) (hF.1 ▸ id))
  · refine .same (e.trans ?_)
    rw [Sys.goto_ne _ _ _ (hx.resolve_right hF), Sys.freed_of_not s p F f hF]

theorem Passive.of_killWake {p : ProcId} {pid : ℤ} (hr : s.acting a = some r)
    (hpc : (s.thread r).pc = .kill pid) (hp : s.procOfPid pid = some p)
    (e : s'.thread x =
      ((s.setProc p fun y => { y with killed := true }).killWake p).thread x)
    (e' : s'.proc =
      ((s.setProc p fun y => { y with killed := true }).killWake p).proc) :
    Passive s a s' x := by
  unfold Sys.killWake at e
  split at e
  case isFalse => exact .same e
  case isTrue hst =>
    rw [Sys.setProc_self] at hst
    split at e
    case h_2 => exact .same e
    case h_1 t ht =>
      by_cases hx : x = (p, t)
      · subst hx
        have hsl : s.sleepingSlot p = some t := ht
        refine .killWake hr ?_ (by simpa using List.find?_some hsl)
          (e.trans (Sys.setThread_self _ _ _)) ?_
        · rw [Sys.KillWakes, hpc]
          exact ⟨hp, hst, hsl⟩
        · rw [e', Sys.killWake, if_pos (by rw [Sys.setProc_self]; exact hst)]
          split <;> exact congrArg Proc.state (Sys.setPState_self _ p _)
      · exact .same (e.trans (Sys.setThread_ne _ _ _ hx))

theorem Passive.of_handOff {i : MutexId} {u : Slot} (hr : s.acting a = some r)
    (hpc : (s.thread r).pc = .mutexUnlockScan i) (hu : s.waiter r i = some u)
    (hx : x ≠ r) : Passive s a (s.handOff r i u) x := by
  by_cases hxu : x = (r.1, u)
  · subst hxu
    refine .handOff hr ?_ (Sys.waiter_some hu).2 ?_
    · rw [Sys.HandsOff, hpc]
      exact ⟨rfl, hu⟩
    · simp [Sys.handOff, Sys.releaseMt, Sys.setThread, Function.update_of_ne hx]
  · refine .same ?_
    simp [Sys.handOff, Sys.releaseMt, Sys.setThread, Function.update_of_ne hx,
      Function.update_of_ne hxu]

/-- The acting thread changes one slot and its own. -/
theorem Passive.of_slot {y : ThreadPtr} {f : Thread → Thread} {pc : Pc}
    (e : s'.thread x = ((s.setThread y f).goto r pc).thread x) (hx : x ≠ r)
    (hy : x = y → s'.thread x = f (s.thread x) → Passive s a s' x) :
    Passive s a s' x := by
  rw [Sys.goto_ne _ _ _ hx] at e
  by_cases hxy : x = y
  · subst hxy
    exact hy rfl (e.trans (s.setThread_self x f))
  · exact .same (e.trans (s.setThread_ne y f hxy))

theorem Passive.of_scheduler : Passive s (.sched c) (s.scheduler c) x := by
  unfold Sys.scheduler
  split
  case h_1 y hy =>
    by_cases hx : x = y
    · subst hx
      exact .dispatch rfl (s.pick_some hy).1 Sys.dispatch_thread_self
    · exact .same (Sys.dispatch_thread_ne hx)
  case h_2 => exact .same rfl

theorem Section.passive (h : Inv s) (hr : s.cpu c = .run r)
    (hs : Section s c r a s') (hp : s'.panicked = none) (hx : x ≠ r) :
    Passive s a s' x := by
  have hpr := h.present_of_run hr
  have hact : s.acting (.run c) = some r := Sys.acting_run hr
  cases hs with
  | halt hn => exact absurd hp hn
  | move | fault | ret | moveMt | refuseMt | mutexEnter | mutexLockWoken
  | mutexAlloc | mutexAllocMid | mutexDeallocClear | forkClaim | forkFail
  | forkCopied | forkRunnable | execClear | exitFile | exitClose =>
      exact .same (Sys.goto_ne _ _ _ hx)
  | sleep =>
      rw [Sys.sleep_eq]
      exact .same (s.leave_thread_ne _ _ _ _ _ _ _ hx)
  | mutexLockSleep =>
      rw [Sys.mutexLockSleep, Sys.sleep_eq]
      exact .same (Sys.leave_thread_ne _ _ _ _ _ _ _ _ hx)
  | yield _ _ _ _ =>
      rw [Sys.yield_eq]
      exact .same (s.leave_thread_ne _ _ _ _ _ _ _ hx)
  | wakeup n _ _ => exact .of_wakeup1 (.other n) (by simp) (by simp) rfl rfl rfl
  | logWrite | setFile => exact .same rfl
  | beginOp _ _ hw =>
      rw [Sys.beginOp, if_neg (by simp [hw])]
      exact .same (by simp [hx])
  | endOp _ _ _ hc =>
      rw [Sys.endOp, if_neg (by simp [hc])]
      simp only
      split
      · exact .same ((Sys.goto_ne _ _ _ hx).trans (by simp [hx]))
      · exact .of_wakeup1 .log (by simp) (by simp) rfl (by simp [hx]) rfl
  | endCommit =>
      exact .of_wakeup1 .log (by simp) (by simp) (Sys.goto_ne _ _ _ hx) rfl rfl
  | takeSleep _ _ => exact .same (by simp [Sys.takeSleep, hx])
  | releasesleep l _ _ _ =>
      exact .of_wakeup1 (.sleeplock l) (by simp) (by simp) rfl (by simp [hx]) rfl
  | exit hpc _ => exact .of_exitMark hact hpc hx (Sys.exitLoop_thread_ne hx)
  | exitWait _ _ => exact .same (Sys.exitLoop_thread_ne hx)
  | exitFinal _ _ =>
      rw [Sys.exitFinal_eq]
      refine .of_exitWake (p := r.1) (Sys.leave_thread_ne _ _ _ _ _ _ _ _ hx) ?_
      by_cases hq : x.1 = r.1
      · exact .inl (by rw [hq, Sys.leave_proc_self])
      · exact .inr (Sys.leave_proc_ne _ _ _ _ _ _ _ _ hq)
  | kthreadExit _ _ => exact .of_kthreadExit hx
  | kthreadExitSched _ _ hs =>
      rw [Sys.kthreadExitSched_eq s c r hs]
      exact .same (s.leave_thread_ne _ _ _ _ _ _ _ hx)
  | @join u hpc _ hz =>
      refine .of_freed r.1 (· = u) Thread.cleared (.sysret 0) hact
        (fun y hy => Sys.reaps_of_join hpc hz hy)
        (fun _ => ⟨rfl, rfl, rfl, rfl, rfl, .inl ⟨rfl, rfl⟩⟩)
        (.inl fun y hy => ?_) (.inl hx) rfl
      obtain rfl : y = (r.1, u) := Prod.ext hy.1 hy.2
      exact ⟨hz, .inr ⟨rfl, congrArg Thread.pc (Sys.goto_self _ r _), hpc⟩⟩
  | @wait q hpc _ hq =>
      exact .of_freed q (fun t => (s.thread (q, t)).state ≠ .UNUSED)
        Thread.cleared (.sysret (s.proc q).pid) hact
        (fun y hy => Sys.reaps_of_wait hpc hq hy)
        (fun _ => ⟨rfl, rfl, rfl, rfl, rfl, .inl ⟨rfl, rfl⟩⟩)
        (.inr (congrArg Proc.state (Sys.setProc_self _ q Proc.vacated)))
        (.inl hx) rfl
  | execWait hpc _ =>
      refine .of_freed r.1 (fun t => t ≠ r.2 ∧ (s.thread (r.1, t)).state = .ZOMBIE)
        Thread.reaped _ hact (fun y hy => Sys.reaps_of_exec hpc hy)
        (fun _ => ⟨rfl, rfl, rfl, rfl, rfl, .inr ⟨hpc, rfl, rfl⟩⟩)
        (.inl fun y hy => ⟨?_, .inl hpc⟩) (.inl hx) rfl
      rw [← hy.2.2, ← hy.1]
  | create hpc _ hu =>
      refine .of_slot rfl hx fun hxu e => ?_
      subst hxu
      exact .create hact ⟨hpc, rfl, hu⟩ (s.unusedSlot_some hu) e
  | createStack ok hpc =>
      have hE := h.embryo_of_creates hpr (u := _) (by rw [hpc]; rfl)
      cases ok with
      | true =>
          refine .of_slot rfl hx fun hxu e => ?_
          subst hxu
          exact .stack hE e
      | false =>
          refine .of_slot rfl hx fun hxu e => ?_
          subst hxu
          exact .drop hE _ e ⟨c, r, hr, .inl ⟨rfl, hpc⟩⟩
  | createPublish hpc _ =>
      have hfact := h.slot.fact hpr
      rw [hpc] at hfact
      refine .of_slot rfl hx fun hxu e => ?_
      subst hxu
      exact .publish hfact e
  | kill hpc _ hk => exact .of_killWake hact hpc hk (Sys.goto_ne _ _ _ hx) rfl
  | execKill hpc _ =>
      exact .of_execMark hact hpc (Sys.goto_ne _ _ _ hx)
  | forkThread hpc _ =>
      unfold Sys.forkThread
      split
      case h_1 u hu =>
        refine .of_slot rfl hx fun hxu e => ?_
        subst hxu
        exact .fork hr hpc (s.unusedSlot_some hu) e
      case h_2 => exact .same (s.goto_ne r _ hx)
  | forkStack ok hpc =>
      have hfact := h.slot.fact hpr
      rw [hpc] at hfact
      obtain ⟨_, _, hE, _⟩ := hfact
      cases ok with
      | true =>
          refine .of_slot rfl hx fun hxu e => ?_
          subst hxu
          exact .stack hE e
      | false =>
          refine .of_slot rfl hx fun hxu e => ?_
          subst hxu
          exact .drop hE _ e ⟨c, r, hr, .inr (by rw [hpc]; rfl)⟩
  | @forkUncopied _ q hpc =>
      have hfact := h.slot.fact hpr
      rw [hpc] at hfact
      obtain ⟨_, _, hE, _⟩ := hfact
      by_cases hF : x.1 = q ∧ x.2 = 0
      · obtain ⟨x₁, x₂⟩ := x
        obtain ⟨rfl, rfl⟩ := hF
        exact .drop hE none ((Sys.goto_ne _ _ _ hx).trans
          (s.freed_of x₁ (· = 0) Thread.uncopied ⟨rfl, rfl⟩))
          ⟨c, r, hr, .inr (by rw [hpc]; rfl)⟩
      · exact .same ((Sys.goto_ne _ _ _ hx).trans
          (s.freed_of_not q (· = 0) Thread.uncopied hF))
  | forkThreadRunnable hpc _ =>
      have hfact := h.slot.fact hpr
      rw [hpc] at hfact
      refine .of_slot rfl hx fun hxu e => ?_
      subst hxu
      exact .publish hfact.2.2 e
  | mutexDeallocLocked _ hi =>
      rw [Sys.mutexDeallocLocked, if_neg (by simp [hi])]
      exact .same (s.goto_ne r _ hx)
  | mutexLockBlock _ _ => exact .same (Sys.setThread_ne _ _ _ hx)
  | @mutexLockTake _ i _ =>
      exact .same (s.setThread_ne r
        (fun t => { t with pc := .sysret 0, holds := insert i t.holds }) hx)
  | handOff hpc _ hu => exact .of_handOff hact hpc hu hx
  | @mutexUnlockFree _ i _ =>
      exact .same (s.setThread_ne r
        (fun t => { t with pc := .sysret 0, holds := t.holds.erase i }) hx)

/-- A thread that is handed a mutex sleeps in `kthread_mutex_lock`. -/
theorem Inv.woken_of_handsOff (h : Inv s) {i : MutexId} (hr : s.acting a = some r)
    (hk : s.HandsOff r x) (hw : s.Waits x i) :
    s.Present x ∧ (s.thread x).pc = .mutexLockWoken i ∧
      (s.thread x).context = some .sleep := by
  obtain ⟨c, hc⟩ := Sys.run_of_acting hr
  unfold Sys.HandsOff at hk
  split at hk
  case h_1 j hpc =>
    have hxr : x ≠ r := fun e => (Sys.waiter_some hk.2).1 (congrArg Prod.snd e)
    exact h.woken_of_waits hw (h.others_outside (h.present_of_run hc)
      (.inr (by rw [hpc]; rfl)) (h.mutex.blocked hw.1).1 hxr)
  case h_2 => exact hk.elim

/-! ## §4  The thread that acts -/

theorem Pc.entered_of_plain {pc : Pc} (h : pc.plain = true) :
    pc.entered = true := by
  cases pc <;> first | rfl | cases h

theorem Pc.goesOn_of_plain {pc : Pc} (h : pc.plain = true) :
    pc.goesOn = true := by
  cases pc <;> first | rfl | cases h

theorem GoesOn.of_moves {t : Thread} {pc' : Pc} (h : Moves t pc') : GoesOn t pc' :=
  ⟨Pc.goesOn_of_plain h.old, Pc.entered_of_plain h.new, h.fs, h.begin, h.tearing⟩

/-- A move outside file system code and outside the second part of `exit`. -/
def Pc.goesTo (pc pc' : Pc) : Bool :=
  pc.goesOn && pc'.entered && !pc.inFs && !pc'.inFs && !pc.tearing && !pc'.tearing

theorem GoesOn.of_pc {t : Thread} {pc pc' : Pc} (hpc : t.pc = pc)
    (h : pc.goesTo pc' = true) : GoesOn t pc' := by
  subst hpc
  simp only [Pc.goesTo, Bool.and_eq_true, Bool.not_eq_true'] at h
  obtain ⟨⟨⟨⟨⟨hold, hnew⟩, hfs⟩, hfs'⟩, ht⟩, ht'⟩ := h
  refine ⟨hold, hnew, fun e => absurd (hfs.symm.trans e) (by decide), ?_,
    ht'.trans ht.symm⟩
  rintro k rfl
  cases hfs'

theorem GoesOn.of_movesMt {pc pc' : Pc} (hpc : (s.thread r).pc = pc)
    (h : MovesMt s r pc pc') : GoesOn (s.thread r) pc' := by
  cases h <;> exact .of_pc hpc rfl

theorem GoesOn.of_entersMt {i : MutexId} {pc pc' : Pc}
    (hpc : (s.thread r).pc = pc) (h : EntersMt pc i pc') :
    GoesOn (s.thread r) pc' := by
  cases h <;> exact .of_pc hpc rfl

theorem GoesOn.of_returns {t : Thread} {v : ℤ} (h : t.pc.returns = true) :
    GoesOn t (.sysret v) := by
  cases hpc : t.pc <;> rw [hpc] at h <;> first | cases h; done | skip
  all_goals exact .of_pc hpc rfl

theorem GoesOn.of_refusesMt {t : Thread} {v : ℤ} (h : t.pc.refusesMt = true) :
    GoesOn t (.sysret v) := by
  cases hpc : t.pc <;> rw [hpc] at h <;> first | cases h; done | skip
  all_goals exact .of_pc hpc rfl

/-- One pass of `exit`'s closing loop. -/
theorem GoesOn.closing {t : Thread} {p : ProcId} {k : ℕ}
    (hg : t.pc.goesOn = true) (ht : t.pc.tearing = true) :
    GoesOn t (s.closing p k) := by
  rcases s.closing_cases p k with ⟨fd, e⟩ | e
  · rw [e]
    exact ⟨hg, rfl, nofun, nofun, ht.symm⟩
  · rw [e]
    exact ⟨hg, rfl, nofun, nofun, ht.symm⟩

theorem Sys.closes_of_le {pc pc' : Pc} (h : pc'.closed ≤ pc.closed) :
    s.Closes r pc pc' :=
  fun _ hfd => .inl (hfd.trans_le h)

theorem Sys.closes_zero {pc pc' : Pc} (h : pc'.closed = 0) : s.Closes r pc pc' :=
  Sys.closes_of_le (h.trans_le (Nat.zero_le _))

theorem Pc.closed_eq_zero {pc : Pc} (hfs : pc.inFs = false)
    (ht : pc.tearing = false) : pc.closed = 0 := by
  cases pc <;> first | rfl | (cases hfs; done) | cases ht

theorem Sys.closes_of_goesTo {pc pc₁ pc' : Pc} (h : pc.goesTo pc' = true) :
    s.Closes r pc₁ pc' := by
  simp only [Pc.goesTo, Bool.and_eq_true, Bool.not_eq_true'] at h
  obtain ⟨⟨⟨_, hfs⟩, _⟩, ht⟩ := h
  exact Sys.closes_zero (Pc.closed_eq_zero hfs ht)

/-- The slots before the first one that a search finds do not pass its test. -/
theorem find?_finRange_lt {n : ℕ} {f : Fin n → Bool} {u v : Fin n}
    (h : (List.finRange n).find? f = some u) (hv : v < u) : f v = false := by
  obtain ⟨_, as, bs, hl, has⟩ := List.find?_eq_some_iff_append.mp h
  have hmem : v ∈ as ++ u :: bs := hl ▸ List.mem_finRange v
  have hsort : (as ++ u :: bs).Pairwise (· < ·) := hl ▸ List.pairwise_lt_finRange n
  rcases List.mem_append.mp hmem with hm | hm
  · simpa using has v hm
  · rcases List.mem_cons.mp hm with rfl | hm
    · exact absurd hv (lt_irrefl _)
    · have := (List.pairwise_cons.mp (List.pairwise_append.mp hsort).2.1).1 v hm
      exact absurd (hv.trans this) (lt_irrefl _)

/-- The closing loop, started at descriptor `k`, has found the ones that it has
passed closed. -/
theorem Sys.closes_closing {s₁ : Sys Cpu} {pc : Pc} {k : ℕ}
    (ho : (s.proc r.1).ofile = (s₁.proc r.1).ofile)
    (hk : ∀ fd : Fd, fd.val < k → fd.val < pc.closed ∨
      (s₁.proc r.1).ofile fd = false) : s.Closes r pc (s₁.closing r.1 k) := by
  intro fd hfd
  rcases Nat.lt_or_ge fd.val k with h | h
  · rw [ho]
    exact hk fd h
  · refine .inr (Bool.eq_false_iff.mpr fun hb => ?_)
    rw [ho] at hb
    have hopen : (decide (k ≤ fd.val) && (s₁.proc r.1).ofile fd) = true := by
      rw [hb, decide_eq_true h]
      rfl
    unfold Sys.closing at hfd
    split at hfd
    case h_1 fd' hn =>
      have := find?_finRange_lt hn (show fd < fd' from hfd)
      rw [hopen] at this
      cases this
    case h_2 hn =>
      exact List.find?_eq_none.mp hn fd (List.mem_finRange fd) hopen

theorem Sys.enters_closing {s₁ : Sys Cpu} {p : ProcId} {k : ℕ} :
    s.Enters r a (s₁.closing p k) := by
  rcases s₁.closing_cases p k with ⟨fd, e⟩ | e
  · rw [e]
    trivial
  · rw [e]
    trivial

/-- The thread goes on, after sections that leave its slot alone. -/
theorem Active.of_goto (s₁ : Sys Cpu) {pc' : Pc} (g : GoesOn (s.thread r) pc')
    (h₁ : s₁.thread r = s.thread r)
    (e : s'.thread r = (s₁.goto r pc').thread r) (he : s.Enters r a pc')
    (hcl : s'.Closes r (s.thread r).pc pc') : Active s a s' r := by
  rw [Sys.goto_self, h₁] at e
  exact .goOn pc' _ g e he hcl

theorem Active.of_pc (s₁ : Sys Cpu) {pc : Pc} (pc' : Pc)
    (hpc : (s.thread r).pc = pc) (h : pc.goesTo pc' = true)
    (h₁ : s₁.thread r = s.thread r)
    (e : s'.thread r = (s₁.goto r pc').thread r) (he : s.Enters r a pc') :
    Active s a s' r :=
  .of_goto s₁ (.of_pc hpc h) h₁ e he (Sys.closes_of_goesTo h)

theorem Sys.killWake_awake {p : ProcId} {f : Proc → Proc}
    (hx : (s.thread x).state ≠ .SLEEPING) :
    ((s.setProc p f).killWake p).thread x = s.thread x := by
  unfold Sys.killWake
  split
  case isFalse => rfl
  case isTrue =>
    split
    case h_2 => rfl
    case h_1 t ht =>
      refine Sys.setThread_ne _ _ _ ?_
      rintro rfl
      have hsl : s.sleepingSlot p = some t := ht
      exact hx (by simpa using List.find?_some hsl)

theorem Sys.exitWake_awake {p : ProcId} (hx : (s.thread x).state ≠ .SLEEPING) :
    (s.exitWake p).thread x = s.thread x := by
  have h₁ : (s.reparent p).thread x = s.thread x := by
    unfold Sys.reparent
    split
    · exact Sys.wakeup1_awake hx
    · rfl
  exact (Sys.wakeup1_awake (by rwa [h₁])).trans h₁

theorem Sys.execMark_self (hx : (s.thread r).state ≠ .SLEEPING) :
    (s.execMark r).thread r = s.thread r := by
  simp [Sys.execMark, Thread.execMarked, hx]

theorem Sys.exitMark_self : (s.exitMark r).thread r = s.thread r :=
  if_neg fun h => h.2 rfl

/-- `exit`'s loop passes a slot from `k` on only if it is dead. -/
theorem Sys.dead_of_exitNext {k : ℕ} {v : Slot} (hk : k ≤ v.val) (hv : v ≠ r.2)
    (h : ∀ u, s.exitNext r k = some u → v < u) :
    (s.thread (r.1, v)).state.dead = true := by
  have hf : (decide (k ≤ v.val) && decide (v ≠ r.2) &&
      !(s.thread (r.1, v)).state.dead) = false := by
    cases hn : s.exitNext r k with
    | some u => exact find?_finRange_lt hn (h u hn)
    | none =>
        have := List.find?_eq_none.mp hn v (List.mem_finRange v)
        simpa using this
  simpa [hk, hv] using hf

theorem LeavesLoop.of_exitNext {s₁ : Sys Cpu} {k : ℕ}
    (hpc : (s.thread r).pc = .exit ∨ ∃ u, (s.thread r).pc = .exitWait u)
    (hk : ∀ v : Slot, (∀ w, (s.thread r).pc = .exitWait w → w < v) → k ≤ v.val)
    (h₁ : s₁.thread r = s.thread r) (hn : s₁.exitNext r k = none) :
    LeavesLoop s (s₁.exitLoop c r k) r where
  old := hpc
  dead v hv hw := by
    rw [Sys.exitLoop_thread_ne fun e => hv (congrArg Prod.snd e)]
    exact Sys.dead_of_exitNext (hk v hw) hv fun u hu => by rw [hn] at hu; cases hu
  exiting := by
    rw [Sys.exitLoop, hn]
    exact congrArg Proc.exiting (s₁.setProc_self r.1 fun x =>
      { x with exiting := some r.2 })
  thread := by
    rw [Sys.exitLoop, hn]
    exact (Sys.goto_self _ _ _).trans (congrArg (fun t : Thread =>
      { t with pc := .exitClose }) h₁)

theorem Active.of_exitLoop {s₁ : Sys Cpu} {k : ℕ}
    (hpc : (s.thread r).pc = .exit ∨ ∃ u, (s.thread r).pc = .exitWait u)
    (hk : ∀ v : Slot, (∀ w, (s.thread r).pc = .exitWait w → w < v) → k ≤ v.val)
    (h₁ : s₁.thread r = s.thread r) (ha : s.acting a = some r)
    (ho : (s.thread r).pc = .exit → ∀ y, y.1 = r.1 → y ≠ r →
      s₁.thread y = (s.thread y).exitMarked) :
    Active s a (s₁.exitLoop c r k) r := by
  cases hn : s₁.exitNext r k with
  | some u =>
      refine .exitWait u hpc (fun v hvu hv hw => ?_) ?_ ?_ ha fun he y hy hne =>
        (Sys.exitLoop_thread_ne hne).trans (ho he y hy hne)
      · rw [Sys.exitLoop_thread_ne fun e => hv (congrArg Prod.snd e)]
        refine Sys.dead_of_exitNext (hk v hw) hv fun u' hu' => ?_
        rw [hn] at hu'
        exact Option.some.inj hu' ▸ hvu
      · rw [Sys.exitLoop, hn]
        simp only
        rw [Sys.sleep_eq, Sys.leave_thread_self, h₁]
      · rw [Sys.exitLoop, hn]
        exact .sleep
  | none => exact .exitClose (.of_exitNext hpc hk h₁ hn)

theorem Section.active (h : Inv s) (hr : s.cpu c = .run r)
    (hs : Section s c r a s') (hp : s'.panicked = none) :
    Active s a s' r ∨ Passive s a s' r := by
  have hpr := h.present_of_run hr
  have hact : s.acting (.run c) = some r := Sys.acting_run hr
  have hnsl : (s.thread r).state ≠ .SLEEPING := by
    rcases h.cpu.state hr with e | ⟨e, _⟩ <;> simp [e]
  have hne : ∀ y, (s.thread y).state = .UNUSED ∨ (s.thread y).state = .EMBRYO →
      r ≠ y := by
    rintro y hy rfl
    rcases h.cpu.state hr with e | ⟨e, _⟩ <;> simp [e] at hy
  cases hs with
  | halt hn => exact absurd hp hn
  | move hm he =>
      exact .inl (.of_goto s (.of_moves hm) rfl rfl he (Sys.closes_of_le hm.closed))
  | fault hpc => exact .inl (.of_pc s (.checkThread .user) hpc rfl rfl rfl trivial)
  | ret v hpc _ =>
      exact .inl (.of_goto s (.of_returns hpc) rfl rfl trivial (Sys.closes_zero rfl))
  | sleep hpc hsl _ ht hn =>
      subst hpc
      refine .inl (.leave (.sleep hsl) ?_ (fun _ => .sleep) (by simp) (fun _ => ht)
        fun _ n e => ⟨c, hn n e⟩)
      rw [Sys.sleep_eq]
      exact s.leave_thread_self _ _ _ _ _ _ _
  | yield hpc hy _ hst =>
      subst hpc
      rw [Sys.yield_eq]
      exact .inl (.leave (.yield hy (hst.elim (h.running hr) id))
        (s.leave_thread_self _ _ _ _ _ _ _) (by simp) (by simp) (by simp) (by simp))
  | wakeup n _ _ => exact .inr (.same (Sys.wakeup1_awake hnsl))
  | logWrite | setFile => exact .inr (.same rfl)
  | beginOp hpc _ hw =>
      rw [Sys.beginOp, if_neg (by simp [hw])]
      exact .inl (.beginOp hpc (by simp))
  | @endOp _ k hpc _ hi hc =>
      rw [Sys.endOp, if_neg (by simp [hc])]
      simp only
      split
      · have hk : (After.commit k).root = k.root ∧
            (After.commit k).closed = k.closed := ⟨rfl, rfl⟩
        exact .inl (.endOp hpc hi hk (by simp))
      · refine .inl (.endOp hpc hi ⟨rfl, rfl⟩ ?_)
        rw [Sys.wakeup1_awake (by simpa using hnsl)]
        simp [← hpc]
  | @endCommit _ k hpc _ _ _ =>
      have g : GoesOn (s.thread r) (.kern k) :=
        ⟨by rw [hpc]; rfl, rfl, by rintro _ ⟨⟩, by simp, by rw [hpc]; rfl⟩
      exact .inl (.of_goto _ g (Sys.wakeup1_awake hnsl) rfl trivial
        (Sys.closes_of_le (by rw [hpc]; exact le_rfl)))
  | takeSleep hpc _ => exact .inl (.acquire hpc (by simp [Sys.takeSleep]))
  | releasesleep l hpc _ hm =>
      refine .inl (.release hpc hm ?_)
      rw [Sys.releasesleep, Sys.wakeup1_awake (by simpa using hnsl)]
      simp
  | @exitFile _ fd hpc hi hk =>
      refine .inl (.of_goto (s.setFile r.1 fd false)
        (.closing (by rw [hpc]; rfl) (by rw [hpc]; rfl)) rfl rfl Sys.enters_closing
        (Sys.closes_closing rfl fun fd' hlt => ?_))
      rcases Nat.lt_succ_iff_lt_or_eq.mp hlt with hlt | e
      · rw [hpc]
        exact .inl hlt
      · obtain rfl : fd' = fd := Fin.ext e
        exact .inr (by simp [Sys.setFile])
  | exitClose hpc =>
      exact .inl (.of_goto s (.closing (by rw [hpc]; rfl) (by rw [hpc]; rfl)) rfl rfl
        Sys.enters_closing (Sys.closes_closing rfl (by simp)))
  | exit hpc _ =>
      exact .inl (.of_exitLoop (.inl hpc) (fun v _ => Nat.zero_le _)
        Sys.exitMark_self hact fun _ y hy hne => if_pos ⟨hy, hne⟩)
  | exitWait hpc _ =>
      exact .inl (.of_exitLoop (.inr ⟨_, hpc⟩) (fun v hv => hv _ hpc) rfl hact
        fun e => absurd (hpc.symm.trans e) (by simp))
  | exitFinal hpc _ =>
      rw [Sys.exitFinal_eq, Sys.exitWake_awake hnsl]
      refine .inl (.leave (.final hpc) ?_ (by simp) (fun _ _ => ?_) (by simp) (by simp))
      · rw [Sys.leave_thread_self, Sys.exitWake_awake hnsl]
      · rw [Sys.leave_proc_self]
  | kthreadExit hpc _ =>
      have hself : (s.wakeup1 (.thread r)).thread r = s.thread r :=
        Sys.wakeup1_awake hnsl
      unfold Sys.kthreadExit
      simp only
      split
      case isTrue => exact .inl (.of_pc _ .exit hpc rfl hself rfl trivial)
      case isFalse hz =>
        refine .inl (.die hpc ?_ (fun y hy => Sys.setThread_ne _ _ _ hy) hact ?_)
        · rw [Sys.setThread_self, hself]
        · obtain ⟨t, ht, hd⟩ := Sys.live_of_not_allzombies hz
          have hne : (r.1, t) ≠ r := fun e => ht (congrArg Prod.snd e)
          exact ⟨t, ht, by rw [Sys.setThread_ne _ _ _ hne]; exact hd⟩
  | kthreadExitSched hpc _ hs =>
      have hz : (s.thread r).state = .ZOMBIE := by
        rcases h.cpu.state hr with e | ⟨e, _⟩
        · exact absurd e hs
        · exact e
      rw [Sys.kthreadExitSched_eq s c r hs]
      refine .inl (.leave (.gap hpc hz) ?_ (by simp) (fun _ e => ?_) (by simp) (by simp))
      · rw [Sys.leave_thread_self, hz]
      · exact absurd (hpc.symm.trans e) (by simp)
  | @join u hpc _ hz =>
      have hF : ¬ (r.1 = r.1 ∧ r.2 = u) := by
        rintro ⟨_, rfl⟩
        have := h.running hr (by rcases hpc with e | e <;> rw [e] <;> simp)
        rw [show (r.1, r.2) = r from rfl, this] at hz
        cases hz
      have hself := s.freed_of_not r.1 (· = u) Thread.cleared hF
      rcases hpc with hpc | hpc <;>
        exact .inl (.of_pc _ (.sysret 0) hpc rfl hself rfl trivial)
  | @wait q hpc _ hq =>
      by_cases hF : r.1 = q ∧ (s.thread (q, r.2)).state ≠ .UNUSED
      · exact .inr (.of_freed q (fun t => (s.thread (q, t)).state ≠ .UNUSED)
          Thread.cleared (.sysret (s.proc q).pid) hact
          (fun y hy => Sys.reaps_of_wait hpc hq hy)
          (fun _ => ⟨rfl, rfl, rfl, rfl, rfl, .inl ⟨rfl, rfl⟩⟩)
          (.inr (congrArg Proc.state (Sys.setProc_self _ q Proc.vacated)))
          (.inr hF) rfl)
      · have hself := s.freed_of_not q
          (fun t => (s.thread (q, t)).state ≠ .UNUSED) Thread.cleared hF
        rcases hpc with hpc | hpc <;>
          exact .inl (.of_pc _ (.sysret (s.proc q).pid) hpc rfl hself rfl trivial)
  | execWait hpc _ =>
      have hself := s.freed_of_not r.1
        (fun t => t ≠ r.2 ∧ (s.thread (r.1, t)).state = .ZOMBIE) Thread.reaped
        (x := r) fun e => e.2.1 rfl
      refine .inl (.of_goto _ ?_ hself rfl ?_ ?_)
      · split <;> exact .of_pc hpc rfl
      · split
        · trivial
        · exact ⟨⟨c, rfl, hr⟩, .inr hpc⟩
      · split <;> exact Sys.closes_zero rfl
  | @create u hpc _ hu =>
      exact .inl (.of_pc _ (.createStack u) hpc rfl
        (s.setThread_ne _ _ (hne _ (.inl (s.unusedSlot_some hu)))) rfl trivial)
  | createStack ok hpc =>
      have hE := hne _ (.inr (h.embryo_of_creates hpr (by rw [hpc]; rfl)))
      cases ok <;>
        exact .inl (.of_pc _ _ hpc rfl (s.setThread_ne _ _ hE) rfl trivial)
  | createPublish hpc _ =>
      have hE := hne _ (.inr (h.embryo_of_creates hpr (by rw [hpc]; rfl)))
      exact .inl (.of_pc _ _ hpc rfl (s.setThread_ne _ _ hE) rfl trivial)
  | kill hpc _ hk => exact .inl (.of_pc _ _ hpc rfl (Sys.killWake_awake hnsl) rfl trivial)
  | execKill hpc _ =>
      exact .inl (.of_pc _ _ hpc rfl (Sys.execMark_self hnsl) rfl
        ⟨⟨c, rfl, hr⟩, .inl hpc⟩)
  | execClear hpc _ =>
      have g : GoesOn (s.thread r) (.kern .exec) :=
        ⟨by rw [hpc]; rfl, rfl, by rintro _ ⟨⟩, by simp, by rw [hpc]; rfl⟩
      exact .inl (.of_goto s g rfl rfl trivial (Sys.closes_zero rfl))
  | forkClaim hpc => exact .inl (.of_pc s _ hpc rfl rfl rfl ⟨⟨c, rfl, hr⟩, hpc⟩)
  | forkThread hpc _ =>
      unfold Sys.forkThread
      split
      case h_1 u hu =>
        exact .inl (.of_pc _ _ hpc rfl
          (s.setThread_ne _ _ (hne _ (.inl (s.unusedSlot_some hu)))) rfl hpc)
      case h_2 => exact .inl (.of_pc s _ hpc rfl rfl rfl (.inl hpc))
  | forkStack ok hpc =>
      have hfact := h.slot.fact hpr
      rw [hpc] at hfact
      have hE := hne _ (.inr hfact.2.2.1)
      cases ok with
      | false =>
          exact .inl (.of_pc _ _ hpc rfl (s.setThread_ne _ _ hE) rfl
            (.inr ⟨_, hpc⟩))
      | true =>
          exact .inl (.of_pc _ _ hpc rfl (s.setThread_ne _ _ hE) rfl ⟨_, hpc⟩)
  | forkFail hpc => exact .inl (.of_pc s _ hpc rfl rfl rfl trivial)
  | @forkCopied _ q hpc =>
      exact .inl (.of_pc (s.copyFiles r.1 q) _ hpc rfl rfl rfl ⟨hpc, rfl⟩)
  | @forkUncopied _ q hpc =>
      have hfact := h.slot.fact hpr
      rw [hpc] at hfact
      have hF : ¬ (r.1 = q ∧ r.2 = 0) := fun e =>
        hne (q, 0) (.inr hfact.2.2.1) (Prod.ext e.1 e.2)
      exact .inl (.of_pc _ _ hpc rfl
        (s.freed_of_not q (· = 0) Thread.uncopied hF) rfl trivial)
  | forkThreadRunnable hpc _ =>
      have hfact := h.slot.fact hpr
      rw [hpc] at hfact
      have hE := hne _ (.inr hfact.2.2.1)
      exact .inl (.of_pc _ _ hpc rfl (s.setThread_ne _ _ hE) rfl hpc)
  | forkRunnable hpc _ => exact .inl (.of_pc s _ hpc rfl rfl rfl trivial)
  | mutexAlloc hpc _ _ => exact .inl (.of_pc s _ hpc rfl rfl rfl trivial)
  | @mutexAllocMid _ i hpc _ =>
      refine .inl (.own hpc ?_ (Sys.goto_self _ _ _))
      have e := s.setProc_self r.1 fun y =>
        { y with mid := Function.update y.mid i true }
      exact (congrFun (congrArg Proc.mid e) i).trans (Function.update_self ..)
  | mutexEnter hpc he _ _ =>
      exact .inl (.of_goto s (.of_entersMt hpc he) rfl rfl (by cases he <;> trivial)
        (by cases he <;> exact Sys.closes_zero rfl))
  | moveMt hpc hm =>
      exact .inl (.of_goto s (.of_movesMt hpc hm) rfl rfl (by cases hm <;> trivial)
        (by cases hm <;> exact Sys.closes_zero rfl))
  | refuseMt v hpc =>
      exact .inl (.of_goto s (.of_refusesMt hpc) rfl rfl trivial (Sys.closes_zero rfl))
  | mutexDeallocLocked hpc hi =>
      rw [Sys.mutexDeallocLocked, if_neg (by simp [hi])]
      exact .inl (.of_pc s _ hpc rfl rfl rfl trivial)
  | mutexDeallocClear hpc _ => exact .inl (.of_pc s _ hpc rfl rfl rfl trivial)
  | mutexLockBlock hpc _ => exact .inl (.block hpc (s.setThread_self _ _))
  | mutexLockSleep hpc _ =>
      refine .inl (.leave (.mutex hpc) ?_ (fun _ => .sleep) (by simp)
        (fun _ => by rw [hpc]; trivial) (by simp))
      rw [Sys.mutexLockSleep, Sys.sleep_eq]
      exact Sys.leave_thread_self _ _ _ _ _ _ _ _
  | mutexLockWoken hpc _ => exact .inl (.of_pc s _ hpc rfl rfl rfl trivial)
  | @mutexLockTake _ i hpc =>
      exact .inl (.goOn (.sysret 0) _ (.of_pc hpc rfl) (s.setThread_self r fun t =>
        { t with pc := .sysret 0, holds := insert i t.holds }) trivial (Sys.closes_zero rfl))
  | @handOff i u hpc _ hu =>
      have hur : r ≠ (r.1, u) := fun e =>
        (Sys.waiter_some hu).1 (congrArg Prod.snd e).symm
      refine .inl (.goOn (.sysret 0) ((s.thread r).holds.erase i)
        (.of_pc hpc rfl) ?_ trivial (Sys.closes_zero rfl))
      simp [Sys.handOff, Sys.releaseMt, Sys.setThread, Function.update_of_ne hur]
  | @mutexUnlockFree _ i hpc =>
      exact .inl (.goOn (.sysret 0) _ (.of_pc hpc rfl) (s.setThread_self r fun t =>
        { t with pc := .sysret 0, holds := t.holds.erase i }) trivial (Sys.closes_zero rfl))

/-- From a program point with something more to say, a thread records a mutex
as its own or leaves its CPU. -/
theorem Active.of_not_goesOn (hx : Active s a s' r)
    (hpc : (s.thread r).pc.goesOn = false) :
    (∃ i, (s.thread r).pc = .mutexAllocMid i ∧ (s'.proc r.1).mid i = true) ∨
    ∃ st ch k pc', Leaving r (s.thread r) st ch k pc' ∧
      s'.thread r = { s.thread r with
        state := st, chan := ch, pc := pc', context := some k } := by
  have hno : ∀ {pc : Pc}, (s.thread r).pc = pc → pc.goesOn = true → False :=
    fun e hgo => absurd (hpc.symm.trans (e ▸ hgo)) (by decide)
  cases hx with
  | own h hm _ => exact .inl ⟨_, h, hm⟩
  | leave h e => exact .inr ⟨_, _, _, _, h, e⟩
  | goOn _ _ h _ => exact (hno rfl h.old).elim
  | block h | beginOp h | endOp h | acquire h | release h | die h =>
      exact (hno h rfl).elim
  | exitWait _ h => rcases h with h | ⟨_, h⟩ <;> exact (hno h rfl).elim
  | exitClose h => rcases h.old with h | ⟨_, h⟩ <;> exact (hno h rfl).elim

/-- The second section of `kthread_exit`. -/
theorem Active.of_gap (hx : Active s a s' r)
    (hpc : (s.thread r).pc = .kthreadExitSched)
    (hz : (s.thread r).state = .ZOMBIE) :
    (s'.thread r).state = .ZOMBIE ∧ (s'.thread r).pc = .zombieExit := by
  rcases hx.of_not_goesOn (by rw [hpc]; rfl) with ⟨i, h, _⟩ | ⟨_, _, _, _, hl, e⟩
  · exact absurd (h.symm.trans hpc) nofun
  · rw [e]
    cases hl with
    | sleep h =>
        rw [hpc] at h
        cases h
    | yield _ hs => exact absurd (hz.symm.trans hs) (by decide)
    | mutex h => exact absurd (h.symm.trans hpc) nofun
    | final _ | gap _ _ => exact ⟨rfl, rfl⟩

/-- A thread that acts does not free its own slot. -/
theorem Active.published (hx : Active s a s' r) (hu : (s.thread r).state ≠ .UNUSED)
    (hE : (s.thread r).state ≠ .EMBRYO) :
    (s'.thread r).state ≠ .UNUSED ∧ (s'.thread r).state ≠ .EMBRYO := by
  cases hx with
  | goOn _ _ _ e | own _ _ e | block _ e | beginOp _ e | endOp _ _ _ e
  | acquire _ e | release _ _ e =>
      rw [e]
      exact ⟨hu, hE⟩
  | exitClose hl =>
      rw [hl.thread]
      exact ⟨hu, hE⟩
  | die _ e | exitWait _ _ _ e =>
      rw [e]
      exact ⟨nofun, nofun⟩
  | leave hl e =>
      rw [e]
      cases hl <;> exact ⟨nofun, nofun⟩

/-- What a step does to a thread. -/
theorem Change.effect (h : Inv s) (hs : Change s a s') (hp : s'.panicked = none)
    (x : ThreadPtr) :
    Passive s a s' x ∨ (∃ c, s.cpu c = .run x) ∧ Active s a s' x := by
  cases hs with
  | wakeup n _ => exact .inl (.of_wakeup1 (.other n) nofun nofun rfl rfl rfl)
  | sched _ => exact .inl .of_scheduler
  | @run c r _ _ hr hs =>
      by_cases hx : x = r
      · subst hx
        rcases hs.active h hr hp with e | e
        · exact .inr ⟨⟨c, hr⟩, e⟩
        · exact .inl e
      · exact .inl (hs.passive h hr hp hx)
  | junk _ => cases hp

end Xv6.Kernel
