import Xv6.Kernel.Step

/-!
# What a step can do

`step` is inverted once. `Section s c r a s'` lists what thread `r`, running on
CPU `c`, can do to the state in one step; `Change s a s'` adds the scheduler,
the device interrupts and the CPUs that run on junk. Sections that only move
the thread's own program point are one constructor (`Section.move`); it keeps
what the later invariants need to know about the two program points.
-/

set_option linter.unusedSectionVars false

namespace Xv6.Kernel

variable {Cpu : Type} [DecidableEq Cpu]

/-! ## §1  Kinds of program points -/

/-- The call that a stretch of file system code belongs to. -/
def After.root : After → After
  | .commit k => k.root
  | .exitFile _ => .exit
  | k => k

/-- Program points at which a thread holds no spinlock, owns no slot under
construction and waits for no mutex. -/
def Pc.plain : Pc → Bool
  | .user | .checkThread _ | .checkProc _ | .dispatch | .irqYield | .sysret _
  | .kern _ | .beginOp _ | .acquiresleep _ _ | .loop _ | .loopSleep _ | .exit
  | .exitClose | .exitFinal | .kthreadExit | .join _ | .joinLock _ | .create | .createRet _ | .wait
  | .kill _ | .fork | .forkClaim _ | .execKill | .execWait | .execCommit
  | .mutexAlloc | .mutexDealloc _ | .mutexLock _ | .mutexUnlock _ => true
  | _ => false

/-- Inside file system code. -/
def Pc.inFs : Pc → Bool
  | .kern _ | .beginOp _ | .acquiresleep _ _ => true
  | _ => false

/-- `exit` after its waiting loop: the process is being torn down. -/
def Pc.tearing : Pc → Bool
  | .exitClose | .exitFinal => true
  | .kern k | .beginOp k | .acquiresleep _ k => decide (k.root = .exit)
  | _ => false

/-- `exit` has closed the descriptors below this one. -/
def After.closed : After → ℕ
  | .commit k => k.closed
  | .exitFile fd => fd.val
  | .exit => nofile
  | _ => 0

def Pc.closed : Pc → ℕ
  | .kern k | .beginOp k | .acquiresleep _ k => k.closed
  | .exitFinal => nofile
  | _ => 0

/-- A move between plain program points that starts outside file system code
and does not start a transaction. -/
def Pc.movesTo (pc pc' : Pc) : Bool :=
  pc.plain && pc'.plain && (pc'.tearing == pc.tearing) && !pc.inFs &&
    !(match pc' with | .beginOp _ => true | _ => false) &&
    decide (pc'.closed ≤ pc.closed)

/-- A move between plain program points. File system code is left outside
every transaction and without sleeplocks, and a transaction is not begun
twice. -/
structure Moves (t : Thread) (pc' : Pc) : Prop where
  old : t.pc.plain = true
  new : pc'.plain = true
  tearing : pc'.tearing = t.pc.tearing
  fs : t.pc.inFs = true → pc'.inFs = false → t.inop = false ∧ t.locks = []
  begin : ∀ k, pc' = .beginOp k → t.inop = false
  closed : pc'.closed ≤ t.pc.closed

/-- The sleeps that leave a thread at a program point of their own: the old
program point, the channel, how the sleep resumes, the new program point. -/
inductive Sleeps (p : ProcId) : Pc → Chan → Resume → Pc → Prop
  | wait : Sleeps p .wait (.proc p) .sleepHeld .waitLoop
  | waitLoop : Sleeps p .waitLoop (.proc p) .sleepHeld .waitLoop
  | joinLock (u : Slot) :
      Sleeps p (.joinLock u) (.thread (p, u)) .sleepHeld (.joinLoop u)
  | joinLoop (u : Slot) :
      Sleeps p (.joinLoop u) (.thread (p, u)) .sleepHeld (.joinLoop u)
  | beginOp (k : After) : Sleeps p (.beginOp k) .log .sleep (.beginOp k)
  | acquiresleep (l : ℕ) (k : After) :
      Sleeps p (.acquiresleep l k) (.sleeplock l) .sleep (.acquiresleep l k)
  | kern (n : ℕ) (k : After) : Sleeps p (.kern k) (.other n) .sleep (.kern k)
  | loop (n : ℕ) (l : Loop) :
      Sleeps p (.loopSleep l) (.other n) .sleep (.loop l)

/-- Where `yield` leaves a thread: after a timer interrupt in user mode, or
where a timer interrupt found it in the kernel. -/
inductive Yields : Pc → Pc → Prop
  | user : Yields .irqYield (.checkThread .user)
  | kernel {pc : Pc} (h : pc.preemptible = true) : Yields pc pc

/-- The calls that return from a section under `ptable.lock` without further
effect. -/
def Pc.returns : Pc → Bool
  | .fork | .joinLock _ | .joinLoop _ | .create | .wait | .waitLoop | .kill _
  | .execCommit => true
  | _ => false

/-- Moves between the program points of one mutex call, `mtable.lock` being
held, with what the thread has just tested. -/
inductive MovesMt (s : Sys Cpu) (r : ThreadPtr) : Pc → Pc → Prop
  | deallocMid {i : MutexId} (h : (s.proc r.1).mid i = true) :
      MovesMt s r (.mutexDeallocMid i) (.mutexDeallocLocked i)
  | lockMid {i : MutexId} (h : (s.proc r.1).mid i = true) :
      MovesMt s r (.mutexLockMid i) (.mutexLockTid i)
  | unlockMid {i : MutexId} (h : (s.proc r.1).mid i = true) :
      MovesMt s r (.mutexUnlockMid i) (.mutexUnlockTid i)
  | lockBlock {i : MutexId} (ht : (s.mutex i).tid ≠ (s.thread r).tid)
      (h : (s.mutex i).locked = true) :
      MovesMt s r (.mutexLockTid i) (.mutexLockBlock i)
  | lockFree {i : MutexId} (ht : (s.mutex i).tid ≠ (s.thread r).tid)
      (h : (s.mutex i).locked = false) :
      MovesMt s r (.mutexLockTid i) (.mutexLockCheck i)
  | lockTake {i : MutexId} (h : (s.thread r).blocked = false) :
      MovesMt s r (.mutexLockCheck i) (.mutexLockTake i)
  | unlockScan {i : MutexId} (h : (s.thread r).tid = (s.mutex i).tid) :
      MovesMt s r (.mutexUnlockTid i) (.mutexUnlockScan i)
  | unlockFree {i : MutexId} (h : s.waiter r i = none) :
      MovesMt s r (.mutexUnlockScan i) (.mutexUnlockFree i)

/-- The tests of a mutex call that return an error. -/
def Pc.refusesMt : Pc → Bool
  | .mutexDeallocMid _ | .mutexDeallocLocked _ | .mutexLockMid _
  | .mutexLockTid _ | .mutexUnlockMid _ | .mutexUnlockTid _ => true
  | _ => false

/-- The entries of the mutex calls that take an id. -/
inductive EntersMt : Pc → MutexId → Pc → Prop
  | dealloc {id : ℤ} {i : MutexId} (h : mutexId id = some i) :
      EntersMt (.mutexDealloc id) i (.mutexDeallocMid i)
  | lock {id : ℤ} {i : MutexId} (h : mutexId id = some i) :
      EntersMt (.mutexLock id) i (.mutexLockMid i)
  | unlock {id : ℤ} {i : MutexId} (h : mutexId id = some i) :
      EntersMt (.mutexUnlock id) i (.mutexUnlockMid i)

/-- CPU `c` may run a section under `ptable.lock`. -/
def Sys.PtFree (s : Sys Cpu) (c : Cpu) : Prop :=
  s.ptlock = none ∨ s.ptlock = some c

/-- What a thread has just tested when it goes to sleep. -/
def Sys.Tested (s : Sys Cpu) (r : ThreadPtr) (a : Act Cpu) : Pc → Prop
  | .wait | .waitLoop => (s.proc r.1).killed = false
  | .joinLock u => (s.thread (r.1, u)).tid = u.val ∧
      (s.thread (r.1, u)).state ≠ .ZOMBIE ∧ (s.thread r).killed = false ∧
      ∃ c, a = .run c ∧ s.cpu c = .run r
  | .joinLoop u => (s.thread (r.1, u)).state ≠ .ZOMBIE ∧
      (s.thread r).killed = false
  | _ => True

/-- How a thread came to a program point where it may wait, or where it has a
new process in its hands. -/
def Sys.Enters (s : Sys Cpu) (r : ThreadPtr) (a : Act Cpu) : Pc → Prop
  | .wait => ∃ c, a = .syscall c .wait ∧ s.cpu c = .run r
  | .join id => ∃ c, a = .syscall c (.join id) ∧ s.cpu c = .run r
  | .joinLock u => (s.thread r).pc = .join u.val ∧ (s.thread r).tid ≠ u.val
  | .loop l => ∃ c, a = .kern c (.loop l) ∧ s.cpu c = .run r
  | .loopSleep l => (∃ c, a = .kern c .mustWait) ∧ (s.thread r).pc = .loop l ∧
      l.tests (s.proc r.1).killed (s.thread r).killed = false
  | .execWait => (∃ c, a = .run c ∧ s.cpu c = .run r) ∧
      ((s.thread r).pc = .execKill ∨ (s.thread r).pc = .execWait)
  | .forkThread q => (∃ c, a = .run c ∧ s.cpu c = .run r) ∧
      (s.thread r).pc = .forkClaim q
  | .forkStack q _ => (s.thread r).pc = .forkThread q
  | .forkFail q => (s.thread r).pc = .forkThread q ∨
      ∃ u, (s.thread r).pc = .forkStack q u
  | .forkCopy q => ∃ u, (s.thread r).pc = .forkStack q u
  | .forkThreadRunnable q pid => (s.thread r).pc = .forkCopy q ∧
      pid = (s.proc q).pid
  | .forkRunnable q pid => (s.thread r).pc = .forkThreadRunnable q pid
  | _ => True

/-! ## §2  Leaving the CPU -/

namespace Sys

/-- Everything that leaves the CPU does this: new states of the process and
the thread, a channel and a program point, then `swtch`. -/
def leave (s : Sys Cpu) (c : Cpu) (r : ThreadPtr) (pst st : States)
    (ch : Chan) (pc : Pc) (k : Resume) : Sys Cpu :=
  ((s.setPState r.1 pst).setThread r fun t =>
    { t with state := st, chan := ch, pc := pc }).switchOut c r k

section Leave

variable (s : Sys Cpu) (c : Cpu) (r : ThreadPtr) (pst st : States) (ch : Chan)
  (pc : Pc) (k : Resume)

@[simp] theorem leave_thread_self : (s.leave c r pst st ch pc k).thread r =
    { s.thread r with state := st, chan := ch, pc := pc, context := some k } := by
  simp [leave, switchOut, setPState]

@[simp] theorem leave_thread_ne {x : ThreadPtr} (hx : x ≠ r) :
    (s.leave c r pst st ch pc k).thread x = s.thread x := by
  simp [leave, switchOut, setPState, hx]

@[simp] theorem leave_proc_self : (s.leave c r pst st ch pc k).proc r.1 =
    { s.proc r.1 with state := pst } := by
  simp [leave, switchOut, setPState]

@[simp] theorem leave_proc_ne {p : ProcId} (hp : p ≠ r.1) :
    (s.leave c r pst st ch pc k).proc p = s.proc p := by
  simp [leave, switchOut, setPState, hp]

theorem leave_mid (p : ProcId) :
    ((s.leave c r pst st ch pc k).proc p).mid = (s.proc p).mid := by
  by_cases hp : p = r.1
  · subst hp
    rw [leave_proc_self]
  · rw [leave_proc_ne _ _ _ _ _ _ _ _ hp]

@[simp] theorem leave_cpu_self :
    (s.leave c r pst st ch pc k).cpu c = .scan r.1 (r.2 + 1) := by
  simp [leave, switchOut]

@[simp] theorem leave_cpu_ne {c' : Cpu} (hc : c' ≠ c) :
    (s.leave c r pst st ch pc k).cpu c' = s.cpu c' := by
  simp [leave, switchOut, setPState, hc]

end Leave

theorem closing_cases (s : Sys Cpu) (p : ProcId) (k : ℕ) :
    (∃ fd, s.closing p k = .kern (.exitFile fd)) ∨
      s.closing p k = .kern .exit := by
  unfold closing
  split
  · exact .inl ⟨_, rfl⟩
  · exact .inr rfl

theorem setThread_congr {s : Sys Cpu} {r : ThreadPtr} {f g : Thread → Thread}
    (h : f (s.thread r) = g (s.thread r)) :
    s.setThread r f = s.setThread r g := by
  simp [setThread, h]

theorem sched_eq {s : Sys Cpu} {c : Cpu} {r : ThreadPtr} {k : Resume}
    (hp : (s.proc r.1).state ≠ .RUNNING) (ht : (s.thread r).state ≠ .RUNNING) :
    s.sched c r k = s.switchOut c r k := by
  simp [sched, hp, ht]

theorem sleep_eq (s : Sys Cpu) (c : Cpu) (r : ThreadPtr) (ch : Chan)
    (k : Resume) (pc : Pc) :
    s.sleep c r ch k pc = s.leave c r
      (if s.siblingActive r then .RUNNABLE else .SLEEPING) .SLEEPING ch pc k := by
  unfold sleep
  rw [sched_eq]
  · rfl
  · simp only [setThread_proc, setPState, setProc_self]
    split <;> simp
  · simp

theorem yield_eq (s : Sys Cpu) (c : Cpu) (r : ThreadPtr) (pc : Pc) :
    s.yield c r pc =
      s.leave c r .RUNNABLE .RUNNABLE (s.thread r).chan pc .yield := by
  unfold yield
  rw [sched_eq (by simp [setPState]) (by simp)]
  exact congrArg (switchOut · c r .yield) (setThread_congr rfl)

theorem kthreadExitSched_eq (s : Sys Cpu) (c : Cpu) (r : ThreadPtr)
    (hs : (s.thread r).state ≠ .RUNNING) :
    s.kthreadExitSched c r = s.leave c r .RUNNABLE (s.thread r).state
      (s.thread r).chan .zombieExit .yield := by
  unfold kthreadExitSched
  rw [sched_eq (by simp [setPState, goto]) (by simpa [setPState, goto] using hs)]
  exact congrArg (switchOut · c r .yield) (setThread_congr rfl)

/-- The wake-ups of `exit`'s last section. -/
def exitWake (s : Sys Cpu) (p : ProcId) : Sys Cpu :=
  (s.reparent p).wakeup1 ((s.reparent p).parentChan p)

theorem exitFinal_eq (s : Sys Cpu) (c : Cpu) (r : ThreadPtr) :
    s.exitFinal c r = (s.exitWake r.1).leave c r .ZOMBIE .ZOMBIE
      ((s.exitWake r.1).thread r).chan .zombieExit .yield := by
  unfold exitFinal
  rw [sched_eq (by simp [setPState]) (by simp)]
  exact congrArg (switchOut · c r .yield) (setThread_congr rfl)

end Sys

/-! ## §3  Sections -/

/-- What thread `r`, running on `c`, can do to the state in one step with
action `a`. A step that ends in a panic may leave anything behind. -/
inductive Section (s : Sys Cpu) (c : Cpu) (r : ThreadPtr) :
    Act Cpu → Sys Cpu → Prop
  | halt {a : Act Cpu} {s' : Sys Cpu} (h : s'.panicked ≠ none)
      (hb : s'.panicked = some .threadIsBlocked → ∃ i,
        (s.thread r).pc = .mutexLockCheck i ∧ (s.thread r).blocked = true) :
      Section s c r a s'
  | move {a : Act Cpu} {pc' : Pc} (h : Moves (s.thread r) pc')
      (he : s.Enters r a pc') : Section s c r a (s.goto r pc')
  | fault (hpc : (s.thread r).pc = .user) :
      Section s c r (.fault c) ((s.setProc r.1 fun x => { x with killed := true }).goto r
        (.checkThread .user))
  | ret {a : Act Cpu} (v : ℤ) (hpc : (s.thread r).pc.returns = true)
      (hl : s.PtFree c) : Section s c r a (s.ret r v)
  -- leaving the CPU
  | sleep {a : Act Cpu} {ch : Chan} {k : Resume} {pc pc' : Pc}
      (hpc : (s.thread r).pc = pc) (h : Sleeps r.1 pc ch k pc')
      (hl : s.PtFree c) (ht : s.Tested r a pc)
      (hn : ∀ n, ch = .other n → a = .kern c (.sleep n)) :
      Section s c r a (s.sleep c r ch k pc')
  | yield {a : Act Cpu} {pc pc' : Pc} (hpc : (s.thread r).pc = pc)
      (h : Yields pc pc') (hl : s.ptlock = none) (hs : (s.thread r).pc ≠ .kthreadExitSched ∨
        (s.thread r).state = .RUNNING) : Section s c r a (s.yield c r pc')
  -- file system code
  | wakeup {a : Act Cpu} {k : After} (n : ℕ) (hpc : (s.thread r).pc = .kern k)
      (hl : s.ptlock = none) : Section s c r a (s.wakeup1 (.other n))
  | logWrite {a : Act Cpu} {k : After} (b : ℕ)
      (hpc : (s.thread r).pc = .kern k) (hi : (s.thread r).inop = true)
      (hb : s.log.tooBig Sys.nlog = false) :
      Section s c r a { s with log := s.log.record b }
  | beginOp {a : Act Cpu} {k : After} (hpc : (s.thread r).pc = .beginOp k)
      (hl : s.ptlock = none) (hw : s.log.mustWait = false) :
      Section s c r a (s.beginOp c r k)
  | endOp {a : Act Cpu} {k : After} (hpc : (s.thread r).pc = .kern k)
      (hl : s.ptlock = none) (hi : (s.thread r).inop = true)
      (hc : s.log.committing = false) : Section s c r a (s.endOp r k)
  | endCommit {a : Act Cpu} {k : After}
      (hpc : (s.thread r).pc = .kern (.commit k)) (hl : s.ptlock = none)
      (hi : (s.thread r).inop = false) (hk : (s.thread r).locks = []) :
      Section s c r a (s.endCommit r k)
  | takeSleep {a : Act Cpu} {l : ℕ} {k : After}
      (hpc : (s.thread r).pc = .acquiresleep l k)
      (hf : (s.sleeplock l).locked = false) :
      Section s c r a (s.takeSleep r l k)
  | releasesleep {a : Act Cpu} {k : After} (l : ℕ)
      (hpc : (s.thread r).pc = .kern k) (hl : s.ptlock = none)
      (hm : l ∈ (s.thread r).locks) : Section s c r a (s.releasesleep r l)
  -- file descriptors
  | setFile {a : Act Cpu} (fd : Fd) (b : Bool)
      (hpc : (s.thread r).pc = .kern .ret) : Section s c r a (s.setFile r.1 fd b)
  | exitFile {a : Act Cpu} {fd : Fd} (hpc : (s.thread r).pc = .kern (.exitFile fd))
      (hi : (s.thread r).inop = false) (hk : (s.thread r).locks = []) :
      Section s c r a ((s.setFile r.1 fd false).exitFiles r (fd + 1))
  | exitClose {a : Act Cpu} (hpc : (s.thread r).pc = .exitClose) :
      Section s c r a (s.exitFiles r 0)
  -- `exit` and `kthread_exit`
  | exit (hpc : (s.thread r).pc = .exit) (hl : s.ptlock = none) :
      Section s c r (.run c) (s.exit c r)
  | exitWait {u : Slot} (hpc : (s.thread r).pc = .exitWait u)
      (hl : s.ptlock = some c) :
      Section s c r (.run c) (s.exitLoop c r (u + 1))
  | exitFinal (hpc : (s.thread r).pc = .exitFinal) (hl : s.ptlock = none) :
      Section s c r (.run c) (s.exitFinal c r)
  | kthreadExit (hpc : (s.thread r).pc = .kthreadExit) (hl : s.ptlock = none) :
      Section s c r (.run c) (s.kthreadExit r)
  | kthreadExitSched (hpc : (s.thread r).pc = .kthreadExitSched)
      (hl : s.ptlock = none) (hs : (s.thread r).state ≠ .RUNNING) :
      Section s c r (.run c) (s.kthreadExitSched c r)
  -- reaping
  | join {u : Slot} (hpc : (s.thread r).pc = .joinLock u ∨
        (s.thread r).pc = .joinLoop u) (hl : s.PtFree c)
      (hz : (s.thread (r.1, u)).state = .ZOMBIE)
      (ht : (s.thread r).pc = .joinLock u → (s.thread (r.1, u)).tid = u.val) :
      Section s c r (.run c) ((s.freed r.1 (· = u) Thread.cleared).ret r 0)
  | wait {q : ProcId} (hpc : (s.thread r).pc = .wait ∨
        (s.thread r).pc = .waitLoop) (hl : s.PtFree c)
      (hq : s.deadChild r.1 = some q) :
      Section s c r (.run c)
        (((s.freed q (fun t => (s.thread (q, t)).state ≠ .UNUSED)
          Thread.cleared).vacate q).ret r (s.proc q).pid)
  | execWait (hpc : (s.thread r).pc = .execWait) (hl : s.ptlock = none) :
      Section s c r (.run c)
        ((s.freed r.1 (fun t => t ≠ r.2 ∧
          (s.thread (r.1, t)).state = .ZOMBIE) Thread.reaped).goto r
            (if ∀ t, t ≠ r.2 → (s.thread (r.1, t)).state.dead = true
             then .execClear else .execWait))
  -- the other kthread calls, `kill` and `exec`
  | create {u : Slot} (hpc : (s.thread r).pc = .create) (hl : s.ptlock = none)
      (hu : s.unusedSlot r.1 = some u) :
      Section s c r (.run c) ((s.takeSlot r.1 u).goto r (.createStack u))
  | createStack {a : Act Cpu} {u : Slot} (ok : Bool)
      (hpc : (s.thread r).pc = .createStack u) :
      Section s c r a (s.createStack r u ok)
  | createPublish {a : Act Cpu} {u : Slot}
      (hpc : (s.thread r).pc = .createPublish u) (hl : s.ptlock = none) :
      Section s c r a ((s.makeRunnable (r.1, u)).goto r (.createRet u))
  | kill {pid : ℤ} {p : ProcId} (hpc : (s.thread r).pc = .kill pid)
      (hl : s.ptlock = none) (hp : s.procOfPid pid = some p) :
      Section s c r (.run c)
        (((s.setProc p fun x => { x with killed := true }).killWake p).ret r 0)
  | execKill (hpc : (s.thread r).pc = .execKill) (hl : s.ptlock = none) :
      Section s c r (.run c) (s.execKill r)
  | execClear (hpc : (s.thread r).pc = .execClear) (hl : s.ptlock = none) :
      Section s c r (.run c) (s.execClear r)
  -- `fork`
  | forkClaim {q : ProcId} (hpc : (s.thread r).pc = .forkClaim q) :
      Section s c r (.run c) (s.forkClaim r q)
  | forkThread {a : Act Cpu} {q : ProcId} (hpc : (s.thread r).pc = .forkThread q)
      (hl : s.ptlock = none) : Section s c r a (s.forkThread r q)
  | forkStack {a : Act Cpu} {q : ProcId} {u : Slot} (ok : Bool)
      (hpc : (s.thread r).pc = .forkStack q u) :
      Section s c r a (s.forkStack r q u ok)
  | forkFail {a : Act Cpu} {q : ProcId} (hpc : (s.thread r).pc = .forkFail q) :
      Section s c r a (s.forkFail r q)
  | forkCopied {a : Act Cpu} {q : ProcId} (hpc : (s.thread r).pc = .forkCopy q) :
      Section s c r a
        ((s.copyFiles r.1 q).goto r (.forkThreadRunnable q (s.proc q).pid))
  | forkUncopied {a : Act Cpu} {q : ProcId}
      (hpc : (s.thread r).pc = .forkCopy q) :
      Section s c r a (((s.freed q (· = 0) Thread.uncopied).setPState q
        .UNUSED).goto r (.sysret (-1)))
  | forkThreadRunnable {a : Act Cpu} {q : ProcId} {pid : ℤ}
      (hpc : (s.thread r).pc = .forkThreadRunnable q pid) (hl : s.ptlock = none) :
      Section s c r a ((s.makeRunnable (q, 0)).goto r (.forkRunnable q pid))
  | forkRunnable {q : ProcId} {pid : ℤ}
      (hpc : (s.thread r).pc = .forkRunnable q pid) (hl : s.ptlock = none) :
      Section s c r (.run c) (s.forkRunnable r q pid)
  -- mutexes
  | mutexAlloc {a : Act Cpu} {i : MutexId} (hpc : (s.thread r).pc = .mutexAlloc)
      (hl : s.mtlock = none) (hi : (s.mutex i).allocated = false) :
      Section s c r a
        (((s.setMutex i fun _ =>
          { allocated := true, locked := false, tid := -1,
            owner := some r.1 }).goto r (.mutexAllocMid i)).acquireMt c)
  | mutexAllocMid {a : Act Cpu} {i : MutexId}
      (hpc : (s.thread r).pc = .mutexAllocMid i) (hl : s.ptlock = none) :
      Section s c r a (s.mutexAllocMid r i)
  | mutexEnter {a : Act Cpu} {i : MutexId} {pc pc' : Pc}
      (hpc : (s.thread r).pc = pc) (h : EntersMt pc i pc') (hl : s.mtlock = none)
      (hi : (s.mutex i).allocated = true) :
      Section s c r a ((s.goto r pc').acquireMt c)
  | moveMt {a : Act Cpu} {pc pc' : Pc} (hpc : (s.thread r).pc = pc)
      (h : MovesMt s r pc pc') :
      Section s c r a (s.goto r pc')
  | refuseMt {a : Act Cpu} (v : ℤ) (hpc : (s.thread r).pc.refusesMt = true) :
      Section s c r a (s.retMt r v)
  | mutexDeallocLocked {a : Act Cpu} {i : MutexId}
      (hpc : (s.thread r).pc = .mutexDeallocLocked i)
      (hi : (s.mutex i).locked = false) :
      Section s c r a (s.mutexDeallocLocked r i)
  | mutexDeallocClear {a : Act Cpu} {i : MutexId}
      (hpc : (s.thread r).pc = .mutexDeallocClear i) (hl : s.ptlock = none) :
      Section s c r a (s.mutexDeallocClear r i)
  | mutexLockBlock {a : Act Cpu} {i : MutexId}
      (hpc : (s.thread r).pc = .mutexLockBlock i) (hl : s.ptlock = none) :
      Section s c r a (s.mutexLockBlock r i)
  | mutexLockSleep {a : Act Cpu} {i : MutexId}
      (hpc : (s.thread r).pc = .mutexLockSleep i) (hl : s.ptlock = none) :
      Section s c r a (s.mutexLockSleep c r i)
  | mutexLockWoken {a : Act Cpu} {i : MutexId}
      (hpc : (s.thread r).pc = .mutexLockWoken i) (hl : s.mtlock = none) :
      Section s c r a ((s.goto r (.mutexLockCheck i)).acquireMt c)
  | mutexLockTake {a : Act Cpu} {i : MutexId}
      (hpc : (s.thread r).pc = .mutexLockTake i) :
      Section s c r a (s.mutexLockTake r i)
  | handOff {i : MutexId} {u : Slot}
      (hpc : (s.thread r).pc = .mutexUnlockScan i) (hl : s.ptlock = none)
      (hu : s.waiter r i = some u) :
      Section s c r (.run c) (s.handOff r i u)
  | mutexUnlockFree {a : Act Cpu} {i : MutexId}
      (hpc : (s.thread r).pc = .mutexUnlockFree i) :
      Section s c r a (s.mutexUnlockFree r i)

/-- What a step can do. -/
inductive Change (s : Sys Cpu) : Act Cpu → Sys Cpu → Prop
  | wakeup (n : ℕ) (hl : s.ptlock = none) :
      Change s (.wakeup n) (s.wakeup1 (.other n))
  | sched {c : Cpu} (hc : s.cpu c = .idle ∧ s.ptlock = none ∨
        (∃ p k, s.cpu c = .scan p k) ∧ s.ptlock = some c) :
      Change s (.sched c) (s.scheduler c)
  | run {c : Cpu} {r : ThreadPtr} {a : Act Cpu} {s' : Sys Cpu}
      (hr : s.cpu c = .run r) (h : Section s c r a s') (ha : a.cpu = some c) :
      Change s a s'
  | junk {c : Cpu} {r : ThreadPtr} {a : Act Cpu} (hr : s.cpu c = .junk r) :
      Change s a (s.panic .trap)

/-! ## §4  The steps are these -/

namespace Sys

variable {s s' t : Sys Cpu} {c : Cpu} {r : ThreadPtr}

theorem underPt_eq_some (h : s.underPt s' = some t) :
    s.ptlock = none ∧ s' = t := by
  unfold underPt at h
  split at h
  · exact ⟨‹_›, Option.some.inj h⟩
  · cases h

theorem holdingPt_eq_some (h : s.holdingPt c s' = some t) :
    s.ptlock = some c ∧ s' = t := by
  unfold holdingPt at h
  split at h
  · exact ⟨‹_›, Option.some.inj h⟩
  · cases h

theorem underMt_eq_some (h : s.underMt s' = some t) :
    s.mtlock = none ∧ s' = t := by
  unfold underMt at h
  split at h
  · exact ⟨‹_›, Option.some.inj h⟩
  · cases h

/-- Freeing stacks panics, or frees them. -/
theorem freeStacks_cases (p : ProcId) (free : Slot → Prop)
    [DecidablePred free] (f : Thread → Thread) :
    s.freeStacks p free f = s.panic .kfree ∨
      s.freeStacks p free f = s.freed p free f := by
  unfold freeStacks
  split
  · exact .inl rfl
  · exact .inr rfl

end Sys

namespace Section

variable {s s' : Sys Cpu} {c : Cpu} {r : ThreadPtr} {a : Act Cpu}

/-- A panic other than "Thread is Blocked". -/
theorem halt_of {m : Panic} (h : s'.panicked = some m)
    (hm : m ≠ .threadIsBlocked) : Section s c r a s' := by
  refine .halt (by simp [h]) fun hb => ?_
  rw [h] at hb
  exact absurd (Option.some.inj hb) hm

/-- A move from outside file system code. -/
theorem move_of {pc pc' : Pc} (hpc : (s.thread r).pc = pc)
    (h : pc.movesTo pc' = true) (he : s.Enters r a pc') :
    Section s c r a (s.goto r pc') := by
  subst hpc
  simp only [Pc.movesTo, Bool.and_eq_true, Bool.not_eq_true', beq_iff_eq] at h
  obtain ⟨⟨⟨⟨⟨ho, hn⟩, ht⟩, hf⟩, hb⟩, hcl⟩ := h
  refine .move ⟨ho, hn, ht, fun h => ?_, fun k hk => ?_, of_decide_eq_true hcl⟩ he
  · rw [hf] at h; cases h
  · subst hk; cases hb

theorem of_beginOp {k : After} (hpc : (s.thread r).pc = .beginOp k)
    (hl : s.ptlock = none) : Section s c r a (s.beginOp c r k) := by
  cases hw : s.log.mustWait with
  | true =>
      rw [Sys.beginOp, if_pos hw]
      exact .sleep hpc (.beginOp k) (.inl hl) trivial nofun
  | false => exact .beginOp hpc hl hw

theorem of_acquiresleep {l : ℕ} {k : After}
    (hpc : (s.thread r).pc = .acquiresleep l k)
    (h : s.acquiresleep c r l k = some s') : Section s c r a s' := by
  unfold Sys.acquiresleep at h
  split at h
  case isTrue =>
    obtain ⟨hl, rfl⟩ := Sys.underPt_eq_some h
    exact .sleep hpc (.acquiresleep l k) (.inl hl) trivial nofun
  case isFalse hf =>
    cases h
    exact .takeSleep hpc (Bool.eq_false_iff.mpr hf)

theorem of_exitClose (hpc : (s.thread r).pc = .exitClose) :
    Section s c r a (s.exitClose r) := by
  unfold Sys.exitClose
  split
  · exact halt_of rfl (by decide)
  · exact .exitClose hpc

theorem of_kthreadExitSched (hpc : (s.thread r).pc = .kthreadExitSched)
    (hl : s.ptlock = none) :
    Section s c r (.run c) (s.kthreadExitSched c r) := by
  by_cases hs : (s.thread r).state = .RUNNING
  · refine halt_of (m := .schedRunning) ?_ (by decide)
    simp [Sys.kthreadExitSched, Sys.sched, Sys.goto, Sys.setPState, hs, Sys.panic]
  · exact .kthreadExitSched hpc hl hs

theorem of_join {id : ℤ} (hpc : (s.thread r).pc = .join id) :
    Section s c r a (s.join r id) := by
  unfold Sys.join
  split
  case isTrue => exact move_of hpc rfl trivial
  case isFalse hne =>
    split
    case isTrue hid =>
      have hu : ((⟨id.toNat, hid.2⟩ : Slot).val : ℤ) = id := Int.toNat_of_nonneg hid.1
      refine move_of hpc rfl ⟨?_, ?_⟩
      · rw [hu]
        exact hpc
      · rw [hu]
        exact Ne.symm hne
    case isFalse => exact move_of hpc rfl trivial

theorem of_joinLoop {u : Slot} (hr : s.cpu c = .run r) (hpc : (s.thread r).pc = .joinLock u ∨
    (s.thread r).pc = .joinLoop u) (hl : s.PtFree c)
    (ht : (s.thread r).pc = .joinLock u → (s.thread (r.1, u)).tid = u.val) :
    Section s c r (.run c) (s.joinLoop c r u) := by
  unfold Sys.joinLoop
  split
  case isTrue hz =>
    rcases Sys.freeStacks_cases (s := s) r.1 (· = u) Thread.cleared with h | h
    · exact halt_of (m := .kfree) (by rw [h]; rfl) (by decide)
    · rw [h]
      exact .join hpc hl hz ht
  case isFalse hz =>
    split
    case isTrue => exact .ret (-1) (by rcases hpc with h | h <;> rw [h] <;> rfl) hl
    case isFalse hk =>
      have hk : (s.thread r).killed = false := Bool.eq_false_iff.mpr hk
      rcases hpc with h | h
      · exact .sleep h (.joinLock u) hl ⟨ht h, hz, hk, c, rfl, hr⟩ nofun
      · exact .sleep h (.joinLoop u) hl ⟨hz, hk⟩ nofun

theorem of_joinLock {u : Slot} (hr : s.cpu c = .run r)
    (hpc : (s.thread r).pc = .joinLock u) (hl : s.PtFree c) :
    Section s c r (.run c) (s.joinLock c r u) := by
  unfold Sys.joinLock
  split
  · exact .ret (-1) (by rw [hpc]; rfl) hl
  · exact of_joinLoop hr (.inl hpc) hl fun _ => not_not.mp ‹_›

theorem of_create (hpc : (s.thread r).pc = .create) (hl : s.ptlock = none) :
    Section s c r (.run c) (s.create r) := by
  unfold Sys.create
  split
  · exact .create hpc hl ‹_›
  · exact .ret (-1) (by rw [hpc]; rfl) (.inl hl)

theorem of_waitLoop (hpc : (s.thread r).pc = .wait ∨
    (s.thread r).pc = .waitLoop) (hl : s.PtFree c) :
    Section s c r (.run c) (s.waitLoop c r) := by
  have hret : (s.thread r).pc.returns = true := by
    rcases hpc with h | h <;> rw [h] <;> rfl
  unfold Sys.waitLoop
  split
  · rename_i q hq
    unfold Sys.reapProc
    rcases Sys.freeStacks_cases (s := s) q
      (fun t => (s.thread (q, t)).state ≠ .UNUSED) Thread.cleared with h | h
    · exact halt_of (m := .kfree) (by rw [h]; rfl) (by decide)
    · rw [h]
      exact .wait hpc hl hq
  · split
    case isTrue => exact .ret (-1) hret hl
    case isFalse hk =>
      have hk : (s.proc r.1).killed = false := by simpa using (not_or.mp hk).2
      rcases hpc with h | h
      · exact .sleep h .wait hl hk nofun
      · exact .sleep h .waitLoop hl hk nofun

theorem of_kill {pid : ℤ} (hpc : (s.thread r).pc = .kill pid)
    (hl : s.ptlock = none) : Section s c r (.run c) (s.kill r pid) := by
  unfold Sys.kill
  split
  · exact .kill hpc hl ‹_›
  · exact .ret (-1) (by rw [hpc]; rfl) (.inl hl)

theorem of_fork (hpc : (s.thread r).pc = .fork) (hl : s.ptlock = none) :
    Section s c r a (s.fork r) := by
  unfold Sys.fork
  split
  · exact move_of hpc rfl trivial
  · exact .ret (-1) (by rw [hpc]; rfl) (.inl hl)

theorem of_forkCopy {q : ProcId} {ok : Bool}
    (hpc : (s.thread r).pc = .forkCopy q) :
    Section s c r a (s.forkCopy r q ok) := by
  unfold Sys.forkCopy
  split
  · exact .forkCopied hpc
  · rcases Sys.freeStacks_cases (s := s) q (· = 0) Thread.uncopied with h | h
    · exact halt_of (m := .kfree) (by rw [h]; rfl) (by decide)
    · rw [h]
      exact .forkUncopied hpc

theorem of_execWait (hpc : (s.thread r).pc = .execWait)
    (hl : s.ptlock = none) : Section s c r (.run c) (s.execWait r) := by
  unfold Sys.execWait
  rcases Sys.freeStacks_cases (s := s) r.1 (fun t => t ≠ r.2 ∧
    (s.thread (r.1, t)).state = .ZOMBIE) Thread.reaped with h | h
  · exact halt_of (m := .kfree) (by rw [h]; rfl) (by decide)
  · rw [h]
    exact .execWait hpc hl

theorem of_execCommit (hpc : (s.thread r).pc = .execCommit)
    (hl : s.ptlock = none) : Section s c r a (s.execCommit r) := by
  unfold Sys.execCommit
  split
  · exact .ret _ (by rw [hpc]; rfl) (.inl hl)
  · exact .ret _ (by rw [hpc]; rfl) (.inl hl)

theorem of_mutexAlloc (hpc : (s.thread r).pc = .mutexAlloc)
    (hl : s.mtlock = none) : Section s c r a (s.mutexAlloc c r) := by
  unfold Sys.mutexAlloc
  split
  case h_1 i hi =>
    have hfree := List.find?_some hi
    exact .mutexAlloc hpc hl (by simpa using hfree)
  case h_2 => exact move_of hpc rfl trivial

theorem of_mutexCall {id : ℤ} {f : MutexId → Pc} {pc : Pc}
    (hpc : (s.thread r).pc = pc) (hm : pc.movesTo (.sysret (-1)) = true)
    (he : ∀ i, mutexId id = some i → EntersMt pc i (f i))
    (h : s.mutexCall c r id f = some s') : Section s c r a s' := by
  unfold Sys.mutexCall at h
  split at h
  case h_1 i hi =>
    obtain ⟨hl, rfl⟩ := Sys.underMt_eq_some h
    unfold Sys.mutexEnter
    split
    · exact .mutexEnter hpc (he i hi) hl ‹_›
    · exact move_of hpc hm trivial
  case h_2 =>
    cases h
    exact move_of hpc hm trivial

theorem of_mutexMid {i : MutexId} {pc pc' : Pc}
    (hpc : (s.thread r).pc = pc) (hr : pc.refusesMt = true)
    (hm : (s.proc r.1).mid i = true → MovesMt s r pc pc') :
    Section s c r a (s.mutexMid r i pc') := by
  unfold Sys.mutexMid
  split
  · exact .moveMt hpc (hm ‹_›)
  · exact .refuseMt (-1) (hpc ▸ hr)

theorem of_mutexDeallocLocked {i : MutexId}
    (hpc : (s.thread r).pc = .mutexDeallocLocked i) :
    Section s c r a (s.mutexDeallocLocked r i) := by
  cases hi : (s.mutex i).locked with
  | true =>
      rw [Sys.mutexDeallocLocked, if_pos hi]
      exact .refuseMt (-1) (by rw [hpc]; rfl)
  | false => exact .mutexDeallocLocked hpc hi

theorem of_mutexLockTid {i : MutexId}
    (hpc : (s.thread r).pc = .mutexLockTid i) :
    Section s c r a (s.mutexLockTid r i) := by
  unfold Sys.mutexLockTid
  split
  · exact .refuseMt (-1) (by rw [hpc]; rfl)
  · rename_i ht
    split
    · exact .moveMt hpc (.lockBlock ht ‹_›)
    · exact .moveMt hpc (.lockFree ht (Bool.eq_false_iff.mpr ‹_›))

theorem of_mutexLockCheck {i : MutexId}
    (hpc : (s.thread r).pc = .mutexLockCheck i) :
    Section s c r a (s.mutexLockCheck r i) := by
  unfold Sys.mutexLockCheck
  split
  · exact .halt nofun fun _ => ⟨i, hpc, ‹_›⟩
  · exact .moveMt hpc (.lockTake (Bool.eq_false_iff.mpr ‹_›))

theorem of_mutexUnlockTid {i : MutexId}
    (hpc : (s.thread r).pc = .mutexUnlockTid i) :
    Section s c r a (s.mutexUnlockTid r i) := by
  unfold Sys.mutexUnlockTid
  split
  · exact .refuseMt (-1) (by rw [hpc]; rfl)
  · exact .moveMt hpc (.unlockScan (not_not.mp ‹_›))

theorem of_mutexUnlockScan {i : MutexId}
    (hpc : (s.thread r).pc = .mutexUnlockScan i) (hl : s.ptlock = none) :
    Section s c r (.run c) (s.mutexUnlockScan r i) := by
  unfold Sys.mutexUnlockScan
  split
  · exact .handOff hpc hl ‹_›
  · exact .moveMt hpc (.unlockFree ‹_›)

theorem of_kernDone {v : ℤ} {k : After} (hpc : (s.thread r).pc = .kern k)
    (hi : (s.thread r).inop = false) (hk : (s.thread r).locks = [])
    (h : s.kernDone r v k = some s') : Section s c r a s' := by
  have hmove : ∀ pc' : Pc, pc'.plain = true →
      pc'.tearing = decide (k.root = .exit) → pc'.closed ≤ k.closed →
      s.Enters r a pc' → Section s c r a (s.goto r pc') :=
    fun pc' hn ht hcl he => .move ⟨by rw [hpc]; rfl, hn, by rw [hpc]; exact ht,
      fun _ _ => ⟨hi, hk⟩, fun _ _ => hi, by rw [hpc]; exact hcl⟩ he
  cases k with
  | ret =>
      cases h
      exact hmove _ rfl rfl le_rfl trivial
  | exitFile fd =>
      cases h
      exact .exitFile hpc hi hk
  | exit =>
      cases h
      exact hmove _ rfl rfl le_rfl trivial
  | exec =>
      cases h
      split
      · exact hmove _ rfl rfl le_rfl trivial
      · exact hmove _ rfl rfl le_rfl trivial
  | commit k =>
      obtain ⟨hl, rfl⟩ := Sys.underPt_eq_some h
      exact .endCommit hpc hl hi hk

theorem of_kernStep {k : After} {op : KernOp} (hr : s.cpu c = .run r)
    (hpc : (s.thread r).pc = .kern k) (h : s.kernStep c r k op = some s') :
    Section s c r (.kern c op) s' := by
  have hmove : ∀ pc' : Pc, pc'.plain = true → pc'.inFs = true →
      pc'.tearing = decide (k.root = .exit) → pc'.closed ≤ k.closed →
      (∀ k', pc' = .beginOp k' → (s.thread r).inop = false) →
      s.Enters r (.kern c op) pc' → Section s c r (.kern c op) (s.goto r pc') :=
    fun pc' hn hf ht hcl hb he => .move ⟨by rw [hpc]; rfl, hn,
      by rw [hpc]; exact ht, fun _ hf' => absurd (hf.symm.trans hf') (by decide),
      hb, by rw [hpc]; exact hcl⟩ he
  cases op with
  | sleep n =>
      obtain ⟨hl, rfl⟩ := Sys.underPt_eq_some h
      refine .sleep hpc (.kern n k) (.inl hl) trivial fun m e => ?_
      rw [Chan.other.inj e]
  | wakeup n =>
      obtain ⟨hl, rfl⟩ := Sys.underPt_eq_some h
      exact .wakeup n hpc hl
  | beginOp =>
      cases hi : (s.thread r).inop with
      | true => simp [Sys.kernStep, hi] at h
      | false =>
          simp only [Sys.kernStep, hi] at h
          cases h
          exact hmove _ rfl rfl rfl le_rfl (fun _ _ => hi) trivial
  | endOp =>
      cases hi : (s.thread r).inop with
      | false => simp [Sys.kernStep, hi] at h
      | true =>
          simp only [Sys.kernStep, hi, if_true] at h
          obtain ⟨hl, rfl⟩ := Sys.underPt_eq_some h
          cases hc : s.log.committing with
          | true =>
              rw [Sys.endOp, if_pos hc]
              exact halt_of rfl (by decide)
          | false => exact .endOp hpc hl hi hc
  | logWrite b =>
      cases hi : (s.thread r).inop with
      | false => simp [Sys.kernStep, hi] at h
      | true =>
          simp only [Sys.kernStep, hi, if_true] at h
          cases h
          split
          · exact halt_of rfl (by decide)
          · exact .logWrite b hpc hi (Bool.eq_false_iff.mpr ‹_›)
  | acquiresleep l =>
      cases h
      exact hmove _ rfl rfl rfl le_rfl nofun trivial
  | releasesleep l =>
      simp only [Sys.kernStep] at h
      split at h
      · obtain ⟨hl, rfl⟩ := Sys.underPt_eq_some h
        exact .releasesleep l hpc hl ‹_›
      · cases h
  | done v =>
      simp only [Sys.kernStep] at h
      split at h
      · exact of_kernDone hpc (And.left ‹_›) (And.right ‹_›) h
      · cases h
  | openFile fd =>
      obtain ⟨⟨rfl, _⟩, ⟨⟩⟩ := Option.ite_none_right_eq_some.mp h
      exact .setFile fd true hpc
  | closeFile fd =>
      obtain ⟨⟨rfl, _⟩, ⟨⟩⟩ := Option.ite_none_right_eq_some.mp h
      exact .setFile fd false hpc
  | loop l =>
      obtain ⟨⟨rfl, hi, hk⟩, ⟨⟩⟩ := Option.ite_none_right_eq_some.mp h
      exact .move ⟨by rw [hpc]; rfl, rfl, by rw [hpc]; rfl, fun _ _ => ⟨hi, hk⟩,
        nofun, Nat.zero_le _⟩ ⟨c, rfl, hr⟩
  | mustWait | ready => cases h

theorem of_loopStep {l : Loop} {op : KernOp} (hpc : (s.thread r).pc = .loop l)
    (h : s.loopStep r l op = some s') : Section s c r (.kern c op) s' := by
  cases op <;> try cases h
  case mustWait =>
    split
    case isTrue => exact move_of hpc rfl trivial
    case isFalse ht =>
      exact move_of hpc rfl ⟨⟨c, rfl⟩, hpc, Bool.eq_false_iff.mpr ht⟩
  case ready => exact move_of hpc rfl trivial

theorem of_loopSleep {l : Loop} {op : KernOp}
    (hpc : (s.thread r).pc = .loopSleep l)
    (h : s.loopSleep c r l op = some s') : Section s c r (.kern c op) s' := by
  cases op <;> try cases h
  case sleep n =>
    obtain ⟨hl, rfl⟩ := Sys.underPt_eq_some h
    refine .sleep hpc (.loop n l) (.inl hl) trivial fun m e => ?_
    rw [Chan.other.inj e]

/-- The sections whose outcome the state decides. -/
theorem of_runStep (hr : s.cpu c = .run r) (h : s.runStep c r = some s') :
    Section s c r (.run c) s' := by
  unfold Sys.runStep at h
  cases hpc : (s.thread r).pc <;> simp only [hpc] at h
  case user | dispatch | kern | loop | loopSleep | createStack | forkStack
    | forkCopy => cases h
  case checkThread k =>
    cases h
    split <;> exact move_of hpc rfl trivial
  case checkProc k =>
    cases h
    cases k <;> split <;> exact move_of hpc rfl trivial
  case irqYield =>
    obtain ⟨hl, rfl⟩ := Sys.underPt_eq_some h
    exact .yield hpc .user hl (.inl (by rw [hpc]; nofun))
  case sysret v =>
    cases h
    exact move_of hpc rfl trivial
  case beginOp k =>
    obtain ⟨hl, rfl⟩ := Sys.underPt_eq_some h
    exact of_beginOp hpc hl
  case acquiresleep l k => exact of_acquiresleep hpc h
  case exit =>
    obtain ⟨hl, rfl⟩ := Sys.underPt_eq_some h
    exact .exit hpc hl
  case exitWait u =>
    obtain ⟨hl, rfl⟩ := Sys.holdingPt_eq_some h
    exact .exitWait hpc hl
  case exitClose =>
    cases h
    exact of_exitClose hpc
  case exitFinal =>
    obtain ⟨hl, rfl⟩ := Sys.underPt_eq_some h
    exact .exitFinal hpc hl
  case kthreadExit =>
    obtain ⟨hl, rfl⟩ := Sys.underPt_eq_some h
    exact .kthreadExit hpc hl
  case kthreadExitSched =>
    obtain ⟨hl, rfl⟩ := Sys.underPt_eq_some h
    exact of_kthreadExitSched hpc hl
  case zombieExit =>
    cases h
    exact halt_of rfl (by decide)
  case join id =>
    cases h
    exact of_join hpc
  case joinLock u =>
    obtain ⟨hl, rfl⟩ := Sys.underPt_eq_some h
    exact of_joinLock hr hpc (.inl hl)
  case joinLoop u =>
    obtain ⟨hl, rfl⟩ := Sys.holdingPt_eq_some h
    exact of_joinLoop hr (.inr hpc) (.inr hl) fun e => absurd (hpc.symm.trans e) nofun
  case create =>
    obtain ⟨hl, rfl⟩ := Sys.underPt_eq_some h
    exact of_create hpc hl
  case createPublish u =>
    obtain ⟨hl, rfl⟩ := Sys.underPt_eq_some h
    exact .createPublish hpc hl
  case createRet u =>
    cases h
    exact move_of hpc rfl trivial
  case wait =>
    obtain ⟨hl, rfl⟩ := Sys.underPt_eq_some h
    exact of_waitLoop (.inl hpc) (.inl hl)
  case waitLoop =>
    obtain ⟨hl, rfl⟩ := Sys.holdingPt_eq_some h
    exact of_waitLoop (.inr hpc) (.inr hl)
  case kill pid =>
    obtain ⟨hl, rfl⟩ := Sys.underPt_eq_some h
    exact of_kill hpc hl
  case fork =>
    obtain ⟨hl, rfl⟩ := Sys.underPt_eq_some h
    exact of_fork hpc hl
  case forkClaim q =>
    cases h
    exact .forkClaim hpc
  case forkThread q =>
    obtain ⟨hl, rfl⟩ := Sys.underPt_eq_some h
    exact .forkThread hpc hl
  case forkFail q =>
    cases h
    exact .forkFail hpc
  case forkThreadRunnable q pid =>
    obtain ⟨hl, rfl⟩ := Sys.underPt_eq_some h
    exact .forkThreadRunnable hpc hl
  case forkRunnable q pid =>
    obtain ⟨hl, rfl⟩ := Sys.underPt_eq_some h
    exact .forkRunnable hpc hl
  case execKill =>
    obtain ⟨hl, rfl⟩ := Sys.underPt_eq_some h
    exact .execKill hpc hl
  case execWait =>
    obtain ⟨hl, rfl⟩ := Sys.underPt_eq_some h
    exact of_execWait hpc hl
  case execClear =>
    obtain ⟨hl, rfl⟩ := Sys.underPt_eq_some h
    exact .execClear hpc hl
  case execCommit =>
    obtain ⟨hl, rfl⟩ := Sys.underPt_eq_some h
    exact of_execCommit hpc hl
  case mutexAlloc =>
    obtain ⟨hl, rfl⟩ := Sys.underMt_eq_some h
    exact of_mutexAlloc hpc hl
  case mutexAllocMid i =>
    obtain ⟨hl, rfl⟩ := Sys.underPt_eq_some h
    exact .mutexAllocMid hpc hl
  case mutexDealloc id => exact of_mutexCall hpc rfl (fun _ => .dealloc) h
  case mutexDeallocMid i =>
    obtain ⟨hl, rfl⟩ := Sys.underPt_eq_some h
    exact of_mutexMid hpc rfl .deallocMid
  case mutexDeallocLocked i =>
    cases h
    exact of_mutexDeallocLocked hpc
  case mutexDeallocClear i =>
    obtain ⟨hl, rfl⟩ := Sys.underPt_eq_some h
    exact .mutexDeallocClear hpc hl
  case mutexLock id => exact of_mutexCall hpc rfl (fun _ => .lock) h
  case mutexLockMid i =>
    obtain ⟨hl, rfl⟩ := Sys.underPt_eq_some h
    exact of_mutexMid hpc rfl .lockMid
  case mutexLockTid i =>
    cases h
    exact of_mutexLockTid hpc
  case mutexLockBlock i =>
    obtain ⟨hl, rfl⟩ := Sys.underPt_eq_some h
    exact .mutexLockBlock hpc hl
  case mutexLockSleep i =>
    obtain ⟨hl, rfl⟩ := Sys.underPt_eq_some h
    exact .mutexLockSleep hpc hl
  case mutexLockWoken i =>
    obtain ⟨hl, rfl⟩ := Sys.underMt_eq_some h
    exact .mutexLockWoken hpc hl
  case mutexLockCheck i =>
    obtain ⟨hl, rfl⟩ := Sys.underPt_eq_some h
    exact of_mutexLockCheck hpc
  case mutexLockTake i =>
    cases h
    exact .mutexLockTake hpc
  case mutexUnlock id => exact of_mutexCall hpc rfl (fun _ => .unlock) h
  case mutexUnlockMid i =>
    obtain ⟨hl, rfl⟩ := Sys.underPt_eq_some h
    exact of_mutexMid hpc rfl .unlockMid
  case mutexUnlockTid i =>
    cases h
    exact of_mutexUnlockTid hpc
  case mutexUnlockScan i =>
    obtain ⟨hl, rfl⟩ := Sys.underPt_eq_some h
    exact of_mutexUnlockScan hpc hl
  case mutexUnlockFree i =>
    cases h
    exact .mutexUnlockFree hpc

theorem of_kallocStep {ok : Bool} (h : s.kallocStep r ok = some s') :
    Section s c r a s' := by
  unfold Sys.kallocStep at h
  split at h
  case h_1 u hpc =>
    cases h
    exact .createStack ok hpc
  case h_2 q u hpc =>
    cases h
    exact .forkStack ok hpc
  case h_3 q hpc =>
    cases h
    exact of_forkCopy hpc
  case h_4 => cases h

/-- Everything a running thread does is a section. -/
theorem of_threadStep (hr : s.cpu c = .run r) (ha : a.cpu = some c)
    (h : s.threadStep c r a = some s') : Section s c r a s' := by
  cases a with
  | sched c' | wakeup n => cases h
  | run c' =>
      cases ha
      exact of_runStep hr h
  | trap c' =>
      obtain ⟨hpc, ⟨⟩⟩ := Option.ite_none_right_eq_some.mp h
      exact move_of hpc rfl trivial
  | irq c' timer =>
      obtain ⟨hpc, ⟨⟩⟩ := Option.ite_none_right_eq_some.mp h
      cases timer <;> exact move_of hpc rfl trivial
  | fault c' =>
      cases ha
      obtain ⟨hpc, ⟨⟩⟩ := Option.ite_none_right_eq_some.mp h
      exact .fault hpc
  | syscall c' call =>
      cases ha
      obtain ⟨hpc, ⟨⟩⟩ := Option.ite_none_right_eq_some.mp h
      cases call with
      | wait | join => exact move_of hpc rfl ⟨c, rfl, hr⟩
      | _ => exact move_of hpc rfl trivial
  | kalloc c' ok => exact of_kallocStep h
  | kern c' op =>
      cases ha
      unfold Sys.threadStep at h
      cases hpc : (s.thread r).pc <;> simp only [hpc] at h <;> try cases h
      case kern k => exact of_kernStep hr hpc h
      case loop l => exact of_loopStep hpc h
      case loopSleep l => exact of_loopSleep hpc h
  | preempt c' =>
      obtain ⟨⟨hpc, hs⟩, h⟩ := Option.ite_none_right_eq_some.mp h
      obtain ⟨hl, rfl⟩ := Sys.underPt_eq_some h
      exact .yield rfl (.kernel hpc) hl (.inr hs)

end Section

/-- Every step is a change. -/
theorem step_change {s s' : Sys Cpu} {a : Act Cpu} (h : step s a = some s') :
    s.panicked = none ∧ Change s a s' := by
  unfold step at h
  split at h
  case isTrue => cases h
  case isFalse hp =>
    refine ⟨by simpa using hp, ?_⟩
    have hcpu : ∀ c, a.cpu = some c → s.cpuStep c a = some s' →
        Change s a s' := by
      intro c hc hs
      unfold Sys.cpuStep at hs
      cases hst : s.cpu c with
      | idle =>
          simp only [hst] at hs
          obtain ⟨rfl, hs'⟩ := Option.ite_none_right_eq_some.mp hs
          obtain ⟨hl, rfl⟩ := Sys.underPt_eq_some hs'
          exact .sched (.inl ⟨hst, hl⟩)
      | scan p k =>
          simp only [hst] at hs
          obtain ⟨rfl, hs'⟩ := Option.ite_none_right_eq_some.mp hs
          obtain ⟨hl, rfl⟩ := Sys.holdingPt_eq_some hs'
          exact .sched (.inr ⟨⟨p, k, hst⟩, hl⟩)
      | run r =>
          simp only [hst] at hs
          exact .run hst (Section.of_threadStep hst hc hs) hc
      | junk r =>
          simp only [hst] at hs
          cases hs
          exact .junk hst
    cases a with
    | wakeup n =>
        obtain ⟨hl, rfl⟩ := Sys.underPt_eq_some h
        exact .wakeup n hl
    | sched c | run c | trap c | irq c | fault c | syscall c | kalloc c
    | kern c | preempt c => exact hcpu c rfl h

end Xv6.Kernel
