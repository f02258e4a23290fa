import Mathlib.Data.Fintype.Basic
import Mathlib.Data.Fin.Basic
import Mathlib.Data.Finset.Basic
import Mathlib.Logic.Function.Basic
import Xv6.Lib.Index
import Xv6.Fs.Log

/-!
# The process table, the mutex table and the CPUs

The data of `proc.h`, `kthread.h` and `kthread_mutex.h`, and the control state
of the threads.

A kernel thread is a slot of the process table. Its `pc` says which section of
kernel code it executes next; a section is what runs between `acquire` and
`release` of `ptable.lock`, or one stretch of code outside the locks. `pc`
stands for what the thread's kernel stack and registers hold, so it survives a
context switch; `context` says how `swtch` left the thread (in `yield`, in
`sleep`, or never started). Freeing the stack invalidates both.

Three fields of a thread are history variables that no kernel function reads:
`holds` (the mutexes whose `kthread_mutex_lock` returned 0 and that were not
unlocked since), `inop` (between `begin_op` and `end_op`) and `locks` (the
sleeplocks acquired and not released). `Proc.exiting` and
`KthreadMutex.owner` are history variables of the same kind.

Of the open files a process keeps which descriptors are in use. Left out because
no section below reads them: `sz`, `pgdir`, `cwd`, `name`, `tf` and `parent` of
a thread, and the mutex `name`.
-/

set_option linter.unusedSectionVars false

namespace Xv6.Kernel

open Xv6.Fs (Log)

/-! ## §1  Tables and names -/

/-- `NPROC`. -/
abbrev nproc : ℕ := 64

/-- `NTHREAD`. -/
abbrev nthread : ℕ := 16

/-- `MAX_MUTEXES`. -/
abbrev maxMutexes : ℕ := 64

/-- A slot of `ptable.proc`. -/
abbrev ProcId : Type := Fin nproc

/-- A slot of `p->threads`. -/
abbrev Slot : Type := Fin nthread

/-- A slot of `mtable.mutex`. -/
abbrev MutexId : Type := Fin maxMutexes

/-- `NOFILE`. -/
abbrev nofile : ℕ := 16

/-- A file descriptor. -/
abbrev Fd : Type := Fin nofile

/-- `struct thread *`: the process and the slot in it. -/
abbrev ThreadPtr : Type := ProcId × Slot

/-- `enum states`, of processes and of threads. -/
inductive States where
  | UNUSED | EMBRYO | SLEEPING | RUNNABLE | RUNNING | ZOMBIE
deriving DecidableEq, Repr

/-- The values `sleep` and `wakeup` are called with. Channels are addresses,
so channels of different kinds are different; `other` are the disk buffers,
`ticks`, the pipes and the console. -/
inductive Chan where
  | null
  | proc (p : ProcId)
  | thread (r : ThreadPtr)
  | mutex (i : MutexId)
  | log
  | sleeplock (l : ℕ)
  | other (n : ℕ)
deriving DecidableEq, Repr

/-! ## §2  Control state -/

/-- What follows a stretch of file system code. -/
inductive After where
  | ret                     -- back to the caller of the system call
  | exitFile (fd : Fd)      -- `exit` after `fileclose` of one file
  | exit                    -- `exit` after putting the directory
  | exec                    -- `exec` after loading the image
  | commit (k : After)      -- `end_op` after `commit`
deriving DecidableEq, Repr

/-- The waiting loops outside `proc.c` that test a kill flag. -/
inductive Loop where
  | sysSleep | pipewrite | piperead | consoleread
deriving DecidableEq, Repr

/-- What `trap` does after the two `killed` tests. -/
inductive AfterCheck where
  | syscall | yield | user
deriving DecidableEq, Repr

/-- The next section a thread executes. -/
inductive Pc where
  -- `trap` and `syscall`
  | user
  | checkThread (k : AfterCheck)
  | checkProc (k : AfterCheck)
  | dispatch
  | irqYield
  | sysret (v : ℤ)
  -- file system code and other sleeping code
  | kern (k : After)
  | beginOp (k : After)
  | acquiresleep (l : ℕ) (k : After)
  | loop (l : Loop)
  | loopSleep (l : Loop)
  -- `exit`
  | exit
  | exitWait (u : Slot)
  | exitClose
  | exitFinal
  -- `kthread_exit`
  | kthreadExit
  | kthreadExitSched
  | zombieExit
  -- `kthread_join`
  | join (id : ℤ)
  | joinLock (u : Slot)
  | joinLoop (u : Slot)
  -- `kthread_create`
  | create
  | createStack (u : Slot)
  | createPublish (u : Slot)
  | createRet (u : Slot)
  -- `wait` and `kill`
  | wait
  | waitLoop
  | kill (pid : ℤ)
  -- `fork`
  | fork
  | forkClaim (q : ProcId)
  | forkThread (q : ProcId)
  | forkStack (q : ProcId) (u : Slot)
  | forkFail (q : ProcId)
  | forkCopy (q : ProcId)
  | forkThreadRunnable (q : ProcId) (pid : ℤ)
  | forkRunnable (q : ProcId) (pid : ℤ)
  -- `exec`
  | execKill
  | execWait
  | execClear
  | execCommit
  -- `kthread_mutex_alloc` and `kthread_mutex_dealloc`
  | mutexAlloc
  | mutexAllocMid (i : MutexId)
  | mutexDealloc (id : ℤ)
  | mutexDeallocMid (i : MutexId)
  | mutexDeallocLocked (i : MutexId)
  | mutexDeallocClear (i : MutexId)
  -- `kthread_mutex_lock`
  | mutexLock (id : ℤ)
  | mutexLockMid (i : MutexId)
  | mutexLockTid (i : MutexId)
  | mutexLockBlock (i : MutexId)
  | mutexLockSleep (i : MutexId)
  | mutexLockWoken (i : MutexId)
  | mutexLockCheck (i : MutexId)
  | mutexLockTake (i : MutexId)
  -- `kthread_mutex_unlock`
  | mutexUnlock (id : ℤ)
  | mutexUnlockMid (i : MutexId)
  | mutexUnlockTid (i : MutexId)
  | mutexUnlockScan (i : MutexId)
  | mutexUnlockFree (i : MutexId)
deriving DecidableEq, Repr

/-- How `swtch` left a thread that is not running. `sleepHeld` is a `sleep`
whose lock is `ptable.lock` itself: it returns with that lock held. -/
inductive Resume where
  | forkret | yield | sleep | sleepHeld
deriving DecidableEq, Repr

/-- What the kernel stops with. -/
inductive Panic where
  | threadIsBlocked         -- "Thread is Blocked"
  | schedRunning            -- "sched running", "sched thread running"
  | zombieExit              -- "zombie exit"
  | initExiting             -- "init exiting"
  | kfree                   -- "kfree"
  | logCommitting           -- "log.committing"
  | tooBig                  -- "too big a transaction"
  | trap                    -- "trap": a fault in kernel mode
deriving DecidableEq, Repr

/-! ## §3  Records -/

/-- `struct thread`. -/
structure Thread where
  chan : Chan
  tid : ℤ
  killed : Bool
  state : States
  context : Option Resume
  kstack : Bool
  blocked : Bool
  pc : Pc
  holds : Finset MutexId
  inop : Bool
  locks : List ℕ

/-- `struct proc`. -/
structure Proc where
  state : States
  pid : ℤ
  parent : Option ProcId
  killed : Bool
  ofile : Fd → Bool
  mid : MutexId → Bool
  exiting : Option Slot

/-- `struct kthread_mutex`. -/
structure KthreadMutex where
  locked : Bool
  allocated : Bool
  tid : ℤ
  owner : Option ProcId

/-- `struct sleeplock`. -/
structure SleepLock where
  locked : Bool
  pid : ℤ

/-- What a CPU does. `scan p k`: in `scheduler`, holding `ptable.lock`, about
to look at slot `k` of process `p`. `junk r`: `c->thread` is `r`, but the
stack it runs on has been freed. -/
inductive CpuState where
  | idle
  | scan (p : ProcId) (k : ℕ)
  | run (r : ThreadPtr)
  | junk (r : ThreadPtr)
deriving DecidableEq, Repr

/-- The kernel: `ptable`, `mtable`, the CPUs, the two spinlocks that the
sections nest, the log and the sleeplocks. -/
structure Sys (Cpu : Type) where
  proc : ProcId → Proc
  thread : ThreadPtr → Thread
  mutex : MutexId → KthreadMutex
  cpu : Cpu → CpuState
  ptlock : Option Cpu
  mtlock : Option Cpu
  log : Log
  sleeplock : ℕ → SleepLock
  nextpid : ℤ
  panicked : Option Panic

/-- `initproc`: `userinit` runs first and takes the first slot. -/
def initproc : ProcId := 0

/-! ## §4  Updates -/

namespace Sys

variable {Cpu : Type} [DecidableEq Cpu]

/-- Change one thread. -/
def setThread (s : Sys Cpu) (r : ThreadPtr) (f : Thread → Thread) : Sys Cpu :=
  { s with thread := Function.update s.thread r (f (s.thread r)) }

/-- Change one process. -/
def setProc (s : Sys Cpu) (p : ProcId) (f : Proc → Proc) : Sys Cpu :=
  { s with proc := Function.update s.proc p (f (s.proc p)) }

/-- Change one mutex. -/
def setMutex (s : Sys Cpu) (i : MutexId) (f : KthreadMutex → KthreadMutex) :
    Sys Cpu :=
  { s with mutex := Function.update s.mutex i (f (s.mutex i)) }

/-- Change one CPU. -/
def setCpu (s : Sys Cpu) (c : Cpu) (x : CpuState) : Sys Cpu :=
  { s with cpu := Function.update s.cpu c x }

/-- The thread goes on to another section. -/
def goto (s : Sys Cpu) (r : ThreadPtr) (pc : Pc) : Sys Cpu :=
  s.setThread r fun t => { t with pc := pc }

/-- `p->state = st`. -/
def setPState (s : Sys Cpu) (p : ProcId) (st : States) : Sys Cpu :=
  s.setProc p fun q => { q with state := st }

/-- `panic(m)`. -/
def panic (s : Sys Cpu) (m : Panic) : Sys Cpu := { s with panicked := some m }

/-! ## §5  Frame lemmas -/

section Frame

variable (s : Sys Cpu) (r : ThreadPtr) (p : ProcId) (i : MutexId) (c : Cpu)

theorem setThread_thread (f : Thread → Thread) (x : ThreadPtr) :
    (s.setThread r f).thread x =
      if x = r then f (s.thread r) else s.thread x := by
  simp only [setThread, Function.update_apply]

theorem setProc_proc (f : Proc → Proc) (q : ProcId) :
    (s.setProc p f).proc q = if q = p then f (s.proc p) else s.proc q := by
  simp only [setProc, Function.update_apply]

@[simp] theorem setThread_self (f : Thread → Thread) :
    (s.setThread r f).thread r = f (s.thread r) := by
  simp [setThread]

@[simp] theorem setThread_ne {x : ThreadPtr} (f : Thread → Thread) (h : x ≠ r) :
    (s.setThread r f).thread x = s.thread x := by
  simp [setThread, h]

@[simp] theorem goto_self (pc : Pc) :
    (s.goto r pc).thread r = { s.thread r with pc := pc } :=
  setThread_self s r _

@[simp] theorem goto_ne {x : ThreadPtr} (pc : Pc) (h : x ≠ r) :
    (s.goto r pc).thread x = s.thread x :=
  setThread_ne s r _ h

@[simp] theorem setProc_self (f : Proc → Proc) :
    (s.setProc p f).proc p = f (s.proc p) := by
  simp [setProc]

@[simp] theorem setProc_ne {q : ProcId} (f : Proc → Proc) (h : q ≠ p) :
    (s.setProc p f).proc q = s.proc q := by
  simp [setProc, h]

@[simp] theorem setPState_self (st : States) :
    (s.setPState p st).proc p = { s.proc p with state := st } :=
  setProc_self s p _

@[simp] theorem setPState_ne {q : ProcId} (st : States) (h : q ≠ p) :
    (s.setPState p st).proc q = s.proc q :=
  setProc_ne s p _ h

@[simp] theorem setCpu_self (x : CpuState) : (s.setCpu c x).cpu c = x := by
  simp [setCpu]

@[simp] theorem setCpu_ne {c' : Cpu} (x : CpuState) (h : c' ≠ c) :
    (s.setCpu c x).cpu c' = s.cpu c' := by
  simp [setCpu, h]

@[simp] theorem setThread_proc (f : Thread → Thread) :
    (s.setThread r f).proc = s.proc := rfl

@[simp] theorem setThread_mutex (f : Thread → Thread) :
    (s.setThread r f).mutex = s.mutex := rfl

@[simp] theorem setThread_cpu (f : Thread → Thread) :
    (s.setThread r f).cpu = s.cpu := rfl

@[simp] theorem setThread_ptlock (f : Thread → Thread) :
    (s.setThread r f).ptlock = s.ptlock := rfl

@[simp] theorem setThread_mtlock (f : Thread → Thread) :
    (s.setThread r f).mtlock = s.mtlock := rfl

@[simp] theorem setThread_log (f : Thread → Thread) :
    (s.setThread r f).log = s.log := rfl

@[simp] theorem setThread_sleeplock (f : Thread → Thread) :
    (s.setThread r f).sleeplock = s.sleeplock := rfl

@[simp] theorem setThread_nextpid (f : Thread → Thread) :
    (s.setThread r f).nextpid = s.nextpid := rfl

@[simp] theorem setThread_panicked (f : Thread → Thread) :
    (s.setThread r f).panicked = s.panicked := rfl

@[simp] theorem setProc_thread (f : Proc → Proc) :
    (s.setProc p f).thread = s.thread := rfl

@[simp] theorem setProc_mutex (f : Proc → Proc) :
    (s.setProc p f).mutex = s.mutex := rfl

@[simp] theorem setProc_cpu (f : Proc → Proc) :
    (s.setProc p f).cpu = s.cpu := rfl

@[simp] theorem setProc_ptlock (f : Proc → Proc) :
    (s.setProc p f).ptlock = s.ptlock := rfl

@[simp] theorem setProc_mtlock (f : Proc → Proc) :
    (s.setProc p f).mtlock = s.mtlock := rfl

@[simp] theorem setProc_log (f : Proc → Proc) :
    (s.setProc p f).log = s.log := rfl

@[simp] theorem setProc_sleeplock (f : Proc → Proc) :
    (s.setProc p f).sleeplock = s.sleeplock := rfl

@[simp] theorem setProc_nextpid (f : Proc → Proc) :
    (s.setProc p f).nextpid = s.nextpid := rfl

@[simp] theorem setProc_panicked (f : Proc → Proc) :
    (s.setProc p f).panicked = s.panicked := rfl

@[simp] theorem setMutex_proc (f : KthreadMutex → KthreadMutex) :
    (s.setMutex i f).proc = s.proc := rfl

@[simp] theorem setMutex_thread (f : KthreadMutex → KthreadMutex) :
    (s.setMutex i f).thread = s.thread := rfl

@[simp] theorem setMutex_cpu (f : KthreadMutex → KthreadMutex) :
    (s.setMutex i f).cpu = s.cpu := rfl

@[simp] theorem setMutex_ptlock (f : KthreadMutex → KthreadMutex) :
    (s.setMutex i f).ptlock = s.ptlock := rfl

@[simp] theorem setMutex_mtlock (f : KthreadMutex → KthreadMutex) :
    (s.setMutex i f).mtlock = s.mtlock := rfl

@[simp] theorem setMutex_log (f : KthreadMutex → KthreadMutex) :
    (s.setMutex i f).log = s.log := rfl

@[simp] theorem setMutex_sleeplock (f : KthreadMutex → KthreadMutex) :
    (s.setMutex i f).sleeplock = s.sleeplock := rfl

@[simp] theorem setMutex_nextpid (f : KthreadMutex → KthreadMutex) :
    (s.setMutex i f).nextpid = s.nextpid := rfl

@[simp] theorem setMutex_panicked (f : KthreadMutex → KthreadMutex) :
    (s.setMutex i f).panicked = s.panicked := rfl

@[simp] theorem setCpu_proc (x : CpuState) :
    (s.setCpu c x).proc = s.proc := rfl

@[simp] theorem setCpu_thread (x : CpuState) :
    (s.setCpu c x).thread = s.thread := rfl

@[simp] theorem setCpu_mutex (x : CpuState) :
    (s.setCpu c x).mutex = s.mutex := rfl

@[simp] theorem setCpu_ptlock (x : CpuState) :
    (s.setCpu c x).ptlock = s.ptlock := rfl

@[simp] theorem setCpu_mtlock (x : CpuState) :
    (s.setCpu c x).mtlock = s.mtlock := rfl

@[simp] theorem setCpu_log (x : CpuState) :
    (s.setCpu c x).log = s.log := rfl

@[simp] theorem setCpu_sleeplock (x : CpuState) :
    (s.setCpu c x).sleeplock = s.sleeplock := rfl

@[simp] theorem setCpu_nextpid (x : CpuState) :
    (s.setCpu c x).nextpid = s.nextpid := rfl

@[simp] theorem setCpu_panicked (x : CpuState) :
    (s.setCpu c x).panicked = s.panicked := rfl

end Frame

end Sys

end Xv6.Kernel
