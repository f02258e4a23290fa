import Xv6.Kernel.Mutex
import Xv6.Lib.Transition

/-!
# The kernel as a transition system

A step is one section executed by one CPU. Sections under `ptable.lock` need
the lock to be free and leave it free, unless they end in `sched`; then the
scheduler of the CPU holds it (`CpuState.scan`). A thread resumed inside a
`sleep` on `ptable.lock` holds it too (`Pc.holdsPt`). The sections of a mutex
call hold `mtable.lock` in between (`Pc.holdsMt`).

What the file system, the pipes and the console do between `syscall` and
`sysret` is any sequence of the operations in `KernOp`: sleeping on and waking
their own channels, `begin_op` and `end_op`, `log_write`, sleeplocks, and taking
and giving back file descriptors. Only their discipline is kept: a thread
returns when it is outside a transaction and holds no sleeplock. Of the waiting
loops that test a kill flag the model keeps the test and the `sleep` after it,
which are two steps; what they wait for is up to the action.
-/

set_option linter.unusedSectionVars false

namespace Xv6.Kernel

open Xv6.Fs (Log)

variable {Cpu : Type} [DecidableEq Cpu]

/-! ## §1  Actions -/

/-- The system calls that are modelled; `other` is any other call. -/
inductive Syscall where
  | exit | kthreadExit | join (id : ℤ) | create | wait | kill (pid : ℤ)
  | fork | exec | mutexAlloc | mutexDealloc (id : ℤ) | mutexLock (id : ℤ)
  | mutexUnlock (id : ℤ) | other
deriving DecidableEq, Repr

def Syscall.entry : Syscall → Pc
  | .exit => .exit
  | .kthreadExit => .kthreadExit
  | .join id => .join id
  | .create => .create
  | .wait => .wait
  | .kill pid => .kill pid
  | .fork => .fork
  | .exec => .execKill
  | .mutexAlloc => .mutexAlloc
  | .mutexDealloc id => .mutexDealloc id
  | .mutexLock id => .mutexLock id
  | .mutexUnlock id => .mutexUnlock id
  | .other => .kern .ret

/-- What a thread may do inside file system code. -/
inductive KernOp where
  | sleep (n : ℕ) | wakeup (n : ℕ) | beginOp | endOp | logWrite (b : ℕ)
  | acquiresleep (l : ℕ) | releasesleep (l : ℕ) | done (v : ℤ)
  | openFile (fd : Fd) | closeFile (fd : Fd)
  | loop (l : Loop)         -- enter a waiting loop
  | mustWait                -- what the loop waits for has not happened
  | ready                   -- it has happened
deriving DecidableEq, Repr

/-- The actions: what happens next, and on which CPU. `kalloc` carries the
outcome of an allocation; `wakeup` is a device interrupt. -/
inductive Act (Cpu : Type) where
  | sched (c : Cpu)
  | run (c : Cpu)
  | trap (c : Cpu)
  | irq (c : Cpu) (timer : Bool)
  | fault (c : Cpu)
  | syscall (c : Cpu) (call : Syscall)
  | kalloc (c : Cpu) (ok : Bool)
  | kern (c : Cpu) (op : KernOp)
  | preempt (c : Cpu)
  | wakeup (n : ℕ)
deriving DecidableEq, Repr

def AfterCheck.pc : AfterCheck → Pc
  | .syscall => .dispatch
  | .yield => .irqYield
  | .user => .user

/-- Sections between which the thread holds `mtable.lock`. -/
def Pc.holdsMt : Pc → Bool
  | .mutexAllocMid _ | .mutexDeallocMid _ | .mutexDeallocLocked _
  | .mutexDeallocClear _ | .mutexLockMid _ | .mutexLockTid _
  | .mutexLockBlock _ | .mutexLockSleep _ | .mutexLockCheck _
  | .mutexLockTake _ | .mutexUnlockMid _ | .mutexUnlockTid _
  | .mutexUnlockScan _ | .mutexUnlockFree _ => true
  | _ => false

/-- Sections that a thread enters with `ptable.lock` held. -/
def Pc.holdsPt : Pc → Bool
  | .exitWait _ | .joinLoop _ | .waitLoop => true
  | _ => false

/-- In a waiting loop, where a lock of the device is held. -/
def Pc.inLoop : Pc → Bool
  | .loop _ | .loopSleep _ => true
  | _ => false

/-- Kernel code with interrupts enabled. -/
def Pc.preemptible (pc : Pc) : Bool :=
  !pc.holdsMt && !pc.holdsPt && !pc.inLoop && decide (pc ≠ .user)

/-- The kill flags that a waiting loop tests: `sys_sleep` looks at the flag of
the process alone. -/
def Loop.tests (l : Loop) (p t : Bool) : Bool :=
  match l with
  | .sysSleep => p
  | .pipewrite | .piperead | .consoleread => p || t

namespace Sys

/-- A section under `ptable.lock`. -/
def underPt (s s' : Sys Cpu) : Option (Sys Cpu) :=
  if s.ptlock = none then some s' else none

/-- A section that goes on under `ptable.lock`. -/
def holdingPt (s : Sys Cpu) (c : Cpu) (s' : Sys Cpu) : Option (Sys Cpu) :=
  if s.ptlock = some c then some s' else none

/-- A section that takes `mtable.lock`. -/
def underMt (s s' : Sys Cpu) : Option (Sys Cpu) :=
  if s.mtlock = none then some s' else none

/-- The entry of the mutex calls that take an id. -/
def mutexCall (s : Sys Cpu) (c : Cpu) (r : ThreadPtr) (id : ℤ)
    (pc : MutexId → Pc) : Option (Sys Cpu) :=
  match mutexId id with
  | some i => s.underMt (s.mutexEnter c r i (pc i))
  | none => some (s.goto r (.sysret (-1)))

/-! ## §2  Log and sleeplocks -/

/-- `begin_op`. -/
def beginOp (s : Sys Cpu) (c : Cpu) (r : ThreadPtr) (k : After) : Sys Cpu :=
  if s.log.mustWait then s.sleep c r .log .sleep (.beginOp k)
  else
    { s.setThread r fun t => { t with pc := .kern k, inop := true } with
      log := s.log.enter }

/-- `end_op` up to its `commit`. -/
def endOp (s : Sys Cpu) (r : ThreadPtr) (k : After) : Sys Cpu :=
  if s.log.committing then s.panic .logCommitting
  else
    let s' : Sys Cpu :=
      { s.setThread r fun t => { t with inop := false } with
        log := s.log.leave }
    if s'.log.committing then s'.goto r (.kern (.commit k))
    else s'.wakeup1 .log

/-- `end_op` after its `commit`. -/
def endCommit (s : Sys Cpu) (r : ThreadPtr) (k : After) : Sys Cpu :=
  (({ s with log := s.log.committed } : Sys Cpu).wakeup1 .log).goto r (.kern k)

/-- `acquiresleep` when the lock is free. -/
def takeSleep (s : Sys Cpu) (r : ThreadPtr) (l : ℕ) (k : After) : Sys Cpu :=
  { s.setThread r fun t => { t with pc := .kern k, locks := l :: t.locks } with
    sleeplock := Function.update s.sleeplock l ⟨true, (s.proc r.1).pid⟩ }

/-- `acquiresleep`. -/
def acquiresleep (s : Sys Cpu) (c : Cpu) (r : ThreadPtr) (l : ℕ) (k : After) :
    Option (Sys Cpu) :=
  if (s.sleeplock l).locked then
    s.underPt (s.sleep c r (.sleeplock l) .sleep (.acquiresleep l k))
  else some (s.takeSleep r l k)

/-- `releasesleep`. -/
def releasesleep (s : Sys Cpu) (r : ThreadPtr) (l : ℕ) : Sys Cpu :=
  ({ s.setThread r fun t => { t with locks := t.locks.erase l } with
      sleeplock := Function.update s.sleeplock l ⟨false, 0⟩ } : Sys Cpu).wakeup1
    (.sleeplock l)

/-- The end of a stretch of file system code. -/
def kernDone (s : Sys Cpu) (r : ThreadPtr) (v : ℤ) : After → Option (Sys Cpu)
  | .ret => some (s.goto r (.sysret v))
  | .exitFile fd => some ((s.setFile r.1 fd false).exitFiles r (fd + 1))
  | .exit => some (s.goto r .exitFinal)
  | .exec => some (s.goto r (if v = 0 then .execCommit else .sysret (-1)))
  | .commit k => s.underPt (s.endCommit r k)

/-- `log.size`, the value `mkfs` writes for `sb.nlog`. -/
def nlog : ℕ := Xv6.Fs.logSize

/-- One operation of file system code. -/
def kernStep (s : Sys Cpu) (c : Cpu) (r : ThreadPtr) (k : After) :
    KernOp → Option (Sys Cpu)
  | .sleep n => s.underPt (s.sleep c r (.other n) .sleep (.kern k))
  | .wakeup n => s.underPt (s.wakeup1 (.other n))
  | .beginOp =>
      if (s.thread r).inop then none else some (s.goto r (.beginOp k))
  | .endOp =>
      if (s.thread r).inop then s.underPt (s.endOp r k) else none
  | .logWrite b =>
      if (s.thread r).inop then
        some (if s.log.tooBig nlog then s.panic .tooBig
          else { s with log := s.log.record b })
      else none
  | .acquiresleep l => some (s.goto r (.acquiresleep l k))
  | .releasesleep l =>
      if l ∈ (s.thread r).locks then s.underPt (s.releasesleep r l) else none
  | .done v =>
      if (s.thread r).inop = false ∧ (s.thread r).locks = [] then
        s.kernDone r v k
      else none
  | .openFile fd =>
      if k = .ret ∧ (s.proc r.1).ofile fd = false then
        some (s.setFile r.1 fd true)
      else none
  | .closeFile fd =>
      if k = .ret ∧ (s.proc r.1).ofile fd = true then
        some (s.setFile r.1 fd false)
      else none
  | .loop l =>
      if k = .ret ∧ (s.thread r).inop = false ∧ (s.thread r).locks = [] then
        some (s.goto r (.loop l))
      else none
  | .mustWait | .ready => none

/-- One pass of a waiting loop up to its `sleep`. -/
def loopStep (s : Sys Cpu) (r : ThreadPtr) (l : Loop) : KernOp → Option (Sys Cpu)
  | .mustWait =>
      some (s.goto r
        (if l.tests (s.proc r.1).killed (s.thread r).killed then .kern .ret
         else .loopSleep l))
  | .ready => some (s.goto r (.kern .ret))
  | _ => none

/-- The `sleep` of a waiting loop. -/
def loopSleep (s : Sys Cpu) (c : Cpu) (r : ThreadPtr) (l : Loop) :
    KernOp → Option (Sys Cpu)
  | .sleep n => s.underPt (s.sleep c r (.other n) .sleep (.loop l))
  | _ => none

/-! ## §3  The next section of a running thread -/

/-- The sections whose outcome the state decides. -/
def runStep (s : Sys Cpu) (c : Cpu) (r : ThreadPtr) : Option (Sys Cpu) :=
  match (s.thread r).pc with
  | .user | .dispatch | .kern _ | .loop _ | .loopSleep _ | .createStack _
  | .forkStack _ _ | .forkCopy _ => none
  | .checkThread k =>
      some (s.goto r (if (s.thread r).killed then .kthreadExit else .checkProc k))
  | .checkProc k =>
      some (s.goto r (if (s.proc r.1).killed then .exit else k.pc))
  | .irqYield => s.underPt (s.yield c r (.checkThread .user))
  | .sysret _ => some (s.goto r (.checkThread .user))
  | .beginOp k => s.underPt (s.beginOp c r k)
  | .acquiresleep l k => s.acquiresleep c r l k
  | .exit => s.underPt (s.exit c r)
  | .exitWait u => s.holdingPt c (s.exitLoop c r (u + 1))
  | .exitClose => some (s.exitClose r)
  | .exitFinal => s.underPt (s.exitFinal c r)
  | .kthreadExit => s.underPt (s.kthreadExit r)
  | .kthreadExitSched => s.underPt (s.kthreadExitSched c r)
  | .zombieExit => some (s.panic .zombieExit)
  | .join id => some (s.join r id)
  | .joinLock u => s.underPt (s.joinLock c r u)
  | .joinLoop u => s.holdingPt c (s.joinLoop c r u)
  | .create => s.underPt (s.create r)
  | .createPublish u =>
      s.underPt ((s.makeRunnable (r.1, u)).goto r (.createRet u))
  | .createRet u => some (s.goto r (.sysret (s.thread (r.1, u)).tid))
  | .wait => s.underPt (s.waitLoop c r)
  | .waitLoop => s.holdingPt c (s.waitLoop c r)
  | .kill pid => s.underPt (s.kill r pid)
  | .fork => s.underPt (s.fork r)
  | .forkClaim q => some (s.forkClaim r q)
  | .forkThread q => s.underPt (s.forkThread r q)
  | .forkFail q => some (s.forkFail r q)
  | .forkThreadRunnable q pid =>
      s.underPt ((s.makeRunnable (q, 0)).goto r (.forkRunnable q pid))
  | .forkRunnable q pid => s.underPt (s.forkRunnable r q pid)
  | .execKill => s.underPt (s.execKill r)
  | .execWait => s.underPt (s.execWait r)
  | .execClear => s.underPt (s.execClear r)
  | .execCommit => s.underPt (s.execCommit r)
  | .mutexAlloc => s.underMt (s.mutexAlloc c r)
  | .mutexAllocMid i => s.underPt (s.mutexAllocMid r i)
  | .mutexDealloc id => s.mutexCall c r id .mutexDeallocMid
  | .mutexDeallocMid i => s.underPt (s.mutexMid r i (.mutexDeallocLocked i))
  | .mutexDeallocLocked i => some (s.mutexDeallocLocked r i)
  | .mutexDeallocClear i => s.underPt (s.mutexDeallocClear r i)
  | .mutexLock id => s.mutexCall c r id .mutexLockMid
  | .mutexLockMid i => s.underPt (s.mutexMid r i (.mutexLockTid i))
  | .mutexLockTid i => some (s.mutexLockTid r i)
  | .mutexLockBlock i => s.underPt (s.mutexLockBlock r i)
  | .mutexLockSleep i => s.underPt (s.mutexLockSleep c r i)
  | .mutexLockWoken i =>
      s.underMt ((s.goto r (.mutexLockCheck i)).acquireMt c)
  | .mutexLockCheck i => s.underPt (s.mutexLockCheck r i)
  | .mutexLockTake i => some (s.mutexLockTake r i)
  | .mutexUnlock id => s.mutexCall c r id .mutexUnlockMid
  | .mutexUnlockMid i => s.underPt (s.mutexMid r i (.mutexUnlockTid i))
  | .mutexUnlockTid i => some (s.mutexUnlockTid r i)
  | .mutexUnlockScan i => s.underPt (s.mutexUnlockScan r i)
  | .mutexUnlockFree i => some (s.mutexUnlockFree r i)

/-- The sections that depend on an allocation. -/
def kallocStep (s : Sys Cpu) (r : ThreadPtr) (ok : Bool) : Option (Sys Cpu) :=
  match (s.thread r).pc with
  | .createStack u => some (s.createStack r u ok)
  | .forkStack q u => some (s.forkStack r q u ok)
  | .forkCopy q => some (s.forkCopy r q ok)
  | _ => none

/-- What thread `r`, running on `c`, does for an action. -/
def threadStep (s : Sys Cpu) (c : Cpu) (r : ThreadPtr) :
    Act Cpu → Option (Sys Cpu)
  | .run _ => s.runStep c r
  | .trap _ =>
      if (s.thread r).pc = .user then some (s.goto r (.checkThread .syscall))
      else none
  | .irq _ timer =>
      if (s.thread r).pc = .user then
        some (s.goto r (.checkThread (if timer then .yield else .user)))
      else none
  | .fault _ =>
      if (s.thread r).pc = .user then
        some ((s.setProc r.1 fun x => { x with killed := true }).goto r
          (.checkThread .user))
      else none
  | .syscall _ call =>
      if (s.thread r).pc = .dispatch then some (s.goto r call.entry) else none
  | .kalloc _ ok => s.kallocStep r ok
  | .kern _ op =>
      match (s.thread r).pc with
      | .kern k => s.kernStep c r k op
      | .loop l => s.loopStep r l op
      | .loopSleep l => s.loopSleep c r l op
      | _ => none
  | .preempt _ =>
      if (s.thread r).pc.preemptible ∧ (s.thread r).state = .RUNNING then
        s.underPt (s.yield c r (s.thread r).pc)
      else none
  | .sched _ | .wakeup _ => none

/-- What CPU `c` does. A CPU on a freed stack returns through junk, which is a
fault in kernel mode. -/
def cpuStep (s : Sys Cpu) (c : Cpu) (a : Act Cpu) : Option (Sys Cpu) :=
  match s.cpu c with
  | .idle => if a = .sched c then s.underPt (s.scheduler c) else none
  | .scan _ _ =>
      if a = .sched c then s.holdingPt c (s.scheduler c) else none
  | .run r => s.threadStep c r a
  | .junk _ => some (s.panic .trap)

end Sys

/-- The CPU an action happens on. -/
def Act.cpu : Act Cpu → Option Cpu
  | .sched c | .run c | .trap c | .irq c _ | .fault c | .syscall c _
  | .kalloc c _ | .kern c _ | .preempt c => some c
  | .wakeup _ => none

/-- One step of the kernel; none after a panic. -/
def step (s : Sys Cpu) (a : Act Cpu) : Option (Sys Cpu) :=
  if s.panicked.isSome then none
  else
    match a with
    | .wakeup n => s.underPt (s.wakeup1 (.other n))
    | a => a.cpu.bind fun c => s.cpuStep c a

/-! ## §4  Initial states -/

/-- A slot that has never been used, or has been freed. -/
structure Thread.Free (t : Thread) : Prop where
  state : t.state = .UNUSED
  chan : t.chan = .null
  killed : t.killed = false
  blocked : t.blocked = false
  kstack : t.kstack = false
  context : t.context = none
  inop : t.inop = false
  locks : t.locks = []

/-- A thread that is about to run in user mode for the first time. -/
structure Thread.Fresh (t : Thread) (u : Slot) : Prop where
  state : t.state = .RUNNABLE
  chan : t.chan = .null
  tid : t.tid = u.val
  killed : t.killed = false
  blocked : t.blocked = false
  kstack : t.kstack = true
  context : t.context = some .forkret
  pc : t.pc = .user
  holds : t.holds = ∅
  inop : t.inop = false
  locks : t.locks = []

/-- A process slot that has never been used. -/
structure Proc.Free (x : Proc) : Prop where
  state : x.state = .UNUSED
  pid : x.pid = 0
  parent : x.parent = none
  killed : x.killed = false
  ofile : ∀ fd, x.ofile fd = false

/-- The kernel with any processes and threads created, none of which has
entered the kernel yet. The state after `userinit` is one of them. -/
structure Initial (s : Sys Cpu) : Prop where
  cpu : ∀ c, s.cpu c = .idle
  ptlock : s.ptlock = none
  mtlock : s.mtlock = none
  panicked : s.panicked = none
  log : s.log = Log.empty
  sleeplock : ∀ l, (s.sleeplock l).locked = false
  mutex : ∀ i, (s.mutex i).allocated = false
  mid : ∀ p i, (s.proc p).mid i = false
  exiting : ∀ p, (s.proc p).exiting = none
  nextpid : 0 < s.nextpid
  pid : ∀ p, (s.proc p).state ≠ .UNUSED →
    0 < (s.proc p).pid ∧ (s.proc p).pid < s.nextpid
  pidInj : ∀ p q, (s.proc p).state ≠ .UNUSED → (s.proc q).state ≠ .UNUSED →
    (s.proc p).pid = (s.proc q).pid → p = q
  proc : ∀ p, (s.proc p).Free ∧ (∀ t, (s.thread (p, t)).Free) ∨
    (s.proc p).state = .RUNNABLE ∧
      ∀ t, (s.thread (p, t)).Free ∨ (s.thread (p, t)).Fresh t
  thread : ∀ p, (s.proc p).state ≠ .UNUSED →
    ∃ t, (s.thread (p, t)).state ≠ .UNUSED

/-- The kernel. -/
def kernel (Cpu : Type) [DecidableEq Cpu] : Lib.System (Sys Cpu) (Act Cpu) where
  init := Initial
  step := step

end Xv6.Kernel
