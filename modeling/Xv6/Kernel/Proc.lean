import Xv6.Kernel.Sched

/-!
# `allocthread`, `fork`, `exit`, `wait`, `kill` and the kthread calls

The sections of `proc.c` in the order of the source, and `kill_threads` of
`exec.c`. Each definition is the effect of one section executed by thread `r`
on CPU `c`; `Xv6.Kernel.Step` says when the section may run.
-/

set_option linter.unusedSectionVars false

namespace Xv6.Kernel

variable {Cpu : Type} [DecidableEq Cpu]

/-- What `clear_thread` leaves of a slot. The context lived on the stack. -/
def Thread.cleared (t : Thread) : Thread :=
  { t with chan := .null, kstack := false, tid := -1, killed := false,
           blocked := false, state := .UNUSED, context := none }

/-- What `kill_threads` leaves of a slot: unlike `clear_thread` it keeps
`chan` and `killed`. -/
def Thread.reaped (t : Thread) : Thread :=
  { t with kstack := false, tid := -1, blocked := false, state := .UNUSED,
           context := none }

/-- What `fork` leaves of the new thread when `copyuvm` fails. -/
def Thread.uncopied (t : Thread) : Thread :=
  { t with kstack := false, state := .UNUSED, context := none }

/-- What `exit`'s first loop makes of a sibling. -/
def Thread.exitMarked (t : Thread) : Thread :=
  { t with
    killed := t.killed || decide (t.state ≠ .UNUSED)
    state := if t.state = .RUNNABLE ∨ t.state = .SLEEPING then .ZOMBIE
      else t.state }

/-- What `kill_threads`' first loop makes of a thread of the process. -/
def Thread.execMarked (t : Thread) (sibling : Bool) : Thread :=
  { t with
    killed := t.killed || (sibling && decide (t.state ≠ .UNUSED))
    state := if t.state = .SLEEPING then .RUNNABLE else t.state }

/-- What `wait` leaves of a child. -/
def Proc.vacated (x : Proc) : Proc :=
  { x with mid := fun _ => false, pid := 0, parent := none, killed := false,
           state := .UNUSED, exiting := none }

namespace Sys

/-- `release(&ptable.lock)` at the end of a section. -/
def releasePt (s : Sys Cpu) : Sys Cpu := { s with ptlock := none }

/-- `release(&ptable.lock)` and return from the system call. -/
def ret (s : Sys Cpu) (r : ThreadPtr) (v : ℤ) : Sys Cpu :=
  (s.goto r (.sysret v)).releasePt

/-- The stacks of the slots of `p` in `free` are freed. `kfree` fills the page
with junk ("to catch dangling refs"), so a CPU that still runs on such a stack
runs on junk from now on. -/
def freed (s : Sys Cpu) (p : ProcId) (free : Slot → Prop)
    [DecidablePred free] (f : Thread → Thread) : Sys Cpu :=
  { s with
    thread := fun r =>
      if r.1 = p ∧ free r.2 then f (s.thread r) else s.thread r
    cpu := fun c =>
      match s.cpu c with
      | .run r => if r.1 = p ∧ free r.2 then .junk r else .run r
      | x => x }

/-- Free the stacks of the slots of `p` in `free`; `kfree(0)` panics. -/
def freeStacks (s : Sys Cpu) (p : ProcId) (free : Slot → Prop)
    [DecidablePred free] (f : Thread → Thread) : Sys Cpu :=
  if ∃ t, free t ∧ (s.thread (p, t)).kstack = false then s.panic .kfree
  else s.freed p free f

/-! ## §1  `allocthread` -/

/-- The first slot that `allocthread` finds `UNUSED`. -/
def unusedSlot (s : Sys Cpu) (p : ProcId) : Option Slot :=
  (List.finRange nthread).find? fun t =>
    decide ((s.thread (p, t)).state = .UNUSED)

/-- `allocthread`'s locked part: the slot is taken. A new thread starts with
an empty history. -/
def takeSlot (s : Sys Cpu) (p : ProcId) (u : Slot) : Sys Cpu :=
  s.setThread (p, u) fun t =>
    { t with state := .EMBRYO, tid := u.val, pc := .user, holds := ∅,
             inop := false, locks := [] }

/-- `allocthread` after `kalloc` succeeded: a stack, and a context that starts
at `forkret`. -/
def giveStack (s : Sys Cpu) (r : ThreadPtr) : Sys Cpu :=
  s.setThread r fun t => { t with kstack := true, context := some .forkret }

/-- `allocthread` after `kalloc` failed. -/
def dropSlot (s : Sys Cpu) (r : ThreadPtr) : Sys Cpu :=
  s.setThread r fun t => { t with kstack := false, state := .UNUSED }

/-- `t->state = RUNNABLE` of `kthread_create` and of `fork`. -/
def makeRunnable (s : Sys Cpu) (r : ThreadPtr) : Sys Cpu :=
  s.setThread r fun t => { t with state := .RUNNABLE }

/-! ## §2  `fork` and `allocproc` -/

/-- The first process that `allocproc` finds `UNUSED`. -/
def unusedProc (s : Sys Cpu) : Option ProcId :=
  (List.finRange nproc).find? fun p => decide ((s.proc p).state = .UNUSED)

/-- `allocproc`'s search. -/
def fork (s : Sys Cpu) (r : ThreadPtr) : Sys Cpu :=
  match s.unusedProc with
  | some q => s.goto r (.forkClaim q)
  | none => s.ret r (-1)

/-- `allocproc` after it has released `ptable.lock`. -/
def forkClaim (s : Sys Cpu) (r : ThreadPtr) (q : ProcId) : Sys Cpu :=
  { (s.setProc q fun x =>
      { x with state := .EMBRYO, mid := fun _ => false, pid := s.nextpid }).goto r
      (.forkThread q) with nextpid := s.nextpid + 1 }

/-- `allocproc`'s call of `allocthread`. -/
def forkThread (s : Sys Cpu) (r : ThreadPtr) (q : ProcId) : Sys Cpu :=
  match s.unusedSlot q with
  | some u => (s.takeSlot q u).goto r (.forkStack q u)
  | none => s.goto r (.forkFail q)

/-- `kalloc` in `allocthread`, called from `allocproc`. -/
def forkStack (s : Sys Cpu) (r : ThreadPtr) (q : ProcId) (u : Slot)
    (ok : Bool) : Sys Cpu :=
  if ok then (s.giveStack (q, u)).goto r (.forkCopy q)
  else (s.dropSlot (q, u)).goto r (.forkFail q)

/-- `allocproc` gives up. -/
def forkFail (s : Sys Cpu) (r : ThreadPtr) (q : ProcId) : Sys Cpu :=
  (s.setPState q .UNUSED).goto r (.sysret (-1))

/-- `fork`'s loop over the open files of the parent. -/
def copyFiles (s : Sys Cpu) (p q : ProcId) : Sys Cpu :=
  s.setProc q fun x =>
    { x with ofile := fun fd => (s.proc p).ofile fd || x.ofile fd }

/-- `copyuvm` and the copy of the open files; on failure `fork` frees the stack
of the first thread. -/
def forkCopy (s : Sys Cpu) (r : ThreadPtr) (q : ProcId) (ok : Bool) : Sys Cpu :=
  if ok then
    (s.copyFiles r.1 q).goto r (.forkThreadRunnable q (s.proc q).pid)
  else
    ((s.freeStacks q (· = 0) Thread.uncopied).setPState q .UNUSED).goto r
      (.sysret (-1))

/-- `fork`'s last section. -/
def forkRunnable (s : Sys Cpu) (r : ThreadPtr) (q : ProcId) (pid : ℤ) :
    Sys Cpu :=
  (s.setProc q fun x => { x with parent := some r.1, state := .RUNNABLE }).ret r
    pid

/-! ## §3  `allzombies` and `exit` -/

/-- `allzombies(p, cur)`. -/
def allzombies (s : Sys Cpu) (p : ProcId) (cur : Option Slot) : Prop :=
  (s.proc p).state = .ZOMBIE ∨
    ∀ t, some t ≠ cur → (s.thread (p, t)).state.dead = true

instance (s : Sys Cpu) (p : ProcId) (cur : Option Slot) :
    Decidable (s.allzombies p cur) := by
  unfold allzombies; infer_instance

/-- `exit`'s first loop: the siblings are marked, and those that do not run
are dead at once. -/
def exitMark (s : Sys Cpu) (r : ThreadPtr) : Sys Cpu :=
  { s with thread := fun x =>
      if x.1 = r.1 ∧ x ≠ r then (s.thread x).exitMarked else s.thread x }

/-- The next sibling that `exit`'s second loop waits for. -/
def exitNext (s : Sys Cpu) (r : ThreadPtr) (k : ℕ) : Option Slot :=
  (List.finRange nthread).find? fun u =>
    decide (k ≤ u.val) && decide (u ≠ r.2) &&
      !(s.thread (r.1, u)).state.dead

/-- `exit`'s second loop from slot `k` on: one `sleep` per sibling. When it
ends, the process starts to be torn down. -/
def exitLoop (s : Sys Cpu) (c : Cpu) (r : ThreadPtr) (k : ℕ) : Sys Cpu :=
  match s.exitNext r k with
  | some u => s.sleep c r (.thread (r.1, u)) .sleepHeld (.exitWait u)
  | none =>
      ((s.setProc r.1 fun x => { x with exiting := some r.2 }).goto r
        .exitClose).releasePt

/-- `exit`'s first section. -/
def exit (s : Sys Cpu) (c : Cpu) (r : ThreadPtr) : Sys Cpu :=
  (s.exitMark r).exitLoop c r 0

/-- `ofile[fd] = b`: the descriptor is taken or given back. -/
def setFile (s : Sys Cpu) (p : ProcId) (fd : Fd) (b : Bool) : Sys Cpu :=
  s.setProc p fun x => { x with ofile := Function.update x.ofile fd b }

/-- The next open file of `exit`'s closing loop. -/
def nextFile (s : Sys Cpu) (p : ProcId) (k : ℕ) : Option Fd :=
  (List.finRange nofile).find? fun fd =>
    decide (k ≤ fd.val) && (s.proc p).ofile fd

/-- `exit`'s closing loop from descriptor `k` on: `fileclose` is file system
code, and so is what follows the loop, the release of the directory. -/
def closing (s : Sys Cpu) (p : ProcId) (k : ℕ) : Pc :=
  match s.nextFile p k with
  | some fd => .kern (.exitFile fd)
  | none => .kern .exit

def exitFiles (s : Sys Cpu) (r : ThreadPtr) (k : ℕ) : Sys Cpu :=
  s.goto r (s.closing r.1 k)

/-- `exit` after it has released `ptable.lock`. -/
def exitClose (s : Sys Cpu) (r : ThreadPtr) : Sys Cpu :=
  if r.1 = initproc then s.panic .initExiting else s.exitFiles r 0

/-- The channel `wakeup1(p->parent)` uses. -/
def parentChan (s : Sys Cpu) (p : ProcId) : Chan :=
  match (s.proc p).parent with
  | some q => .proc q
  | none => .null

/-- The abandoned children go to `init`. -/
def adopt (s : Sys Cpu) (p : ProcId) : Sys Cpu :=
  { s with
    proc := fun q =>
      if (s.proc q).parent = some p then
        { s.proc q with parent := some initproc }
      else s.proc q }

/-- `exit`'s loop over the children: `init` is woken for a dead one. -/
def reparent (s : Sys Cpu) (p : ProcId) : Sys Cpu :=
  if ∃ q, (s.proc q).parent = some p ∧ (s.proc q).state = .ZOMBIE then
    (s.adopt p).wakeup1 (.proc initproc)
  else s.adopt p

/-- `exit`'s last section. -/
def exitFinal (s : Sys Cpu) (c : Cpu) (r : ThreadPtr) : Sys Cpu :=
  let s₁ := s.reparent r.1
  let s₂ := s₁.wakeup1 (s₁.parentChan r.1)
  ((s₂.setPState r.1 .ZOMBIE).setThread r fun t =>
    { t with state := .ZOMBIE, pc := .zombieExit }).sched c r .yield

/-! ## §4  `wait` -/

def vacate (s : Sys Cpu) (q : ProcId) : Sys Cpu := s.setProc q Proc.vacated

/-- `wait` frees a child. -/
def reapProc (s : Sys Cpu) (q : ProcId) : Sys Cpu :=
  (s.freeStacks q (fun t => (s.thread (q, t)).state ≠ .UNUSED)
    Thread.cleared).vacate q

/-- The first child that `wait` finds dead. -/
def deadChild (s : Sys Cpu) (p : ProcId) : Option ProcId :=
  (List.finRange nproc).find? fun q =>
    decide ((s.proc q).parent = some p) && decide (s.allzombies q none)

/-- One pass of `wait`'s loop. -/
def waitLoop (s : Sys Cpu) (c : Cpu) (r : ThreadPtr) : Sys Cpu :=
  match s.deadChild r.1 with
  | some q => (s.reapProc q).ret r (s.proc q).pid
  | none =>
      if (∀ q, (s.proc q).parent ≠ some r.1) ∨ (s.proc r.1).killed = true then
        s.ret r (-1)
      else s.sleep c r (.proc r.1) .sleepHeld .waitLoop

/-! ## §5  `kill` -/

/-- The process `kill(pid)` finds. -/
def procOfPid (s : Sys Cpu) (pid : ℤ) : Option ProcId :=
  (List.finRange nproc).find? fun p => decide ((s.proc p).pid = pid)

/-- The first sleeping thread of a process. -/
def sleepingSlot (s : Sys Cpu) (p : ProcId) : Option Slot :=
  (List.finRange nthread).find? fun t =>
    decide ((s.thread (p, t)).state = .SLEEPING)

/-- `kill`'s wake-up: the first sleeping thread of a sleeping process. -/
def killWake (s : Sys Cpu) (p : ProcId) : Sys Cpu :=
  if (s.proc p).state = .SLEEPING then
    match s.sleepingSlot p with
    | some t => (s.setPState p .RUNNABLE).makeRunnable (p, t)
    | none => s.setPState p .RUNNABLE
  else s

/-- `kill(pid)`. -/
def kill (s : Sys Cpu) (r : ThreadPtr) (pid : ℤ) : Sys Cpu :=
  match s.procOfPid pid with
  | some p =>
      ((s.setProc p fun x => { x with killed := true }).killWake p).ret r 0
  | none => s.ret r (-1)

/-! ## §6  `kthread_exit`, `kthread_join`, `kthread_create` -/

/-- `kthread_exit`'s first section. The last thread of a process calls
`exit`; another one is `ZOMBIE` when the lock is released, while it still
runs. -/
def kthreadExit (s : Sys Cpu) (r : ThreadPtr) : Sys Cpu :=
  let s₁ := s.wakeup1 (.thread r)
  if s₁.allzombies r.1 (some r.2) then s₁.goto r .exit
  else s₁.setThread r fun t =>
    { t with state := .ZOMBIE, pc := .kthreadExitSched }

/-- `kthread_exit`'s second section. -/
def kthreadExitSched (s : Sys Cpu) (c : Cpu) (r : ThreadPtr) : Sys Cpu :=
  ((s.setPState r.1 .RUNNABLE).goto r .zombieExit).sched c r .yield

/-- `kthread_join` before it takes the lock. -/
def join (s : Sys Cpu) (r : ThreadPtr) (id : ℤ) : Sys Cpu :=
  if id = (s.thread r).tid then s.goto r (.sysret (-1))
  else if h : 0 ≤ id ∧ id.toNat < nthread then
    s.goto r (.joinLock ⟨id.toNat, h.2⟩)
  else s.goto r (.sysret (-1))

/-- One pass of `kthread_join`'s loop. -/
def joinLoop (s : Sys Cpu) (c : Cpu) (r : ThreadPtr) (u : Slot) : Sys Cpu :=
  if (s.thread (r.1, u)).state = .ZOMBIE then
    (s.freeStacks r.1 (· = u) Thread.cleared).ret r 0
  else if (s.thread r).killed then s.ret r (-1)
  else s.sleep c r (.thread (r.1, u)) .sleepHeld (.joinLoop u)

/-- `kthread_join`'s section: the slot is validated once. -/
def joinLock (s : Sys Cpu) (c : Cpu) (r : ThreadPtr) (u : Slot) : Sys Cpu :=
  if (s.thread (r.1, u)).tid ≠ u.val then s.ret r (-1)
  else s.joinLoop c r u

/-- `kthread_create`'s call of `allocthread`. -/
def create (s : Sys Cpu) (r : ThreadPtr) : Sys Cpu :=
  match s.unusedSlot r.1 with
  | some u => (s.takeSlot r.1 u).goto r (.createStack u)
  | none => s.ret r (-1)

/-- `kalloc` in `allocthread`, called from `kthread_create`. -/
def createStack (s : Sys Cpu) (r : ThreadPtr) (u : Slot) (ok : Bool) :
    Sys Cpu :=
  if ok then (s.giveStack (r.1, u)).goto r (.createPublish u)
  else (s.dropSlot (r.1, u)).goto r (.sysret (-1))

/-! ## §7  `kill_threads` -/

/-- `kill_threads`' first section: the siblings are marked, and every sleeping
thread of the process is woken. -/
def execMark (s : Sys Cpu) (r : ThreadPtr) : Sys Cpu :=
  { s with thread := fun x =>
      if x.1 = r.1 then (s.thread x).execMarked (decide (x ≠ r))
      else s.thread x }

def execKill (s : Sys Cpu) (r : ThreadPtr) : Sys Cpu :=
  (s.execMark r).goto r .execWait

/-- One pass of `kill_threads`' waiting loop: the zombies are freed, and the
loop ends when all siblings were dead. -/
def execWait (s : Sys Cpu) (r : ThreadPtr) : Sys Cpu :=
  (s.freeStacks r.1 (fun t => t ≠ r.2 ∧ (s.thread (r.1, t)).state = .ZOMBIE)
    Thread.reaped).goto r
      (if ∀ t, t ≠ r.2 → (s.thread (r.1, t)).state.dead = true then .execClear
       else .execWait)

/-- `kill_threads`' last section: the process gives up its mutexes. -/
def execClear (s : Sys Cpu) (r : ThreadPtr) : Sys Cpu :=
  (s.setProc r.1 fun x => { x with mid := fun _ => false }).goto r (.kern .exec)

/-- `exec`'s commit. -/
def execCommit (s : Sys Cpu) (r : ThreadPtr) : Sys Cpu :=
  if (s.proc r.1).state = .ZOMBIE ∨ (s.thread r).killed = true then s.ret r (-1)
  else s.ret r 0

end Sys

end Xv6.Kernel
