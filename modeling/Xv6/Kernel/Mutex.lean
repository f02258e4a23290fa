import Xv6.Kernel.Proc

/-!
# `kthread_mutex_alloc`, `_dealloc`, `_lock` and `_unlock`

A mutex call runs under `mtable.lock` and takes `ptable.lock` for short
sections inside it. The two locks are kept apart: `mtlock` names the CPU that
holds `mtable.lock`, and every section that runs under `ptable.lock` is a step
of its own, so that other CPUs may run their own `ptable.lock` sections in
between. `kthread_mutex_lock` gives `mtable.lock` up only inside `sleep`, after
it has taken `ptable.lock`.
-/

set_option linter.unusedSectionVars false

namespace Xv6.Kernel

variable {Cpu : Type} [DecidableEq Cpu]

/-- The range check on a mutex id. -/
def mutexId (id : ℤ) : Option MutexId :=
  if h : 0 ≤ id ∧ id.toNat < maxMutexes then some ⟨id.toNat, h.2⟩ else none

/-- The slots after `t` in the cyclic order in which `kthread_mutex_unlock`
looks for a waiter. -/
def slotsAfter (t : Slot) : List Slot :=
  (List.range (nthread - 1)).map fun k => t + Fin.ofNat nthread (k + 1)

namespace Sys

/-- `acquire(&mtable.lock)`. -/
def acquireMt (s : Sys Cpu) (c : Cpu) : Sys Cpu := { s with mtlock := some c }

/-- `release(&mtable.lock)`. -/
def releaseMt (s : Sys Cpu) : Sys Cpu := { s with mtlock := none }

/-- `release(&mtable.lock)` and return from the system call. -/
def retMt (s : Sys Cpu) (r : ThreadPtr) (v : ℤ) : Sys Cpu :=
  (s.goto r (.sysret v)).releaseMt

/-! ## §1  `kthread_mutex_alloc` -/

/-- The first mutex that is not allocated. -/
def freeMutex (s : Sys Cpu) : Option MutexId :=
  (List.finRange maxMutexes).find? fun i => !(s.mutex i).allocated

def mutexAlloc (s : Sys Cpu) (c : Cpu) (r : ThreadPtr) : Sys Cpu :=
  match s.freeMutex with
  | some i =>
      ((s.setMutex i fun _ =>
        { allocated := true, locked := false, tid := -1,
          owner := some r.1 }).goto r (.mutexAllocMid i)).acquireMt c
  | none => s.goto r (.sysret (-1))

def mutexAllocMid (s : Sys Cpu) (r : ThreadPtr) (i : MutexId) : Sys Cpu :=
  (s.setProc r.1 fun x => { x with mid := Function.update x.mid i true }).retMt r
    i.val

/-! ## §2  `kthread_mutex_dealloc` -/

/-- The first test of the three calls that take a mutex id: it is allocated. -/
def mutexEnter (s : Sys Cpu) (c : Cpu) (r : ThreadPtr) (i : MutexId) (pc : Pc) :
    Sys Cpu :=
  if (s.mutex i).allocated then (s.goto r pc).acquireMt c
  else s.goto r (.sysret (-1))

/-- The second test: it is a mutex of the calling process. -/
def mutexMid (s : Sys Cpu) (r : ThreadPtr) (i : MutexId) (pc : Pc) : Sys Cpu :=
  if (s.proc r.1).mid i then s.goto r pc else s.retMt r (-1)

def mutexDeallocLocked (s : Sys Cpu) (r : ThreadPtr) (i : MutexId) : Sys Cpu :=
  if (s.mutex i).locked then s.retMt r (-1)
  else
    (s.setMutex i fun m =>
      { m with allocated := false, locked := false, tid := -1 }).goto r
        (.mutexDeallocClear i)

def mutexDeallocClear (s : Sys Cpu) (r : ThreadPtr) (i : MutexId) : Sys Cpu :=
  (s.setProc r.1 fun x => { x with mid := Function.update x.mid i false }).retMt r
    0

/-! ## §3  `kthread_mutex_lock` -/

def mutexLockTid (s : Sys Cpu) (r : ThreadPtr) (i : MutexId) : Sys Cpu :=
  if (s.mutex i).tid = (s.thread r).tid then s.retMt r (-1)
  else if (s.mutex i).locked then s.goto r (.mutexLockBlock i)
  else s.goto r (.mutexLockCheck i)

def mutexLockBlock (s : Sys Cpu) (r : ThreadPtr) (i : MutexId) : Sys Cpu :=
  s.setThread r fun t => { t with blocked := true, pc := .mutexLockSleep i }

/-- `sleep(m, &mtable.lock)`. -/
def mutexLockSleep (s : Sys Cpu) (c : Cpu) (r : ThreadPtr) (i : MutexId) :
    Sys Cpu :=
  (s.releaseMt).sleep c r (.mutex i) .sleep (.mutexLockWoken i)

def mutexLockCheck (s : Sys Cpu) (r : ThreadPtr) (i : MutexId) : Sys Cpu :=
  if (s.thread r).blocked then s.panic .threadIsBlocked
  else s.goto r (.mutexLockTake i)

def mutexLockTake (s : Sys Cpu) (r : ThreadPtr) (i : MutexId) : Sys Cpu :=
  ((s.setMutex i fun m =>
      { m with locked := true, tid := (s.thread r).tid }).setThread r fun t =>
    { t with pc := .sysret 0, holds := insert i t.holds }).releaseMt

/-! ## §4  `kthread_mutex_unlock` -/

def mutexUnlockTid (s : Sys Cpu) (r : ThreadPtr) (i : MutexId) : Sys Cpu :=
  if (s.thread r).tid ≠ (s.mutex i).tid then s.retMt r (-1)
  else s.goto r (.mutexUnlockScan i)

/-- The first blocked waiter after the calling thread. -/
def waiter (s : Sys Cpu) (r : ThreadPtr) (i : MutexId) : Option Slot :=
  (slotsAfter r.2).find? fun u =>
    (s.thread (r.1, u)).blocked && decide ((s.thread (r.1, u)).chan = .mutex i)

/-- The mutex is handed to the waiter `u`, whatever the state of `u`. -/
def handOff (s : Sys Cpu) (r : ThreadPtr) (i : MutexId) (u : Slot) : Sys Cpu :=
  (((s.setMutex i fun m => { m with tid := (s.thread (r.1, u)).tid }).setThread
      (r.1, u) fun t =>
        { t with chan := .null, state := .RUNNABLE, blocked := false }).setThread
      r fun t => { t with pc := .sysret 0, holds := t.holds.erase i }).releaseMt

def mutexUnlockScan (s : Sys Cpu) (r : ThreadPtr) (i : MutexId) : Sys Cpu :=
  match s.waiter r i with
  | some u => s.handOff r i u
  | none => s.goto r (.mutexUnlockFree i)

def mutexUnlockFree (s : Sys Cpu) (r : ThreadPtr) (i : MutexId) : Sys Cpu :=
  ((s.setMutex i fun m => { m with locked := false, tid := -1 }).setThread r
    fun t => { t with pc := .sysret 0, holds := t.holds.erase i }).releaseMt

end Sys

end Xv6.Kernel
