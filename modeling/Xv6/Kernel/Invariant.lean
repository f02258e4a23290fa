import Xv6.Kernel.Section

/-!
# The invariant of the kernel

One invariant carries the results about mutexes, stacks and exits. It has three
parts.

* `CpuInv`: which CPU executes which thread, and who holds the two spinlocks.
* `SlotInv`: thread slots and process slots under construction belong to the
  thread that constructs them.
* `MutexInv`: how the mutex table, the ownership arrays `mid[]`, the `blocked`
  flags and the program points of the threads fit together.

A slot whose state is not `UNUSED` is *present*; all statements about a
program point are about present threads, since freeing a slot ends what its
stack said.
-/

set_option linter.unusedSectionVars false

namespace Xv6.Kernel

variable {Cpu : Type} [DecidableEq Cpu]

/-! ## §1  Program points with a claim on a slot -/

/-- A process slot that is neither free nor under construction. -/
def Proc.Alive (p : Proc) : Prop := p.state ≠ .UNUSED ∧ p.state ≠ .EMBRYO

/-- The slot that `kthread_create` is filling. -/
def Pc.creates : Pc → Option Slot
  | .createStack u | .createPublish u => some u
  | _ => none

/-- The process that `fork` is filling. -/
def Pc.forks : Pc → Option ProcId
  | .forkThread q | .forkStack q _ | .forkFail q | .forkCopy q
  | .forkThreadRunnable q _ | .forkRunnable q _ => some q
  | _ => none

/-- The program points at which `blocked` may be set. -/
def Pc.mayBlock : Pc → Bool
  | .mutexLockSleep _ | .mutexLockWoken _ | .mutexLockCheck _ => true
  | _ => false

/-- Under construction, with a stack and a context. -/
def Thread.Ready (t : Thread) : Prop := t.state = .EMBRYO ∧ t.context ≠ none

instance (t : Thread) : Decidable t.Ready := by
  unfold Thread.Ready; infer_instance

namespace Sys

/-- The slot is in use. -/
def Present (s : Sys Cpu) (r : ThreadPtr) : Prop :=
  (s.thread r).state ≠ .UNUSED

instance (s : Sys Cpu) (r : ThreadPtr) : Decidable (s.Present r) := by
  unfold Present; infer_instance

/-- No slot of the process is in use, except those in `xs`. -/
def OnlySlots (s : Sys Cpu) (p : ProcId) (xs : List Slot) : Prop :=
  ∀ t, t ∉ xs → (s.thread (p, t)).state = .UNUSED

/-- What a thread at a program point knows about the slots it works on. -/
def SlotFact (s : Sys Cpu) (r : ThreadPtr) : Pc → Prop
  | .createStack u => (s.thread (r.1, u)).state = .EMBRYO
  | .createPublish u => (s.thread (r.1, u)).Ready
  | .forkThread q | .forkFail q =>
      (s.proc q).state = .EMBRYO ∧ s.OnlySlots q []
  | .forkStack q u =>
      (s.proc q).state = .EMBRYO ∧ s.OnlySlots q [u] ∧
        (s.thread (q, u)).state = .EMBRYO ∧ u = 0
  | .forkCopy q | .forkThreadRunnable q _ =>
      (s.proc q).state = .EMBRYO ∧ s.OnlySlots q [0] ∧ (s.thread (q, 0)).Ready
  | .forkRunnable q _ => (s.proc q).state = .EMBRYO
  | .execClear => s.OnlySlots r.1 [r.2]
  | _ => True

/-- The tables record thread `r` as the holder of mutex `i`. -/
def Recorded (s : Sys Cpu) (r : ThreadPtr) (i : MutexId) : Prop :=
  (s.mutex i).allocated = true ∧ (s.mutex i).locked = true ∧
    (s.mutex i).tid = r.2.val ∧ (s.mutex i).owner = some r.1

/-- Thread `r` sleeps on mutex `i` and has not been handed it. -/
def Waits (s : Sys Cpu) (r : ThreadPtr) (i : MutexId) : Prop :=
  (s.thread r).blocked = true ∧ (s.thread r).chan = .mutex i

/-- What a thread at a program point knows about the mutex it works on. -/
def MutexFact (s : Sys Cpu) (r : ThreadPtr) : Pc → Prop
  | .mutexAllocMid i =>
      (s.mutex i).allocated = true ∧ (s.mutex i).owner = some r.1
  | .mutexDeallocMid i | .mutexLockMid i | .mutexUnlockMid i =>
      (s.mutex i).allocated = true
  | .mutexDeallocLocked i | .mutexLockTid i | .mutexUnlockTid i =>
      (s.mutex i).allocated = true ∧ (s.proc r.1).mid i = true
  | .mutexDeallocClear i => (s.mutex i).allocated = false
  | .mutexLockBlock i =>
      (s.mutex i).allocated = true ∧ (s.proc r.1).mid i = true ∧
        (s.mutex i).locked = true
  | .mutexLockSleep i =>
      (s.mutex i).allocated = true ∧ (s.proc r.1).mid i = true ∧
        (s.mutex i).locked = true ∧ (s.thread r).blocked = true
  | .mutexLockWoken i =>
      ((s.thread r).chan = .null ∨ (s.thread r).chan = .mutex i) ∧
        ((s.thread r).context ≠ some .sleep → (s.thread r).chan = .null) ∧
        ((s.thread r).blocked = false → s.Recorded r i) ∧
        (s.Waits r i → (s.mutex i).allocated = true ∧
          (s.mutex i).locked = true ∧ (s.proc r.1).mid i = true)
  | .mutexLockCheck i =>
      (s.thread r).blocked = false → (s.mutex i).allocated = true ∧
        (s.mutex i).owner = some r.1 ∧
        ((s.mutex i).locked = false ∨ (s.mutex i).tid = r.2.val)
  | .mutexLockTake i =>
      (s.mutex i).allocated = true ∧ (s.mutex i).owner = some r.1 ∧
        ((s.mutex i).locked = false ∨ (s.mutex i).tid = r.2.val)
  | .mutexUnlockScan i =>
      (s.mutex i).allocated = true ∧ (s.proc r.1).mid i = true ∧
        (s.mutex i).tid = r.2.val
  | .mutexUnlockFree i =>
      (s.mutex i).allocated = true ∧ (s.proc r.1).mid i = true ∧
        (s.mutex i).tid = r.2.val ∧ ∀ u, ¬ s.Waits (r.1, u) i
  | _ => True

end Sys

/-! ## §2  The invariant -/

/-- Threads on CPUs and holders of the spinlocks. -/
structure CpuInv (s : Sys Cpu) : Prop where
  context : ∀ {c r}, s.cpu c = .run r → (s.thread r).context = none
  unique : ∀ {c c' r}, s.cpu c = .run r → s.cpu c' = .run r → c = c'
  state : ∀ {c r}, s.cpu c = .run r → (s.thread r).state = .RUNNING ∨
    (s.thread r).state = .ZOMBIE ∧ (s.thread r).pc = .kthreadExitSched
  alive : ∀ {c r}, s.cpu c = .run r → (s.proc r.1).Alive
  mt : ∀ {r}, s.Present r → (s.thread r).pc.holdsMt = true →
    ∃ c, s.cpu c = .run r ∧ s.mtlock = some c
  pt : ∀ {c r}, s.cpu c = .run r → (s.thread r).pc.holdsPt = true →
    s.ptlock = some c
  scan : ∀ {c p k}, s.cpu c = .scan p k → s.ptlock = some c ∧ (s.proc p).Alive
  held : ∀ {r k}, s.Present r → (s.thread r).context = some k →
    (s.thread r).pc.holdsPt = true → k = .sleepHeld

/-- Slots in use and slots under construction. -/
structure SlotInv (s : Sys Cpu) : Prop where
  tid : ∀ {r}, s.Present r → (s.thread r).tid = r.2.val
  embryo : ∀ {r}, (s.thread r).state = .EMBRYO → (s.thread r).pc = .user
  unused : ∀ {p}, (s.proc p).state = .UNUSED → s.OnlySlots p []
  orphan : ∀ {p}, (s.proc p).state = .UNUSED ∨ (s.proc p).state = .EMBRYO →
    (s.proc p).parent = none
  fact : ∀ {r}, s.Present r → s.SlotFact r (s.thread r).pc
  createUnique : ∀ {p t t' u}, s.Present (p, t) → s.Present (p, t') →
    (s.thread (p, t)).pc.creates = some u →
    (s.thread (p, t')).pc.creates = some u → t = t'
  forkUnique : ∀ {r r' q}, s.Present r → s.Present r' →
    (s.thread r).pc.forks = some q → (s.thread r').pc.forks = some q → r = r'

/-- Mutexes, their owners and their waiters. -/
structure MutexInv (s : Sys Cpu) : Prop where
  owner : ∀ {p i}, (s.proc p).mid i = true → (s.mutex i).owner = some p
  alloc : ∀ {p i}, (s.proc p).mid i = true → (s.mutex i).allocated = false →
    ∃ t, s.Present (p, t) ∧ (s.thread (p, t)).pc = .mutexDeallocClear i
  tid : ∀ {i}, (s.mutex i).allocated = true →
    ((s.mutex i).locked = false ↔ (s.mutex i).tid = -1)
  holds : ∀ {r i}, s.Present r → i ∈ (s.thread r).holds → s.Recorded r i
  blocked : ∀ {r}, (s.thread r).blocked = true →
    s.Present r ∧ (s.thread r).pc.mayBlock = true
  fact : ∀ {r}, s.Present r → s.MutexFact r (s.thread r).pc

/-- The invariant of the kernel. -/
structure Inv (s : Sys Cpu) : Prop where
  cpu : CpuInv s
  slot : SlotInv s
  mutex : MutexInv s

/-! ## §3  First consequences -/

namespace Inv

variable {s : Sys Cpu} (h : Inv s)
include h

theorem present_of_run {c : Cpu} {r : ThreadPtr} (hr : s.cpu c = .run r) :
    s.Present r := by
  rcases h.cpu.state hr with hs | ⟨hs, _⟩ <;> simp [Sys.Present, hs]

/-- Outside the window of `kthread_exit` a thread on a CPU is `RUNNING`. -/
theorem running {c : Cpu} {r : ThreadPtr} (hr : s.cpu c = .run r)
    (hpc : (s.thread r).pc ≠ .kthreadExitSched) :
    (s.thread r).state = .RUNNING := by
  rcases h.cpu.state hr with hs | ⟨_, hs⟩
  · exact hs
  · exact absurd hs hpc

/-- `mtable.lock` has one holder. -/
theorem mt_unique {r x : ThreadPtr} (hr : s.Present r)
    (hrp : (s.thread r).pc.holdsMt = true) (hx : s.Present x)
    (hxp : (s.thread x).pc.holdsMt = true) : x = r := by
  obtain ⟨c, hc, hl⟩ := h.cpu.mt hr hrp
  obtain ⟨c', hc', hl'⟩ := h.cpu.mt hx hxp
  have hcc : c = c' := Option.some.inj (hl.symm.trans hl')
  subst hcc
  rw [hc] at hc'
  exact (CpuState.run.inj hc').symm

theorem not_holdsMt_of_free {x : ThreadPtr} (hfree : s.mtlock = none)
    (hx : s.Present x) : (s.thread x).pc.holdsMt = false := by
  cases hp : (s.thread x).pc.holdsMt with
  | false => rfl
  | true =>
      obtain ⟨c, _, hl⟩ := h.cpu.mt hx hp
      rw [hfree] at hl
      cases hl

end Inv

end Xv6.Kernel
