import Mathlib.Data.Fintype.Pi
import Mathlib.Data.List.FinRange
import Xv6.Kernel.State

/-!
# `wakeup1`, `sleep`, `yield` and the scheduler

The part of `proc.c` through which every thread leaves a CPU and comes back.
`sched` is called with `ptable.lock` held and hands it to the scheduler of the
same CPU, which goes on in its *inner* loop: it looks at the following slots of
the same process without testing the process state again, then at the
following processes. A thread is resumed under the same lock and releases it
itself, so `dispatch` ends with the lock free, except for a `sleep` on
`ptable.lock`, which goes on holding it.
-/

set_option linter.unusedSectionVars false

namespace Xv6.Kernel

variable {Cpu : Type} [DecidableEq Cpu]

/-- The process states in which `wakeup1` looks at the threads. -/
def States.wakeable : States → Bool
  | .SLEEPING | .RUNNABLE | .RUNNING => true
  | _ => false

/-- The thread states that `sleep` counts as still active. -/
def States.active : States → Bool
  | .RUNNABLE | .RUNNING | .EMBRYO => true
  | _ => false

/-- `UNUSED` or `ZOMBIE`: no thread is there, or it has ended. -/
def States.dead : States → Bool
  | .UNUSED | .ZOMBIE => true
  | _ => false

theorem States.dead_iff {st : States} :
    st.dead = true ↔ st = .UNUSED ∨ st = .ZOMBIE := by
  cases st <;> simp [States.dead]

/-- A thread that has been switched to. `sleep` clears `chan` first. -/
def Thread.resumed (t : Thread) : Thread :=
  { t with
    state := .RUNNING
    context := none
    chan := if t.context = some .sleep ∨ t.context = some .sleepHeld
      then .null else t.chan }

namespace Sys

/-! ## §1  Waking up -/

/-- `wakeup1(ch)` wakes `r`. -/
def wakes (s : Sys Cpu) (ch : Chan) (r : ThreadPtr) : Bool :=
  decide ((s.thread r).state = .SLEEPING) && decide ((s.thread r).chan = ch) &&
    (s.proc r.1).state.wakeable

theorem wakes_iff {s : Sys Cpu} {ch : Chan} {r : ThreadPtr} :
    s.wakes ch r = true ↔ (s.proc r.1).state.wakeable = true ∧
      (s.thread r).state = .SLEEPING ∧ (s.thread r).chan = ch := by
  simp only [wakes, Bool.and_eq_true, decide_eq_true_eq]
  exact and_comm

/-- As in the source, the threads are looked at only if the process is in one
of those states. -/
instance (s : Sys Cpu) (ch : Chan) (p : ProcId) :
    Decidable (∃ t, s.wakes ch (p, t) = true) :=
  if h : (s.proc p).state.wakeable = true then inferInstance
  else isFalse fun ⟨_, ht⟩ => h (wakes_iff.mp ht).1

/-- `wakeup1`: every thread asleep on `ch` becomes `RUNNABLE`, and so does its
process. -/
def wakeup1 (s : Sys Cpu) (ch : Chan) : Sys Cpu :=
  { s with
    thread := fun r =>
      if s.wakes ch r then { s.thread r with state := .RUNNABLE }
      else s.thread r
    proc := fun p =>
      if ∃ t, s.wakes ch (p, t) then { s.proc p with state := .RUNNABLE }
      else s.proc p }

/-! ## §2  Leaving the CPU -/

/-- The thread's context is saved and the scheduler goes on after its slot,
with `ptable.lock` held. -/
def switchOut (s : Sys Cpu) (c : Cpu) (r : ThreadPtr) (k : Resume) : Sys Cpu :=
  { (s.setThread r fun t => { t with context := some k }).setCpu c
      (.scan r.1 (r.2 + 1)) with ptlock := some c }

/-- `sched`. -/
def sched (s : Sys Cpu) (c : Cpu) (r : ThreadPtr) (k : Resume) : Sys Cpu :=
  if (s.proc r.1).state = .RUNNING ∨ (s.thread r).state = .RUNNING then
    s.panic .schedRunning
  else s.switchOut c r k

/-- Some thread of the process other than `r` is active. -/
def siblingActive (s : Sys Cpu) (r : ThreadPtr) : Prop :=
  ∃ t, t ≠ r.2 ∧ (s.thread (r.1, t)).state.active = true

instance (s : Sys Cpu) (r : ThreadPtr) : Decidable (s.siblingActive r) := by
  unfold siblingActive; infer_instance

/-- `sleep(ch, lk)` up to its `sched`; the thread goes on at `pc`. `k` tells
whether `lk` is `ptable.lock`. -/
def sleep (s : Sys Cpu) (c : Cpu) (r : ThreadPtr) (ch : Chan) (k : Resume)
    (pc : Pc) : Sys Cpu :=
  ((s.setPState r.1 (if s.siblingActive r then .RUNNABLE else .SLEEPING)).setThread
    r fun t => { t with chan := ch, state := .SLEEPING, pc := pc }).sched c r k

/-- `yield` up to its `sched`. -/
def yield (s : Sys Cpu) (c : Cpu) (r : ThreadPtr) (pc : Pc) : Sys Cpu :=
  ((s.setPState r.1 .RUNNABLE).setThread r fun t =>
    { t with state := .RUNNABLE, pc := pc }).sched c r .yield

/-! ## §3  Coming back -/

/-- The inner loop of `scheduler` from slot `k` on. -/
def runnableFrom (s : Sys Cpu) (p : ProcId) (k : ℕ) : Option Slot :=
  (List.finRange nthread).find? fun t =>
    decide (k ≤ t.val) && decide ((s.thread (p, t)).state = .RUNNABLE)

/-- The outer loop of `scheduler` from process `k` on. -/
def runnableProc (s : Sys Cpu) (k : ℕ) : Option ThreadPtr :=
  (List.finRange nproc).findSome? fun p =>
    if k ≤ p.val ∧ (s.proc p).state = .RUNNABLE then
      (s.runnableFrom p 0).map fun t => (p, t)
    else none

/-- The thread the scheduler of a CPU finds next. -/
def pick (s : Sys Cpu) : CpuState → Option ThreadPtr
  | .scan p k =>
      match s.runnableFrom p k with
      | some t => some (p, t)
      | none => s.runnableProc (p + 1)
  | _ => s.runnableProc 0

/-- `c->thread = r` and `swtch` to it, up to the point where the thread
releases `ptable.lock`. A thread without a valid context sends the CPU into a
stack that is not there. -/
def dispatch (s : Sys Cpu) (c : Cpu) (r : ThreadPtr) : Sys Cpu :=
  { ((s.setPState r.1 .RUNNING).setThread r Thread.resumed).setCpu c
      (if (s.thread r).context = none then .junk r else .run r) with
    ptlock := if (s.thread r).context = some .sleepHeld ∨
        (s.thread r).context = none then some c else none }

/-- One pass of `scheduler` up to the next `swtch` or the end of the table. -/
def scheduler (s : Sys Cpu) (c : Cpu) : Sys Cpu :=
  match s.pick (s.cpu c) with
  | some r => s.dispatch c r
  | none => { s.setCpu c .idle with ptlock := none }

end Sys

end Xv6.Kernel
