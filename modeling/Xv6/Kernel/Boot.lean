import Xv6.Kernel.Effect

/-!
# Concrete initial states

`boot n` is the kernel with `n p` threads created in process `p`, none of which
has run yet. The runs that show what the code does start here.
-/

set_option linter.unusedSectionVars false

namespace Xv6.Kernel

open Xv6.Fs (Log)

/-- A slot that has never been used. -/
def Thread.free : Thread where
  chan := .null
  tid := -1
  killed := false
  state := .UNUSED
  context := none
  kstack := false
  blocked := false
  pc := .user
  holds := ∅
  inop := false
  locks := []

/-- A thread that is about to run for the first time. -/
def Thread.fresh (u : Slot) : Thread where
  chan := .null
  tid := u.val
  killed := false
  state := .RUNNABLE
  context := some .forkret
  kstack := true
  blocked := false
  pc := .user
  holds := ∅
  inop := false
  locks := []

/-- Process `p` with `n` threads; the processes are children of `init`. -/
def Proc.boot (p : ProcId) (n : ℕ) : Proc where
  state := if n = 0 then .UNUSED else .RUNNABLE
  pid := if n = 0 then 0 else p.val + 1
  parent := if n = 0 ∨ p = initproc then none else some initproc
  killed := false
  ofile := fun _ => false
  mid := fun _ => false
  exiting := none

variable (Cpu : Type) [DecidableEq Cpu]

/-- The kernel with `n p` threads in process `p`. -/
def boot (n : ProcId → ℕ) : Sys Cpu where
  proc p := .boot p (n p)
  thread r := if r.2.val < n r.1 then .fresh r.2 else .free
  mutex _ := { locked := false, allocated := false, tid := -1, owner := none }
  cpu _ := .idle
  ptlock := none
  mtlock := none
  log := Log.empty
  sleeplock _ := { locked := false, pid := 0 }
  nextpid := nproc + 1
  panicked := none

theorem boot_initial (n : ProcId → ℕ) : Initial (boot Cpu n) where
  cpu _ := rfl
  ptlock := rfl
  mtlock := rfl
  panicked := rfl
  log := rfl
  sleeplock _ := rfl
  mutex _ := rfl
  mid _ _ := rfl
  exiting _ := rfl
  nextpid := by simp only [boot]; omega
  pid p hp := by
    have hlt := p.isLt
    by_cases h : n p = 0
    · simp [boot, Proc.boot, h] at hp
    · simp only [boot, Proc.boot, if_neg h]
      omega
  pidInj p q hp hq e := by
    have h : ∀ p, ((boot Cpu n).proc p).state ≠ .UNUSED → n p ≠ 0 := by
      intro p hp h0
      simp [boot, Proc.boot, h0] at hp
    simp only [boot, Proc.boot, if_neg (h p hp), if_neg (h q hq)] at e
    exact Fin.ext (by omega)
  proc p := by
    have hfree : Thread.free.Free := ⟨rfl, rfl, rfl, rfl, rfl, rfl, rfl, rfl⟩
    by_cases h : n p = 0
    · refine .inl ⟨⟨?_, ?_, ?_, rfl, fun _ => rfl⟩, fun t => ?_⟩
      · simp [boot, Proc.boot, h]
      · simp [boot, Proc.boot, h]
      · simp [boot, Proc.boot, h]
      · simpa [boot, h] using hfree
    · refine .inr ⟨by simp [boot, Proc.boot, h], fun t => ?_⟩
      by_cases ht : t.val < n p
      · refine .inr ?_
        simp only [boot, if_pos ht]
        exact ⟨rfl, rfl, rfl, rfl, rfl, rfl, rfl, rfl, rfl, rfl, rfl⟩
      · refine .inl ?_
        simpa only [boot, if_neg ht] using hfree
  thread p hp := by
    have h : 0 < n p := Nat.pos_of_ne_zero fun h => hp (by simp [boot, Proc.boot, h])
    refine ⟨0, ?_⟩
    simp only [boot]
    rw [if_pos (show (0 : Slot).val < n p from h)]
    nofun

/-! ## Scripts -/

variable {Cpu}

/-- A script that executes from `boot n` is a run. -/
theorem boot_reach (n : ProcId → ℕ) (G : Sys Cpu → Act Cpu → Prop)
    [∀ s a, Decidable (G s a)] (as : List (Act Cpu)) (P : Sys Cpu → Prop)
    [DecidablePred P] (h : ((kernel Cpu).exec G (boot Cpu n) as).any
      (fun s => decide (P s)) = true) : ∃ s, (kernel Cpu).Reach G s ∧ P s :=
  Lib.System.exec_reach (M := kernel Cpu) (boot_initial Cpu n) h

/-- The same for a system with a history. -/
theorem boot_history (n : ProcId → ℕ) {η : Type} (start : Sys Cpu → η)
    (record : Sys Cpu → Act Cpu → Sys Cpu → η → η)
    (G : Sys Cpu → Act Cpu → Prop) [∀ s a, Decidable (G s a)] (as : List (Act Cpu))
    (P : Sys Cpu × η → Prop) [DecidablePred P]
    (h : (((kernel Cpu).withHistory start record).exec (fun x a => G x.1 a)
      (boot Cpu n, start (boot Cpu n)) as).any (fun x => decide (P x)) = true) :
    ∃ x, ((kernel Cpu).withHistory start record).Reach (fun x a => G x.1 a) x ∧
      P x :=
  Lib.System.exec_reach (M := (kernel Cpu).withHistory start record)
    (s := (boot Cpu n, start (boot Cpu n))) ⟨boot_initial Cpu n, rfl⟩ h

/-- The same for a script and one more step. -/
theorem boot_step (n : ProcId → ℕ) (G : Sys Cpu → Act Cpu → Prop)
    [∀ s a, Decidable (G s a)] (as : List (Act Cpu)) (a : Act Cpu)
    (P : Sys Cpu → Sys Cpu → Prop) [∀ s s', Decidable (P s s')]
    (h : ((kernel Cpu).exec G (boot Cpu n) as).any (fun s => decide
      ((step s a).any (fun s' => decide (P s s')) = true)) = true) :
    ∃ s s', (kernel Cpu).Reach G s ∧ step s a = some s' ∧ P s s' := by
  obtain ⟨s, hs, hstep⟩ := boot_reach n G as
    (fun s => (step s a).any (fun s' => decide (P s s')) = true) h
  cases e : step s a with
  | none =>
      rw [e] at hstep
      cases hstep
  | some s' =>
      rw [e] at hstep
      exact ⟨s, s', hs, e, of_decide_eq_true hstep⟩

/-- One process with `n` threads. -/
def single (n : ℕ) : ProcId → ℕ := fun p => if p = 0 then n else 0

/-- Process 0 with `m` threads and process 1 with `n`. -/
def double (m n : ℕ) : ProcId → ℕ := fun p =>
  if p = 0 then m else if p = 1 then n else 0

/-- The thread on `c` enters a system call from user mode. -/
def call (c : Cpu) (k : Syscall) : List (Act Cpu) :=
  [.trap c, .run c, .run c, .syscall c k]

/-- The thread on `c` executes its next `n` sections. -/
def runs (c : Cpu) (n : ℕ) : List (Act Cpu) := List.replicate n (.run c)

/-- A timer interrupt takes the CPU from the thread on `c`, in user mode, and
the scheduler goes on. -/
def preempted (c : Cpu) : List (Act Cpu) := Act.irq c true :: runs c 3 ++ [Act.sched c]

end Xv6.Kernel
