import Mathlib.Data.Fintype.Basic
import Xv6.Fs.Pipe

/-!
# Sleeping on a pipe

The calls on a pipe with the sleepers: a call that sleeps goes on only after a `wakeup` of its
channel or a `kill`. A `pipewrite` that finds the pipe full and returns -1 calls no `wakeup`, also
if it has just filled the pipe: readers that went to sleep on the empty pipe sleep on. In all runs
without that, nobody sleeps who could go on.
-/

set_option linter.unusedSectionVars false

namespace Xv6.Pipes

open Xv6.Lib

variable {C : Type} [DecidableEq C]

/-! ## §1  The model -/

/-- The addresses that callers sleep on. -/
inductive Chan where
  | nread | nwrite
deriving DecidableEq, Repr

/-- What a call sleeps on. -/
def Phase.chan : Phase → Option Chan
  | .writing _ _ => some .nwrite
  | .reading _ => some .nread
  | _ => none

/-- The pipe with its calls, and which of them are `SLEEPING`. -/
structure Sleepers (C : Type) extends State C where
  asleep : C → Bool

inductive SleepAct (C : Type) where
  | act (a : Act C)
  | kill (c : C)

/-- The `wakeup` that a step makes. -/
def wakeup (s : State C) : Act C → Option Chan
  | .pipewrite _ _ | .piperead _ _ => none
  | .run c killed =>
      match s.phase c with
      | .writing _ rest =>
          let p := (pipewriteLoop s.pipe rest).1
          let k := (pipewriteLoop s.pipe rest).2
          if rest.drop k ≠ [] ∧ (p.readopen = false ∨ killed = true) then none else some .nread
      | .reading _ =>
          if s.pipe.nread = s.pipe.nwrite ∧ s.pipe.writeopen = true then none else some .nwrite
      | _ => none
  | .pipeclose writable => some (if writable then .nread else .nwrite)

/-- The call that a step runs. -/
def Act.runner : Act C → Option C
  | .run c _ => some c
  | _ => none

namespace Sleepers

/-- A stretch ends with the return from the call or with a `sleep`; `wakeup` wakes all who sleep
on its channel. -/
def step (x : Sleepers C) : SleepAct C → Option (Sleepers C)
  | .act a =>
      if ∃ c ∈ a.runner, x.asleep c = true then none
      else (Pipes.step x.toState a).map fun s => {
        toState := s
        asleep := fun c =>
          if a.runner = some c then (s.phase c).chan.isSome
          else x.asleep c && decide ((x.phase c).chan ≠ wakeup x.toState a) }
  | .kill c => some { x with asleep := Function.update x.asleep c false }

/-- A call of `piperead` sleeps. -/
def ReaderAsleep (x : Sleepers C) (c : C) : Prop :=
  x.asleep c = true ∧ (x.phase c).chan = some .nread

end Sleepers

variable (C) in
def sleepSystem : System (Sleepers C) (SleepAct C) where
  init x := Initial x.toState ∧ ∀ c, x.asleep c = false
  step := Sleepers.step

/-- A stretch of `pipewrite` stores nothing, or calls `wakeup`, or no reader sleeps. -/
def readersTold (x : Sleepers C) (c : C) (killed : Bool) : Phase → Prop
  | .writing _ rest =>
      (pipewriteLoop x.pipe rest).2 ≠ 0 → wakeup x.toState (.run c killed) = none →
        ∀ c', ¬ x.ReaderAsleep c'
  | _ => True

/-- No `pipewrite` fills the pipe while a reader sleeps and then returns -1. -/
def noSilentFailure (x : Sleepers C) : SleepAct C → Prop
  | .act (.run c killed) => readersTold x c killed (x.phase c)
  | _ => True

section Decidable

variable [Fintype C] (x : Sleepers C)

instance (c : C) : Decidable (x.ReaderAsleep c) := inferInstanceAs (Decidable (_ ∧ _))

instance (c : C) (killed : Bool) : ∀ ph, Decidable (readersTold x c killed ph)
  | .writing _ _ => inferInstanceAs (Decidable (_ → _ → _))
  | .ready | .wrote _ _ | .reading _ | .read _ _ => isTrue trivial

instance : ∀ b, Decidable (noSilentFailure x b)
  | .act (.run _ _) => inferInstanceAs (Decidable (readersTold ..))
  | .act (.pipewrite _ _) | .act (.piperead _ _) | .act (.pipeclose _) | .kill _ => isTrue trivial

end Decidable

/-! ## §2  The stretches -/

section Loops

variable {p : Pipe} {bs : List UInt8}

/-- Nothing is stored, or the pipe was not full. -/
theorem pipewriteLoop_of_full (h : p.Full) : pipewriteLoop p bs = (p, 0) := by
  cases bs with
  | nil => rfl
  | cons b bs => exact if_pos h

theorem pipewriteLoop_zero (h : (pipewriteLoop p bs).2 = 0) : (pipewriteLoop p bs).1 = p := by
  cases bs with
  | nil => rfl
  | cons b bs =>
      unfold pipewriteLoop at h ⊢
      split_ifs at h ⊢
      · rfl

/-- Bytes are left only if the pipe is full. -/
theorem pipewriteLoop_full (h : bs.drop (pipewriteLoop p bs).2 ≠ []) :
    (pipewriteLoop p bs).1.Full := by
  induction bs generalizing p with
  | nil => exact absurd List.drop_nil h
  | cons b bs ih =>
      unfold pipewriteLoop at h ⊢
      split_ifs at h ⊢ with hp
      · exact hp
      · exact ih h

end Loops

/-! ## §3  Nobody sleeps who could go on -/

/-- What a sleeper waits for has not happened. -/
def Pipe.Waits (p : Pipe) : Option Chan → Prop
  | some .nread => p.nread = p.nwrite ∧ p.writeopen = true
  | some .nwrite => p.Full ∧ p.readopen = true
  | none => False

def SleepInv (x : Sleepers C) : Prop := ∀ c, x.asleep c = true → x.pipe.Waits (x.phase c).chan

section Steps

variable {x x' : Sleepers C} {s s' : State C} {c c' : C} {killed : Bool} {src rest : List UInt8}
  {n : ℕ} {a : Act C}

theorem runWrite_pipe : (runWrite s c killed src rest).pipe = (pipewriteLoop s.pipe rest).1 := by
  unfold runWrite
  dsimp only
  split_ifs <;> rfl

theorem runRead_pipe (h : s.pipe.nread = s.pipe.nwrite ∧ s.pipe.writeopen = true) :
    (runRead s c killed n).pipe = s.pipe := by
  unfold runRead
  rw [if_pos h]
  split_ifs <;> rfl

/-- A call that goes to sleep has to wait. -/
theorem waits_self (hs : step s (.run c killed) = some s') (hc : (s'.phase c).chan.isSome = true) :
    s'.pipe.Waits (s'.phase c).chan := by
  unfold step at hs
  split_ifs at hs
  dsimp only at hs
  split at hs
  · rename_i src rest hph
    obtain rfl := Option.some.inj hs
    rw [runWrite_pipe]
    unfold runWrite at hc ⊢
    dsimp only at hc ⊢
    split_ifs at hc ⊢ with hdone hret
    · rw [State.goto_self] at hc
      cases hc
    · rw [State.goto_self] at hc
      cases hc
    · rw [State.goto_self]
      refine ⟨pipewriteLoop_full hdone, ?_⟩
      rw [← Bool.not_eq_false]
      exact fun hno => hret (.inl hno)
  · rename_i n hph
    obtain rfl := Option.some.inj hs
    by_cases hwait : s.pipe.nread = s.pipe.nwrite ∧ s.pipe.writeopen = true
    · rw [runRead_pipe hwait]
      unfold runRead at hc ⊢
      rw [if_pos hwait] at hc ⊢
      split_ifs at hc ⊢
      · rw [State.goto_self] at hc
        cases hc
      · rw [hph]
        exact hwait
    · unfold runRead at hc
      rw [if_neg hwait, State.goto_self] at hc
      cases hc
  · cases hs

theorem wakeup_writing (h : s.phase c = .writing src rest) : wakeup s (.run c killed) =
    if rest.drop (pipewriteLoop s.pipe rest).2 ≠ [] ∧
      ((pipewriteLoop s.pipe rest).1.readopen = false ∨ killed = true) then none
    else some .nread := by
  simp only [wakeup, h]

theorem wakeup_reading (h : s.phase c = .reading n) : wakeup s (.run c killed) =
    if s.pipe.nread = s.pipe.nwrite ∧ s.pipe.writeopen = true then none else some .nwrite := by
  simp only [wakeup, h]

/-- A sleeper that is not woken has still to wait. -/
theorem waits_other {ch : Chan} (hs : step s a = some s') (h : s.pipe.Waits (some ch))
    (hw : some ch ≠ wakeup s a)
    (hread : ch = .nread → ∀ c src rest killed, a = .run c killed → s.phase c = .writing src rest →
      wakeup s a = none → (pipewriteLoop s.pipe rest).2 = 0) :
    s'.pipe.Waits (some ch) := by
  unfold step at hs
  split_ifs at hs
  cases a with
  | pipewrite c src | piperead c n =>
      dsimp only at hs
      split_ifs at hs
      obtain rfl := Option.some.inj hs
      exact h
  | pipeclose writable =>
      obtain rfl := Option.some.inj hs
      cases ch with
      | nread =>
          cases writable with
          | false => exact h
          | true => exact absurd rfl hw
      | nwrite =>
          cases writable with
          | false => exact absurd rfl hw
          | true => exact h
  | run c killed =>
      dsimp only at hs
      split at hs
      · rename_i src rest hph
        obtain rfl := Option.some.inj hs
        rw [runWrite_pipe]
        cases ch with
        | nread =>
            have hnone : wakeup s (.run c killed) = none := by
              rw [wakeup_writing hph] at hw ⊢
              split_ifs at hw ⊢
              · rfl
              · exact absurd rfl hw
            rw [pipewriteLoop_zero (hread rfl c src rest killed rfl hph hnone)]
            exact h
        | nwrite =>
            rw [pipewriteLoop_of_full h.1]
            exact h
      · rename_i n hph
        obtain rfl := Option.some.inj hs
        have hwait : s.pipe.nread = s.pipe.nwrite ∧ s.pipe.writeopen = true := by
          cases ch with
          | nread => exact h
          | nwrite =>
              by_contra hno
              rw [wakeup_reading hph] at hw
              exact hw (if_neg hno).symm
        rw [runRead_pipe hwait]
        exact h
      · cases hs

theorem SleepInv.step {b : SleepAct C} (h : SleepInv x) (hg : noSilentFailure x b)
    (hs : x.step b = some x') : SleepInv x' := by
  cases b with
  | kill c =>
      obtain rfl := Option.some.inj hs
      intro c' hc'
      dsimp only at hc'
      by_cases hcc : c' = c
      · rw [hcc, Function.update_self] at hc'
        cases hc'
      · rw [Function.update_of_ne hcc] at hc'
        exact h c' hc'
  | act a =>
      unfold Sleepers.step at hs
      dsimp only at hs
      split_ifs at hs
      obtain ⟨s', hs', rfl⟩ := Option.map_eq_some_iff.mp hs
      intro c hc
      dsimp only at hc ⊢
      by_cases hrun : a.runner = some c
      · rw [if_pos hrun] at hc
        cases a with
        | run c₁ killed =>
            obtain rfl := Option.some.inj hrun
            exact waits_self hs' hc
        | pipewrite | piperead | pipeclose => cases hrun
      · rw [if_neg hrun, Bool.and_eq_true, decide_eq_true_eq] at hc
        obtain ⟨hasleep, hw⟩ := hc
        have hwaits := h c hasleep
        have hphase : s'.phase c = x.phase c := by
          refine step_other hs' ?_ ?_
          · intro hready
            rw [hready] at hwaits
            exact hwaits
          · rintro killed rfl
            exact hrun rfl
        rw [hphase]
        cases hch : (x.phase c).chan with
        | none =>
            rw [hch] at hwaits
            exact hwaits.elim
        | some ch =>
            rw [hch] at hwaits hw
            refine waits_other hs' hwaits hw ?_
            rintro rfl c₁ src rest killed rfl hph hnone
            by_contra hk
            change readersTold x c₁ killed (x.phase c₁) at hg
            rw [hph] at hg
            exact hg hk hnone c ⟨hasleep, hch⟩

end Steps

/-- A pipe that nobody has used. -/
def sleepStart : Sleepers (Fin 2) where
  pipe := pipealloc fun _ => 0
  freed := false
  phase _ := .ready
  stored := []
  reads := []
  asleep _ := false

theorem sleepStart_initial : (sleepSystem (Fin 2)).init sleepStart :=
  ⟨⟨⟨_, rfl⟩, rfl, fun _ => rfl, rfl, rfl⟩, fun _ => rfl⟩

/-- A reader sleeps on the empty pipe, and a writer of 513 bytes, which has been killed, fills
it. -/
def killedWriter : List (SleepAct (Fin 2)) :=
  [.act (.piperead 0 4), .act (.run 0 false), .act (.pipewrite 1 (List.replicate 513 7)),
    .act (.run 1 true)]

end Xv6.Pipes
