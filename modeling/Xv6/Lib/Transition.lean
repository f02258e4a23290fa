import Mathlib.Logic.Relation
import Xv6.Lib.Index

/-!
# Labelled transition systems with guarded runs

A system is a set of initial states and a *partial* step function: `step s a`
is `none` when action `a` is not enabled in `s`. Runs carry a guard `G`, a
condition on the state a step is taken from and on its action, so that one
development can speak of all runs (`G` is `True`) and of the runs that avoid a
named step. Everything about runs is derived from two rules: `Reach.invariant`
(what holds initially and survives a guarded step holds of every reachable
state) and `exec_reach` (a list of actions that executes is a run).

A property that speaks of the past is stated over `withHistory`, the same system
with a variable that records what has happened and that no step reads.
-/

namespace Xv6.Lib

universe u v w

/-- A labelled transition system given by a partial step function. -/
structure System (σ : Type u) (α : Type v) where
  init : σ → Prop
  step : σ → α → Option σ

namespace System

variable {σ : Type u} {α : Type v} (M : System σ α)

/-- The states reached from an initial state by steps that all meet `G`. -/
inductive Reach (G : σ → α → Prop) : σ → Prop
  | init {s : σ} (h : M.init s) : Reach G s
  | step {s s' : σ} {a : α} (h : Reach G s) (hg : G s a)
      (hs : M.step s a = some s') : Reach G s'

/-- No condition on the steps: every run. -/
def anyStep : σ → α → Prop := fun _ _ => True

variable {M} {G G' : σ → α → Prop}

/-- The invariant rule. -/
theorem Reach.invariant {I : σ → Prop} (h0 : ∀ s, M.init s → I s)
    (hstep : ∀ s a s', I s → G s a → M.step s a = some s' → I s')
    {s : σ} (h : M.Reach G s) : I s := by
  induction h with
  | init hi => exact h0 _ hi
  | step _ hg hs ih => exact hstep _ _ _ ih hg hs

/-- The invariant rule relative to an invariant already established. -/
theorem Reach.invariant_of {I J : σ → Prop} (hJ : ∀ s, M.Reach G s → J s)
    (h0 : ∀ s, M.init s → I s)
    (hstep : ∀ s a s', J s → I s → G s a → M.step s a = some s' → I s')
    {s : σ} (h : M.Reach G s) : I s := by
  induction h with
  | init hi => exact h0 _ hi
  | step hr hg hs ih => exact hstep _ _ _ (hJ _ hr) ih hg hs

/-- A weaker guard allows more runs. -/
theorem Reach.mono (hG : ∀ s a, G s a → G' s a) {s : σ}
    (h : M.Reach G s) : M.Reach G' s := by
  induction h with
  | init hi => exact .init hi
  | step _ hg hs ih => exact .step ih (hG _ _ hg) hs

variable (M)

/-- Execute a list of actions that all meet `G`; `none` as soon as one does not,
or is not enabled. -/
def exec (G : σ → α → Prop) [∀ s a, Decidable (G s a)] : σ → List α → Option σ
  | s, [] => some s
  | s, a :: as => if G s a then (M.step s a).bind fun s' => exec G s' as else none

instance (s : σ) (a : α) : Decidable (anyStep s a) := isTrue trivial

variable {M}

theorem exec_reach_from [∀ s a, Decidable (G s a)] {as : List α} :
    ∀ {s s' : σ}, M.Reach G s → M.exec G s as = some s' → M.Reach G s' := by
  induction as with
  | nil =>
      intro s s' h he
      cases he
      exact h
  | cons a as ih =>
      intro s s' h he
      unfold exec at he
      split at he
      case isTrue hg =>
        obtain ⟨s₁, hs, he'⟩ := Option.bind_eq_some_iff.mp he
        exact ih (.step h hg hs) he'
      case isFalse => cases he

/-- A list of actions that executes from an initial state is a run. -/
theorem exec_reach [∀ s a, Decidable (G s a)] {as : List α} {s : σ}
    {P : σ → Prop} [DecidablePred P] (h : M.init s)
    (he : (M.exec G s as).any (fun s' => decide (P s')) = true) :
    ∃ s', M.Reach G s' ∧ P s' := by
  cases hs : M.exec G s as with
  | none =>
      rw [hs] at he
      cases he
  | some s' =>
      rw [hs] at he
      exact ⟨s', exec_reach_from (.init h) hs, of_decide_eq_true he⟩

/-- Two systems with the same actions, in step with each other: what the relation says of single
states holds after every list of actions, and one is enabled where the other is. -/
theorem exec_rel {σ' : Type w} {M' : System σ' α} {R Q : σ → σ' → Prop}
    (hstep : ∀ s s' a, R s s' → Option.Rel R (M.step s a) (M'.step s' a))
    (hQ : ∀ s s', R s s' → Q s s') {as : List α} :
    ∀ {s s'}, R s s' → Option.Rel Q (M.exec anyStep s as) (M'.exec anyStep s' as) := by
  induction as with
  | nil => exact fun h => .some (hQ _ _ h)
  | cons a as ih =>
      intro s s' h
      have hs := hstep s s' a h
      show Option.Rel Q ((M.step s a).bind _) ((M'.step s' a).bind _)
      generalize M.step s a = o at hs
      generalize M'.step s' a = o' at hs
      cases hs with
      | none => exact .none
      | some ht => exact ih ht

/-! ## History variables -/

section History

variable {η : Type w}

/-- `M` with a history: `start` is the one of an initial state, `record` adds
what a step does. -/
def withHistory (M : System σ α) (start : σ → η) (record : σ → α → σ → η → η) :
    System (σ × η) α where
  init x := M.init x.1 ∧ x.2 = start x.1
  step x a := (M.step x.1 a).map fun s' => (s', record x.1 a s' x.2)

variable {start : σ → η} {record : σ → α → σ → η → η} {x : σ × η}

/-- A run with a history is a run. -/
theorem Reach.forget
    (h : (M.withHistory start record).Reach (fun x a => G x.1 a) x) :
    M.Reach G x.1 := by
  induction h with
  | init hi => exact .init hi.1
  | step _ hg hs ih =>
      obtain ⟨s', hs', rfl⟩ := Option.map_eq_some_iff.mp hs
      exact .step ih hg hs'

/-- The invariant rule for a state and its history, relative to an invariant of
the state alone. -/
theorem Reach.history_invariant {I : σ → η → Prop} {J : σ → Prop}
    (hJ : ∀ s, M.Reach G s → J s) (h0 : ∀ s, M.init s → I s (start s))
    (hstep : ∀ s a s' k, J s → I s k → G s a → M.step s a = some s' →
      I s' (record s a s' k))
    (h : (M.withHistory start record).Reach (fun x a => G x.1 a) x) :
    I x.1 x.2 := by
  induction h with
  | init hi =>
      rw [hi.2]
      exact h0 _ hi.1
  | step hr hg hs ih =>
      obtain ⟨s', hs', rfl⟩ := Option.map_eq_some_iff.mp hs
      exact hstep _ _ _ _ (hJ _ hr.forget) ih hg hs'

end History

end System

end Xv6.Lib
