import Mathlib.Logic.Basic
import Xv6.Lib.Index

/-!
# Programs with a state that may panic

`wp x Q E s`: run from the state `s`, the program `x` returns in `Q`, or it panics with
an error that meets `E`. With `E` false it is total correctness without a panic.
The rules follow the constructs of `do` notation; a function is used through its own
`wp` lemma, strengthened or weakened by `wp_mono`.
-/

namespace Xv6.Lib

variable {ε σ τ α β : Type}

/-- A program over the state `σ` that may panic with an `ε`. -/
abbrev PanicM (ε σ : Type) : Type → Type := StateT σ (Except ε)

namespace PanicM

def wp (x : PanicM ε σ α) (Q : α → σ → Prop) (E : ε → Prop) (s : σ) : Prop :=
  match x s with
  | .ok (a, s') => Q a s'
  | .error e => E e

variable {x : PanicM ε σ α} {f : α → PanicM ε σ β} {Q Q' : α → σ → Prop}
  {R : β → σ → Prop} {E E' : ε → Prop} {s s' : σ} {a : α} {e : ε}

theorem wp_ok (h : wp x Q E s) (hx : x s = .ok (a, s')) : Q a s' := by
  unfold wp at h
  rwa [hx] at h

theorem wp_error (h : wp x Q E s) (hx : x s = .error e) : E e := by
  unfold wp at h
  rwa [hx] at h

/-- A program that cannot panic returns. -/
theorem exists_of_wp (h : wp x Q (fun _ => False) s) :
    ∃ a s', x s = .ok (a, s') ∧ Q a s' := by
  cases hx : x s with
  | error e => exact (wp_error h hx).elim
  | ok p => exact ⟨p.1, p.2, rfl, wp_ok h hx⟩

theorem wp_pure (h : Q a s) : wp (pure a) Q E s := h

theorem wp_get {Q : σ → σ → Prop} (h : Q s s) : wp get Q E s := h

theorem wp_set {Q : PUnit → σ → Prop} (h : Q ⟨⟩ s') : wp (set s') Q E s := h

theorem wp_modify {Q : PUnit → σ → Prop} {g : σ → σ} (h : Q ⟨⟩ (g s)) :
    wp (modify g) Q E s :=
  h

theorem wp_throw (h : E e) : wp (throw e : PanicM ε σ α) Q E s := h

theorem wp_bind (h : wp x (fun a s' => wp (f a) R E s') E s) : wp (x >>= f) R E s := by
  unfold wp at h ⊢
  show match (x s >>= fun p => f p.1 p.2) with
    | .ok (b, s') => R b s'
    | .error e => E e
  cases hx : x s with
  | error e =>
      rw [hx] at h
      exact h
  | ok p =>
      rw [hx] at h
      exact h

-- from here on through the rules only, so that no tactic evaluates a program
attribute [irreducible] wp

theorem wp_mono (h : wp x Q E s) (hQ : ∀ a s', Q a s' → Q' a s')
    (hE : ∀ e, E e → E' e) : wp x Q' E' s := by
  unfold wp at h ⊢
  cases hx : x s with
  | error e =>
      rw [hx] at h
      exact hE e h
  | ok p =>
      rw [hx] at h
      exact hQ p.1 p.2 h

/-- Nothing is said. -/
theorem wp_true : wp x (fun _ _ => True) (fun _ => True) s := by
  unfold wp
  cases x s with
  | error e => exact trivial
  | ok p => exact trivial

theorem wp_and (h : wp x Q E s) (h' : wp x Q' E' s) :
    wp x (fun a s' => Q a s' ∧ Q' a s') (fun e => E e ∧ E' e) s := by
  unfold wp at h h' ⊢
  cases hx : x s with
  | error e =>
      rw [hx] at h h'
      exact ⟨h, h'⟩
  | ok p =>
      rw [hx] at h h'
      exact ⟨h, h'⟩

/-- What is known under a condition. -/
theorem wp_imp {c : Prop} (h : c → wp x Q E s) :
    wp x (fun a s' => c → Q a s') (fun e => c → E e) s := by
  by_cases hc : c
  · exact wp_mono (h hc) (fun _ _ hq _ => hq) fun _ he _ => he
  · unfold wp
    cases x s with
    | error e => exact fun h' => absurd h' hc
    | ok p => exact fun h' => absurd h' hc

/-- A call, through what is known of it, and what follows. -/
theorem wp_call (h : wp x Q E s) (hf : ∀ a s', Q a s' → wp (f a) R E s') :
    wp (x >>= f) R E s :=
  wp_bind (wp_mono h hf fun _ => id)

/-- A call whose result is known. -/
theorem wp_run (hx : x s = .ok (a, s')) (h : wp (f a) R E s') : wp (x >>= f) R E s := by
  apply wp_bind
  unfold wp at h ⊢
  rw [hx]
  exact h

theorem wp_ite {c : Prop} [Decidable c] {y : PanicM ε σ α} (ht : c → wp x Q E s)
    (hf : ¬ c → wp y Q E s) : wp (if c then x else y) Q E s := by
  by_cases h : c
  · rw [if_pos h]
    exact ht h
  · rw [if_neg h]
    exact hf h

/-- What `x` returns, `y` returns too, from a related state. -/
def Follows (R : σ → τ → Prop) (x : PanicM ε σ α) (y : PanicM ε τ α) : Prop :=
  ∀ s t, R s t → ∀ a s', x s = .ok (a, s') → ∃ t', y t = .ok (a, t') ∧ R s' t'

namespace Follows

variable {S : σ → τ → Prop} {y : PanicM ε τ α} {g : α → PanicM ε τ β}

theorem pure (a : α) : Follows S (pure a : PanicM ε σ α) (pure a : PanicM ε τ α) := by
  rintro s t hs _ _ ⟨⟩
  exact ⟨t, rfl, hs⟩

/-- A panic need not be followed. -/
theorem throw (e : ε) (y : PanicM ε τ α) : Follows S (throw e : PanicM ε σ α) y :=
  fun _ _ _ _ _ => nofun

theorem bind (hx : Follows S x y) (hf : ∀ a, Follows S (f a) (g a)) :
    Follows S (x >>= f) (y >>= g) := by
  intro s t hs b s' hb
  have hb : (x s >>= fun p => f p.1 p.2) = .ok (b, s') := hb
  cases hr : x s with
  | error e =>
      rw [hr] at hb
      cases hb
  | ok p =>
      rw [hr] at hb
      obtain ⟨t₁, ht, hs₁⟩ := hx s t hs p.1 p.2 hr
      obtain ⟨t', ht', hs'⟩ := hf p.1 p.2 t₁ hs₁ b s' hb
      refine ⟨t', ?_, hs'⟩
      show (y t >>= fun p => g p.1 p.2) = .ok (b, t')
      rw [ht]
      exact ht'

theorem ite {c : Prop} [Decidable c] {x' : PanicM ε σ α} {y' : PanicM ε τ α}
    (h : Follows S x y) (h' : Follows S x' y') :
    Follows S (if c then x else x') (if c then y else y') := by
  by_cases hc : c
  · rw [if_pos hc, if_pos hc]
    exact h
  · rw [if_neg hc, if_neg hc]
    exact h'

end Follows

/-- Run a program on a concrete state and test what it returns. -/
def check (x : PanicM ε σ α) (p : α → σ → Bool) (s : σ) : Bool :=
  match x s with
  | .ok (a, s') => p a s'
  | .error _ => false

theorem exists_of_check {p : α → σ → Bool} (h : check x p s = true) :
    ∃ a s', x s = .ok (a, s') ∧ p a s' = true := by
  unfold check at h
  cases hx : x s with
  | error e =>
      rw [hx] at h
      cases h
  | ok r =>
      rw [hx] at h
      exact ⟨r.1, r.2, rfl, h⟩

/-- The panic of a program on a concrete state. -/
def panic (x : PanicM ε σ α) (s : σ) : Option ε :=
  match x s with
  | .ok _ => none
  | .error e => some e

theorem error_of_panic (h : panic x s = some e) : x s = .error e := by
  unfold panic at h
  cases hx : x s with
  | error e' =>
      rw [hx] at h
      exact congrArg Except.error (Option.some.inj h)
  | ok r =>
      rw [hx] at h
      cases h

end PanicM

end Xv6.Lib
