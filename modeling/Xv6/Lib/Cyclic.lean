import Mathlib.Algebra.Group.Fin.Basic
import Mathlib.Data.Nat.Notation
import Mathlib.Tactic.Abel

/-!
# Cyclic scans

`n` positions in a circle. A scan from position `t` looks at the other positions in
the order in which they come after `t` and stops at the first one that is marked.
Whoever is marked and is not the one found is closer to the position found than it
was to `t`, so a token that is passed on by scans from its holder reaches every
position that stays marked.
-/

set_option linter.unusedSectionVars false

namespace Xv6.Lib.Cyclic

variable {n : ℕ} [NeZero n] {t u v : Fin n} {p : Fin n → Prop}

/-- How far `u` comes after `t`. -/
def after (t u : Fin n) : ℕ := (u - t).val

theorem after_lt (t u : Fin n) : after t u < n := (u - t).isLt

theorem after_pos (h : u ≠ t) : 0 < after t u := by
  refine Nat.pos_of_ne_zero fun h0 => h ?_
  have hz : u - t = 0 := Fin.ext (h0.trans (Fin.val_zero n).symm)
  exact sub_eq_zero.mp hz

theorem eq_of_after_eq (h : after t u = after t v) : u = v :=
  sub_left_injective (Fin.ext h)

theorem after_add {k : ℕ} (hk : k < n) : after t (t + Fin.ofNat n k) = k := by
  unfold after
  rw [add_sub_cancel_left]
  exact Nat.mod_eq_of_lt hk

theorem eq_add_after (t u : Fin n) : u = t + Fin.ofNat n (after t u) :=
  eq_of_after_eq (after_add (after_lt t u)).symm

/-- From a position between `t` and `v` it is so much less far to `v`. -/
theorem after_sub (h : after t u ≤ after t v) :
    after u v = after t v - after t u := by
  unfold after at h ⊢
  have hsub : v - u = (v - t) - (u - t) := by abel
  rw [hsub]
  exact Fin.sub_val_of_le h

/-- `u` is the first marked position after `t`. -/
structure First (p : Fin n → Prop) (t u : Fin n) : Prop where
  ne : u ≠ t
  marked : p u
  first : ∀ v, v ≠ t → after t v < after t u → ¬ p v

/-- Another marked position is closer to `u` than to `t`. -/
theorem First.after_lt (h : First p t u) (hv : p v) (hvt : v ≠ t) (hvu : v ≠ u) :
    0 < after u v ∧ after u v < after t v := by
  have hle : after t u ≤ after t v := not_lt.mp fun hlt => h.first v hvt hlt hv
  refine ⟨after_pos hvu, ?_⟩
  rw [after_sub hle]
  exact Nat.sub_lt (after_pos hvt) (after_pos h.ne)

/-- The loop that looks for it. -/
theorem first_of_find? {q : Fin n → Bool}
    (h : ((List.range (n - 1)).map fun k => t + Fin.ofNat n (k + 1)).find? q = some u) :
    First (fun v => q v = true) t u := by
  rw [List.find?_map, Option.map_eq_some_iff] at h
  obtain ⟨k, hk, rfl⟩ := h
  obtain ⟨hq, hmem, hfirst⟩ := List.find?_range_eq_some.mp hk
  have hkn : k + 1 < n := by
    have := List.mem_range.mp hmem
    omega
  refine ⟨fun e => ?_, hq, fun v hv hlt hqv => ?_⟩
  · have := after_add (t := t) hkn
    rw [e, after, sub_self] at this
    exact absurd (this.symm.trans (Fin.val_zero n)) (Nat.succ_ne_zero k)
  · rw [after_add hkn] at hlt
    have hpos := after_pos hv
    have hj := hfirst (after t v - 1) (by omega)
    rw [Function.comp_apply, Nat.sub_add_cancel hpos, ← eq_add_after, hqv] at hj
    cases hj

end Xv6.Lib.Cyclic
