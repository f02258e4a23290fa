import Mathlib.Algebra.BigOperators.Group.Finset.Basic
import Mathlib.Data.Fintype.BigOperators

/-!
# Sums that differ in one term
-/

namespace Xv6.Lib

variable {ι α : Type} [Fintype ι] [DecidableEq ι]

/-- Two sums that differ in one term. -/
theorem sum_off {a b : ι → ℕ} (i : ι) (h : ∀ j, j ≠ i → a j = b j) :
    ∑ j, a j + b i = ∑ j, b j + a i := by
  have hrest : ∑ j ∈ Finset.univ.erase i, a j = ∑ j ∈ Finset.univ.erase i, b j :=
    Finset.sum_congr rfl fun j hj => h j (Finset.ne_of_mem_erase hj)
  rw [← Finset.add_sum_erase _ a (Finset.mem_univ i),
    ← Finset.add_sum_erase _ b (Finset.mem_univ i), hrest]
  omega

/-- One value of a function changes. -/
theorem sum_update (w : α → ℕ) (g : ι → α) (i : ι) (v : α) :
    ∑ j, w (Function.update g i v j) + w (g i) = ∑ j, w (g j) + w v := by
  have h := sum_off (a := fun j => w (Function.update g i v j)) (b := fun j => w (g j)) i
    fun j hj => by rw [Function.update_of_ne hj]
  rwa [Function.update_self] at h

end Xv6.Lib
