import Mathlib.Algebra.Group.Nat.Defs
import Mathlib.Algebra.GroupWithZero.Nat

/-!
# Tables of a fixed size

The index of an entry of a table with `n` entries is a `Fin n`. Entry 0 is there if `n` is
not 0, which is said once for each size, so that every use of a literal has the same proof.
-/

namespace Xv6.Lib

theorem ne_zero_two : 2 ≠ 0 := by decide

theorem ne_zero_sixteen : 16 ≠ 0 := by decide

theorem ne_zero_sixtyFour : 64 ≠ 0 := by decide

instance neZeroTwo : NeZero 2 := ⟨ne_zero_two⟩

instance neZeroSixteen : NeZero 16 := ⟨ne_zero_sixteen⟩

instance neZeroSixtyFour : NeZero 64 := ⟨ne_zero_sixtyFour⟩

end Xv6.Lib
