import Mathlib.Data.Int.Notation
import Mathlib.Data.Nat.Notation
import Mathlib.Logic.Function.Basic
import Mathlib.Tactic.SplitIfs

/-!
# The two `memmove`

string.c of the kernel and ulib.c of the user library have a `memmove` each. Memory is a
function of the 32-bit address, and pointers wrap around as they do on the machine.
`moved` is what both are for: the bytes of the source as they were before the call, at
the destination.
-/

namespace Xv6.Mem

/-- A pointer. -/
abbrev Addr := BitVec 32

abbrev Memory := Addr → UInt8

/-! ## §1  The loops -/

/-- `while(n-- > 0) *d++ = *s++;` -/
def copyUp (m : Memory) (d s : Addr) : ℕ → Memory
  | 0 => m
  | n + 1 => copyUp (Function.update m d (m s)) (d + 1) (s + 1) n

/-- `while(n-- > 0) *--d = *--s;` -/
def copyDown (m : Memory) (d s : Addr) : ℕ → Memory
  | 0 => m
  | n + 1 => copyDown (Function.update m (d - 1) (m (s - 1))) (d - 1) (s - 1) n

/-- `memmove` of string.c. The number of bytes is a `uint`. -/
def Kernel.memmove (m : Memory) (dst src : Addr) (n : BitVec 32) : Memory :=
  if src < dst ∧ src + n > dst then copyDown m (dst + n) (src + n) n.toNat
  else copyUp m dst src n.toNat

/-- `memmove` of ulib.c. The number of bytes is an `int`. -/
def Ulib.memmove (m : Memory) (dst src : Addr) (n : BitVec 32) : Memory :=
  copyUp m dst src n.toInt.toNat

/-! ## §2  What they are for -/

/-- The `n` bytes from `src` on are at `dst`, and nothing else is changed. -/
def moved (m : Memory) (dst src : Addr) (n : ℕ) : Memory := fun a =>
  if dst.toNat ≤ a.toNat ∧ a.toNat < dst.toNat + n then m (src + (a - dst)) else m a

/-- The `n` bytes from `a` on are inside the address space. -/
def Inside (a : Addr) (n : ℕ) : Prop := a.toNat + n ≤ 4294967296

/-- The destination begins inside the source, behind its first byte. -/
def Clobbers (dst src : Addr) (n : ℕ) : Prop :=
  src.toNat < dst.toNat ∧ dst.toNat < src.toNat + n

instance (a : Addr) (n : ℕ) : Decidable (Inside a n) := inferInstanceAs (Decidable (_ ≤ _))

instance (dst src : Addr) (n : ℕ) : Decidable (Clobbers dst src n) :=
  inferInstanceAs (Decidable (_ ∧ _))

section Loops

variable {m : Memory} {d s : Addr} {n : ℕ}

theorem moved_zero (m : Memory) (d s : Addr) : moved m d s 0 = m := by
  funext a
  exact if_neg (by omega)

/-- The first byte, and then the others: none of these is in the byte that was
written. -/
theorem moved_succ (hd : Inside d (n + 1)) (hs : Inside s (n + 1))
    (hc : ¬ Clobbers d s (n + 1)) :
    moved (Function.update m d (m s)) (d + 1) (s + 1) n = moved m d s (n + 1) := by
  unfold Inside at hd hs
  unfold Clobbers at hc
  rcases n with _ | n
  · rw [moved_zero]
    funext a
    unfold moved
    split_ifs with ha
    · obtain rfl : a = d := by bv_omega
      rw [Function.update_self, BitVec.sub_self, BitVec.add_zero]
    · rw [Function.update_of_ne]
      rintro rfl
      omega
  have hd1 : (d + 1).toNat = d.toNat + 1 := by bv_omega
  funext a
  unfold moved
  rw [hd1]
  by_cases ha : a = d
  · subst ha
    rw [if_neg (by omega), if_pos (by omega), Function.update_self, BitVec.sub_self,
      BitVec.add_zero]
  · have hne : a.toNat ≠ d.toNat := fun e => ha (BitVec.eq_of_toNat_eq e)
    by_cases hin : d.toNat + 1 ≤ a.toNat ∧ a.toNat < d.toNat + 1 + (n + 1)
    · have hsrc : s + 1 + (a - (d + 1)) = s + (a - d) := by bv_omega
      have hold : s + (a - d) ≠ d := by bv_omega
      rw [if_pos hin, if_pos (by omega), hsrc, Function.update_of_ne hold]
    · rw [if_neg hin, if_neg (by omega), Function.update_of_ne ha]

/-- A copy upwards is right unless it overwrites bytes that it still has to read. -/
theorem copyUp_eq_moved (hd : Inside d n) (hs : Inside s n) (hc : ¬ Clobbers d s n) :
    copyUp m d s n = moved m d s n := by
  induction n generalizing m d s with
  | zero => exact (moved_zero m d s).symm
  | succ n ih =>
      unfold Inside at hd hs
      unfold Clobbers at hc
      rcases n with _ | n
      · rw [← moved_succ hd hs hc, moved_zero]
        rfl
      · rw [← moved_succ hd hs hc]
        have hd1 : (d + 1).toNat = d.toNat + 1 := by bv_omega
        have hs1 : (s + 1).toNat = s.toNat + 1 := by bv_omega
        refine ih ?_ ?_ ?_
        · unfold Inside
          omega
        · unfold Inside
          omega
        · unfold Clobbers
          omega

/-- The last byte, and then those in front of it. -/
theorem moved_succ_last {d₁ s₁ : Addr} (hd : Inside d (n + 1)) (hs : Inside s (n + 1))
    (hds : s.toNat < d.toNat) (hd₁ : d₁.toNat = d.toNat + n) (hs₁ : s₁.toNat = s.toNat + n) :
    moved (Function.update m d₁ (m s₁)) d s n = moved m d s (n + 1) := by
  unfold Inside at hd hs
  funext a
  unfold moved
  by_cases ha : a = d₁
  · subst ha
    have hsrc : s + (a - d) = s₁ := by bv_omega
    rw [if_neg (by omega), if_pos (by omega), Function.update_self, hsrc]
  · have hne : a.toNat ≠ d₁.toNat := fun e => ha (BitVec.eq_of_toNat_eq e)
    by_cases hin : d.toNat ≤ a.toNat ∧ a.toNat < d.toNat + n
    · have hold : s + (a - d) ≠ d₁ := by bv_omega
      rw [if_pos hin, if_pos (by omega), Function.update_of_ne hold]
    · rw [if_neg hin, if_neg (by omega), Function.update_of_ne ha]

/-- A copy downwards is right where the destination is above the source. -/
theorem copyDown_eq_moved {d₁ s₁ : Addr} (hd : Inside d n) (hs : Inside s n)
    (hds : s.toNat < d.toNat) (hd₁ : d₁ = d + BitVec.ofNat 32 n)
    (hs₁ : s₁ = s + BitVec.ofNat 32 n) : copyDown m d₁ s₁ n = moved m d s n := by
  induction n generalizing m d₁ s₁ with
  | zero => exact (moved_zero m d s).symm
  | succ n ih =>
      unfold Inside at hd hs
      have hd' : d₁ - 1 = d + BitVec.ofNat 32 n := by bv_omega
      have hs' : s₁ - 1 = s + BitVec.ofNat 32 n := by bv_omega
      have hdn : (d₁ - 1).toNat = d.toNat + n := by bv_omega
      have hsn : (s₁ - 1).toNat = s.toNat + n := by bv_omega
      rw [← moved_succ_last hd hs hds hdn hsn]
      refine ih ?_ ?_ hd' hs'
      · unfold Inside
        omega
      · unfold Inside
        omega

end Loops

/-! ## §3  The two functions -/

/-- The kernel's test for an overlap is exact: the sum does not wrap around where both
ranges are inside the address space. -/
theorem kernel_test_iff {dst src : Addr} {n : BitVec 32} (hd : Inside dst n.toNat)
    (hs : Inside src n.toNat) :
    (src < dst ∧ src + n > dst) ↔ Clobbers dst src n.toNat := by
  unfold Inside at hd hs
  unfold Clobbers
  rw [BitVec.lt_def, gt_iff_lt, BitVec.lt_def]
  constructor
  · rintro ⟨h₁, h₂⟩
    refine ⟨h₁, ?_⟩
    bv_omega
  · rintro ⟨h₁, h₂⟩
    refine ⟨h₁, ?_⟩
    bv_omega

theorem kernel_memmove_eq_moved {m : Memory} {dst src : Addr} {n : BitVec 32}
    (hd : Inside dst n.toNat) (hs : Inside src n.toNat) :
    Kernel.memmove m dst src n = moved m dst src n.toNat := by
  unfold Kernel.memmove
  have hiff := kernel_test_iff hd hs
  split_ifs with h
  · have hn : n = BitVec.ofNat 32 n.toNat := by simp
    exact copyDown_eq_moved hd hs (hiff.mp h).1 (by rw [← hn]) (by rw [← hn])
  · exact copyUp_eq_moved hd hs fun hc => h (hiff.mpr hc)

theorem ulib_memmove_eq_moved {m : Memory} {dst src : Addr} {n : BitVec 32} (hn : 0 ≤ n.toInt)
    (hd : Inside dst n.toNat) (hs : Inside src n.toNat) (hc : ¬ Clobbers dst src n.toNat) :
    Ulib.memmove m dst src n = moved m dst src n.toNat := by
  have hnat : n.toInt.toNat = n.toNat := by
    rw [BitVec.toInt_eq_toNat_cond] at hn ⊢
    split_ifs at hn ⊢ <;> omega
  unfold Ulib.memmove
  rw [hnat]
  exact copyUp_eq_moved hd hs hc

/-- A memory whose bytes are their addresses. -/
def numbered : Memory := fun a => UInt8.ofNat a.toNat

end Xv6.Mem
