import Mathlib.Data.List.GetD
import Mathlib.Data.Nat.Notation
import Mathlib.Order.Basic

/-!
# Overwriting a part of a list

`patch l off src` is the list `l` with the items from `off` on replaced by `src`, and as
long as that needs; `patchAt` is the same for a function on positions. A list that is
read off a function (`(List.range n).map f`) is patched by patching the function.
-/

namespace Xv6.Lib

variable {α : Type} {l src src' : List α} {f : ℕ → α} {off n m x : ℕ}

def patch (l : List α) (off : ℕ) (src : List α) : List α :=
  l.take off ++ (src ++ l.drop (off + src.length))

def patchAt (f : ℕ → α) (off : ℕ) (src : List α) : ℕ → α := fun x =>
  if off ≤ x then src.getD (x - off) (f x) else f x

theorem patchAt_nil : patchAt f off [] = f := by
  funext x
  simp [patchAt]

/-- A patch in two parts. -/
theorem patchAt_append (f : ℕ → α) (off : ℕ) (src src' : List α) :
    patchAt (patchAt f off src) (off + src.length) src' = patchAt f off (src ++ src') := by
  funext x
  unfold patchAt
  by_cases hx : off ≤ x
  · by_cases hlt : off + src.length ≤ x
    · rw [if_pos hlt, if_pos hx, if_pos hx, List.getD_append_right _ _ _ _ (by omega),
        List.getD_eq_default src _ (by omega), Nat.sub_sub]
    · rw [if_neg hlt, if_pos hx, if_pos hx, List.getD_append _ _ _ _ (by omega)]
  · rw [if_neg (by omega), if_neg hx, if_neg hx]

theorem length_patch (h : off ≤ l.length) :
    (patch l off src).length = max l.length (off + src.length) := by
  simp only [patch, List.length_append, List.length_take, List.length_drop]
  omega

theorem getElem?_patch (h : off ≤ l.length) : (patch l off src)[x]? =
    if x < off then l[x]? else if x < off + src.length then src[x - off]? else l[x]? := by
  have hoff : (l.take off).length = off := List.length_take_of_le h
  unfold patch
  split_ifs with h₁ h₂
  · rw [List.getElem?_append_left (by omega), List.getElem?_take_of_lt h₁]
  · rw [List.getElem?_append_right (by omega), List.getElem?_append_left (by omega), hoff]
  · rw [List.getElem?_append_right (by omega), List.getElem?_append_right (by omega), hoff,
      List.getElem?_drop]
    congr 1
    omega

theorem map_range_patchAt (h : off ≤ n) :
    (List.range (max n (off + src.length))).map (patchAt f off src) =
      patch ((List.range n).map f) off src := by
  have hlen : ((List.range n).map f).length = n := by simp
  apply List.ext_getElem
  · rw [length_patch (by omega), hlen]
    simp
  · intro x hx _
    have hx' : x < max n (off + src.length) := by simpa using hx
    apply Option.some.inj
    rw [← List.getElem?_eq_getElem, ← List.getElem?_eq_getElem, getElem?_patch (by omega)]
    rw [List.getElem?_map, List.getElem?_range hx']
    show some (if off ≤ x then src.getD (x - off) (f x) else f x) = _
    split_ifs with h₁ h₂ h₃ h₃
    · omega
    · rw [List.getD_eq_getElem src _ (by omega), List.getElem?_eq_getElem]
    · rw [List.getD_eq_default src _ (by omega), List.getElem?_map,
        List.getElem?_range (by omega)]
      rfl
    · rw [List.getElem?_map, List.getElem?_range (by omega)]
      rfl
    · omega
    · omega

/-- A part of a list. -/
theorem take_drop_map_range : (((List.range m).map f).drop off).take n =
    (List.range (min n (m - off))).map fun x => f (off + x) := by
  apply List.ext_getElem
  · simp
  · intro x hx hx'
    simp

end Xv6.Lib
