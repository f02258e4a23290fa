import Mathlib.Data.Nat.ModEq
import Mathlib.Logic.Function.Basic

/-!
# Circular buffers with free-running counters

A buffer of `N` cells between a read and a write counter. The counters are never
reset; they run modulo `M`, a multiple of `N` that is larger than `N`, and cell
`n % N` is the one for counter value `n`. `Buffers` says which queue the buffer
stands for.
-/

namespace Xv6.Lib

variable {α : Type} {N M : ℕ} [NeZero N]

/-- The cell for counter value `n`. -/
def cell (N : ℕ) [NeZero N] (n : ℕ) : Fin N := ⟨n % N, Nat.mod_lt n (Nat.pos_of_neZero N)⟩

/-- The cells from `r` up to `w` hold the queue `q`. -/
structure Buffers (N M : ℕ) [NeZero N] (data : Fin N → α) (r w : ℕ) (q : List α) : Prop where
  read_lt : r < M
  write_eq : w = (r + q.length) % M
  length_le : q.length ≤ N
  get : ∀ k x, q[k]? = some x → data (cell N (r + k)) = x

namespace Buffers

variable {data : Fin N → α} {r w : ℕ} {q : List α} {x : α}

theorem nil (h : r < M) : Buffers N M data r r [] where
  read_lt := h
  write_eq := (Nat.mod_eq_of_lt h).symm
  length_le := Nat.zero_le N
  get k x hx := by cases hx

/-- Fewer than `M` steps apart, counter values are different. -/
theorem add_mod_inj {a b : ℕ} (ha : a < M) (hb : b < M) (h : (r + a) % M = (r + b) % M) :
    a = b :=
  (Nat.ModEq.add_left_cancel' r h).eq_of_lt_of_lt ha hb

/-- The counters are equal exactly when the queue is empty. -/
theorem empty_iff (h : Buffers N M data r w q) (hM : N < M) : r = w ↔ q = [] := by
  constructor
  · intro e
    have hlen : (r + 0) % M = (r + q.length) % M := by
      rw [Nat.add_zero, Nat.mod_eq_of_lt h.read_lt, e]
      exact h.write_eq.trans (by rw [e])
    have := add_mod_inj (by omega) (Nat.lt_of_le_of_lt h.length_le hM) hlen
    exact List.length_eq_zero_iff.mp this.symm
  · rintro rfl
    rw [h.write_eq]
    exact (Nat.mod_eq_of_lt h.read_lt).symm

/-- The write counter is `N` ahead exactly when the queue is full. -/
theorem full_iff (h : Buffers N M data r w q) (hM : N < M) :
    w = (r + N) % M ↔ q.length = N := by
  constructor
  · intro e
    exact add_mod_inj (Nat.lt_of_le_of_lt h.length_le hM) hM (h.write_eq.symm.trans e)
  · intro e
    rw [h.write_eq, e]

theorem cell_mod (hN : N ∣ M) (n : ℕ) : cell N (n % M) = cell N n :=
  Fin.ext (Nat.mod_mod_of_dvd n hN)

/-- Fewer than `N` steps apart, the cells are different. -/
theorem cell_inj {a b : ℕ} (ha : a < N) (hb : b < N) (h : cell N (r + a) = cell N (r + b)) :
    a = b :=
  add_mod_inj ha hb (congrArg Fin.val h)

/-- An element is written at the write counter. -/
theorem push (h : Buffers N M data r w q) (hN : N ∣ M) (hlt : q.length < N) (x : α) :
    Buffers N M (Function.update data (cell N w) x) r ((w + 1) % M) (q ++ [x]) where
  read_lt := h.read_lt
  write_eq := by
    rw [h.write_eq, Nat.mod_add_mod, List.length_append, List.length_singleton, Nat.add_assoc]
  length_le := by
    rw [List.length_append]
    exact hlt
  get k y hy := by
    have hw : cell N w = cell N (r + q.length) := by
      rw [h.write_eq]
      exact cell_mod hN _
    rw [hw]
    by_cases hk : k < q.length
    · rw [List.getElem?_append_left hk] at hy
      rw [Function.update_of_ne]
      · exact h.get k y hy
      · intro e
        exact Nat.ne_of_lt hk (cell_inj (Nat.lt_trans hk hlt) hlt e)
    · have hk' : k = q.length := by
        have hlen := (List.getElem?_eq_some_iff.mp hy).1
        rw [List.length_append, List.length_singleton] at hlen
        omega
      subst hk'
      rw [List.getElem?_append_right (Nat.le_refl _), Nat.sub_self] at hy
      obtain rfl := Option.some.inj hy
      exact Function.update_self ..

/-- The oldest element is at the read counter. -/
theorem front (h : Buffers N M data r w (x :: q)) : data (cell N r) = x :=
  h.get 0 x rfl

theorem pop (h : Buffers N M data r w (x :: q)) (hN : N ∣ M) :
    Buffers N M data ((r + 1) % M) w q where
  read_lt := Nat.mod_lt _ (Nat.zero_lt_of_lt h.read_lt)
  write_eq := by
    rw [h.write_eq, Nat.mod_add_mod, List.length_cons]
    congr 1
    omega
  length_le := Nat.le_of_succ_le h.length_le
  get k y hy := by
    have hc : cell N ((r + 1) % M + k) = cell N (r + (k + 1)) := by
      rw [← cell_mod hN ((r + 1) % M + k), Nat.mod_add_mod, cell_mod hN]
      congr 1
      omega
    rw [hc]
    exact h.get (k + 1) y hy

/-- The newest element is before the write counter. -/
theorem back (h : Buffers N M data r w (q ++ [x])) (hN : N ∣ M) :
    data (cell N ((w + (M - 1)) % M)) = x := by
  have hM : 0 < M := Nat.zero_lt_of_lt h.read_lt
  have hc : cell N ((w + (M - 1)) % M) = cell N (r + q.length) := by
    rw [h.write_eq, Nat.mod_add_mod, List.length_append, List.length_singleton,
      show r + (q.length + 1) + (M - 1) = r + q.length + M by omega, Nat.add_mod_right,
      cell_mod hN]
  rw [hc]
  exact h.get q.length x (List.getElem?_concat_length)

theorem unpush (h : Buffers N M data r w (q ++ [x])) :
    Buffers N M data r ((w + (M - 1)) % M) q where
  read_lt := h.read_lt
  write_eq := by
    have hM : 0 < M := Nat.zero_lt_of_lt h.read_lt
    rw [h.write_eq, Nat.mod_add_mod, List.length_append, List.length_singleton,
      show r + (q.length + 1) + (M - 1) = r + q.length + M by omega, Nat.add_mod_right]
  length_le := by
    have := h.length_le
    rw [List.length_append] at this
    exact Nat.le_of_succ_le this
  get k y hy := by
    have hk := (List.getElem?_eq_some_iff.mp hy).1
    exact h.get k y ((List.getElem?_append_left hk).trans hy)

end Buffers

end Xv6.Lib
