import Mathlib.Data.Nat.Notation
import Mathlib.Logic.Function.Basic

/-!
# Programs over a disk that can crash

A program reads and writes blocks at addresses `A` and may stop at any point. The
disk survives, with every write made so far, and nothing else does.

`wpc p Q C` is the weakest precondition of `p` with a crash condition: run from a
disk that meets it, the program returns in `Q`, and `C` holds at every point before
and when it returns. A step of the program keeps it (`wpc_step`), so for a program
under execution it is an invariant, and `wpc_crash` is what a crash leaves.
-/

namespace Xv6.Lib.Disk

variable {A V α β S B : Type}

inductive Prog (A V α : Type) where
  | ret (x : α)
  | read (a : A) (k : V → Prog A V α)
  | write (a : A) (v : V) (k : Prog A V α)

namespace Prog

def bind : Prog A V α → (α → Prog A V β) → Prog A V β
  | .ret x, f => f x
  | .read a k, f => .read a fun v => (k v).bind f
  | .write a v k, f => .write a v (k.bind f)

instance : Monad (Prog A V) where
  pure := ret
  bind := bind

/-- `for (i = 0; i < n; i++)` over the elements of a list, with a state. -/
def forEach (body : ℕ → B → S → Prog A V S) : ℕ → List B → S → Prog A V S
  | _, [], s => ret s
  | i, b :: bs, s => body i b s >>= forEach body (i + 1) bs

variable [DecidableEq A]

/-- Run to completion: the result and the disk. -/
def exec : Prog A V α → (A → V) → α × (A → V)
  | .ret x, d => (x, d)
  | .read a k, d => (k (d a)).exec d
  | .write a v k, d => k.exec (Function.update d a v)

/-- One access to the disk. -/
def step : Prog A V α → (A → V) → Option (Prog A V α × (A → V))
  | .ret _, _ => none
  | .read a k, d => some (k (d a), d)
  | .write a v k, d => some (k, Function.update d a v)

def wpc (Q : α → (A → V) → Prop) (C : (A → V) → Prop) :
    Prog A V α → (A → V) → Prop
  | .ret x, d => C d ∧ Q x d
  | .read a k, d => (k (d a)).wpc Q C d
  | .write a v k, d => C d ∧ k.wpc Q C (Function.update d a v)

variable {Q Q' : α → (A → V) → Prop} {C C' : (A → V) → Prop} {p p' : Prog A V α}
  {d d' : A → V}

theorem wpc_crash (h : p.wpc Q C d) : C d := by
  induction p with
  | ret x => exact h.1
  | read a k ih => exact ih _ h
  | write a v k ih => exact h.1

theorem wpc_step (h : p.wpc Q C d) (hs : p.step d = some (p', d')) :
    p'.wpc Q C d' := by
  cases p with
  | ret x => cases hs
  | read a k =>
      cases hs
      exact h
  | write a v k =>
      cases hs
      exact h.2

theorem wpc_exec (h : p.wpc Q C d) : Q (p.exec d).1 (p.exec d).2 := by
  induction p generalizing d with
  | ret x => exact h.2
  | read a k ih => exact ih _ h
  | write a v k ih => exact ih h.2

theorem wpc_mono (h : p.wpc Q C d) (hQ : ∀ x d, Q x d → Q' x d) : p.wpc Q' C d := by
  induction p generalizing d with
  | ret x => exact ⟨h.1, hQ x d h.2⟩
  | read a k ih => exact ih _ h
  | write a v k ih => exact ⟨h.1, ih h.2⟩

theorem wpc_mono_crash (h : p.wpc Q C d) (hC : ∀ d, C d → C' d) : p.wpc Q C' d := by
  induction p generalizing d with
  | ret x => exact ⟨hC d h.1, h.2⟩
  | read a k ih => exact ih _ h
  | write a v k ih => exact ⟨hC d h.1, ih h.2⟩

theorem wpc_bind {f : α → Prog A V β} {R : β → (A → V) → Prop}
    (h : p.wpc (fun x => (f x).wpc R C) C d) : (p >>= f).wpc R C d := by
  induction p generalizing d with
  | ret x => exact h.2
  | read a k ih => exact ih _ h
  | write a v k ih => exact ⟨h.1, ih h.2⟩

/-- The loop rule: `I i` holds before round `i`. -/
theorem wpc_forEach {body : ℕ → B → S → Prog A V S} {bs : List B}
    (I : ℕ → S → (A → V) → Prop) (hC : ∀ {s d}, I bs.length s d → C d)
    (hbody : ∀ {i s d} (hi : i < bs.length), I i s d →
      (body i bs[i] s).wpc (I (i + 1)) C d) {s : S} (h : I 0 s d) :
    (forEach body 0 bs s).wpc (I bs.length) C d := by
  -- on what is left of the list
  suffices ∀ (rest : List B) (i : ℕ) (s : S) (d : A → V), bs.drop i = rest →
      i + rest.length = bs.length → I i s d →
      (forEach body i rest s).wpc (I bs.length) C d from
    this bs 0 s d rfl (Nat.zero_add _) h
  intro rest
  induction rest with
  | nil =>
      intro i s d _ hlen hI
      obtain rfl : i = bs.length := hlen
      exact ⟨hC hI, hI⟩
  | cons b rest ih =>
      intro i s d hdrop hlen hI
      have hi : i < bs.length := by
        rw [← hlen, List.length_cons]
        omega
      rw [List.drop_eq_getElem_cons hi] at hdrop
      obtain ⟨rfl, hrest⟩ := List.cons.inj hdrop
      rw [List.length_cons] at hlen
      refine wpc_bind (wpc_mono (hbody hi hI) fun s' d' hI' => ?_)
      exact ih (i + 1) s' d' hrest (by omega) hI'

end Prog

end Xv6.Lib.Disk
