import Mathlib.Data.List.GetD
import Mathlib.Data.List.Nodup
import Mathlib.Tactic.Ring
import Xv6.Kernel.State
import Xv6.Lib.HandOff

/-!
# The tournament tree

`tournament_tree.c`: a binary tree of mutexes in heap order. A thread climbs from
the leaf of its `ID` to the root and locks every node on the way;
`trnmnt_tree_release` unlocks the same nodes from the root down.

The functions are programs over the mutexes and `tree->tid`. `path` is the list of
nodes from a node to the root; `acquireFrom_eq` and `releaseHelper_eq` say that
the two recursive helpers go along it, one up and one down.
-/

namespace Xv6.User

open Xv6.Kernel (MutexId maxMutexes)
open Xv6.Lib.HandOff

/-! ## §1  Allocation -/

/-- `struct trnmnt_tree`, without `tid`, the variable that its users share. -/
structure TrnmntTree where
  depth : ℤ
  tree : List MutexId
  size : ℕ

/-- Which mutexes of the kernel are allocated. -/
abbrev MutexFlags : Type := MutexId → Bool

/-- `kthread_mutex_alloc`: the first mutex that is not allocated. -/
def kthreadMutexAlloc (a : MutexFlags) : Option (MutexId × MutexFlags) :=
  ((List.finRange maxMutexes).find? fun i => !a i).map fun i =>
    (i, Function.update a i true)

/-- `kthread_mutex_dealloc` of a mutex of the process that is not locked. -/
def kthreadMutexDealloc (a : MutexFlags) (i : MutexId) : MutexFlags :=
  Function.update a i false

/-- The loop of `trnmnt_tree_alloc`, with `n` mutexes to go: whether it got them
all, the mutexes that it got, and the flags. -/
def allocMutexes : ℕ → List MutexId → MutexFlags → Bool × List MutexId × MutexFlags
  | 0, ids, a => (true, ids, a)
  | n + 1, ids, a =>
      match kthreadMutexAlloc a with
      | some (i, a') => allocMutexes n (ids ++ [i]) a'
      | none => (false, ids, a)

/-- `trnmnt_tree_alloc`; `none` is the null pointer. -/
def trnmntTreeAlloc (depth : ℤ) (a : MutexFlags) : Option TrnmntTree × MutexFlags :=
  if depth < 1 then (none, a)
  else
    let size := 2 <<< (depth - 1).toNat - 1
    match allocMutexes size [] a with
    | (true, ids, a') => (some { depth := depth, tree := ids, size := size }, a')
    | (false, ids, a') => (none, ids.foldl kthreadMutexDealloc a')

/-- A tree as `trnmnt_tree_alloc` makes it. -/
structure TrnmntTree.WellFormed (tr : TrnmntTree) : Prop where
  depth : 1 ≤ tr.depth
  size : tr.size = 2 ^ tr.depth.toNat - 1
  length : tr.tree.length = tr.size
  nodup : tr.tree.Nodup

theorem kthreadMutexAlloc_some {a a' : MutexFlags} {i : MutexId}
    (h : kthreadMutexAlloc a = some (i, a')) :
    a i = false ∧ a' = Function.update a i true := by
  obtain ⟨j, hj, e⟩ := Option.map_eq_some_iff.mp h
  cases e
  have := List.find?_some hj
  exact ⟨by simpa using this, rfl⟩

/-- The mutexes that the loop gets are new, and different. -/
theorem allocMutexes_spec : ∀ (n : ℕ) (ids : List MutexId) (a : MutexFlags),
    ids.Nodup → (∀ i ∈ ids, a i = true) → ∀ {ids' : List MutexId} {a' : MutexFlags},
    allocMutexes n ids a = (true, ids', a') →
    ids'.Nodup ∧ ids'.length = ids.length + n := by
  intro n
  induction n with
  | zero =>
      intro ids a hnd _ ids' a' h
      cases h
      exact ⟨hnd, rfl⟩
  | succ n ih =>
      intro ids a hnd hal ids' a' h
      unfold allocMutexes at h
      split at h
      case h_2 => cases h
      case h_1 i a₁ hi =>
        obtain ⟨hfree, rfl⟩ := kthreadMutexAlloc_some hi
        have hnew : i ∉ ids := by
          intro hm
          rw [hal i hm] at hfree
          cases hfree
        have hnd' : (ids ++ [i]).Nodup := by
          rw [List.nodup_append]
          refine ⟨hnd, List.nodup_singleton i, ?_⟩
          intro j hj k hk
          obtain rfl := List.mem_singleton.mp hk
          rintro rfl
          exact hnew hj
        have hal' : ∀ j ∈ ids ++ [i], Function.update a i true j = true := by
          intro j hj
          by_cases hji : j = i
          · rw [hji, Function.update_self]
          · rw [Function.update_of_ne hji]
            rcases List.mem_append.mp hj with hj | hj
            · exact hal j hj
            · exact absurd (List.mem_singleton.mp hj) hji
        obtain ⟨h₁, h₂⟩ := ih _ _ hnd' hal' h
        refine ⟨h₁, ?_⟩
        rw [h₂, List.length_append, List.length_singleton]
        omega

/-- A tree that `trnmnt_tree_alloc` returns has `2 ^ depth - 1` different mutexes. -/
theorem trnmntTreeAlloc_wellFormed {depth : ℤ} {a : MutexFlags} {tr : TrnmntTree}
    (h : (trnmntTreeAlloc depth a).1 = some tr) :
    tr.WellFormed ∧ tr.depth = depth := by
  unfold trnmntTreeAlloc at h
  split at h
  case isTrue => cases h
  case isFalse hd =>
    dsimp only at h
    split at h
    case h_2 => cases h
    case h_1 ids a' hal =>
      cases h
      obtain ⟨hnd, hlen⟩ := allocMutexes_spec _ _ _ List.nodup_nil nofun hal
      refine ⟨⟨not_lt.mp hd, ?_, ?_, hnd⟩, rfl⟩
      · show 2 <<< (depth - 1).toNat - 1 = 2 ^ depth.toNat - 1
        have : depth.toNat = (depth - 1).toNat + 1 := by omega
        rw [this, Nat.shiftLeft_eq, pow_succ]
        ring_nf
      · show ids.length = _
        rw [hlen]
        exact Nat.zero_add _

/-! ## §2  Acquiring and releasing -/

/-- `tree->tree[index]`. -/
def TrnmntTree.mutex (tr : TrnmntTree) (index : ℕ) : MutexId := tr.tree.getD index 0

/-- `(tree->size + ID - 1) / 2`, the leaf of a thread. -/
def TrnmntTree.leaf (tr : TrnmntTree) (ID : ℤ) : ℕ :=
  ((tr.size + ID - 1).tdiv 2).toNat

/-- `trnmnt_tree_acquire_helper`. -/
def acquireHelper (tr : TrnmntTree) (index : ℕ) : Prog MutexId :=
  if index = 0 then .lock (tr.mutex 0) .ret
  else .lock (tr.mutex index) fun v =>
    if v < 0 then .ret (-1) else acquireHelper tr ((index - 1) / 2)
termination_by index
decreasing_by omega

/-- `trnmnt_tree_acquire`, of a tree that is there. -/
def trnmntTreeAcquire (tr : TrnmntTree) (ID : ℤ) : Prog MutexId :=
  if ID < 0 ∨ 16 < ID then .ret (-1)
  else (acquireHelper tr (tr.leaf ID)).bind fun ans =>
    if 0 ≤ ans then .store ID (.ret ans) else .ret (-1)

/-- `trnmnt_tree_release_helper`. -/
def releaseHelper (tr : TrnmntTree) (index : ℕ) : Prog MutexId :=
  if index = 0 then .unlock (tr.mutex 0) .ret
  else (releaseHelper tr ((index - 1) / 2)).bind fun v =>
    if v < 0 then .ret (-1) else .unlock (tr.mutex index) .ret
termination_by index
decreasing_by omega

/-- `trnmnt_tree_release`. -/
def trnmntTreeRelease (tr : TrnmntTree) (ID : ℤ) : Prog MutexId :=
  .store (-1) (if ID < 0 ∨ 16 < ID then .ret (-1) else releaseHelper tr (tr.leaf ID))

/-! ## §3  The path from a leaf to the root -/

/-- The nodes from `i` to the root. -/
def path (i : ℕ) : List ℕ :=
  i :: if i = 0 then [] else path ((i - 1) / 2)
termination_by i
decreasing_by omega

theorem path_zero : path 0 = [0] := by
  rw [path, if_pos rfl]

theorem path_of_ne {i : ℕ} (h : i ≠ 0) : path i = i :: path ((i - 1) / 2) := by
  rw [path, if_neg h]

theorem mem_path_self (i : ℕ) : i ∈ path i := by
  rw [path]
  exact List.mem_cons_self

theorem le_of_mem_path {i j : ℕ} (h : j ∈ path i) : j ≤ i := by
  induction i using Nat.strong_induction_on with
  | _ i ih =>
      by_cases hi : i = 0
      · subst hi
        rw [path_zero] at h
        exact (List.mem_singleton.mp h).le
      · rw [path_of_ne hi] at h
        rcases List.mem_cons.mp h with rfl | h
        · exact le_rfl
        · have := ih ((i - 1) / 2) (by omega) h
          omega

theorem zero_mem_path (i : ℕ) : 0 ∈ path i := by
  induction i using Nat.strong_induction_on with
  | _ i ih =>
      by_cases hi : i = 0
      · subst hi
        exact mem_path_self 0
      · rw [path_of_ne hi]
        exact List.mem_cons_of_mem _ (ih _ (by omega))

theorem getLast?_path (i : ℕ) : (path i).getLast? = some 0 := by
  induction i using Nat.strong_induction_on with
  | _ i ih =>
      by_cases hi : i = 0
      · rw [hi, path_zero]
        rfl
      · rw [path_of_ne hi, List.getLast?_cons, ih _ (by omega)]
        rfl

/-- Indices go down on the way to the root. -/
theorem path_sorted (i : ℕ) : (path i).Pairwise (· > ·) := by
  induction i using Nat.strong_induction_on with
  | _ i ih =>
      by_cases hi : i = 0
      · subst hi
        rw [path_zero]
        exact List.pairwise_singleton _ _
      · rw [path_of_ne hi]
        refine List.pairwise_cons.mpr ⟨fun j hj => ?_, ih _ (by omega)⟩
        have := le_of_mem_path hj
        omega

theorem path_nodup (i : ℕ) : (path i).Nodup :=
  (path_sorted i).imp fun h => Nat.ne_of_gt h

/-- The nodes before `i` on a path through `i`. -/
theorem lt_of_mem_before {i j l : ℕ} {pre : List ℕ} (h : path l = pre ++ path i)
    (hj : j ∈ pre) : i < j := by
  have := path_sorted l
  rw [h] at this
  exact (List.pairwise_append.mp this).2.2 j hj i (mem_path_self i)

theorem mem_of_climb {i l : ℕ} {pre : List ℕ} (h : path l = pre ++ path i) :
    i ∈ path l := by
  rw [h]
  exact List.mem_append_right _ (mem_path_self i)

/-- The nodes after `j` on the way down. -/
theorem mem_of_descend {j l : ℕ} {before js : List ℕ}
    (h : (path l).reverse = before ++ j :: js) : j ∈ path l ∧ j ∉ js := by
  constructor
  · apply List.mem_reverse.mp
    rw [h]
    exact List.mem_append_right _ List.mem_cons_self
  · have hnd : (before ++ j :: js).Nodup := h ▸ List.nodup_reverse.mpr (path_nodup l)
    exact (List.nodup_cons.mp (List.nodup_append.mp hnd).2.1).1

/-! ## §4  The helpers go along the path -/

/-- `trnmnt_tree_acquire` from the node `i` on. -/
def acquireFrom (tr : TrnmntTree) (ID : ℤ) (i : ℕ) : Prog MutexId :=
  (acquireHelper tr i).bind fun ans =>
    if 0 ≤ ans then .store ID (.ret ans) else .ret (-1)

/-- What follows when node `i` has been locked. -/
def acquireAbove (tr : TrnmntTree) (ID : ℤ) (i : ℕ) : Prog MutexId :=
  if i = 0 then .store ID (.ret 0) else acquireFrom tr ID ((i - 1) / 2)

theorem acquireFrom_eq (tr : TrnmntTree) (ID : ℤ) (i : ℕ) :
    ∃ k, acquireFrom tr ID i = .lock (tr.mutex i) k ∧ k 0 = acquireAbove tr ID i := by
  unfold acquireFrom acquireAbove
  by_cases hi : i = 0
  · subst hi
    rw [acquireHelper, if_pos rfl, if_pos rfl]
    exact ⟨_, rfl, rfl⟩
  · rw [acquireHelper, if_neg hi, if_neg hi]
    exact ⟨_, rfl, rfl⟩

theorem trnmntTreeAcquire_eq {tr : TrnmntTree} {ID : ℤ} (h : 0 ≤ ID) (h' : ID ≤ 16) :
    trnmntTreeAcquire tr ID = acquireFrom tr ID (tr.leaf ID) :=
  if_neg (by omega)

/-- Unlock the nodes of a list, and stop if one is refused. -/
def unlocks (tr : TrnmntTree) : List ℕ → Prog MutexId
  | [] => .ret 0
  | [j] => .unlock (tr.mutex j) .ret
  | j :: js => .unlock (tr.mutex j) fun v => if v < 0 then .ret (-1) else unlocks tr js

theorem unlocks_cons (tr : TrnmntTree) (j : ℕ) (js : List ℕ) :
    ∃ k, unlocks tr (j :: js) = .unlock (tr.mutex j) k ∧ k 0 = unlocks tr js := by
  cases js with
  | nil => exact ⟨_, rfl, rfl⟩
  | cons j' js => exact ⟨_, rfl, if_neg (by decide)⟩

theorem unlocks_append (tr : TrnmntTree) (i : ℕ) : ∀ (j : ℕ) (js : List ℕ),
    (unlocks tr (j :: js)).bind (fun v =>
      if v < 0 then .ret (-1) else .unlock (tr.mutex i) .ret) =
    unlocks tr (j :: js ++ [i]) := by
  intro j js
  induction js generalizing j with
  | nil => rfl
  | cons j' js ih =>
      show Prog.unlock (tr.mutex j) _ = Prog.unlock (tr.mutex j) _
      congr 1
      funext v
      dsimp only
      by_cases hv : v < 0
      · rw [if_pos hv, if_pos hv]
        rfl
      · rw [if_neg hv, if_neg hv]
        exact ih j'

theorem releaseHelper_eq (tr : TrnmntTree) (i : ℕ) :
    releaseHelper tr i = unlocks tr (path i).reverse := by
  induction i using Nat.strong_induction_on with
  | _ i ih =>
      by_cases hi : i = 0
      · subst hi
        rw [releaseHelper, if_pos rfl, path_zero]
        rfl
      · rw [releaseHelper, if_neg hi, ih _ (by omega), path_of_ne hi,
          List.reverse_cons]
        cases hp : (path ((i - 1) / 2)).reverse with
        | nil =>
            rw [List.reverse_eq_nil_iff] at hp
            exact absurd (hp ▸ mem_path_self _) List.not_mem_nil
        | cons j js => exact unlocks_append tr i j js

theorem trnmntTreeRelease_eq {tr : TrnmntTree} {ID : ℤ} (h : 0 ≤ ID) (h' : ID ≤ 16) :
    trnmntTreeRelease tr ID = .store (-1) (unlocks tr (path (tr.leaf ID)).reverse) := by
  rw [trnmntTreeRelease, if_neg (by omega), releaseHelper_eq]

namespace TrnmntTree.WellFormed

variable {tr : TrnmntTree} (hw : tr.WellFormed)
include hw

theorem mutex_inj {i j : ℕ} (hi : i < tr.size) (hj : j < tr.size)
    (h : tr.mutex i = tr.mutex j) : i = j := by
  rw [← hw.length] at hi hj
  rw [mutex, mutex, List.getD_eq_getElem _ _ hi, List.getD_eq_getElem _ _ hj] at h
  exact (hw.nodup.getElem_inj_iff).mp h

theorem exists_mutex {m : MutexId} (h : m ∈ tr.tree) :
    ∃ i, i < tr.size ∧ tr.mutex i = m := by
  obtain ⟨i, hi, rfl⟩ := List.getElem_of_mem h
  exact ⟨i, hw.length ▸ hi, List.getD_eq_getElem _ _ hi⟩

theorem mutex_mem {i : ℕ} (hi : i < tr.size) : tr.mutex i ∈ tr.tree := by
  rw [← hw.length] at hi
  rw [mutex, List.getD_eq_getElem _ _ hi]
  exact List.getElem_mem hi

theorem idxOf_mutex {i : ℕ} (hi : i < tr.size) : tr.tree.idxOf (tr.mutex i) = i := by
  rw [← hw.length] at hi
  rw [mutex, List.getD_eq_getElem _ _ hi]
  exact hw.nodup.idxOf_getElem i hi

/-- The leaves of the `2 ^ depth` IDs are nodes of the tree. -/
theorem leaf_lt {ID : ℤ} (h : 0 ≤ ID) (h' : ID < 2 ^ tr.depth.toNat) :
    tr.leaf ID < tr.size := by
  have hpow : 2 ≤ 2 ^ tr.depth.toNat := by
    have := hw.depth
    calc 2 = 2 ^ 1 := rfl
      _ ≤ 2 ^ tr.depth.toNat := Nat.pow_le_pow_right (by decide) (by omega)
  have hsize := hw.size
  have hcast : ((2 ^ tr.depth.toNat : ℕ) : ℤ) = 2 ^ tr.depth.toNat := by norm_cast
  rw [← hcast] at h'
  unfold leaf
  rw [Int.tdiv_eq_ediv_of_nonneg (by omega)]
  omega

theorem path_lt {ID : ℤ} (h : 0 ≤ ID) (h' : ID < 2 ^ tr.depth.toNat) {i : ℕ}
    (hi : i ∈ path (tr.leaf ID)) : i < tr.size :=
  (le_of_mem_path hi).trans_lt (hw.leaf_lt h h')

end TrnmntTree.WellFormed

end Xv6.User
