import Xv6.User.TrnmntTree
import Xv6.Kernel.Mutex

/-!
# Making and freeing a tournament tree

`trnmnt_tree_alloc` and `trnmnt_tree_dealloc` with `int`s of 32 bits and a `malloc` that may
return a null pointer, on the mutex table of the kernel. The depth of a tree is not bounded
above and the IDs are bounded by 16 whatever the depth; both matter below.
-/

set_option linter.unusedSectionVars false

namespace Xv6.User

open Xv6.Kernel (MutexId maxMutexes ProcId ThreadPtr Sys)

/-! ## §1  The mutex table -/

/-- `mtable.mutex`, and `mid[]` of the process that makes the calls. -/
@[ext] structure Mtable where
  allocated : MutexId → Bool
  locked : MutexId → Bool
  tid : MutexId → ℤ
  mid : MutexId → Bool
  allocated_of_mid : ∀ i, mid i = true → allocated i = true

namespace Mtable

variable {m m' m₀ : Mtable} {i j : MutexId} {ids : List MutexId}

/-- Mutex `i` becomes one of the process. -/
def give (m : Mtable) (i : MutexId) : Mtable where
  allocated := Function.update m.allocated i true
  locked := Function.update m.locked i false
  tid := Function.update m.tid i (-1)
  mid := Function.update m.mid i true
  allocated_of_mid j := by
    by_cases hj : j = i
    · rw [hj, Function.update_self, Function.update_self]
      exact id
    · rw [Function.update_of_ne hj, Function.update_of_ne hj]
      exact m.allocated_of_mid j

/-- Mutex `i` becomes free. -/
def take (m : Mtable) (i : MutexId) : Mtable where
  allocated := Function.update m.allocated i false
  locked := Function.update m.locked i false
  tid := Function.update m.tid i (-1)
  mid := Function.update m.mid i false
  allocated_of_mid j := by
    by_cases hj : j = i
    · rw [hj, Function.update_self]
      nofun
    · rw [Function.update_of_ne hj, Function.update_of_ne hj]
      exact m.allocated_of_mid j

/-- `kthread_mutex_alloc`. -/
def alloc (m : Mtable) : Option (MutexId × Mtable) :=
  ((List.finRange maxMutexes).find? fun i => !m.allocated i).map fun i => (i, m.give i)

/-- `kthread_mutex_dealloc`; `none` is -1. -/
def dealloc (m : Mtable) (i : MutexId) : Option Mtable :=
  if m.allocated i = false then none
  else if m.mid i = false then none
  else if m.locked i = true then none
  else some (m.take i)

/-- What `kthread_mutex_lock` does at once. -/
inductive LockResult where
  | refused
  | waits
  | locked (m : Mtable)

/-- `kthread_mutex_lock`, by a thread of the process with this `tid`. -/
def lock (m : Mtable) (i : MutexId) (tid : ℤ) : LockResult :=
  if m.allocated i = false then .refused
  else if m.mid i = false then .refused
  else if m.tid i = tid then .refused
  else if m.locked i = true then .waits
  else .locked { m with
    locked := Function.update m.locked i true, tid := Function.update m.tid i tid }

/-! The kernel's model of the calls runs in sections; these are its calls, run in one go. -/

section Kernel

variable {Cpu : Type} [DecidableEq Cpu] {s : Sys Cpu} {c : Cpu} {r : ThreadPtr}

/-- The table as the process `p` sees it. -/
structure Agrees (m : Mtable) (s : Sys Cpu) (p : ProcId) : Prop where
  allocated : ∀ i, (s.mutex i).allocated = m.allocated i
  locked : ∀ i, (s.mutex i).locked = m.locked i
  tid : ∀ i, (s.mutex i).tid = m.tid i
  mid : (s.proc p).mid = m.mid

/-- Mutex `i` and its entry of `mid[]` are set to the same on both sides. -/
theorem Agrees.update {s' : Sys Cpu} (h : m.Agrees s r.1) {x : Kernel.KthreadMutex} {b : Bool}
    (hmutex : s'.mutex = Function.update s.mutex i x)
    (hmid : (s'.proc r.1).mid = Function.update (s.proc r.1).mid i b)
    (hself : m'.allocated i = x.allocated ∧ m'.locked i = x.locked ∧ m'.tid i = x.tid)
    (hmid' : m'.mid = Function.update m.mid i b)
    (hne : ∀ j, j ≠ i → m'.allocated j = m.allocated j ∧ m'.locked j = m.locked j ∧
      m'.tid j = m.tid j) : m'.Agrees s' r.1 := by
  obtain ⟨ha, hl, ht⟩ := hself
  refine ⟨fun j => ?_, fun j => ?_, fun j => ?_, ?_⟩
  · by_cases hj : j = i
    · rw [hmutex, hj, Function.update_self, ha]
    · rw [hmutex, Function.update_of_ne hj, (hne j hj).1, h.allocated]
  · by_cases hj : j = i
    · rw [hmutex, hj, Function.update_self, hl]
    · rw [hmutex, Function.update_of_ne hj, (hne j hj).2.1, h.locked]
  · by_cases hj : j = i
    · rw [hmutex, hj, Function.update_self, ht]
    · rw [hmutex, Function.update_of_ne hj, (hne j hj).2.2, h.tid]
  · rw [hmid, hmid', h.mid]

theorem give_ne (hj : j ≠ i) : (m.give i).allocated j = m.allocated j ∧
    (m.give i).locked j = m.locked j ∧ (m.give i).tid j = m.tid j :=
  ⟨Function.update_of_ne hj .., Function.update_of_ne hj .., Function.update_of_ne hj ..⟩

theorem take_ne (hj : j ≠ i) : (m.take i).allocated j = m.allocated j ∧
    (m.take i).locked j = m.locked j ∧ (m.take i).tid j = m.tid j :=
  ⟨Function.update_of_ne hj .., Function.update_of_ne hj .., Function.update_of_ne hj ..⟩

theorem mid_setProc (s : Sys Cpu) (p : ProcId) (i : MutexId) (b : Bool) :
    ((s.setProc p fun x => { x with mid := Function.update x.mid i b }).proc p).mid =
      Function.update (s.proc p).mid i b := by
  rw [Sys.setProc_self]

theorem Agrees.freeMutex (h : m.Agrees s r.1) :
    m.alloc = s.freeMutex.map fun i => (i, m.give i) := by
  have hp : (fun i => !m.allocated i) = fun i => !(s.mutex i).allocated := by
    funext i
    rw [h.allocated]
  rw [Mtable.alloc, Sys.freeMutex, hp]

theorem Agrees.alloc (h : m.Agrees s r.1) (ha : m.alloc = some (i, m')) :
    m'.Agrees ((s.mutexAlloc c r).mutexAllocMid r i) r.1 := by
  rw [h.freeMutex] at ha
  obtain ⟨j, hj, he⟩ := Option.map_eq_some_iff.mp ha
  obtain ⟨rfl, rfl⟩ := Prod.mk.inj he
  rw [Sys.mutexAlloc, hj]
  refine h.update (b := true) rfl ?_ ⟨?_, ?_, ?_⟩ rfl fun k hk => give_ne hk
  · exact mid_setProc _ r.1 _ true
  · exact Function.update_self ..
  · exact Function.update_self ..
  · exact Function.update_self ..

theorem dealloc_eq_some (h : m.dealloc i = some m') :
    m.allocated i = true ∧ m.mid i = true ∧ m.locked i = false ∧ m' = m.take i := by
  unfold dealloc at h
  split_ifs at h with ha hm hl
  exact ⟨eq_true_of_ne_false ha, eq_true_of_ne_false hm, eq_false_of_ne_true hl,
    (Option.some.inj h).symm⟩

theorem Agrees.dealloc (h : m.Agrees s r.1) (hd : m.dealloc i = some m') :
    m'.Agrees ((((s.mutexEnter c r i (.mutexDeallocMid i)).mutexMid r i
      (.mutexDeallocLocked i)).mutexDeallocLocked r i).mutexDeallocClear r i) r.1 := by
  obtain ⟨ha, hm, hl, rfl⟩ := dealloc_eq_some hd
  rw [← h.allocated] at ha
  rw [← h.mid] at hm
  rw [← h.locked] at hl
  have henter : s.mutexEnter c r i (.mutexDeallocMid i) =
      (s.goto r (.mutexDeallocMid i)).acquireMt c := if_pos ha
  have hmid : ((s.goto r (.mutexDeallocMid i)).acquireMt c).mutexMid r i (.mutexDeallocLocked i) =
      ((s.goto r (.mutexDeallocMid i)).acquireMt c).goto r (.mutexDeallocLocked i) := if_pos hm
  have hlock : ¬ ((((s.goto r (.mutexDeallocMid i)).acquireMt c).goto r
      (.mutexDeallocLocked i)).mutex i).locked = true := by
    show ¬ (s.mutex i).locked = true
    rw [hl]
    nofun
  rw [henter, hmid, Sys.mutexDeallocLocked, if_neg hlock]
  refine h.update (b := false) rfl ?_ ⟨?_, ?_, ?_⟩ rfl fun k hk => take_ne hk
  · exact mid_setProc _ r.1 i false
  · exact Function.update_self ..
  · exact Function.update_self ..
  · exact Function.update_self ..

end Kernel

/-! ## §2  Allocating and undoing -/

/-- The loop of `trnmnt_tree_alloc`, with `n` mutexes to go. -/
def allocs : ℕ → List MutexId → Mtable → Bool × List MutexId × Mtable
  | 0, ids, m => (true, ids, m)
  | n + 1, ids, m =>
      match m.alloc with
      | some (i, m') => allocs n (ids ++ [i]) m'
      | none => (false, ids, m)

/-- The mutexes of a list are deallocated, those that are refused left as they are. -/
def undo (ids : List MutexId) (m : Mtable) : Mtable :=
  ids.foldl (fun m i => (m.dealloc i).getD m) m

/-- The process has got the mutexes of the list. -/
structure Extends (m : Mtable) (ids : List MutexId) (m' : Mtable) : Prop where
  nodup : ids.Nodup
  fresh : ∀ i ∈ ids, m.allocated i = false
  given : ∀ i ∈ ids, m'.allocated i = true ∧ m'.mid i = true ∧ m'.locked i = false
  others : ∀ i, i ∉ ids → m'.allocated i = m.allocated i ∧ m'.mid i = m.mid i

theorem Extends.refl (m : Mtable) : Extends m [] m :=
  ⟨List.nodup_nil, nofun, nofun, fun _ _ => ⟨rfl, rfl⟩⟩

theorem alloc_eq_some (h : m.alloc = some (i, m')) : m.allocated i = false ∧ m' = m.give i := by
  obtain ⟨j, hj, he⟩ := Option.map_eq_some_iff.mp h
  obtain ⟨rfl, rfl⟩ := Prod.mk.inj he
  have hfree := List.find?_some hj
  exact ⟨(Bool.not_eq_true' _).mp hfree, rfl⟩

theorem Extends.alloc (h : Extends m₀ ids m) (ha : m.alloc = some (i, m')) :
    Extends m₀ (ids ++ [i]) m' := by
  obtain ⟨hfree, rfl⟩ := alloc_eq_some ha
  have hnew : i ∉ ids := by
    intro hi
    rw [(h.given i hi).1] at hfree
    cases hfree
  refine ⟨?_, ?_, ?_, ?_⟩
  · exact List.nodup_append.mpr ⟨h.nodup, List.nodup_singleton i, fun j hj k hk => by
      rw [List.mem_singleton.mp hk]
      rintro rfl
      exact hnew hj⟩
  · intro j hj
    rcases List.mem_append.mp hj with hj | hj
    · exact h.fresh j hj
    · rw [List.mem_singleton.mp hj, ← (h.others i hnew).1]
      exact hfree
  · intro j hj
    by_cases hji : j = i
    · rw [hji]
      exact ⟨Function.update_self .., Function.update_self .., Function.update_self ..⟩
    · have hmem : j ∈ ids :=
        (List.mem_append.mp hj).resolve_right fun hj => hji (List.mem_singleton.mp hj)
      rw [(give_ne hji).1, (give_ne hji).2.1, show (m.give i).mid j = m.mid j from
        Function.update_of_ne hji ..]
      exact h.given j hmem
  · intro j hj
    have hji : j ≠ i := fun hji => hj (List.mem_append_right _ (List.mem_singleton.mpr hji))
    rw [(give_ne hji).1, show (m.give i).mid j = m.mid j from Function.update_of_ne hji ..]
    exact h.others j fun hj' => hj (List.mem_append_left _ hj')

theorem Extends.allocs {n : ℕ} {ok : Bool} {ids' : List MutexId} (h : Extends m₀ ids m)
    (ha : allocs n ids m = (ok, ids', m')) :
    Extends m₀ ids' m' ∧ (ok = true → ids'.length = ids.length + n) := by
  induction n generalizing ids m with
  | zero =>
      cases ha
      exact ⟨h, fun _ => rfl⟩
  | succ n ih =>
      unfold Mtable.allocs at ha
      split at ha
      case h_1 i m₁ hi =>
        obtain ⟨he, hlen⟩ := ih (h.alloc hi) ha
        refine ⟨he, fun hok => ?_⟩
        rw [hlen hok, List.length_append, List.length_singleton]
        omega
      case h_2 =>
        cases ha
        exact ⟨h, nofun⟩

/-- What was given is taken back. -/
theorem Extends.dealloc (h : Extends m₀ (i :: ids) m) :
    m.dealloc i = some (m.take i) ∧ Extends m₀ ids (m.take i) := by
  obtain ⟨hnew, hnd⟩ := List.nodup_cons.mp h.nodup
  obtain ⟨ha, hm, hl⟩ := h.given i List.mem_cons_self
  have hfree := h.fresh i List.mem_cons_self
  have hmid : m₀.mid i = false := by
    rw [← Bool.not_eq_true]
    intro hmid
    rw [m₀.allocated_of_mid i hmid] at hfree
    cases hfree
  refine ⟨?_, hnd, fun j hj => h.fresh j (List.mem_cons_of_mem _ hj), ?_, ?_⟩
  · rw [Mtable.dealloc, ha, hm, hl]
    rfl
  · intro j hj
    have hji : j ≠ i := fun hji => hnew (hji ▸ hj)
    rw [(take_ne hji).1, (take_ne hji).2.1, show (m.take i).mid j = m.mid j from
      Function.update_of_ne hji ..]
    exact h.given j (List.mem_cons_of_mem _ hj)
  · intro j hj
    by_cases hji : j = i
    · rw [hji, hfree, hmid]
      exact ⟨Function.update_self .., Function.update_self ..⟩
    · rw [(take_ne hji).1, show (m.take i).mid j = m.mid j from Function.update_of_ne hji ..]
      exact h.others j fun hj' => (List.mem_cons.mp hj').elim hji hj

theorem Extends.undo (h : Extends m₀ ids m) : Extends m₀ [] (undo ids m) := by
  induction ids generalizing m with
  | nil => exact h
  | cons i ids ih =>
      obtain ⟨hd, he⟩ := h.dealloc
      rw [Mtable.undo, List.foldl_cons, hd]
      exact ih he

end Mtable

/-! ## §3  `trnmnt_tree_alloc` -/

/-- The value of an `int`. -/
def int32 (z : ℤ) : ℤ := z.bmod (2 ^ 32)

/-- `struct trnmnt_tree`, without `tid`; `none` is a null pointer. -/
structure Tree32 where
  depth : ℤ
  size : ℤ
  tree : Option (List MutexId)
deriving DecidableEq

/-- `(2 << (depth - 1)) - 1`: the processor takes the count modulo 32. -/
def treeSize (depth : ℤ) : ℤ := int32 (int32 (2 <<< ((depth - 1) % 32).toNat) - 1)

/-- What `trnmnt_tree_alloc` comes to; `wild` is a write through a null pointer. -/
inductive Allocated where
  | tree (t : Tree32)
  | null
  | wild
deriving DecidableEq

/-- `trnmnt_tree_alloc`. The two calls of `malloc` return a block or not. -/
def treeAlloc (block array : Bool) (depth : ℤ) (m : Mtable) : Allocated × Mtable :=
  if depth < 1 then (.null, m)
  else if block = false then (.wild, m)
  else
    let size := treeSize depth
    if array = false ∧ 0 < size then (.wild, (m.alloc.map Prod.snd).getD m)
    else
      match m.allocs size.toNat [] with
      | (true, ids, m') => (.tree ⟨depth, size, if array then some ids else none⟩, m')
      | (false, ids, m') => (.null, m'.undo ids)

/-- A tree of `2 ^ depth - 1` new mutexes of the process, or a null pointer and nothing has
changed. -/
inductive AllOrNothing (depth : ℤ) (m : Mtable) : Allocated × Mtable → Prop
  | all {ids : List MutexId} {m' : Mtable} (hlen : ids.length = 2 ^ depth.toNat - 1)
      (hids : m.Extends ids m') :
      AllOrNothing depth m (.tree ⟨depth, 2 ^ depth.toNat - 1, some ids⟩, m')
  | nothing {m' : Mtable} (ha : m'.allocated = m.allocated) (hm : m'.mid = m.mid) :
      AllOrNothing depth m (.null, m')

theorem treeSize_eq {depth : ℤ} (h1 : 1 ≤ depth) (h31 : depth ≤ 31) :
    treeSize depth = 2 ^ depth.toNat - 1 := by
  obtain ⟨k, rfl⟩ : ∃ k : ℕ, depth = k := ⟨depth.toNat, by omega⟩
  have hall : ∀ k : Fin 31, treeSize (k.val + 1 : ℕ) = 2 ^ (k.val + 1) - 1 := by decide
  have hk := hall ⟨k - 1, by omega⟩
  rw [show k - 1 + 1 = k by omega] at hk
  exact hk

/-- `trnmnt_tree_alloc` when there is memory. -/
theorem treeAlloc_of_memory {depth : ℤ} (h1 : 1 ≤ depth) (m : Mtable) :
    treeAlloc true true depth m = match m.allocs (treeSize depth).toNat [] with
      | (true, ids, m') => (.tree ⟨depth, treeSize depth, some ids⟩, m')
      | (false, ids, m') => (.null, m'.undo ids) := by
  have hwild : ¬ (true = false ∧ 0 < treeSize depth) := fun h => absurd h.1 nofun
  rw [treeAlloc, if_neg (Int.not_lt.mpr h1), if_neg nofun]
  dsimp only
  rw [if_neg hwild]
  cases m.allocs (treeSize depth).toNat [] with
  | mk ok r => cases ok <;> rfl

theorem toNat_two_pow (n : ℕ) : ((2 : ℤ) ^ n - 1).toNat = 2 ^ n - 1 := by
  have hcast : ((2 ^ n : ℕ) : ℤ) = 2 ^ n := by norm_cast
  rw [← hcast]
  omega

/-- No mutex is allocated. -/
def Mtable.empty : Mtable where
  allocated _ := false
  locked _ := false
  tid _ := -1
  mid _ := false
  allocated_of_mid _ := nofun

theorem AllOrNothing.size_eq {depth : ℤ} {m : Mtable} {x : Allocated × Mtable} {t : Tree32}
    (h : AllOrNothing depth m x) (ht : x.1 = .tree t) : t.size = 2 ^ depth.toNat - 1 := by
  cases h with
  | all => exact (congrArg Tree32.size (Allocated.tree.inj ht)).symm
  | nothing => cases ht

theorem AllOrNothing.not_wild {depth : ℤ} {m : Mtable} {x : Allocated × Mtable}
    (h : AllOrNothing depth m x) : x.1 ≠ .wild := by
  cases h with
  | all => nofun
  | nothing => nofun

theorem Mtable.allocs_flags (n : ℕ) (ids : List MutexId) (m : Mtable) :
    allocMutexes n ids m.allocated =
      ((m.allocs n ids).1, (m.allocs n ids).2.1, (m.allocs n ids).2.2.allocated) := by
  induction n generalizing ids m with
  | zero => rfl
  | succ n ih =>
      rw [allocMutexes, kthreadMutexAlloc, Mtable.allocs, Mtable.alloc]
      cases (List.finRange maxMutexes).find? fun i => !m.allocated i with
      | none => rfl
      | some i => exact ih (ids ++ [i]) (m.give i)

theorem trnmntTreeAlloc_eq {depth : ℤ} (h1 : 1 ≤ depth) (h31 : depth ≤ 31) (m : Mtable) :
    (trnmntTreeAlloc depth m.allocated).1 = match (treeAlloc true true depth m).1 with
      | .tree t => some ⟨t.depth, t.tree.getD [], t.size.toNat⟩
      | _ => none := by
  have hpow : 2 <<< (depth - 1).toNat - 1 = 2 ^ depth.toNat - 1 := by
    rw [show depth.toNat = (depth - 1).toNat + 1 by omega, Nat.shiftLeft_eq, pow_succ, Nat.mul_comm]
  have hsize : (treeSize depth).toNat = 2 ^ depth.toNat - 1 := by
    rw [treeSize_eq h1 h31, toNat_two_pow]
  rw [treeAlloc_of_memory h1, trnmntTreeAlloc, if_neg (Int.not_lt.mpr h1)]
  dsimp only
  rw [hpow, hsize, Mtable.allocs_flags]
  rcases hal : m.allocs (2 ^ depth.toNat - 1) [] with ⟨_ | _, ids, m'⟩
  · rfl
  · dsimp only
    rw [hsize, Option.getD_some]

/-! ## §4  Where the helpers go -/

/-- The test of `trnmnt_tree_acquire` and `trnmnt_tree_release`. -/
def Tree32.accepts (t : Tree32) (ID : ℤ) : Bool :=
  t.tree.isSome && decide (0 ≤ ID) && decide (ID ≤ 16)

/-- `(tree->size + ID - 1) / 2`. -/
def Tree32.leaf (t : Tree32) (ID : ℤ) : ℤ := (int32 (int32 (t.size + ID) - 1)).tdiv 2

/-- The indices that both helpers use, one going up and the other down, if no call is refused;
`none` if the root is not reached in `n` calls. -/
def climb : ℕ → ℤ → Option (List ℤ)
  | 0, _ => none
  | n + 1, index =>
      if index = 0 then some [0] else (climb n ((index - 1).tdiv 2)).map (index :: ·)

theorem climb_eq_path {n i : ℕ} (h : (path i).length ≤ n) :
    climb n i = some ((path i).map Nat.cast) := by
  induction n generalizing i with
  | zero =>
      rw [path] at h
      cases h
  | succ n ih =>
      by_cases hi : i = 0
      · rw [hi, path_zero]
        rfl
      · rw [path_of_ne hi] at h ⊢
        have hup : ((i : ℤ) - 1).tdiv 2 = ((i - 1) / 2 : ℕ) := by
          rw [Int.tdiv_eq_ediv_of_nonneg (by omega)]
          omega
        rw [climb, if_neg (by omega), hup, ih (Nat.le_of_succ_le_succ h)]
        rfl

/-- The number of nodes from row `d` to the root. -/
theorem length_path {d i : ℕ} (hlo : 2 ^ d ≤ i + 1) (hhi : i + 1 < 2 ^ (d + 1)) :
    (path i).length = d + 1 := by
  induction d generalizing i with
  | zero =>
      obtain rfl : i = 0 := by omega
      rw [path_zero]
      rfl
  | succ d ih =>
      have hpos : 0 < 2 ^ d := Nat.two_pow_pos d
      rw [pow_succ] at hlo hhi
      rw [pow_succ] at hhi
      have hi : i ≠ 0 := by omega
      rw [path_of_ne hi, List.length_cons, ih]
      · omega
      · rw [pow_succ]
        omega

theorem int32_eq {z : ℤ} (hlo : -2 ^ 31 ≤ z) (hhi : z < 2 ^ 31) : int32 z = z := by
  apply Int.bmod_eq_of_le
  · norm_num at hlo ⊢
    omega
  · norm_num at hhi ⊢
    omega

theorem treeAlloc_eq_tree {block array : Bool} {depth : ℤ} {m m' : Mtable} {t : Tree32}
    (ht : treeAlloc block array depth m = (.tree t, m')) :
    1 ≤ depth ∧ ¬ (array = false ∧ 0 < treeSize depth) ∧
      ∃ ids, m.allocs (treeSize depth).toNat [] = (true, ids, m') ∧
        t = ⟨depth, treeSize depth, if array then some ids else none⟩ := by
  unfold treeAlloc at ht
  dsimp only at ht
  split at ht
  · cases ht
  · rename_i h1
    split at ht
    · cases ht
    · split at ht
      · cases ht
      · rename_i hwild
        refine ⟨Int.not_lt.mp h1, hwild, ?_⟩
        split at ht
        · rename_i ids m₁ hal
          obtain ⟨hT, rfl⟩ := Prod.mk.inj ht
          exact ⟨ids, hal, (Allocated.tree.inj hT).symm⟩
        · cases ht

/-- A tree that was made has at most 64 nodes. -/
theorem tree_of_treeAlloc {block array : Bool} {depth : ℤ} {m m' : Mtable} {t : Tree32}
    (h31 : depth ≤ 31) (ht : treeAlloc block array depth m = (.tree t, m')) :
    ∃ d : ℕ, depth = d + 1 ∧ d < 6 ∧ t.size = (2 ^ (d + 1) : ℕ) - 1 ∧ t.tree.isSome = true := by
  obtain ⟨h1, hwild, ids, hal, rfl⟩ := treeAlloc_eq_tree ht
  obtain ⟨d, rfl⟩ : ∃ d : ℕ, depth = d + 1 := ⟨(depth - 1).toNat, by omega⟩
  have hsize : treeSize (d + 1) = (2 ^ (d + 1) : ℕ) - 1 := by
    rw [treeSize_eq h1 h31, show ((d : ℤ) + 1).toNat = d + 1 by omega, Nat.cast_pow,
      Nat.cast_ofNat]
  have hpow : 1 < 2 ^ (d + 1) := Nat.one_lt_two_pow (Nat.succ_ne_zero d)
  obtain ⟨he, hlen⟩ := (Mtable.Extends.refl m).allocs hal
  have hle : ids.length ≤ 64 := by
    have := he.nodup.length_le_card
    rwa [Fintype.card_fin] at this
  have hd : d < 6 := by
    by_contra hd
    have h7 := Nat.pow_le_pow_right Nat.two_pos (show 7 ≤ d + 1 by omega)
    have hn := hlen rfl
    rw [List.length_nil] at hn
    omega
  refine ⟨d, rfl, hd, ?_, ?_⟩
  · dsimp only
    exact hsize
  have hlt : 0 < treeSize (d + 1) := by
    rw [hsize]
    omega
  have harray : array = true := by
    rw [← Bool.not_eq_false]
    exact fun hno => hwild ⟨hno, hlt⟩
  rw [harray]
  rfl

/-- The leaf of an ID that the tree has room for. -/
theorem Tree32.leaf_eq {t : Tree32} {d : ℕ} {ID : ℤ} (hd : d < 6)
    (hsize : t.size = (2 ^ (d + 1) : ℕ) - 1) (h0 : 0 ≤ ID) (h16 : ID ≤ 16) :
    t.leaf ID = (2 ^ d - 1 + ID.toNat / 2 : ℕ) := by
  have hpow : 2 ^ (d + 1) ≤ 2 ^ 6 := Nat.pow_le_pow_right Nat.two_pos hd
  have hpos : 0 < 2 ^ d := Nat.two_pow_pos d
  have hsucc : 2 ^ (d + 1) = 2 ^ d * 2 := pow_succ 2 d
  have hsum : int32 (t.size + ID) = t.size + ID := int32_eq (by omega) (by omega)
  rw [leaf, hsum, int32_eq (by omega) (by omega), Int.tdiv_eq_ediv_of_nonneg (by omega)]
  omega

/-- The tree of depth 2 when no mutex is allocated. -/
theorem treeAlloc_two : treeAlloc true true 2 .empty =
    (.tree ⟨2, 3, some [0, 1, 2]⟩, (treeAlloc true true 2 .empty).2) :=
  Prod.ext (by decide +kernel) rfl

/-- The loop of `trnmnt_tree_dealloc`. -/
def Mtable.deallocs : List MutexId → Mtable → ℤ × Mtable
  | [], m => (0, m)
  | i :: ids, m =>
      match m.dealloc i with
      | some m' => deallocs ids m'
      | none => (-1, m)

/-- `trnmnt_tree_dealloc`. -/
def treeDealloc (tree : Option Tree32) (m : Mtable) : ℤ × Mtable :=
  match tree with
  | none => (-1, m)
  | some t =>
      match t.tree with
      | none => (-1, m)
      | some ids => m.deallocs (ids.take t.size.toNat)

section Dealloc

variable {m m' : Mtable} {i : MutexId} {ids : List MutexId}

theorem Mtable.dealloc_of_unlocked (hmid : m.mid i = true) (hl : m.locked i = false) :
    m.dealloc i = some (m.take i) := by
  rw [Mtable.dealloc, m.allocated_of_mid i hmid, hmid, hl]
  rfl

theorem Mtable.dealloc_of_locked (hl : m.locked i = true) : m.dealloc i = none := by
  rw [Mtable.dealloc, if_pos hl, ite_self, ite_self]

/-- Mutexes that are not locked are all deallocated, and nothing else is allocated. -/
theorem Mtable.deallocs_unlocked (hnd : ids.Nodup) (hmid : ∀ i ∈ ids, m.mid i = true)
    (hl : ∀ i ∈ ids, m.locked i = false) : (m.deallocs ids).1 = 0 ∧
      (∀ i ∈ ids, (m.deallocs ids).2.allocated i = false) ∧
      ∀ i, i ∉ ids → (m.deallocs ids).2.allocated i = m.allocated i := by
  induction ids generalizing m with
  | nil => exact ⟨rfl, nofun, fun _ _ => rfl⟩
  | cons i ids ih =>
      obtain ⟨hnew, hnd⟩ := List.nodup_cons.mp hnd
      have hd := dealloc_of_unlocked (hmid i List.mem_cons_self) (hl i List.mem_cons_self)
      have hne : ∀ j ∈ ids, j ≠ i := fun j hj hji => hnew (hji ▸ hj)
      obtain ⟨hr, hin, hout⟩ := ih (m := m.take i) hnd
        (fun j hj => (Function.update_of_ne (hne j hj) ..).trans
          (hmid j (List.mem_cons_of_mem _ hj)))
        (fun j hj => (take_ne (hne j hj)).2.1.trans (hl j (List.mem_cons_of_mem _ hj)))
      rw [Mtable.deallocs, hd]
      refine ⟨hr, ?_, ?_⟩
      · intro j hj
        by_cases hji : j = i
        · rw [hji]
          exact (hout i hnew).trans (Function.update_self ..)
        · exact hin j ((List.mem_cons.mp hj).resolve_left hji)
      · intro j hj
        have hji : j ≠ i := fun hji => hj (hji ▸ List.mem_cons_self)
        exact (hout j fun hj' => hj (List.mem_cons_of_mem _ hj')).trans (take_ne hji).1

/-- Of mutexes of the process, all are deallocated if none is locked, and none if the first one
is. -/
theorem Mtable.deallocs_all_or_nothing (hnd : ids.Nodup) (hmid : ∀ i ∈ ids, m.mid i = true)
    (hroot : (∀ i ∈ ids, m.locked i = false) ∨ ∃ i ∈ ids.head?, m.locked i = true) :
    ((m.deallocs ids).1 = 0 ∧ ∀ i ∈ ids, (m.deallocs ids).2.allocated i = false) ∨
      m.deallocs ids = (-1, m) := by
  rcases hroot with hl | ⟨i, hi, hl⟩
  · obtain ⟨hr, hin, _⟩ := deallocs_unlocked hnd hmid hl
    exact .inl ⟨hr, hin⟩
  · cases ids with
    | nil => cases hi
    | cons j ids =>
        obtain rfl := Option.some.inj hi
        rw [Mtable.deallocs, dealloc_of_locked hl]
        exact .inr rfl

end Dealloc

/-- A table with the three mutexes of a tree of depth 2, where the thread `tid` holds one leaf:
it is in the middle of `trnmnt_tree_acquire`. -/
def climbing (tid : ℤ) : Mtable where
  allocated i := decide (i < 3)
  locked i := decide (i = 1)
  tid i := if i = 1 then tid else -1
  mid i := decide (i < 3)
  allocated_of_mid _ := id

theorem Mtable.Extends.deallocs {m m' : Mtable} {ids : List MutexId} (h : m.Extends ids m') :
    (m'.deallocs ids).1 = 0 ∧ m.Extends [] (m'.deallocs ids).2 := by
  induction ids generalizing m' with
  | nil => exact ⟨rfl, h⟩
  | cons i ids ih =>
      obtain ⟨hd, he⟩ := h.dealloc
      rw [Mtable.deallocs, hd]
      exact ih he

/-- A tree that is deallocated before it is used leaves the table as it was. -/
theorem tree_alloc_dealloc {depth : ℤ} {m m' : Mtable} {t : Tree32}
    (ht : treeAlloc true true depth m = (.tree t, m')) :
    (treeDealloc (some t) m').1 = 0 ∧ (treeDealloc (some t) m').2.allocated = m.allocated ∧
      (treeDealloc (some t) m').2.mid = m.mid := by
  obtain ⟨_, _, ids, hal, rfl⟩ := treeAlloc_eq_tree ht
  obtain ⟨he, hlen⟩ := (Mtable.Extends.refl m).allocs hal
  obtain ⟨hr, h⟩ := he.deallocs
  rw [if_pos rfl, treeDealloc]
  dsimp only
  rw [List.take_of_length_le (by rw [hlen rfl, List.length_nil, Nat.zero_add])]
  exact ⟨hr, funext fun i => (h.others i List.not_mem_nil).1,
    funext fun i => (h.others i List.not_mem_nil).2⟩

theorem tree_alloc_dealloc_two : ∃ t m, treeAlloc true true 2 .empty = (.tree t, m) ∧
    (treeDealloc (some t) m).2.allocated = Mtable.empty.allocated :=
  ⟨_, _, treeAlloc_two, (tree_alloc_dealloc treeAlloc_two).2.1⟩

end Xv6.User
