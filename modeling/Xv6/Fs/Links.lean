import Xv6.Fs.Running
import Xv6.Lib.NameTree

/-!
# The names in the directories

The inodes of a disk as a tree of names. `Named` says that the names and the link counts
are in order; what the system calls do to names keeps that.
-/

namespace Xv6.Inodes

open Xv6.Lib NameTree

variable {A : ℕ → Option Node} {n m e e' : ℕ} {x y : Node} {l de name : List UInt8} {s : Fs}

/-! ## §1  The tree -/

/-- The number in an entry that is in use. -/
def entryOf (inum : ℕ) : Option ℕ := if inum = 0 then none else some inum

theorem entryOf_eq_some {k : ℕ} : entryOf k = some m ↔ k = m ∧ m ≠ 0 := by
  unfold entryOf
  split_ifs with hk
  · refine iff_of_false nofun ?_
    rintro ⟨rfl, h0⟩
    exact h0 hk
  · rw [Option.some.injEq]
    refine ⟨?_, And.left⟩
    rintro rfl
    exact ⟨rfl, hk⟩

theorem entryOf_of_ne (h : m ≠ 0) : entryOf m = some m := if_neg h

def Node.item (x : Node) : Item ℕ where
  dir := x.kind = .dir
  nlink := x.nlink
  ent e := if x.kind = .dir then entryOf (inumAt x.data e) else none

/-- The inodes as a tree of names. -/
def treeOf (A : ℕ → Option Node) : NameTree ℕ := fun n => (A n).map Node.item

theorem treeOf_eq_some (h : A n = some x) : treeOf A n = some x.item := by
  rw [treeOf, h, Option.map_some]

theorem exists_of_treeOf {w : Item ℕ} (h : treeOf A n = some w) :
    ∃ x, A n = some x ∧ x.item = w :=
  Option.map_eq_some_iff.mp h

theorem treeOf_update (z : Option Node) :
    treeOf (Function.update A n z) = Function.update (treeOf A) n (z.map Node.item) := by
  funext c
  by_cases hc : c = n
  · rw [hc, treeOf, Function.update_self, Function.update_self]
  · rw [treeOf, Function.update_of_ne hc, Function.update_of_ne hc, treeOf]

theorem isDir_treeOf : (treeOf A).IsDir n ↔ ∃ x, A n = some x ∧ x.kind = .dir := by
  constructor
  · rintro ⟨_, ht, hd⟩
    obtain ⟨x, hx, rfl⟩ := exists_of_treeOf ht
    exact ⟨x, hx, of_decide_eq_true hd⟩
  · rintro ⟨x, hx, hd⟩
    exact ⟨_, treeOf_eq_some hx, decide_eq_true hd⟩

theorem names_treeOf : (treeOf A).Names n e m ↔
    ∃ x, A n = some x ∧ x.kind = .dir ∧ inumAt x.data e = m ∧ m ≠ 0 := by
  constructor
  · rintro ⟨_, ht, hm⟩
    obtain ⟨x, hx, rfl⟩ := exists_of_treeOf ht
    change (if x.kind = .dir then entryOf (inumAt x.data e) else none) = some m at hm
    split_ifs at hm with hk
    exact ⟨x, hx, hk, entryOf_eq_some.mp hm⟩
  · rintro ⟨x, hx, hk, hm⟩
    refine ⟨_, treeOf_eq_some hx, ?_⟩
    show (if x.kind = .dir then _ else none) = _
    rw [if_pos hk]
    exact entryOf_eq_some.mpr hm

/-- Two inodes are changed; in directory `n`, entry `e`. -/
theorem treeOf_relink {k : ℤ} {z : Option ℕ} {w : Option Node} (hx : y.item = { x.item with
      nlink := x.nlink + k, ent := Function.update x.item.ent e z }) :
    treeOf (Function.update (Function.update A n (some y)) m w) =
      (treeOf A).relink n x.item k e z m (w.map Node.item) := by
  rw [treeOf_update, treeOf_update, Option.map_some, hx]
  rfl

theorem item_setEntry (hk : x.kind = .dir) (hde : de.length = direntSize)
    (he : e ≤ entries x.data) (k : ℤ) :
    Node.item ⟨x.kind, x.nlink + k, setEntry x.data e de⟩ = { x.item with
      nlink := x.nlink + k, ent := Function.update x.item.ent e (entryOf (direntInum de)) } := by
  have hent : (fun e' => if x.kind = .dir then entryOf (inumAt (setEntry x.data e de) e') else none) =
      Function.update x.item.ent e (entryOf (direntInum de)) := by
    funext e'
    rw [if_pos hk]
    by_cases hee : e' = e
    · rw [hee, Function.update_self, inumAt, entryAt_setEntry_self hde he]
    · rw [Function.update_of_ne hee, inumAt, entryAt_setEntry_ne hde he hee]
      exact (if_pos hk).symm
  unfold Node.item at hent ⊢
  rw [hent]

theorem item_file (hk : x.kind ≠ .dir) : x.item = ⟨false, x.nlink, fun _ => none⟩ := by
  rw [Node.item, decide_eq_false hk]
  simp only [if_neg hk]

/-! ## §2  Names in order -/

/-- The first two entries are `.` and `..`, and no others are. -/
structure Dotted (l : List UInt8) : Prop where
  self : nameAt l 0 = dot
  above : nameAt l 1 = dotdot
  others : ∀ e, 2 ≤ e → inumAt l e ≠ 0 → nameAt l e ≠ dot ∧ nameAt l e ≠ dotdot

/-- The names of the inodes are in order. -/
structure Named (A : ℕ → Option Node) : Prop where
  linked : Linked rootino (treeOf A)
  dotted : ∀ n x, A n = some x → x.kind = .dir → Dotted x.data

/-- The link counts are small enough for a `short`. -/
def Fits (A : ℕ → Option Node) : Prop := ∀ n x, A n = some x → x.nlink ≤ 32000

theorem Dotted.setEntry (h : Dotted l) (h2 : 2 ≤ e) (he : e ≤ entries l)
    (hde : de.length = direntSize)
    (hname : direntInum de ≠ 0 → direntName de ≠ dot ∧ direntName de ≠ dotdot) :
    Dotted (setEntry l e de) := by
  have hother : ∀ {e'}, e' ≠ e → entryAt (Inodes.setEntry l e de) e' = entryAt l e' :=
    fun hne => entryAt_setEntry_ne hde he hne
  refine ⟨?_, ?_, ?_⟩
  · rw [nameAt, hother (by omega)]
    exact h.self
  · rw [nameAt, hother (by omega)]
    exact h.above
  · intro e' h2' h0
    by_cases hee : e' = e
    · rw [hee, inumAt, entryAt_setEntry_self hde he] at h0
      rw [hee, nameAt, entryAt_setEntry_self hde he]
      exact hname h0
    · rw [inumAt, hother hee] at h0
      rw [nameAt, hother hee]
      exact h.others e' h2' h0

namespace Named

theorem isDir (hx : A n = some x) (hk : x.kind = .dir) : (treeOf A).IsDir n :=
  isDir_treeOf.mpr ⟨x, hx, hk⟩

theorem not_isDir (hx : A n = some x) (hk : x.kind ≠ .dir) : ¬ (treeOf A).IsDir n := by
  intro hd
  obtain ⟨y, hy, hd⟩ := isDir_treeOf.mp hd
  obtain rfl := Option.some.inj (hx.symm.trans hy)
  exact hk hd

/-- A directory has links. -/
theorem nlink_dir (h : Named A) (hx : A n = some x) (hk : x.kind = .dir) : 0 < x.nlink :=
  h.linked.nlink_dir (treeOf_eq_some hx) (isDir hx hk)

theorem nlink_nonneg (h : Named A) (hx : A n = some x) : 0 ≤ x.nlink := by
  have hc := h.linked.count (treeOf_eq_some hx)
  change x.nlink = _ at hc
  omega

/-- What has links is named, and number 0 is not a name. -/
theorem ne_zero (h : Named A) (hx : A n = some x) (h0 : x.nlink ≠ 0) : n ≠ 0 := by
  rintro rfl
  have hempty : (treeOf A).links 0 = ∅ := by
    ext ⟨c, e⟩
    refine iff_of_false ?_ id
    rintro ⟨_, hc⟩
    obtain ⟨_, _, _, _, hne⟩ := names_treeOf.mp hc
    exact hne rfl
  have hc := h.linked.count (treeOf_eq_some hx)
  rw [hempty, Set.ncard_empty] at hc
  exact h0 hc

/-- What is named has links. -/
theorem namesIn (h : Named A) (n : ℕ) : NamesIn A n := by
  intro x e hx hk h0
  have hname : (treeOf A).Names n e (inumAt x.data e) := names_treeOf.mpr ⟨x, hx, hk, rfl, h0⟩
  obtain ⟨_, ht⟩ := h.linked.target hname
  obtain ⟨y, hy, rfl⟩ := exists_of_treeOf ht
  have hpos : 0 < y.nlink := by
    by_cases he : e = 0
    · rw [he] at hname
      obtain heq := (h.linked.self (isDir hx hk)).unique hname
      rw [he, ← heq] at hy
      obtain rfl := Option.some.inj (hx.symm.trans hy)
      exact h.nlink_dir hx hk
    · exact h.linked.nlink_pos (treeOf_eq_some hy) (Nat.one_le_iff_ne_zero.mpr he) hname
  exact ⟨y, hy, hpos.ne'⟩

theorem root (h : Named A) : ∃ x, A rootino = some x ∧ x.kind = .dir :=
  isDir_treeOf.mp h.linked.rootDir

/-- The first two entries of a directory are in use. -/
theorem inumAt_ne_zero (h : Named A) (hx : A n = some x) (hk : x.kind = .dir) (he : e < 2) :
    inumAt x.data e ≠ 0 := by
  have hname : ∃ k, (treeOf A).Names n e k := by
    obtain rfl | rfl : e = 0 ∨ e = 1 := by omega
    · exact ⟨n, h.linked.self (isDir hx hk)⟩
    · obtain ⟨k, _, hup, _⟩ := h.linked.up (isDir hx hk)
      exact ⟨k, hup⟩
  obtain ⟨k, hname⟩ := hname
  obtain ⟨y, hy, _, rfl, h0⟩ := names_treeOf.mp hname
  obtain rfl := Option.some.inj (hx.symm.trans hy)
  exact h0

theorem two_le_of_free (h : Named A) (hx : A n = some x) (hk : x.kind = .dir)
    (h0 : inumAt x.data e = 0) : 2 ≤ e := by
  by_contra hlt
  exact h.inumAt_ne_zero hx hk (Nat.lt_of_not_le hlt) h0

/-- A name that is not in a directory is not `.` or `..`. -/
theorem not_dots (h : Named A) (hno : NoEntry A n name x) :
    name.take dirsiz ≠ dot ∧ name.take dirsiz ≠ dotdot := by
  have hd := h.dotted n x hno.node hno.dir
  have hne : ∀ e, e < 2 → name.take dirsiz ≠ nameAt x.data e := by
    intro e he heq
    exact hno.none e ⟨h.inumAt_ne_zero hno.node hno.dir he, (sameName_direntName ..).mpr heq⟩
  exact ⟨hd.self ▸ hne 0 Nat.two_pos, hd.above ▸ hne 1 Nat.one_lt_two⟩

/-- The entry of a name that is not `.` or `..`. -/
theorem two_le_of_entry (h : Named A) (he : Entry A n name x e) (hdot : sameName name dot = false)
    (hdotdot : sameName name dotdot = false) : 2 ≤ e := by
  have hd := h.dotted n x he.node he.dir
  have hsame := he.found.2
  by_contra hlt
  obtain rfl | rfl : e = 0 ∨ e = 1 := by omega
  · rw [hd.self, hdot] at hsame
    cases hsame
  · rw [hd.above, hdotdot] at hsame
    cases hsame

/-! ## §3  What the calls do -/

/-- Files have no entries that count. -/
theorem update_file {z : Option Node} (h : Named A) (hn : ¬ (treeOf A).IsDir n)
    (hz : ∀ y, z = some y → y.kind ≠ .dir ∧ y.nlink = ((treeOf A).links n).ncard)
    (hnone : z = none → ∀ c e, ¬ (treeOf A).Names c e n) : Named (Function.update A n z) := by
  refine ⟨?_, ?_⟩
  · rw [treeOf_update]
    refine h.linked.setFile hn ?_ ?_
    · intro w hw
      obtain ⟨y, hy, rfl⟩ := Option.map_eq_some_iff.mp hw
      obtain ⟨hk, hc⟩ := hz y hy
      rw [item_file hk]
      exact ⟨rfl, fun _ => rfl, hc⟩
    · intro hw
      exact hnone (Option.map_eq_none_iff.mp hw)
  · intro c y hy hk
    by_cases hc : c = n
    · rw [hc, Function.update_self] at hy
      exact absurd hk (hz y hy).1
    · rw [Function.update_of_ne hc] at hy
      exact h.dotted c y hy hk

/-- The bytes of a file change. -/
theorem write (h : Named A) (hx : A n = some x) (hk : x.kind ≠ .dir) (l : List UInt8) :
    Named (Function.update A n (some (x.setData l))) := by
  refine h.update_file (not_isDir hx hk) ?_ nofun
  rintro _ ⟨⟩
  exact ⟨hk, h.linked.count (treeOf_eq_some hx)⟩

/-- A file without links is freed. -/
theorem free (h : Named A) (hx : A n = some x) (hk : x.kind ≠ .dir) (h0 : x.nlink = 0) :
    Named (Function.update A n none) := by
  refine h.update_file (not_isDir hx hk) nofun fun _ c e => ?_
  exact h.linked.not_names (not_isDir hx hk) (treeOf_eq_some hx) h0

/-- A file without links comes. -/
theorem alloc {k : Kind} (h : Named A) (hm : A m = none) (hk : k ≠ .dir) :
    Named (Function.update A m (some ⟨k, 0, []⟩)) := by
  have hno : ∀ c e, ¬ (treeOf A).Names c e m := by
    intro c e hc
    obtain ⟨y, hy⟩ := h.linked.target hc
    rw [treeOf, hm] at hy
    cases hy
  refine h.update_file ?_ ?_ nofun
  · intro hd
    obtain ⟨y, hy, _⟩ := isDir_treeOf.mp hd
    rw [hm] at hy
    cases hy
  · rintro _ ⟨⟩
    refine ⟨hk, ?_⟩
    have hempty : (treeOf A).links m = ∅ := by
      ext ⟨c, e⟩
      exact iff_of_false (fun hc => hno c e hc.2) id
    rw [hempty, Set.ncard_empty]
    rfl

/-- Directory `n` has one entry that is new, and inode `m` is another one. -/
theorem dotted_relink {k : ℤ} {w : Option Node} (h : Named A) (hx : A n = some x)
    (hk : x.kind = .dir) (h2 : 2 ≤ e) (he : e ≤ entries x.data) (hde : de.length = direntSize)
    (hname : direntInum de ≠ 0 → direntName de ≠ dot ∧ direntName de ≠ dotdot)
    (hw : ∀ y, w = some y → y.kind = .dir → Dotted y.data) (c : ℕ) (y : Node)
    (hy : Function.update (Function.update A n (some ⟨x.kind, x.nlink + k, setEntry x.data e de⟩))
      m w c = some y) (hdir : y.kind = .dir) : Dotted y.data := by
  by_cases hcm : c = m
  · rw [hcm, Function.update_self] at hy
    exact hw y hy hdir
  · rw [Function.update_of_ne hcm] at hy
    by_cases hcn : c = n
    · rw [hcn, Function.update_self] at hy
      obtain rfl := Option.some.inj hy
      exact (h.dotted n x hx hk).setEntry h2 he hde hname
    · rw [Function.update_of_ne hcn] at hy
      exact h.dotted c y hy hdir

/-- The name in a new entry. -/
theorem dirent_name (h : Named A) (hno : NoEntry A n name x) (hz : 0 ∉ name) (m : ℕ) :
    direntName (dirent m name) ≠ dot ∧ direntName (dirent m name) ≠ dotdot := by
  rw [direntName_dirent hz]
  exact h.not_dots hno

/-- A file gets one more name. -/
theorem link (h : Named A) (hno : NoEntry A n name x) (he : e ≤ entries x.data)
    (h0 : inumAt x.data e = 0) (hz : 0 ∉ name) (hy : A m = some y) (hk : y.kind ≠ .dir)
    (hm0 : m ≠ 0) (hlt : m < 65536) :
    Named (Function.update (Function.update A n (some ⟨x.kind, x.nlink + 0,
      setEntry x.data e (dirent m name)⟩)) m (some ⟨y.kind, y.nlink + 1, y.data⟩)) := by
  have h2 := h.two_le_of_free hno.node hno.dir h0
  have hde := length_dirent m name
  have hfile : Node.item ⟨y.kind, y.nlink + 1, y.data⟩ = { y.item with nlink := y.item.nlink + 1 } :=
    rfl
  refine ⟨?_, h.dotted_relink hno.node hno.dir h2 he hde (fun _ => h.dirent_name hno hz m) ?_⟩
  · rw [treeOf_relink (item_setEntry hno.dir hde he 0), direntInum_dirent hlt, entryOf_of_ne hm0,
      Option.map_some, hfile]
    refine h.linked.link (treeOf_eq_some hno.node) (decide_eq_true hno.dir) (treeOf_eq_some hy)
      (decide_eq_false hk) h2 ?_
    show (if x.kind = .dir then entryOf (inumAt x.data e) else none) = none
    rw [if_pos hno.dir, h0]
    rfl
  · rintro _ ⟨⟩ hd
    exact absurd hd hk

/-- A file loses a name. -/
theorem unlink (h : Named A) (hx : Entry A n name x e) (h2 : 2 ≤ e)
    (hy : A (inumAt x.data e) = some y) (hk : y.kind ≠ .dir) :
    Named (Function.update (Function.update A n (some ⟨x.kind, x.nlink + 0,
      setEntry x.data e (List.replicate direntSize 0)⟩)) (inumAt x.data e)
      (some ⟨y.kind, y.nlink + -1, y.data⟩)) := by
  have hde : (List.replicate direntSize (0 : UInt8)).length = direntSize := List.length_replicate
  have he := Nat.le_of_lt hx.lt
  have hfile : Node.item ⟨y.kind, y.nlink + -1, y.data⟩ =
      { y.item with nlink := y.item.nlink + -1 } := rfl
  refine ⟨?_, h.dotted_relink hx.node hx.dir h2 he hde (fun hne => absurd direntInum_zero hne) ?_⟩
  · rw [treeOf_relink (item_setEntry hx.dir hde he 0), direntInum_zero, Option.map_some, hfile]
    refine h.linked.unlink (treeOf_eq_some hx.node) (decide_eq_true hx.dir) (treeOf_eq_some hy)
      (decide_eq_false hk) h2 ?_
    show (if x.kind = .dir then entryOf (inumAt x.data e) else none) = _
    rw [if_pos hx.dir, entryOf_of_ne hx.found.1]
  · rintro _ ⟨⟩ hd
    exact absurd hd hk

theorem empty (hy : A m = some y) (hempty : ∀ e, 2 ≤ e → inumAt y.data e = 0) (e c : ℕ)
    (he : 2 ≤ e) : ¬ (treeOf A).Names m e c := by
  intro hc
  obtain ⟨z, hz, _, rfl, h0⟩ := names_treeOf.mp hc
  obtain rfl := Option.some.inj (hy.symm.trans hz)
  exact h0 (hempty e he)

end Named

/-- The entries of a new directory. -/
def dotEntries (self above : ℕ) : List UInt8 :=
  setEntry (setEntry [] 0 (dirent self dot)) 1 (dirent above dotdot)

theorem entries_dotEntries (self above : ℕ) :
    entries (setEntry [] 0 (dirent self dot)) = 1 ∧ entries (dotEntries self above) = 2 ∧
      direntSize ∣ (dotEntries self above).length := by
  have h₁ := entries_setEntry (length_dirent self dot) (Nat.zero_le (entries [])) ⟨0, rfl⟩
  have hle : 1 ≤ entries (setEntry [] 0 (dirent self dot)) := Nat.le_of_eq h₁.1.symm
  have h₂ := entries_setEntry (length_dirent above dotdot) hle h₁.2
  refine ⟨h₁.1, ?_, h₂.2⟩
  rw [dotEntries, h₂.1, h₁.1]
  rfl

theorem entryAt_dotEntries (self above : ℕ) :
    entryAt (dotEntries self above) 0 = dirent self dot ∧
      entryAt (dotEntries self above) 1 = dirent above dotdot := by
  have hle : 1 ≤ entries (setEntry [] 0 (dirent self dot)) :=
    Nat.le_of_eq (entries_dotEntries self above).1.symm
  refine ⟨?_, entryAt_setEntry_self (length_dirent above dotdot) hle⟩
  rw [dotEntries, entryAt_setEntry_ne (length_dirent above dotdot) hle Nat.zero_ne_one,
    entryAt_setEntry_self (length_dirent self dot) (Nat.zero_le _)]

theorem inumAt_dotEntries (self above : ℕ) (he : 2 ≤ e) : inumAt (dotEntries self above) e = 0 := by
  obtain ⟨_, h2, hwhole⟩ := entries_dotEntries self above
  exact inumAt_of_le (h2.le.trans he) hwhole

theorem dotted_dotEntries (self above : ℕ) : Dotted (dotEntries self above) := by
  obtain ⟨h0, h1⟩ := entryAt_dotEntries self above
  refine ⟨?_, ?_, fun e he hne => absurd (inumAt_dotEntries self above he) hne⟩
  · rw [nameAt, h0, direntName_dirent (by decide)]
    rfl
  · rw [nameAt, h1, direntName_dirent (by decide)]
    rfl

theorem item_dotEntries (hm : m < 65536) (hn : n < 65536) (hm0 : m ≠ 0) (hn0 : n ≠ 0) :
    Node.item ⟨.dir, 1, dotEntries m n⟩ = ⟨true, 1, dots m n⟩ := by
  obtain ⟨h0, h1⟩ := entryAt_dotEntries m n
  have hent : (fun e => entryOf (inumAt (dotEntries m n) e)) = dots m n := by
    funext e
    match e with
    | 0 => rw [inumAt, h0, direntInum_dirent hm, entryOf_of_ne hm0, dots]
    | 1 => rw [inumAt, h1, direntInum_dirent hn, entryOf_of_ne hn0, dots]
    | e + 2 =>
        rw [inumAt_dotEntries m n (Nat.le_add_left 2 e)]
        rfl
  show Item.mk (decide (Kind.dir = .dir)) 1 (fun e => if Kind.dir = .dir then _ else none) = _
  simp only [if_true, hent, decide_true]

namespace Named

/-- A new directory. -/
theorem mkdir (h : Named A) (hno : NoEntry A n name x) (he : e ≤ entries x.data)
    (h0 : inumAt x.data e = 0) (hz : 0 ∉ name) (hm : A m = none) (hm0 : m ≠ 0) (hlt : m < 65536)
    (hn : n < 65536) :
    Named (Function.update (Function.update A n (some ⟨x.kind, x.nlink + 1,
      setEntry x.data e (dirent m name)⟩)) m (some ⟨.dir, 1, dotEntries m n⟩)) := by
  have h2 := h.two_le_of_free hno.node hno.dir h0
  have hde := length_dirent m name
  have hn0 : n ≠ 0 := by
    obtain ⟨_, _, _, _, hne⟩ := names_treeOf.mp (h.linked.self (isDir hno.node hno.dir))
    exact hne
  refine ⟨?_, h.dotted_relink hno.node hno.dir h2 he hde (fun _ => h.dirent_name hno hz m) ?_⟩
  · rw [treeOf_relink (item_setEntry hno.dir hde he 1), direntInum_dirent hlt, entryOf_of_ne hm0,
      Option.map_some, item_dotEntries hlt hn hm0 hn0]
    refine h.linked.mkdir (treeOf_eq_some hno.node) (decide_eq_true hno.dir) h2 ?_ ?_
    · show (if x.kind = .dir then entryOf (inumAt x.data e) else none) = none
      rw [if_pos hno.dir, h0]
      rfl
    · rw [treeOf, hm, Option.map_none]
  · rintro _ ⟨⟩ _
    exact dotted_dotEntries m n

/-- An empty directory goes. -/
theorem rmdir (h : Named A) (hx : Entry A n name x e) (h2 : 2 ≤ e)
    (hy : A (inumAt x.data e) = some y) (hk : y.kind = .dir)
    (hempty : ∀ e', 2 ≤ e' → inumAt y.data e' = 0) :
    Named (Function.update (Function.update A n (some ⟨x.kind, x.nlink + -1,
      setEntry x.data e (List.replicate direntSize 0)⟩)) (inumAt x.data e) none) := by
  have hde : (List.replicate direntSize (0 : UInt8)).length = direntSize := List.length_replicate
  have he := Nat.le_of_lt hx.lt
  refine ⟨?_, h.dotted_relink hx.node hx.dir h2 he hde (fun hne => absurd direntInum_zero hne)
    nofun⟩
  rw [treeOf_relink (item_setEntry hx.dir hde he (-1)), direntInum_zero, Option.map_none]
  refine h.linked.rmdir (treeOf_eq_some hx.node) h2 ?_ (isDir hy hk) ?_
  · show (if x.kind = .dir then entryOf (inumAt x.data e) else none) = _
    rw [if_pos hx.dir, entryOf_of_ne hx.found.1]
  · exact empty hy hempty

/-- An empty directory has one link. -/
theorem nlink_empty (h : Named A) (hx : Entry A n name x e) (h2 : 2 ≤ e)
    (hy : A (inumAt x.data e) = some y) (hk : y.kind = .dir)
    (hempty : ∀ e', 2 ≤ e' → inumAt y.data e' = 0) : y.nlink = 1 :=
  h.linked.nlink_empty (treeOf_eq_some hy) (isDir hy hk) h2
    (names_treeOf.mpr ⟨x, hx.node, hx.dir, rfl, hx.found.1⟩) (empty hy hempty)

end Named

/-! ## §4  The size of the disk -/

/-- The block of an entry that is in use. -/
theorem Disk.place_of_names (hd : Disk A s) (h : (treeOf A).Names n e m) :
    ∃ b, b < s.sb.size ∧ place s.sb.ninodes s.dinode s.block (n, filePos (e / 32)) = some b := by
  obtain ⟨x, hx, hk, rfl, h0⟩ := names_treeOf.mp h
  have hwhole := (hd.dirs n x hx hk).1
  have he : e < entries x.data := by
    by_contra hle
    exact h0 (inumAt_of_le (Nat.le_of_not_lt hle) hwhole)
  obtain ⟨β, ht, hA⟩ := hd.nodes
  have hn : n < s.sb.ninodes ∧ (s.dinode n).kind ≠ .free ∧
      x.data.length = (s.dinode n).size := by
    rw [hA, nodesOf] at hx
    split_ifs at hx with hn
    rw [Dinode.node] at hx
    split_ifs at hx with hfree
    obtain rfl := Option.some.inj hx
    refine ⟨hn, hfree, ?_⟩
    rw [List.length_map, List.length_range]
  obtain ⟨hn, hfree, hlen⟩ := hn
  have hlt : e / 32 < blocksOf (s.dinode n).size := by
    unfold entries direntSize at he
    rw [← hlen, blocksOf, bsize]
    omega
  have hfill := ht.blocks.filled n hn hfree
  have hsome := (hfill.iff (e / 32) (Nat.lt_of_lt_of_le hlt hfill.le)).mpr hlt
  obtain ⟨b, hb⟩ := Option.ne_none_iff_exists'.mp hsome
  exact ⟨b, (ht.blocks.used hn hfree hb).2.2, place_eq_some.mpr ⟨⟨hn, hfree⟩, hb⟩⟩

/-- A disk of `FSSIZE` blocks has not more entries than a `short` can count. -/
theorem Disk.fits (hd : Disk A s) (hs : s.sb.size ≤ 1000) (h : Named A) : Fits A := by
  intro n x hx
  have hcount : x.nlink = ((treeOf A).links n).ncard := h.linked.count (treeOf_eq_some hx)
  obtain ⟨_, ht, _⟩ := hd.nodes
  -- an entry goes to its block and its place in the block
  have hle : ((treeOf A).links n).ncard ≤
      (↑(Finset.range s.sb.size ×ˢ Finset.range 32) : Set (ℕ × ℕ)).ncard := by
    refine Set.ncard_le_ncard_of_injOn (fun p =>
      ((place s.sb.ninodes s.dinode s.block (p.1, filePos (p.2 / 32))).getD 0, p.2 % 32)) ?_ ?_
      (Finset.finite_toSet _)
    · rintro ⟨c, e⟩ ⟨_, hc⟩
      obtain ⟨b, hlt, hb⟩ := hd.place_of_names hc
      dsimp only
      rw [hb, Finset.mem_coe, Finset.mem_product, Finset.mem_range, Finset.mem_range]
      exact ⟨hlt, Nat.mod_lt _ (by decide)⟩
    · rintro ⟨c, e⟩ ⟨_, hc⟩ ⟨c', e'⟩ ⟨_, hc'⟩ heq
      obtain ⟨b, _, hb⟩ := hd.place_of_names hc
      obtain ⟨b', _, hb'⟩ := hd.place_of_names hc'
      dsimp only at heq
      rw [hb, hb'] at heq
      obtain ⟨hbb, hmod⟩ := Prod.mk.inj heq
      obtain rfl : b = b' := hbb
      obtain ⟨rfl, hpos⟩ := Prod.mk.inj (ht.blocks.ledger.unique hb hb')
      have hdiv := filePos_inj hpos
      refine Prod.ext rfl ?_
      show e = e'
      omega
  rw [Set.ncard_coe_finset, Finset.card_product, Finset.card_range, Finset.card_range] at hle
  omega

theorem toShort_of_le {v : ℤ} (h : -32768 ≤ v) (h' : v ≤ 32767) : toShort v = v := by
  apply Int.bmod_eq_of_le
  · omega
  · omega

/-- One more or one less link. -/
theorem Fits.toShort_add {k : ℤ} (hf : Fits A) (h : Named A) (hx : A n = some x) (hk : -1 ≤ k)
    (hk' : k ≤ 1) : toShort (x.nlink + k) = x.nlink + k := by
  have hle := hf n x hx
  have h0 := h.nlink_nonneg hx
  apply toShort_of_le
  · omega
  · omega

theorem Superblock.Ok.ninodes_lt {sb : Superblock} (h : sb.Ok) (hs : sb.size ≤ 1000) :
    sb.ninodes < 65536 := by
  have hone := h.ninodes
  have := h.areas ((sb.ninodes - 1) / 8 + sb.inodestart)
    (.inr (.inr (.inr (.inl ⟨sb.ninodes - 1, by omega, rfl⟩))))
  omega

/-! ## §5  The maps that the calls leave -/

theorem NoEntry.of_eq {A' : ℕ → Option Node} (h : NoEntry A n name x) (hn : A' n = A n) :
    NoEntry A' n name x :=
  ⟨hn.trans h.node, h.dir, h.none⟩

theorem writeEntry_eq (hx : A n = some x) (e : ℕ) (de : List UInt8) :
    writeEntry A n e de = Function.update A n (some ⟨x.kind, x.nlink, setEntry x.data e de⟩) :=
  modify_eq hx _

namespace Named

/-- `create` of a file or a device. -/
theorem create {k : Kind} (h : Named A) (hno : NoEntry A n name x) (he : e ≤ entries x.data)
    (h0 : inumAt x.data e = 0) (hz : 0 ∉ name) (hm : A m = none) (hm0 : m ≠ 0) (hlt : m < 65536)
    (hk : k ≠ .dir) :
    Named (writeEntry (Function.update A m (some ⟨k, 1, []⟩)) n e (dirent m name)) := by
  have hnm : n ≠ m := by
    rintro rfl
    rw [hno.node] at hm
    cases hm
  have hlink := (h.alloc hm hk).link (hno.of_eq (Function.update_of_ne hnm ..)) he h0 hz
    (Function.update_self ..) hk hm0 hlt
  rw [Function.update_comm hnm.symm, Function.update_idem, Int.add_zero] at hlink
  rw [writeEntry_eq ((Function.update_of_ne hnm ..).trans hno.node), Function.update_comm hnm.symm]
  exact hlink

/-- `create` of a directory. -/
theorem create_dir (h : Named A) (hf : Fits A) (hno : NoEntry A n name x) (he : e ≤ entries x.data)
    (h0 : inumAt x.data e = 0) (hz : 0 ∉ name) (hm : A m = none) (hm0 : m ≠ 0) (hlt : m < 65536)
    (hn : n < 65536) :
    Named (writeEntry (Function.update (modify (Function.update A m (some ⟨.dir, 1, []⟩)) n
      fun x => x.setLinks (toShort (x.nlink + 1))) m (some ⟨.dir, 1, dotEntries m n⟩)) n e
      (dirent m name)) := by
  have hnm : n ≠ m := by
    rintro rfl
    rw [hno.node] at hm
    cases hm
  have hmk := h.mkdir hno he h0 hz hm hm0 hlt hn
  have hadd : toShort (x.nlink + 1) = x.nlink + 1 :=
    hf.toShort_add h hno.node (by decide) (Int.le_refl 1)
  rw [modify_eq ((Function.update_of_ne hnm ..).trans hno.node), Function.update_comm hnm.symm,
    Function.update_idem, writeEntry_eq ((Function.update_of_ne hnm ..).trans
      (Function.update_self ..)), Function.update_comm hnm.symm, Function.update_idem]
  show Named (Function.update (Function.update A n (some ⟨x.kind, toShort (x.nlink + 1), _⟩)) m _)
  rw [hadd]
  exact hmk

/-- `sys_link`. -/
theorem sysLink (h : Named A) (hf : Fits A) (hno : NoEntry A n name x) (he : e ≤ entries x.data)
    (h0 : inumAt x.data e = 0) (hz : 0 ∉ name) (hy : A m = some y) (hk : y.kind ≠ .dir)
    (hm0 : m ≠ 0) (hlt : m < 65536) :
    Named (writeEntry (modify A m fun x => x.setLinks (toShort (x.nlink + 1))) n e
      (dirent m name)) := by
  have hnm : n ≠ m := by
    rintro rfl
    rw [Option.some.inj (hno.node.symm.trans hy)] at hno
    exact hk hno.dir
  have hlink := h.link hno he h0 hz hy hk hm0 hlt
  have hadd : toShort (y.nlink + 1) = y.nlink + 1 :=
    hf.toShort_add h hy (by decide) (Int.le_refl 1)
  rw [Int.add_zero] at hlink
  rw [modify_eq hy, writeEntry_eq ((Function.update_of_ne hnm ..).trans hno.node),
    Function.update_comm hnm.symm]
  show Named (Function.update _ m (some ⟨y.kind, toShort (y.nlink + 1), y.data⟩))
  rw [hadd]
  exact hlink

/-- `sys_unlink` of a file. -/
theorem sysUnlink (h : Named A) (hf : Fits A) (hx : Entry A n name x e) (h2 : 2 ≤ e)
    (hy : A (inumAt x.data e) = some y) (hk : y.kind ≠ .dir) :
    Named (modify (writeEntry A n e (List.replicate direntSize 0)) (inumAt x.data e)
      fun x => x.setLinks (toShort (x.nlink + -1))) := by
  have hnm : inumAt x.data e ≠ n := by
    intro he
    rw [he, hx.node] at hy
    rw [← Option.some.inj hy] at hk
    exact hk hx.dir
  have hun := h.unlink hx h2 hy hk
  have hadd : toShort (y.nlink + -1) = y.nlink + -1 :=
    hf.toShort_add h hy (Int.le_refl _) (by decide)
  rw [Int.add_zero] at hun
  rw [writeEntry_eq hx.node, modify_eq ((Function.update_of_ne hnm ..).trans hy)]
  show Named (Function.update _ _ (some ⟨y.kind, toShort (y.nlink + -1), y.data⟩))
  rw [hadd]
  exact hun

/-- `sys_unlink` of a directory, which is freed. -/
theorem sysUnlink_dir (h : Named A) (hf : Fits A) (hx : Entry A n name x e) (h2 : 2 ≤ e)
    (hy : A (inumAt x.data e) = some y) (hk : y.kind = .dir)
    (hempty : ∀ e', 2 ≤ e' → inumAt y.data e' = 0) :
    Named (Function.update (modify (writeEntry A n e (List.replicate direntSize 0)) n
      fun x => x.setLinks (toShort (x.nlink + -1))) (inumAt x.data e) none) := by
  have hrm := h.rmdir hx h2 hy hk hempty
  have hadd : toShort (x.nlink + -1) = x.nlink + -1 :=
    hf.toShort_add h hx.node (Int.le_refl _) (by decide)
  rw [writeEntry_eq hx.node, modify_eq (Function.update_self ..), Function.update_idem]
  show Named (Function.update (Function.update A n (some ⟨x.kind, toShort (x.nlink + -1), _⟩)) _ _)
  rw [hadd]
  exact hrm

end Named

end Xv6.Inodes
