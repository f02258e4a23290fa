import Mathlib.Data.Set.Card
import Mathlib.Logic.Function.Basic

/-!
# Trees of names with link counts

Items are directories or files. A directory has numbered entries, each empty or the
name of an item: entry 0 is for itself, entry 1 for the directory above, and those from
2 on are the names in it. An item carries the count of the entries that name it, where
entry 0 of a directory is left out. `Linked` says that the counts are right and that the
directories are a tree under the root; each operation on names keeps that.
-/

namespace Xv6.Lib

structure Item (V : Type) where
  dir : Bool
  nlink : ℤ
  ent : ℕ → Option V

abbrev NameTree (V : Type) := V → Option (Item V)

namespace NameTree

variable {V : Type} {t : NameTree V} {root n n' m c : V} {e e' : ℕ} {x y : Item V}

def IsDir (t : NameTree V) (n : V) : Prop := ∃ x, t n = some x ∧ x.dir = true

/-- Entry `e` of item `n` names `m`. -/
def Names (t : NameTree V) (n : V) (e : ℕ) (m : V) : Prop := ∃ x, t n = some x ∧ x.ent e = some m

/-- The entries that count as links to `m`. -/
def links (t : NameTree V) (m : V) : Set (V × ℕ) := {p | 1 ≤ p.2 ∧ t.Names p.1 p.2 m}

structure Linked (root : V) (t : NameTree V) : Prop where
  finite : ∀ m, (t.links m).Finite
  target : ∀ {n e m}, t.Names n e m → ∃ y, t m = some y
  count : ∀ {m y}, t m = some y → y.nlink = (t.links m).ncard
  file : ∀ {n e m}, t.Names n e m → t.IsDir n
  self : ∀ {n}, t.IsDir n → t.Names n 0 n
  up : ∀ {n}, t.IsDir n → ∃ k, t.IsDir k ∧ t.Names n 1 k ∧ (n ≠ root → ∃ e, 2 ≤ e ∧ t.Names k e n)
  once : ∀ {n e n' e' m}, t.IsDir m → 2 ≤ e → 2 ≤ e' → t.Names n e m → t.Names n' e' m →
    n = n' ∧ e = e'
  rootDir : t.IsDir root
  rootUp : t.Names root 1 root
  rootTop : ∀ {n e}, 2 ≤ e → ¬ t.Names n e root

/-! ## §1  Reading -/

theorem Names.unique (h : t.Names n e m) (h' : t.Names n e c) : m = c := by
  obtain ⟨x, hx, hm⟩ := h
  obtain ⟨y, hy, hc⟩ := h'
  obtain rfl := Option.some.inj (hx.symm.trans hy)
  exact Option.some.inj (hm.symm.trans hc)

theorem names_iff (hx : t n = some x) : t.Names n e m ↔ x.ent e = some m := by
  constructor
  · rintro ⟨y, hy, he⟩
    obtain rfl := Option.some.inj (hx.symm.trans hy)
    exact he
  · intro he
    exact ⟨x, hx, he⟩

theorem isDir_iff (hx : t n = some x) : t.IsDir n ↔ x.dir = true := by
  constructor
  · rintro ⟨y, hy, hd⟩
    obtain rfl := Option.some.inj (hx.symm.trans hy)
    exact hd
  · intro hd
    exact ⟨x, hx, hd⟩

section Update

variable [DecidableEq V]

theorem names_update_ne {z : Option (Item V)} (h : n ≠ c) :
    Names (Function.update t c z) n e m ↔ t.Names n e m := by
  unfold Names
  rw [Function.update_of_ne h]

theorem names_update_self {z : Item V} :
    Names (Function.update t c (some z)) c e m ↔ z.ent e = some m :=
  names_iff (Function.update_self ..)

theorem not_names_update_none : ¬ Names (Function.update t c none) c e m := by
  rintro ⟨x, hx, _⟩
  rw [Function.update_self] at hx
  cases hx

theorem isDir_update_ne {z : Option (Item V)} (h : n ≠ c) :
    IsDir (Function.update t c z) n ↔ t.IsDir n := by
  unfold IsDir
  rw [Function.update_of_ne h]

theorem isDir_update_self {z : Item V} :
    IsDir (Function.update t c (some z)) c ↔ z.dir = true :=
  isDir_iff (Function.update_self ..)

end Update

namespace Linked

/-- The names of a file are in directories, behind their first two entries. -/
theorem two_le (h : Linked root t) (hm : ¬ t.IsDir m) (hn : t.Names n e m) : 2 ≤ e := by
  have hdir := h.file hn
  by_contra hlt
  obtain rfl | rfl : e = 0 ∨ e = 1 := by omega
  · obtain rfl := (h.self hdir).unique hn
    exact hm hdir
  · obtain ⟨k, hk, hup, _⟩ := h.up hdir
    obtain rfl := hup.unique hn
    exact hm hk

/-- The entries that name a directory without names in it. -/
theorem names_empty (h : Linked root t) (hm : t.IsDir m) (he : 2 ≤ e) (hn : t.Names n e m)
    (hempty : ∀ e' c, 2 ≤ e' → ¬ t.Names m e' c) (hc : t.Names c e' m) :
    c = n ∧ e' = e ∨ c = m ∧ e' = 0 := by
  have hdir := h.file hc
  by_cases h2 : 2 ≤ e'
  · exact .inl (h.once hm h2 he hc hn)
  · obtain rfl | rfl : e' = 0 ∨ e' = 1 := by omega
    · exact .inr ⟨(h.self hdir).unique hc, rfl⟩
    · -- it would be the directory above one that has a name in it
      obtain ⟨k, _, hup, hroot⟩ := h.up hdir
      obtain rfl := hup.unique hc
      by_cases hcr : c = root
      · rw [hcr] at hc
        obtain rfl := h.rootUp.unique hc
        exact absurd hn (h.rootTop he)
      · obtain ⟨e'', h2, hname⟩ := hroot hcr
        exact absurd hname (hempty e'' c h2)

/-- The directory above is the one with the name. -/
theorem up_eq (h : Linked root t) (hm : t.IsDir m) (he : 2 ≤ e) (hn : t.Names n e m) :
    t.Names m 1 n := by
  obtain ⟨k, _, hup, hroot⟩ := h.up hm
  have hne : m ≠ root := by
    rintro rfl
    exact h.rootTop he hn
  obtain ⟨e', h2, hname⟩ := hroot hne
  rwa [(h.once hm h2 he hname hn).1] at hup

/-- A directory without names in it has one link. -/
theorem nlink_empty (h : Linked root t) (hy : t m = some y) (hm : t.IsDir m) (he : 2 ≤ e)
    (hn : t.Names n e m) (hempty : ∀ e' c, 2 ≤ e' → ¬ t.Names m e' c) : y.nlink = 1 := by
  have hlinks : t.links m = {(n, e)} := by
    ext ⟨c, e'⟩
    constructor
    · rintro ⟨h1, hc⟩
      rcases h.names_empty hm he hn hempty hc with ⟨rfl, rfl⟩ | ⟨_, rfl⟩
      · rfl
      · exact absurd h1 (Nat.not_succ_le_zero 0)
    · rintro ⟨rfl, rfl⟩
      exact ⟨Nat.le_of_succ_le he, hn⟩
  rw [h.count hy, hlinks, Set.ncard_singleton]
  rfl

theorem nlink_pos (h : Linked root t) (hy : t m = some y) (he : 1 ≤ e) (hn : t.Names n e m) :
    0 < y.nlink := by
  have hne : (t.links m).Nonempty := ⟨(n, e), he, hn⟩
  have hpos := (Set.ncard_pos (h.finite m)).mpr hne
  rw [h.count hy]
  omega

theorem nlink_dir (h : Linked root t) (hy : t m = some y) (hm : t.IsDir m) : 0 < y.nlink := by
  by_cases hr : m = root
  · exact h.nlink_pos hy (Nat.le_refl 1) (hr ▸ h.rootUp)
  · obtain ⟨k, _, _, hroot⟩ := h.up hm
    obtain ⟨e, h2, hname⟩ := hroot hr
    exact h.nlink_pos hy (Nat.le_of_succ_le h2) hname

theorem not_names (h : Linked root t) (hm : ¬ t.IsDir m) (hy : t m = some y) (h0 : y.nlink = 0) :
    ¬ t.Names n e m := by
  intro hn
  have := h.nlink_pos hy (Nat.le_of_succ_le (h.two_le hm hn)) hn
  omega

/-! ## §2  Files -/

/-- The names of directories, and the first two entries, stay as they are. -/
theorem of_files {t' : NameTree V} (h : Linked root t) (hdir : ∀ {c}, t'.IsDir c ↔ t.IsDir c)
    (hnames : ∀ {a i b}, i < 2 ∨ t.IsDir b → (t'.Names a i b ↔ t.Names a i b))
    (hfile : ∀ {a i b}, t'.Names a i b → t.IsDir a)
    (htarget : ∀ {a i b}, t'.Names a i b → ∃ y, t' b = some y)
    (hfinite : ∀ c, (t'.links c).Finite)
    (hcount : ∀ {c y}, t' c = some y → y.nlink = (t'.links c).ncard) : Linked root t' where
  finite := hfinite
  target := htarget
  count := hcount
  file hn := hdir.mpr (hfile hn)
  self hn := (hnames (.inl Nat.two_pos)).mpr (h.self (hdir.mp hn))
  up {n} hn := by
    obtain ⟨k, hk, hup, hroot⟩ := h.up (hdir.mp hn)
    refine ⟨k, hdir.mpr hk, (hnames (.inl Nat.one_lt_two)).mpr hup, fun hne => ?_⟩
    obtain ⟨e, h2, hname⟩ := hroot hne
    exact ⟨e, h2, (hnames (.inr (hdir.mp hn))).mpr hname⟩
  once hm h2 h2' hn hn' := by
    have hm' := hdir.mp hm
    exact h.once hm' h2 h2' ((hnames (.inr hm')).mp hn) ((hnames (.inr hm')).mp hn')
  rootDir := hdir.mpr h.rootDir
  rootUp := (hnames (.inl Nat.one_lt_two)).mpr h.rootUp
  rootTop h2 hn := h.rootTop h2 ((hnames (.inr h.rootDir)).mp hn)

variable [DecidableEq V]

/-- What is no directory comes, changes or goes. -/
theorem setFile {z : Option (Item V)} (h : Linked root t) (hm : ¬ t.IsDir m)
    (hnew : ∀ w, z = some w → w.dir = false ∧ (∀ e, w.ent e = none) ∧
      w.nlink = (t.links m).ncard)
    (hnone : z = none → ∀ n e, ¬ t.Names n e m) : Linked root (Function.update t m z) := by
  have hdir : ∀ {n}, IsDir (Function.update t m z) n ↔ t.IsDir n := by
    intro n
    by_cases hn : n = m
    · rw [hn]
      refine iff_of_false ?_ hm
      rintro ⟨w, hw, hd⟩
      rw [Function.update_self] at hw
      rw [(hnew w hw).1] at hd
      cases hd
    · exact isDir_update_ne hn
  have hnames : ∀ {n e c}, Names (Function.update t m z) n e c ↔ t.Names n e c := by
    intro n e c
    by_cases hn : n = m
    · rw [hn]
      refine iff_of_false ?_ fun hc => hm (h.file hc)
      rintro ⟨w, hw, hc⟩
      rw [Function.update_self] at hw
      rw [(hnew w hw).2.1 e] at hc
      cases hc
    · exact names_update_ne hn
  have hlinks : ∀ c, links (Function.update t m z) c = t.links c := by
    intro c
    ext p
    exact and_congr Iff.rfl hnames
  refine h.of_files hdir (fun _ => hnames) (fun hn => h.file (hnames.mp hn)) ?_ ?_ ?_
  · intro n e c hc
    rw [hnames] at hc
    by_cases hcm : c = m
    · rw [hcm, Function.update_self]
      rw [hcm] at hc
      exact Option.ne_none_iff_exists'.mp fun hz => hnone hz n e hc
    · rw [Function.update_of_ne hcm]
      exact h.target hc
  · intro c
    rw [hlinks]
    exact h.finite c
  · intro c y hy
    rw [hlinks]
    by_cases hcm : c = m
    · rw [hcm, Function.update_self] at hy
      rw [hcm]
      exact (hnew y hy).2.2
    · rw [Function.update_of_ne hcm] at hy
      exact h.count hy

end Linked

/-! ## §3  Names -/

/-- Directory `n` gets another count of links and another entry `e`, and item `m` changes,
comes or goes. -/
def relink [DecidableEq V] (t : NameTree V) (n : V) (x : Item V) (k : ℤ) (e : ℕ) (z : Option V)
    (m : V) (w : Option (Item V)) : NameTree V :=
  Function.update (Function.update t n
    (some { x with nlink := x.nlink + k, ent := Function.update x.ent e z })) m w

section Relink

variable [DecidableEq V] {z : Option V} {k : ℤ} {w : Option (Item V)}

theorem relink_self : relink t n x k e z m w m = w := Function.update_self ..

theorem relink_ne (hc : c ≠ m) (hn : c ≠ n) : relink t n x k e z m w c = t c := by
  rw [relink, Function.update_of_ne hc, Function.update_of_ne hn]

theorem relink_dir (hn : n ≠ m) : relink t n x k e z m w n =
    some { x with nlink := x.nlink + k, ent := Function.update x.ent e z } := by
  rw [relink, Function.update_of_ne hn, Function.update_self]

theorem names_relink (hx : t n = some x) {a b : V} {i : ℕ} (ha : a ≠ m) :
    Names (relink t n x k e z m w) a i b ↔
      if a = n ∧ i = e then z = some b else t.Names a i b := by
  rw [relink, names_update_ne ha]
  by_cases han : a = n
  · rw [han, names_update_self]
    dsimp only
    by_cases hie : i = e
    · rw [hie, if_pos ⟨rfl, rfl⟩, Function.update_self]
    · rw [if_neg fun he => hie he.2, Function.update_of_ne hie, names_iff hx]
  · rw [if_neg fun he => han he.1, names_update_ne han]

theorem isDir_relink (hx : t n = some x) (hc : c ≠ m) :
    IsDir (relink t n x k e z m w) c ↔ t.IsDir c := by
  rw [relink, isDir_update_ne hc]
  by_cases hcn : c = n
  · rw [hcn, isDir_update_self, isDir_iff hx]
  · exact isDir_update_ne hcn

theorem exists_relink (hx : t n = some x) (hc : c ≠ m) :
    (∃ y, relink t n x k e z m w c = some y) ↔ ∃ y, t c = some y := by
  rw [relink, Function.update_of_ne hc]
  by_cases hcn : c = n
  · rw [hcn, Function.update_self, hx]
    exact iff_of_true ⟨_, rfl⟩ ⟨_, rfl⟩
  · rw [Function.update_of_ne hcn]

end Relink

namespace Linked

variable [DecidableEq V]

section File

variable {z : Option V} {k : ℤ} (hx : t n = some x) (hd : x.dir = true) (hy : t m = some y)
  (hf : y.dir = false)

include hx hd hy hf

omit [DecidableEq V] in
theorem dir_ne_file : n ≠ m := by
  rintro rfl
  obtain rfl := Option.some.inj (hx.symm.trans hy)
  rw [hd] at hf
  cases hf

/-- The items in a tree after entry `e` and the count of file `m` have changed. -/
theorem names_file {a b : V} {i : ℕ} :
    Names (relink t n x 0 e z m (some { y with nlink := y.nlink + k })) a i b ↔
      if a = n ∧ i = e then z = some b else t.Names a i b := by
  have hnm := dir_ne_file hx hd hy hf
  by_cases ham : a = m
  · rw [if_neg fun he => hnm (he.1.symm.trans ham), ham, relink, names_update_self, names_iff hy]
  · exact names_relink hx ham

/-- The entry is for file `m` or empty, before and after. -/
theorem relink (h : Linked root t) (he : 2 ≤ e) (hz : ∀ b, z = some b → b = m)
    (hold : ∀ b, x.ent e = some b → b = m)
    (hcount : y.nlink + k = (links (t.relink n x 0 e z m
      (some { y with nlink := y.nlink + k })) m).ncard) :
    Linked root (t.relink n x 0 e z m (some { y with nlink := y.nlink + k })) := by
  have hnm := dir_ne_file hx hd hy hf
  have hm : ¬ t.IsDir m := by
    rw [isDir_iff hy, hf]
    nofun
  have hnames : ∀ {a i b}, Names (t.relink n x 0 e z m (some { y with nlink := y.nlink + k })) a i b
      ↔ if a = n ∧ i = e then z = some b else t.Names a i b := names_file hx hd hy hf
  generalize ht : t.relink n x 0 e z m (some { y with nlink := y.nlink + k }) = t' at *
  have hother : ∀ {a i b}, b ≠ m ∨ i ≠ e → (t'.Names a i b ↔ t.Names a i b) := by
    intro a i b hib
    rw [hnames]
    split_ifs with hae
    · obtain ⟨rfl, rfl⟩ := hae
      have hbm : b ≠ m := hib.resolve_right fun hne => hne rfl
      rw [names_iff hx]
      exact iff_of_false (fun hb => hbm (hz b hb)) fun hb => hbm (hold b hb)
    · rfl
  have hlinks : ∀ c, c ≠ m → t'.links c = t.links c := by
    intro c hcm
    ext p
    exact and_congr Iff.rfl (hother (.inl hcm))
  refine h.of_files ?_ ?_ ?_ ?_ ?_ ?_
  · intro c
    by_cases hcm : c = m
    · rw [hcm, ← ht, NameTree.relink, isDir_update_self, isDir_iff hy]
    · rw [← ht]
      exact isDir_relink hx hcm
  · intro a i b hib
    refine hother (hib.symm.imp ?_ ?_)
    · rintro hb rfl
      exact hm hb
    · omega
  · intro a i b hb
    rw [hnames] at hb
    split_ifs at hb with hae
    · rw [hae.1]
      exact ⟨x, hx, hd⟩
    · exact h.file hb
  · intro a i b hb
    by_cases hbm : b = m
    · rw [hbm, ← ht, relink_self]
      exact ⟨_, rfl⟩
    · rw [hother (.inl hbm)] at hb
      rw [← ht, exists_relink hx hbm]
      exact h.target hb
  · intro c
    by_cases hcm : c = m
    · refine ((h.finite m).insert (n, e)).subset ?_
      rintro ⟨a, i⟩ ⟨h1, hb⟩
      rw [hcm, hnames] at hb
      split_ifs at hb with hae
      · exact .inl (Prod.ext hae.1 hae.2)
      · exact .inr ⟨h1, hb⟩
    · rw [hlinks c hcm]
      exact h.finite c
  · intro c u hu
    by_cases hcm : c = m
    · rw [hcm, ← ht, relink_self] at hu
      rw [hcm, ← Option.some.inj hu]
      exact hcount
    · rw [hlinks c hcm]
      by_cases hcn : c = n
      · rw [hcn, ← ht, relink_dir hnm] at hu
        rw [hcn, ← h.count hx, ← Option.some.inj hu]
        exact Int.add_zero _
      · rw [← ht, relink_ne hcm hcn] at hu
        exact h.count hu

/-- A new name of a file. -/
theorem link (h : Linked root t) (he : 2 ≤ e) (hfree : x.ent e = none) :
    Linked root (t.relink n x 0 e (some m) m (some { y with nlink := y.nlink + 1 })) := by
  refine h.relink hx hd hy hf he (fun b hb => (Option.some.inj hb).symm) ?_ ?_
  · intro b hb
    rw [hfree] at hb
    cases hb
  have hlinks : links (t.relink n x 0 e (some m) m (some { y with nlink := y.nlink + 1 })) m =
      insert (n, e) (t.links m) := by
    ext ⟨a, i⟩
    show _ ∧ Names _ a i m ↔ _
    rw [names_file hx hd hy hf, Set.mem_insert_iff, Prod.mk.injEq]
    split_ifs with hae
    · refine iff_of_true ⟨?_, rfl⟩ (.inl hae)
      rw [hae.2]
      exact Nat.le_of_succ_le he
    · exact (or_iff_right hae).symm
  have hnew : (n, e) ∉ t.links m := by
    rintro ⟨_, hn⟩
    rw [names_iff hx, hfree] at hn
    cases hn
  rw [hlinks, Set.ncard_insert_of_notMem hnew (h.finite m), h.count hy]
  rfl

/-- A name of a file is removed. -/
theorem unlink (h : Linked root t) (he : 2 ≤ e) (hold : x.ent e = some m) :
    Linked root (t.relink n x 0 e none m (some { y with nlink := y.nlink + -1 })) := by
  refine h.relink hx hd hy hf he nofun (fun b hb => Option.some.inj (hb.symm.trans hold)) ?_
  have hmem : (n, e) ∈ t.links m := ⟨Nat.le_of_succ_le he, x, hx, hold⟩
  have hlinks : links (t.relink n x 0 e none m (some { y with nlink := y.nlink + -1 })) m =
      t.links m \ {(n, e)} := by
    ext ⟨a, i⟩
    show _ ∧ Names _ a i m ↔ _
    rw [names_file hx hd hy hf, Set.mem_sdiff, Set.mem_singleton_iff, Prod.mk.injEq]
    split_ifs with hae
    · exact iff_of_false (fun hn => by cases hn.2) fun hn => hn.2 hae
    · exact (and_iff_left hae).symm
  have hcard := Set.ncard_sdiff_singleton_add_one hmem (h.finite m)
  rw [hlinks, h.count hy]
  omega

end File

end Linked

/-! ## §4  Directories -/

/-- The entries of a directory without names in it. -/
def dots (self above : V) : ℕ → Option V
  | 0 => some self
  | 1 => some above
  | _ => none

theorem names_mkdir [DecidableEq V] (hx : t n = some x) (hfree : x.ent e = none) (hm : t m = none)
    {a b : V} {i : ℕ} :
    Names (t.relink n x 1 e (some m) m (some ⟨true, 1, dots m n⟩)) a i b ↔
      t.Names a i b ∨ (a = n ∧ i = e ∧ b = m) ∨ a = m ∧ (i = 0 ∧ b = m ∨ i = 1 ∧ b = n) := by
  by_cases ha : a = m
  · have hno : ¬ t.Names m i b := by
      rintro ⟨y, hy, _⟩
      rw [hm] at hy
      cases hy
    have hnm : m ≠ n := by
      rintro rfl
      rw [hm] at hx
      cases hx
    rw [ha, or_iff_right hno, or_iff_right fun hc => hnm hc.1, and_iff_right rfl, relink,
      names_update_self]
    match i with
    | 0 => simp [dots, eq_comm]
    | 1 => simp [dots, eq_comm]
    | i + 2 => simp [dots]
  · rw [names_relink hx ha]
    split_ifs with hae
    · obtain ⟨rfl, rfl⟩ := hae
      rw [names_iff hx, hfree]
      simp [ha, eq_comm]
    · simp [ha, ← and_assoc, hae]

namespace Linked

variable [DecidableEq V]

/-- A root without names in it. -/
theorem single (root : V) :
    Linked root (Function.update (fun _ => none) root (some ⟨true, 1, dots root root⟩)) := by
  have hN : ∀ {n e m}, Names (Function.update (fun _ => none) root
      (some ⟨true, 1, dots root root⟩)) n e m ↔ n = root ∧ m = root ∧ e < 2 := by
    intro n e m
    by_cases hn : n = root
    · rw [hn, names_update_self]
      match e with
      | 0 => simp [dots, eq_comm]
      | 1 => simp [dots, eq_comm]
      | e + 2 => simp [dots]
    · rw [names_update_ne hn]
      refine iff_of_false ?_ fun h => hn h.1
      rintro ⟨x, hx, _⟩
      cases hx
  have hD : ∀ {n}, IsDir (Function.update (fun _ => none) root
      (some ⟨true, 1, dots root root⟩)) n ↔ n = root := by
    intro n
    by_cases hn : n = root
    · rw [hn, isDir_update_self]
      exact iff_of_true rfl rfl
    · rw [isDir_update_ne hn]
      refine iff_of_false ?_ hn
      rintro ⟨x, hx, _⟩
      cases hx
  have hself : Function.update (fun _ => none) root (some (⟨true, 1, dots root root⟩ : Item V)) root =
      some ⟨true, 1, dots root root⟩ := Function.update_self ..
  have hother : ∀ {n}, n ≠ root → Function.update (fun _ => none) root
      (some (⟨true, 1, dots root root⟩ : Item V)) n = none := fun hn => Function.update_of_ne hn ..
  generalize Function.update (fun _ => none) root (some (⟨true, 1, dots root root⟩ : Item V)) = t
    at *
  have hroot : links t root = {(root, 1)} := by
    ext ⟨n, e⟩
    constructor
    · rintro ⟨h1, hn⟩
      obtain ⟨hn, _, hlt⟩ := hN.mp hn
      exact Prod.ext hn (Nat.le_antisymm (Nat.le_of_lt_succ hlt) h1)
    · rintro ⟨rfl, rfl⟩
      exact ⟨Nat.le_refl 1, hN.mpr ⟨rfl, rfl, Nat.one_lt_two⟩⟩
  have hlinks : ∀ {m}, m ≠ root → links t m = ∅ := by
    intro m hm
    ext ⟨n, e⟩
    exact iff_of_false (fun h => hm (hN.mp h.2).2.1) id
  refine ⟨?_, ?_, ?_, ?_, ?_, ?_, ?_, hD.mpr rfl, hN.mpr ⟨rfl, rfl, Nat.one_lt_two⟩, ?_⟩
  · intro m
    by_cases hm : m = root
    · rw [hm, hroot]
      exact Set.finite_singleton _
    · rw [hlinks hm]
      exact Set.finite_empty
  · intro n e m hn
    obtain ⟨_, rfl, _⟩ := hN.mp hn
    exact ⟨_, hself⟩
  · intro m y hy
    by_cases hm : m = root
    · rw [hm, hself] at hy
      rw [hm, hroot, Set.ncard_singleton, ← Option.some.inj hy]
      rfl
    · rw [hother hm] at hy
      cases hy
  · intro n e m hn
    exact hD.mpr (hN.mp hn).1
  · intro n hn
    obtain rfl := hD.mp hn
    exact hN.mpr ⟨rfl, rfl, Nat.two_pos⟩
  · intro n hn
    obtain rfl := hD.mp hn
    exact ⟨n, hn, hN.mpr ⟨rfl, rfl, Nat.one_lt_two⟩, fun hne => absurd rfl hne⟩
  · intro n e n' e' m _ h2 _ hn _
    exact absurd (hN.mp hn).2.2 (Nat.not_lt.mpr h2)
  · intro n e h2 hn
    exact absurd (hN.mp hn).2.2 (Nat.not_lt.mpr h2)

/-- A new directory. -/
theorem mkdir (h : Linked root t) (hx : t n = some x) (hd : x.dir = true) (he : 2 ≤ e) (hfree : x.ent e = none) (hm : t m = none) :
    Linked root (t.relink n x 1 e (some m) m (some ⟨true, 1, dots m n⟩)) := by
  have hnm : n ≠ m := by
    rintro rfl
    rw [hm] at hx
    cases hx
  -- nothing is known of `m` before
  have hno : ∀ {a i}, ¬ t.Names a i m := by
    intro a i ha
    obtain ⟨y, hy⟩ := h.target ha
    rw [hm] at hy
    cases hy
  have hN : ∀ {a i b}, Names (t.relink n x 1 e (some m) m (some ⟨true, 1, dots m n⟩)) a i b ↔
      t.Names a i b ∨ (a = n ∧ i = e ∧ b = m) ∨ a = m ∧ (i = 0 ∧ b = m ∨ i = 1 ∧ b = n) :=
    names_mkdir hx hfree hm
  have hD : ∀ {c}, IsDir (t.relink n x 1 e (some m) m (some ⟨true, 1, dots m n⟩)) c ↔
      c = m ∨ t.IsDir c := by
    intro c
    by_cases hc : c = m
    · rw [hc, NameTree.relink, isDir_update_self]
      exact iff_of_true rfl (.inl rfl)
    · rw [isDir_relink hx hc, or_iff_right hc]
  have hself := relink_self (t := t) (n := n) (x := x) (k := 1) (e := e) (z := some m) (m := m)
    (w := some ⟨true, 1, dots m n⟩)
  have hdir := relink_dir (t := t) (x := x) (k := 1) (e := e) (z := some m)
    (w := some ⟨true, 1, dots m n⟩) hnm
  have hne : ∀ {c}, c ≠ m → c ≠ n →
      t.relink n x 1 e (some m) m (some ⟨true, 1, dots m n⟩) c = t c := relink_ne
  have halloc : ∀ {c}, c ≠ m → (∃ y, t c = some y) →
      ∃ y, t.relink n x 1 e (some m) m (some ⟨true, 1, dots m n⟩) c = some y :=
    fun hc hy => (exists_relink hx hc).mpr hy
  generalize t.relink n x 1 e (some m) m (some ⟨true, 1, dots m n⟩) = t' at *
  have hlm : t'.links m = {(n, e)} := by
    ext ⟨a, i⟩
    constructor
    · rintro ⟨h1, ha⟩
      rcases hN.mp ha with ha | ⟨rfl, rfl, _⟩ | ⟨rfl, ⟨rfl, _⟩ | ⟨_, hmn⟩⟩
      · exact absurd ha hno
      · rfl
      · exact absurd h1 (Nat.not_succ_le_zero 0)
      · exact absurd hmn.symm hnm
    · rintro ⟨rfl, rfl⟩
      exact ⟨Nat.le_of_succ_le he, hN.mpr (.inr (.inl ⟨rfl, rfl, rfl⟩))⟩
  have hln : t'.links n = insert (m, 1) (t.links n) := by
    ext ⟨a, i⟩
    constructor
    · rintro ⟨h1, ha⟩
      rcases hN.mp ha with ha | ⟨_, _, hc⟩ | ⟨rfl, ⟨_, hc⟩ | ⟨rfl, _⟩⟩
      · exact .inr ⟨h1, ha⟩
      · exact absurd hc hnm
      · exact absurd hc hnm
      · exact .inl rfl
    · rintro (hp | ⟨h1, ha⟩)
      · obtain ⟨rfl, rfl⟩ := Prod.mk.inj hp
        exact ⟨Nat.le_refl 1, hN.mpr (.inr (.inr ⟨rfl, .inr ⟨rfl, rfl⟩⟩))⟩
      · exact ⟨h1, hN.mpr (.inl ha)⟩
  have hlc : ∀ {c}, c ≠ m → c ≠ n → t'.links c = t.links c := by
    intro c hcm hcn
    ext ⟨a, i⟩
    refine and_congr Iff.rfl ?_
    rw [hN]
    refine or_iff_left ?_
    rintro (⟨_, _, hc⟩ | ⟨_, ⟨_, hc⟩ | ⟨_, hc⟩⟩)
    · exact hcm hc
    · exact hcm hc
    · exact hcn hc
  refine ⟨?_, ?_, ?_, ?_, ?_, ?_, ?_, ?_, ?_, ?_⟩
  · intro c
    by_cases hcm : c = m
    · rw [hcm, hlm]
      exact Set.finite_singleton _
    · by_cases hcn : c = n
      · rw [hcn, hln]
        exact (h.finite n).insert _
      · rw [hlc hcm hcn]
        exact h.finite c
  · intro a i b hb
    by_cases hbm : b = m
    · exact ⟨_, hbm ▸ hself⟩
    · refine halloc hbm ?_
      rcases hN.mp hb with hb | ⟨_, _, hc⟩ | ⟨_, ⟨_, hc⟩ | ⟨_, rfl⟩⟩
      · exact h.target hb
      · exact absurd hc hbm
      · exact absurd hc hbm
      · exact ⟨x, hx⟩
  · intro c y hy
    by_cases hcm : c = m
    · rw [hcm, hself] at hy
      rw [hcm, hlm, Set.ncard_singleton, ← Option.some.inj hy]
      rfl
    · by_cases hcn : c = n
      · have hnew : (m, 1) ∉ t.links n := by
          rintro ⟨_, u, hu, _⟩
          rw [hm] at hu
          cases hu
        rw [hcn, hdir] at hy
        rw [hcn, hln, Set.ncard_insert_of_notMem hnew (h.finite n), ← Option.some.inj hy]
        show x.nlink + 1 = _
        rw [h.count hx]
        rfl
      · rw [hne hcm hcn] at hy
        rw [hlc hcm hcn]
        exact h.count hy
  · intro a i b hb
    rw [hD]
    rcases hN.mp hb with hb | ⟨rfl, _⟩ | ⟨rfl, _⟩
    · exact .inr (h.file hb)
    · exact .inr ⟨x, hx, hd⟩
    · exact .inl rfl
  · intro c hc
    rw [hN]
    rcases hD.mp hc with rfl | hc
    · exact .inr (.inr ⟨rfl, .inl ⟨rfl, rfl⟩⟩)
    · exact .inl (h.self hc)
  · intro c hc
    rcases hD.mp hc with rfl | hc
    · refine ⟨n, hD.mpr (.inr ⟨x, hx, hd⟩), hN.mpr (.inr (.inr ⟨rfl, .inr ⟨rfl, rfl⟩⟩)), fun _ => ?_⟩
      exact ⟨e, he, hN.mpr (.inr (.inl ⟨rfl, rfl, rfl⟩))⟩
    · obtain ⟨k, hk, hup, hroot⟩ := h.up hc
      refine ⟨k, hD.mpr (.inr hk), hN.mpr (.inl hup), fun hcr => ?_⟩
      obtain ⟨e', h2, hname⟩ := hroot hcr
      exact ⟨e', h2, hN.mpr (.inl hname)⟩
  · have hbehind : ∀ {a i b}, 2 ≤ i → t'.Names a i b →
        t.Names a i b ∨ a = n ∧ i = e ∧ b = m := by
      intro a i b h2 hb
      rcases hN.mp hb with hb | hb | ⟨_, ⟨rfl, _⟩ | ⟨rfl, _⟩⟩
      · exact .inl hb
      · exact .inr hb
      · omega
      · omega
    intro a i a' i' b hb h2 h2' ha ha'
    rcases hbehind h2 ha with ha | ⟨han, hie, hbm⟩ <;>
      rcases hbehind h2' ha' with ha' | ⟨han', hie', hbm'⟩
    · rcases hD.mp hb with rfl | hb
      · exact absurd ha hno
      · exact h.once hb h2 h2' ha ha'
    · exact absurd (hbm' ▸ ha) hno
    · exact absurd (hbm ▸ ha') hno
    · exact ⟨han.trans han'.symm, hie.trans hie'.symm⟩
  · exact hD.mpr (.inr h.rootDir)
  · exact hN.mpr (.inl h.rootUp)
  · intro a i h2 ha
    rcases hN.mp ha with ha | ⟨_, _, rfl⟩ | ⟨_, ⟨rfl, _⟩ | ⟨rfl, _⟩⟩
    · exact h.rootTop h2 ha
    · exact hno h.rootUp
    · omega
    · omega

/-- A directory without names in it is removed. -/
theorem rmdir (h : Linked root t) (hx : t n = some x) (he : 2 ≤ e) (hold : x.ent e = some m)
    (hm : t.IsDir m) (hempty : ∀ e' c, 2 ≤ e' → ¬ t.Names m e' c) :
    Linked root (t.relink n x (-1) e none m none) := by
  have hname : t.Names n e m := ⟨x, hx, hold⟩
  have hup := h.up_eq hm he hname
  have hnm : n ≠ m := by
    rintro rfl
    exact hempty e n he hname
  have hN : ∀ {a i b}, Names (t.relink n x (-1) e none m none) a i b ↔
      t.Names a i b ∧ a ≠ m ∧ ¬ (a = n ∧ i = e) := by
    intro a i b
    by_cases ha : a = m
    · rw [ha]
      exact iff_of_false not_names_update_none fun hc => hc.2.1 rfl
    · rw [names_relink hx ha]
      split_ifs with hae
      · exact iff_of_false nofun fun hc => hc.2.2 hae
      · exact ⟨fun hb => ⟨hb, ha, hae⟩, fun hb => hb.1⟩
  have hD : ∀ {c}, IsDir (t.relink n x (-1) e none m none) c ↔ c ≠ m ∧ t.IsDir c := by
    intro c
    by_cases hc : c = m
    · rw [hc]
      refine iff_of_false ?_ fun hc => hc.1 rfl
      rintro ⟨y, hy, _⟩
      rw [relink_self] at hy
      cases hy
    · rw [isDir_relink hx hc, and_iff_right hc]
  have hself := relink_self (t := t) (n := n) (x := x) (k := -1) (e := e) (z := none) (m := m)
    (w := none)
  have hdir := relink_dir (t := t) (x := x) (k := -1) (e := e) (z := none) (w := none) hnm
  have hne : ∀ {c}, c ≠ m → c ≠ n → t.relink n x (-1) e none m none c = t c := relink_ne
  have halloc : ∀ {c}, c ≠ m → (∃ y, t c = some y) →
      ∃ y, t.relink n x (-1) e none m none c = some y :=
    fun hc hy => (exists_relink hx hc).mpr hy
  generalize t.relink n x (-1) e none m none = t' at *
  -- nothing names `m` any more
  have hgone : ∀ {a i}, ¬ t'.Names a i m := by
    intro a i ha
    obtain ⟨ha, ham, hae⟩ := hN.mp ha
    rcases h.names_empty hm he hname hempty ha with hc | hc
    · exact hae hc
    · exact ham hc.1
  have hlinks : ∀ {c}, c ≠ m → t'.links c = t.links c \ {(m, 1)} := by
    intro c hcm
    ext ⟨a, i⟩
    constructor
    · rintro ⟨h1, ha⟩
      obtain ⟨ha, ham, _⟩ := hN.mp ha
      refine ⟨⟨h1, ha⟩, fun hp => ham (Prod.mk.inj hp).1⟩
    · rintro ⟨⟨h1, ha⟩, hp⟩
      refine ⟨h1, hN.mpr ⟨ha, ?_, ?_⟩⟩
      · intro (ham : a = m)
        have hi : i ≠ 1 := fun hi => hp (Prod.ext ham hi)
        rw [ham] at ha
        exact hempty i c (by omega) ha
      · rintro ⟨rfl, rfl⟩
        exact hcm (ha.unique hname)
  refine ⟨?_, ?_, ?_, ?_, ?_, ?_, ?_, ?_, ?_, ?_⟩
  · intro c
    by_cases hcm : c = m
    · refine Set.Finite.subset Set.finite_empty ?_
      rintro p ⟨_, hp⟩
      rw [hcm] at hp
      exact absurd hp hgone
    · rw [hlinks hcm]
      exact (h.finite c).sdiff
  · intro a i b hb
    have hbm : b ≠ m := by
      rintro rfl
      exact hgone hb
    exact halloc hbm (h.target (hN.mp hb).1)
  · intro c y hy
    by_cases hcm : c = m
    · rw [hcm, hself] at hy
      cases hy
    · rw [hlinks hcm]
      by_cases hcn : c = n
      · have hmem : (m, 1) ∈ t.links n := ⟨Nat.le_refl 1, hup⟩
        have hcard := Set.ncard_sdiff_singleton_add_one hmem (h.finite n)
        rw [hcn, hdir] at hy
        rw [hcn, ← Option.some.inj hy]
        show x.nlink + -1 = _
        rw [h.count hx]
        omega
      · have hmem : (m, 1) ∉ t.links c := by
          rintro ⟨_, hc⟩
          exact hcn (hc.unique hup)
        rw [hne hcm hcn] at hy
        rw [Set.sdiff_singleton_eq_self hmem]
        exact h.count hy
  · intro a i b hb
    obtain ⟨hb, ham, _⟩ := hN.mp hb
    exact hD.mpr ⟨ham, h.file hb⟩
  · intro c hc
    obtain ⟨hcm, hc⟩ := hD.mp hc
    refine hN.mpr ⟨h.self hc, hcm, fun hce => ?_⟩
    omega
  · intro c hc
    obtain ⟨hcm, hc⟩ := hD.mp hc
    obtain ⟨k, hk, hupc, hroot⟩ := h.up hc
    have hupc' : t'.Names c 1 k := hN.mpr ⟨hupc, hcm, fun hce => by omega⟩
    have hkm : k ≠ m := by
      rintro rfl
      exact hgone hupc'
    refine ⟨k, hD.mpr ⟨hkm, hk⟩, hupc', fun hcr => ?_⟩
    obtain ⟨e', h2, hnamec⟩ := hroot hcr
    refine ⟨e', h2, hN.mpr ⟨hnamec, hkm, ?_⟩⟩
    rintro ⟨rfl, rfl⟩
    exact hcm (hnamec.unique hname)
  · intro a i a' i' b hb h2 h2' ha ha'
    exact h.once (hD.mp hb).2 h2 h2' (hN.mp ha).1 (hN.mp ha').1
  · refine hD.mpr ⟨?_, h.rootDir⟩
    rintro rfl
    exact h.rootTop he hname
  · refine hN.mpr ⟨h.rootUp, ?_, fun hce => by omega⟩
    rintro rfl
    exact h.rootTop he hname
  · intro a i h2 ha
    exact h.rootTop h2 (hN.mp ha).1

end Linked

end NameTree

end Xv6.Lib
