import Mathlib.Order.Basic
import Mathlib.Tactic.Common
import Mathlib.Tactic.IntervalCases
import Xv6.Vm.Paging

/-!
# Whose a page is

`Acct m o`: every physical page has exactly one owner. `o` gives it: the free list, a
page directory, a page table of a directory, a user mapping of a directory, a call that
works on a directory and holds the page meanwhile, or the rest of the kernel. The lemmas
say what becomes of the owners when a page is taken from the free list or put back, or
an entry is written.
-/

namespace Xv6.Vm

/-! ## §1  Entries -/

/-- The entry for the page `v` of a directory; 0 without a page table. -/
def Phys.entry (m : Phys) (D v : ℕ) : ℕ :=
  if Present (m.mem D (v / nEntries)) then
    m.mem (pteAddr (m.mem D (v / nEntries))) (v % nEntries)
  else 0

/-- The pages of the 32-bit address space. -/
def allPages : ℕ := nEntries * nEntries

theorem not_present_zero : ¬ Present 0 := by decide

theorem present_mkPte {f perm : ℕ} : Present (mkPte f perm) := by
  have : (perm ||| pteP) % 2 = 1 := by
    rw [show (2 : ℕ) = 2 ^ 1 from rfl, Nat.or_mod_two_pow]
    have : perm % 2 ^ 1 < 2 := Nat.mod_lt _ (by decide)
    generalize perm % 2 ^ 1 = b at this ⊢
    interval_cases b <;> rfl
  unfold Present mkPte pgSize
  omega

theorem pteAddr_mkPte {f perm : ℕ} (h : perm < pgSize) : pteAddr (mkPte f perm) = f := by
  have : perm ||| pteP < 2 ^ 12 := Nat.or_lt_two_pow h (by decide)
  unfold pteAddr mkPte pgSize
  omega

theorem pteFlags_lt (w : ℕ) : pteFlags w < pgSize := Nat.mod_lt _ (by decide)

theorem present_clearU {w : ℕ} : Present (clearU w) ↔ Present w := by
  unfold Present clearU pteU
  omega

theorem pteAddr_clearU (w : ℕ) : pteAddr (clearU w) = pteAddr w := by
  unfold pteAddr clearU pteU pgSize
  omega

section Memory

variable {m : Phys} {f g i j w D v : ℕ} {p : Page}

@[simp] theorem Phys.setPage_first : (m.setPage f p).first = m.first := rfl
@[simp] theorem Phys.setPage_free : (m.setPage f p).free = m.free := rfl
@[simp] theorem Phys.setPage_self : (m.setPage f p).mem f = p := Function.update_self ..

theorem Phys.setPage_ne (h : g ≠ f) : (m.setPage f p).mem g = m.mem g :=
  Function.update_of_ne h ..

@[simp] theorem Phys.setWord_first : (m.setWord f i w).first = m.first := rfl
@[simp] theorem Phys.setWord_free : (m.setWord f i w).free = m.free := rfl

@[simp] theorem Phys.setWord_self : (m.setWord f i w).mem f i = w := by
  show (m.setPage f _).mem f i = w
  rw [Phys.setPage_self, Function.update_self]

theorem Phys.setWord_ne (h : g ≠ f) : (m.setWord f i w).mem g = m.mem g :=
  Phys.setPage_ne h

theorem Phys.setWord_ne_index (h : j ≠ i) : (m.setWord f i w).mem f j = m.mem f j := by
  show (m.setPage f _).mem f j = _
  rw [Phys.setPage_self, Function.update_of_ne h]

theorem Phys.entry_of_present (h : Present (m.mem D (v / nEntries))) :
    m.entry D v = m.mem (pteAddr (m.mem D (v / nEntries))) (v % nEntries) :=
  if_pos h

theorem Phys.entry_of_not_present (h : ¬ Present (m.mem D (v / nEntries))) :
    m.entry D v = 0 :=
  if_neg h

end Memory

/-! ## §2  Owners -/

inductive Owner where
  | free
  | dir
  | table (D i : ℕ)
  | user (D v : ℕ)
  | held (D : ℕ)
  | other
  | outside
deriving DecidableEq, Repr

/-- A page whose words are entries. -/
def Owner.paging : Owner → Bool
  | .dir | .table _ _ => true
  | _ => false

structure Acct (m : Phys) (o : ℕ → Owner) : Prop where
  pos : 0 < m.first
  range : ∀ {f}, o f ≠ .outside → m.first ≤ f ∧ f < physTop / pgSize
  nodup : m.free.Nodup
  free : ∀ {f}, f ∈ m.free ↔ o f = .free
  table : ∀ {f D i}, o f = .table D i ↔
    o D = .dir ∧ i < nEntries ∧ Present (m.mem D i) ∧ pteAddr (m.mem D i) = f
  user : ∀ {f D v}, o f = .user D v ↔
    o D = .dir ∧ v < userPages ∧ Present (m.entry D v) ∧ pteAddr (m.entry D v) = f

variable {m m' : Phys} {o o' : ℕ → Owner} {f g D D' i v w : ℕ} {p : Page}

theorem div_nEntries_lt (h : v < allPages) : v / nEntries < nEntries :=
  Nat.div_lt_of_lt_mul h

theorem userPages_le : userPages ≤ allPages := by decide

namespace Acct

variable (h : Acct m o)
include h

/-- The page table of a directory entry. -/
theorem table_of (hD : o D = .dir) (hi : i < nEntries) (hp : Present (m.mem D i)) :
    o (pteAddr (m.mem D i)) = .table D i :=
  h.table.mpr ⟨hD, hi, hp, rfl⟩

theorem user_of (hD : o D = .dir) (hv : v < userPages) (hp : Present (m.entry D v)) :
    o (pteAddr (m.entry D v)) = .user D v :=
  h.user.mpr ⟨hD, hv, hp, rfl⟩

/-- Entries are in pages of entries: another page can change without them. -/
theorem entry_congr (hD : o D = .dir) (hv : v < allPages)
    (hm : ∀ g, (o g).paging = true → m'.mem g = m.mem g) :
    m'.entry D v = m.entry D v := by
  have hdir : m'.mem D = m.mem D := hm D (by rw [hD]; rfl)
  unfold Phys.entry
  rw [hdir]
  by_cases hp : Present (m.mem D (v / nEntries))
  · rw [if_pos hp, if_pos hp, hm]
    rw [h.table_of hD (div_nEntries_lt hv) hp]
    rfl
  · rw [if_neg hp, if_neg hp]

/-- Owners of pages that hold no entries change. -/
theorem relabel (hm : ∀ g, (o g).paging = true → m'.mem g = m.mem g)
    (hpos : m'.first = m.first)
    (hr : ∀ g, o g = .outside → o' g = .outside)
    (hdir : ∀ g, o' g = .dir ↔ o g = .dir)
    (htab : ∀ g D i, o' g = .table D i ↔ o g = .table D i)
    (huser : ∀ g D v, o' g = .user D v ↔ o g = .user D v)
    (hnd : m'.free.Nodup) (hfree : ∀ g, g ∈ m'.free ↔ o' g = .free) : Acct m' o' := by
  refine ⟨hpos ▸ h.pos, fun {g} hg => ?_, hnd, hfree _, fun {f D i} => ?_, fun {f D v} => ?_⟩
  · rw [hpos]
    exact h.range fun e => hg (hr g e)
  · rw [htab, h.table, hdir]
    apply and_congr_right
    intro hD
    rw [hm D (by rw [hD]; rfl)]
  · rw [huser, h.user, hdir]
    apply and_congr_right
    intro hD
    apply and_congr_right
    intro hv
    rw [h.entry_congr hD (lt_of_lt_of_le hv userPages_le) hm]

end Acct

theorem update_owner_iff {x y : Owner} (hx : x ≠ y) (hf : o f ≠ y) :
    Function.update o f x g = y ↔ o g = y := by
  by_cases hg : g = f
  · subst hg
    rw [Function.update_self]
    exact iff_of_false hx hf
  · rw [Function.update_of_ne hg]

/-- The owner holds nothing that the tables or the free list show. -/
def Owner.Loose (x : Owner) : Prop := x = .other ∨ ∃ D, x = .held D

theorem Owner.loose_held : (Owner.held D).Loose := .inr ⟨D, rfl⟩

theorem Owner.Loose.ne {x y : Owner} (hx : x.Loose) (hy : ¬ y.Loose) : x ≠ y := by
  rintro rfl
  exact hy hx

theorem Owner.not_loose_free : ¬ Owner.free.Loose := by rintro (h | ⟨_, h⟩) <;> cases h
theorem Owner.not_loose_dir : ¬ Owner.dir.Loose := by rintro (h | ⟨_, h⟩) <;> cases h
theorem Owner.not_loose_outside : ¬ Owner.outside.Loose := by
  rintro (h | ⟨_, h⟩) <;> cases h
theorem Owner.not_loose_table : ¬ (Owner.table D i).Loose := by
  rintro (h | ⟨_, h⟩) <;> cases h
theorem Owner.not_loose_user : ¬ (Owner.user D v).Loose := by
  rintro (h | ⟨_, h⟩) <;> cases h

theorem Owner.Loose.paging {x : Owner} (hx : x.Loose) : x.paging = false := by
  rcases hx with rfl | ⟨_, rfl⟩ <;> rfl

namespace Acct

variable (h : Acct m o)
include h

/-! ### Pages that hold no entries -/

/-- A page that holds no entries is written. -/
theorem write (hf : (o f).paging = false) (p : Page) : Acct (m.setPage f p) o := by
  apply h.relabel
  · intro g hg
    apply Phys.setPage_ne
    rintro rfl
    rw [hf] at hg
    cases hg
  · rfl
  · exact fun _ => id
  · exact fun _ => Iff.rfl
  · exact fun _ _ _ => Iff.rfl
  · exact fun _ _ _ => Iff.rfl
  · exact h.nodup
  · exact fun _ => h.free

/-- `kalloc` hands out a page. -/
theorem take {fs : List ℕ} {x : Owner} (hf : m.free = f :: fs) (hx : x.Loose) :
    Acct { m with free := fs } (Function.update o f x) := by
  have hfree : o f = .free := h.free.mp (hf ▸ List.mem_cons_self)
  have hnd : (f :: fs).Nodup := hf ▸ h.nodup
  apply h.relabel
  · exact fun _ _ => rfl
  · rfl
  · intro g hg
    rw [update_owner_iff (hx.ne Owner.not_loose_outside) (by rw [hfree]; nofun)]
    exact hg
  · exact fun g => update_owner_iff (hx.ne Owner.not_loose_dir) (by rw [hfree]; nofun)
  · exact fun g D i =>
      update_owner_iff (hx.ne Owner.not_loose_table) (by rw [hfree]; nofun)
  · exact fun g D v =>
      update_owner_iff (hx.ne Owner.not_loose_user) (by rw [hfree]; nofun)
  · exact (List.nodup_cons.mp hnd).2
  · intro g
    show g ∈ fs ↔ _
    by_cases hg : g = f
    · subst hg
      rw [Function.update_self]
      exact iff_of_false (List.nodup_cons.mp hnd).1 (hx.ne Owner.not_loose_free)
    · rw [Function.update_of_ne hg, ← h.free, hf, List.mem_cons]
      exact ⟨.inr, fun hm => hm.resolve_left hg⟩

/-- `kfree` takes a page back. -/
theorem give (hf : (o f).Loose) (p : Page) :
    Acct { m.setPage f p with free := f :: m.free } (Function.update o f .free) := by
  have hnot : f ∉ m.free := by
    rw [h.free]
    exact hf.ne Owner.not_loose_free
  apply h.relabel
  · intro g hg
    apply Phys.setPage_ne
    rintro rfl
    rw [hf.paging] at hg
    cases hg
  · rfl
  · intro g hg
    rw [update_owner_iff (x := .free) (y := .outside) nofun (hf.ne Owner.not_loose_outside)]
    exact hg
  · exact fun g => update_owner_iff nofun (hf.ne Owner.not_loose_dir)
  · exact fun g D i => update_owner_iff nofun (hf.ne Owner.not_loose_table)
  · exact fun g D v => update_owner_iff nofun (hf.ne Owner.not_loose_user)
  · exact List.nodup_cons.mpr ⟨hnot, h.nodup⟩
  · intro g
    show g ∈ f :: m.free ↔ _
    by_cases hg : g = f
    · subst hg
      rw [Function.update_self]
      exact iff_of_true List.mem_cons_self rfl
    · rw [Function.update_of_ne hg, ← h.free, List.mem_cons]
      exact ⟨fun hm => hm.resolve_left hg, .inr⟩

/-! ### Entries after a word is written -/

/-- The word `i` of a directory is written. -/
theorem entry_setDir (hD : o D = .dir) (hD' : o D' = .dir) (hv : v < allPages)
    (hne : D' ≠ D ∨ v / nEntries ≠ i) :
    (m.setWord D i w).entry D' v = m.entry D' v := by
  have hpde : (m.setWord D i w).mem D' (v / nEntries) = m.mem D' (v / nEntries) := by
    by_cases e : D' = D
    · subst e
      exact Phys.setWord_ne_index (hne.resolve_left fun h => h rfl)
    · rw [Phys.setWord_ne e]
  by_cases hp : Present (m.mem D' (v / nEntries))
  · rw [Phys.entry_of_present (hpde.symm ▸ hp), Phys.entry_of_present hp, hpde,
      Phys.setWord_ne]
    intro e
    have := h.table_of hD' (div_nEntries_lt hv) hp
    rw [e, hD] at this
    cases this
  · rw [Phys.entry_of_not_present (hpde.symm ▸ hp), Phys.entry_of_not_present hp]

/-- The word `j` of the page table `t` is written. -/
theorem entry_setTable {t j : ℕ} (ht : o t = .table D i) (hD' : o D' = .dir)
    (hv : v < allPages) (hne : D' ≠ D ∨ v ≠ i * nEntries + j) :
    (m.setWord t j w).entry D' v = m.entry D' v := by
  have hdt : D' ≠ t := by
    rintro rfl
    rw [ht] at hD'
    cases hD'
  have hpde : (m.setWord t j w).mem D' (v / nEntries) = m.mem D' (v / nEntries) := by
    rw [Phys.setWord_ne hdt]
  by_cases hp : Present (m.mem D' (v / nEntries))
  · rw [Phys.entry_of_present (hpde.symm ▸ hp), Phys.entry_of_present hp, hpde]
    by_cases e : pteAddr (m.mem D' (v / nEntries)) = t
    · -- the same page table, so another word of it
      have htab := h.table_of hD' (div_nEntries_lt hv) hp
      rw [e, ht] at htab
      cases htab
      rw [e]
      apply Phys.setWord_ne_index
      intro hj
      apply hne.elim (fun h => h rfl)
      intro h
      apply h
      rw [← hj]
      exact (Nat.div_add_mod' v nEntries).symm
    · rw [Phys.setWord_ne e]
  · rw [Phys.entry_of_not_present (hpde.symm ▸ hp), Phys.entry_of_not_present hp]

theorem entry_setTable_self {t : ℕ} (ht : o t = .table D (v / nEntries)) :
    (m.setWord t (v % nEntries) w).entry D v = w := by
  obtain ⟨hD, _, hp, ha⟩ := h.table.mp ht
  have hdt : D ≠ t := by
    rintro rfl
    rw [ht] at hD
    cases hD
  have hpde : (m.setWord t (v % nEntries) w).mem D (v / nEntries) =
      m.mem D (v / nEntries) := by
    rw [Phys.setWord_ne hdt]
  rw [Phys.entry_of_present (hpde.symm ▸ hp), hpde, ha, Phys.setWord_self]

/-- The entry in a page table that is there. -/
theorem entry_eq {t : ℕ} (ht : o t = .table D (v / nEntries)) :
    m.entry D v = m.mem t (v % nEntries) := by
  obtain ⟨_, _, hp, ha⟩ := h.table.mp ht
  rw [Phys.entry_of_present hp, ha]

/-! ### Directories and tables -/

/-- A zeroed page becomes a directory. -/
theorem newDir (hf : (o f).Loose) (hz : m.mem f = fun _ => 0) :
    Acct m (Function.update o f .dir) := by
  have hzero (i : ℕ) : ¬ Present (m.mem f i) := by
    rw [hz]
    exact not_present_zero
  have hdir {D : ℕ} (hD : D ≠ f) : Function.update o f .dir D = .dir ↔ o D = .dir := by
    rw [Function.update_of_ne hD]
  refine ⟨h.pos, fun {g} hg => ?_, h.nodup, fun {g} => ?_, fun {g D i} => ?_,
    fun {g D v} => ?_⟩
  · apply h.range
    intro e
    rw [ne_eq, update_owner_iff (x := .dir) (y := .outside) nofun (hf.ne Owner.not_loose_outside)] at hg
    exact hg e
  · rw [update_owner_iff (x := .dir) (y := .free) nofun (hf.ne Owner.not_loose_free)]
    exact h.free
  · rw [update_owner_iff (x := .dir) (y := .table _ _) nofun (hf.ne Owner.not_loose_table)]
    by_cases hD : D = f
    · subst hD
      refine iff_of_false ?_ fun ⟨_, _, hp, _⟩ => hzero i hp
      intro e
      have := (h.table.mp e).1
      rw [this] at hf
      exact Owner.not_loose_dir hf
    · rw [hdir hD]
      exact h.table
  · rw [update_owner_iff (x := .dir) (y := .user _ _) nofun (hf.ne Owner.not_loose_user)]
    by_cases hD : D = f
    · subst hD
      refine iff_of_false ?_ fun ⟨_, _, hp, _⟩ => ?_
      · intro e
        have := (h.user.mp e).1
        rw [this] at hf
        exact Owner.not_loose_dir hf
      · rw [Phys.entry_of_not_present (hzero _)] at hp
        exact not_present_zero hp
    · rw [hdir hD]
      exact h.user

/-- A zeroed page becomes the page table of an empty entry of the directory; no entry
of a page changes. -/
theorem entry_newTable {perm : ℕ} (hD : o D = .dir) (hf : (o f).Loose)
    (hz : m.mem f = fun _ => 0) (hn : ¬ Present (m.mem D i)) (hperm : perm < pgSize)
    (hD' : o D' = .dir) (hv : v < allPages) :
    (m.setWord D i (mkPte f perm)).entry D' v = m.entry D' v := by
  by_cases hne : D' ≠ D ∨ v / nEntries ≠ i
  · exact h.entry_setDir hD hD' hv hne
  · obtain ⟨rfl, rfl⟩ : D' = D ∧ v / nEntries = i := by
      simpa only [not_or, not_not] using hne
    have hfD : f ≠ D' := by
      rintro rfl
      rw [hD] at hf
      exact Owner.not_loose_dir hf
    rw [Phys.entry_of_not_present hn, Phys.entry_of_present]
    · rw [Phys.setWord_self, pteAddr_mkPte hperm, Phys.setWord_ne hfD, hz]
    · rw [Phys.setWord_self]
      exact present_mkPte

theorem newTable {perm : ℕ} (hD : o D = .dir) (hi : i < nEntries) (hf : (o f).Loose)
    (hz : m.mem f = fun _ => 0) (hn : ¬ Present (m.mem D i)) (hperm : perm < pgSize) :
    Acct (m.setWord D i (mkPte f perm)) (Function.update o f (.table D i)) := by
  have hdir {D' : ℕ} : Function.update o f (.table D i) D' = .dir ↔ o D' = .dir :=
    update_owner_iff nofun (hf.ne Owner.not_loose_dir)
  refine ⟨h.pos, fun {g} hg => ?_, h.nodup, fun {g} => ?_, fun {g D' i'} => ?_,
    fun {g D' v} => ?_⟩
  · apply h.range
    intro e
    rw [ne_eq, update_owner_iff (x := .table D i) (y := .outside) nofun (hf.ne Owner.not_loose_outside)] at hg
    exact hg e
  · rw [update_owner_iff (x := .table D i) (y := .free) nofun (hf.ne Owner.not_loose_free)]
    exact h.free
  · rw [hdir]
    by_cases hne : D' = D ∧ i' = i
    · obtain ⟨rfl, rfl⟩ := hne
      rw [Phys.setWord_self, pteAddr_mkPte hperm]
      by_cases hg : g = f
      · subst hg
        rw [Function.update_self]
        exact iff_of_true rfl ⟨hD, hi, present_mkPte, rfl⟩
      · rw [Function.update_of_ne hg]
        refine iff_of_false (fun e => hn (h.table.mp e).2.2.1) fun ⟨_, _, _, e⟩ => ?_
        exact hg e.symm
    · have hw : (m.setWord D i (mkPte f perm)).mem D' i' = m.mem D' i' := by
        by_cases e : D' = D
        · subst e
          exact Phys.setWord_ne_index fun e => hne ⟨rfl, e⟩
        · rw [Phys.setWord_ne e]
      rw [hw, ← h.table]
      by_cases hg : g = f
      · subst hg
        rw [Function.update_self]
        refine iff_of_false ?_ (hf.ne Owner.not_loose_table)
        intro e
        cases e
        exact hne ⟨rfl, rfl⟩
      · rw [Function.update_of_ne hg]
  · rw [update_owner_iff (x := .table D i) (y := .user _ _) nofun (hf.ne Owner.not_loose_user), hdir, h.user]
    apply and_congr_right
    intro hD'
    apply and_congr_right
    intro hv
    rw [h.entry_newTable hD hf hz hn hperm hD' (lt_of_lt_of_le hv userPages_le)]

/-! ### Entries of pages -/

/-- The owners after a word of a page table is written, if the owners of user pages
follow the entry. -/
theorem setEntry {t j : ℕ} (ht : o t = .table D i)
    (hdir : ∀ g, o' g = .dir ↔ o g = .dir)
    (hr : ∀ g, o g = .outside → o' g = .outside)
    (hfree : ∀ g, o' g = .free ↔ o g = .free)
    (htab : ∀ g D i, o' g = .table D i ↔ o g = .table D i)
    (huser : ∀ g D' v, D' ≠ D ∨ v ≠ i * nEntries + j →
      (o' g = .user D' v ↔ o g = .user D' v))
    (hself : ∀ g, o' g = .user D (i * nEntries + j) ↔
      i * nEntries + j < userPages ∧ Present w ∧ pteAddr w = g)
    (hj : j < nEntries) : Acct (m.setWord t j w) o' := by
  have hD := (h.table.mp ht).1
  refine ⟨h.pos, fun {g} hg => h.range fun e => hg (hr g e), h.nodup, fun {g} => ?_,
    fun {g D' i'} => ?_, fun {g D' v} => ?_⟩
  · rw [hfree]
    exact h.free
  · rw [htab, h.table, hdir]
    apply and_congr_right
    intro hD'
    rw [Phys.setWord_ne]
    rintro rfl
    rw [ht] at hD'
    cases hD'
  · rw [hdir]
    by_cases hne : D' ≠ D ∨ v ≠ i * nEntries + j
    · rw [huser g D' v hne, h.user]
      apply and_congr_right
      intro hD'
      apply and_congr_right
      intro hv
      rw [h.entry_setTable ht hD' (lt_of_lt_of_le hv userPages_le) hne]
    · obtain ⟨rfl, rfl⟩ : D' = D ∧ v = i * nEntries + j := by
        simpa only [not_or, not_not] using hne
      have hdiv : (i * nEntries + j) / nEntries = i := by
        rw [Nat.mul_comm, Nat.mul_add_div (by decide), Nat.div_eq_of_lt hj, Nat.add_zero]
      have hmod : (i * nEntries + j) % nEntries = j := by
        rw [Nat.mul_comm, Nat.mul_add_mod, Nat.mod_eq_of_lt hj]
      have hent := h.entry_setTable_self (v := i * nEntries + j) (w := w) (hdiv.symm ▸ ht)
      rw [hmod] at hent
      rw [hself, hent]
      exact ⟨fun hw => ⟨hD, hw⟩, fun hw => hw.2⟩

/-- A page in the hands of a call becomes a user page. -/
theorem mapUser {t perm : ℕ} (ht : o t = .table D (v / nEntries)) (hf : (o f).Loose)
    (hv : v < userPages) (hn : ¬ Present (m.entry D v)) (hperm : perm < pgSize) :
    Acct (m.setWord t (v % nEntries) (mkPte f perm)) (Function.update o f (.user D v)) := by
  have hvv : v / nEntries * nEntries + v % nEntries = v := Nat.div_add_mod' v nEntries
  apply h.setEntry ht
  · exact fun g => update_owner_iff nofun (hf.ne Owner.not_loose_dir)
  · intro g hg
    rw [update_owner_iff (x := .user D v) (y := .outside) nofun
      (hf.ne Owner.not_loose_outside)]
    exact hg
  · exact fun g => update_owner_iff nofun (hf.ne Owner.not_loose_free)
  · exact fun g D i => update_owner_iff nofun (hf.ne Owner.not_loose_table)
  · rw [hvv]
    intro g D' v' hne
    apply update_owner_iff ?_ (hf.ne Owner.not_loose_user)
    intro e
    cases e
    exact hne.elim (fun h => h rfl) fun h => h rfl
  · rw [hvv]
    intro g
    rw [pteAddr_mkPte hperm]
    by_cases hg : g = f
    · subst hg
      rw [Function.update_self]
      exact iff_of_true rfl ⟨hv, present_mkPte, rfl⟩
    · rw [Function.update_of_ne hg]
      exact iff_of_false (fun e => hn (h.user.mp e).2.2.1) fun ⟨_, _, e⟩ => hg e.symm
  · exact Nat.mod_lt _ (by decide)

/-- A user page is unmapped. -/
theorem unmapUser {t : ℕ} {x : Owner} (ht : o t = .table D (v / nEntries))
    (hf : o f = .user D v) (hx : x.Loose) :
    Acct (m.setWord t (v % nEntries) 0) (Function.update o f x) := by
  have hvv : v / nEntries * nEntries + v % nEntries = v := Nat.div_add_mod' v nEntries
  apply h.setEntry ht
  · exact fun g => update_owner_iff (hx.ne Owner.not_loose_dir) (by rw [hf]; nofun)
  · exact fun g =>
      (update_owner_iff (hx.ne Owner.not_loose_outside) (by rw [hf]; nofun)).mpr
  · exact fun g => update_owner_iff (hx.ne Owner.not_loose_free) (by rw [hf]; nofun)
  · exact fun g D i => update_owner_iff (hx.ne Owner.not_loose_table) (by rw [hf]; nofun)
  · rw [hvv]
    intro g D' v' hne
    apply update_owner_iff (hx.ne Owner.not_loose_user)
    rw [hf]
    intro e
    cases e
    exact hne.elim (fun h => h rfl) fun h => h rfl
  · rw [hvv]
    intro g
    refine iff_of_false ?_ fun ⟨_, hp, _⟩ => not_present_zero hp
    by_cases hg : g = f
    · subst hg
      rw [Function.update_self]
      exact hx.ne Owner.not_loose_user
    · rw [Function.update_of_ne hg]
      intro e
      apply hg
      rw [← (h.user.mp e).2.2.2, ← (h.user.mp hf).2.2.2]
  · exact Nat.mod_lt _ (by decide)

/-- An entry of the kernel's half is written. -/
theorem kernelEntry {t : ℕ} (ht : o t = .table D (v / nEntries)) (hv : userPages ≤ v) :
    Acct (m.setWord t (v % nEntries) w) o := by
  have hvv : v / nEntries * nEntries + v % nEntries = v := Nat.div_add_mod' v nEntries
  apply h.setEntry ht (fun _ => Iff.rfl) (fun _ => id) (fun _ => Iff.rfl)
    (fun _ _ _ => Iff.rfl) (fun _ _ _ _ => Iff.rfl)
  · rw [hvv]
    intro g
    exact iff_of_false (fun e => absurd (h.user.mp e).2.1 (not_lt.mpr hv))
      fun e => absurd e.1 (not_lt.mpr hv)
  · exact Nat.mod_lt _ (by decide)

/-- The flags of an entry change. -/
theorem sameEntry {t : ℕ} (ht : o t = .table D (v / nEntries))
    (hp : Present w ↔ Present (m.entry D v)) (ha : pteAddr w = pteAddr (m.entry D v)) :
    Acct (m.setWord t (v % nEntries) w) o := by
  have hvv : v / nEntries * nEntries + v % nEntries = v := Nat.div_add_mod' v nEntries
  have hD := (h.table.mp ht).1
  apply h.setEntry ht (fun _ => Iff.rfl) (fun _ => id) (fun _ => Iff.rfl)
    (fun _ _ _ => Iff.rfl) (fun _ _ _ _ => Iff.rfl)
  · rw [hvv]
    intro g
    rw [h.user, hp, ha]
    exact ⟨fun e => e.2, fun e => ⟨hD, e⟩⟩
  · exact Nat.mod_lt _ (by decide)

/-- A directory without user pages and its page tables are given up; they are in the
hands of the call. -/
theorem dropDir (hD : o D = .dir) (hn : ∀ v < userPages, ¬ Present (m.entry D v))
    (hself : o' D = .held D) (htab : ∀ g i, o g = .table D i → o' g = .held D)
    (hrest : ∀ g, g ≠ D → (∀ i, o g ≠ .table D i) → o' g = o g) : Acct m o' := by
  have hcase (g : ℕ) : (g = D ∨ ∃ i, o g = .table D i) ∧ o' g = .held D ∨
      g ≠ D ∧ (∀ i, o g ≠ .table D i) ∧ o' g = o g := by
    by_cases hg : g = D
    · subst hg
      exact .inl ⟨.inl rfl, hself⟩
    · by_cases ht : ∃ i, o g = .table D i
      · obtain ⟨i, ht⟩ := ht
        exact .inl ⟨.inr ⟨i, ht⟩, htab g i ht⟩
      · rw [not_exists] at ht
        exact .inr ⟨hg, ht, hrest g hg ht⟩
  -- an owner that is neither the directory nor one of its tables keeps its pages
  have hkeep {x : Owner} (hx : x ≠ .dir) (hx' : ∀ i, x ≠ .table D i)
      (hx'' : x ≠ .held D) (g : ℕ) : o' g = x ↔ o g = x := by
    rcases hcase g with ⟨rfl | ⟨i, h1⟩, h2⟩ | ⟨_, _, h2⟩
    · rw [hD, h2]
      exact iff_of_false hx''.symm hx.symm
    · rw [h1, h2]
      exact iff_of_false hx''.symm (hx' i).symm
    · rw [h2]
  have hdir {D' : ℕ} : o' D' = .dir ↔ D' ≠ D ∧ o D' = .dir := by
    rcases hcase D' with ⟨rfl | ⟨i, h1⟩, h2⟩ | ⟨hne, _, h2⟩
    · rw [h2]
      exact iff_of_false nofun fun e => e.1 rfl
    · rw [h1, h2]
      exact iff_of_false nofun fun e => nomatch e.2
    · rw [h2]
      exact ⟨fun e => ⟨hne, e⟩, fun e => e.2⟩
  refine ⟨h.pos, fun {g} hg => h.range fun e => hg ?_, h.nodup, fun {g} => ?_,
    fun {g D' i} => ?_, fun {g D' v} => ?_⟩
  · exact (hkeep (x := .outside) nofun nofun nofun g).mpr e
  · rw [h.free, hkeep (x := .free) nofun nofun nofun]
  · by_cases hne : D' = D
    · subst hne
      refine iff_of_false ?_ fun e => (hdir.mp e.1).1 rfl
      rcases hcase g with ⟨_, h2⟩ | ⟨_, h1, h2⟩
      · rw [h2]
        nofun
      · rw [h2]
        exact h1 i
    · rw [hkeep (x := .table D' i) nofun (fun j e => hne (by cases e; rfl)) nofun, h.table,
        hdir]
      exact and_congr_left fun _ => ⟨fun e => ⟨hne, e⟩, fun e => e.2⟩
  · rw [hkeep (x := .user D' v) nofun nofun nofun, h.user, hdir]
    constructor
    · rintro ⟨h1, h2, h3, h4⟩
      refine ⟨⟨?_, h1⟩, h2, h3, h4⟩
      rintro rfl
      exact hn v h2 h3
    · rintro ⟨h1, h2⟩
      exact ⟨h1.2, h2⟩

end Acct

end Xv6.Vm
