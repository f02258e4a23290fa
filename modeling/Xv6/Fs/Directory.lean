import Xv6.Fs.ByteFile
import Xv6.Fs.Path

/-!
# Directories as lists of entries

A directory is a file of 16-byte entries. The loops of `dirlookup`, `dirlink` and
`isdirempty` only read it; their rules say what they find, in terms of its bytes. An
entry is replaced by one `writei`.
-/

namespace Xv6.Inodes

open Xv6.Lib PanicM

variable {s s' : Fs} {dp : Slot} {l de name : List UInt8} {e e' n inum fuel : ℕ}
  {E : Panic → Prop}

/-! ## §1  Entries -/

/-- Entry `e` of a directory with the bytes `l`. -/
def entryAt (l : List UInt8) (e : ℕ) : List UInt8 := (l.drop (direntSize * e)).take direntSize

def entries (l : List UInt8) : ℕ := l.length / direntSize

def inumAt (l : List UInt8) (e : ℕ) : ℕ := direntInum (entryAt l e)

def nameAt (l : List UInt8) (e : ℕ) : List UInt8 := direntName (entryAt l e)

/-- `dirlookup` finds this entry. -/
def Matches (l name : List UInt8) (e : ℕ) : Prop :=
  inumAt l e ≠ 0 ∧ sameName name (nameAt l e) = true

instance (l name : List UInt8) (e : ℕ) : Decidable (Matches l name e) :=
  inferInstanceAs (Decidable (_ ∧ _))

/-- The directory with entry `e` replaced. -/
def setEntry (l : List UInt8) (e : ℕ) (de : List UInt8) : List UInt8 :=
  patch l (direntSize * e) de

theorem length_entryAt (he : e < entries l) : (entryAt l e).length = direntSize := by
  unfold entries direntSize at he
  rw [entryAt, List.length_take, List.length_drop, direntSize]
  omega

theorem length_dirent (inum : ℕ) (name : List UInt8) :
    (dirent inum name).length = direntSize := by
  simp only [dirent, List.length_cons, List.length_append, List.length_take,
    List.length_replicate, dirsiz, direntSize]
  omega

theorem inumAt_of_le (h : entries l ≤ e) (hl : direntSize ∣ l.length) : inumAt l e = 0 := by
  have hnil : l.drop (direntSize * e) = [] := by
    apply List.drop_eq_nil_of_le
    obtain ⟨c, hc⟩ := hl
    unfold entries direntSize at *
    omega
  rw [inumAt, entryAt, hnil]
  rfl

theorem direntInum_dirent_mod (inum : ℕ) (name : List UInt8) :
    direntInum (dirent inum name) = inum % 65536 := by
  simp [direntInum, dirent]
  omega

/-- An entry of the bytes of an inode number, and a name. -/
theorem direntInum_dirent (h : inum < 65536) (name : List UInt8) :
    direntInum (dirent inum name) = inum := by
  rw [direntInum_dirent_mod, Nat.mod_eq_of_lt h]

theorem direntInum_zero : direntInum (List.replicate direntSize 0) = 0 := by
  decide

/-- What is left of a name in an entry. -/
theorem direntName_dirent (h : 0 ∉ name) (inum : ℕ) :
    direntName (dirent inum name) = name.take dirsiz := by
  have htake : (name.take dirsiz ++ List.replicate (dirsiz - name.length) (0 : UInt8)).take
      dirsiz = name.take dirsiz ++ List.replicate (dirsiz - name.length) 0 := by
    apply List.take_of_length_le
    simp only [List.length_append, List.length_take, List.length_replicate]
    omega
  have hne : ∀ c ∈ name.take dirsiz, (c != 0) = true := by
    intro c hc
    rw [bne_iff_ne]
    rintro rfl
    exact h (List.mem_of_mem_take hc)
  show ((name.take dirsiz ++ List.replicate (dirsiz - name.length) 0).take dirsiz).takeWhile _ = _
  rw [htake, List.takeWhile_append_of_pos hne]
  cases dirsiz - name.length with
  | zero => exact List.append_nil _
  | succ k => exact List.append_nil _

theorem length_direntName_le (de : List UInt8) : (direntName de).length ≤ dirsiz :=
  Nat.le_trans (List.takeWhile_sublist _).length_le (List.length_take_le ..)

/-- `namecmp` compares a name with the one of an entry. -/
theorem sameName_direntName (name de : List UInt8) :
    sameName name (direntName de) = true ↔ name.take dirsiz = direntName de := by
  rw [sameName, beq_iff_eq, List.take_of_length_le (length_direntName_le de)]

section SetEntry

variable (hde : de.length = direntSize) (he : e ≤ entries l)

include he in
theorem mul_le_length : direntSize * e ≤ l.length := by
  unfold entries direntSize at *
  omega

include hde he in
theorem entryAt_setEntry_self : entryAt (setEntry l e de) e = de := by
  have hle := mul_le_length he
  apply List.ext_getElem?
  intro x
  rw [entryAt, List.getElem?_take]
  split_ifs with hx
  · rw [List.getElem?_drop, setEntry, getElem?_patch hle, if_neg (by omega), if_pos (by omega),
      Nat.add_sub_cancel_left]
  · rw [List.getElem?_eq_none (by omega)]

include hde he in
theorem entryAt_setEntry_ne (hne : e' ≠ e) : entryAt (setEntry l e de) e' = entryAt l e' := by
  have hle := mul_le_length he
  unfold direntSize at hle hde
  apply List.ext_getElem?
  intro x
  rw [entryAt, entryAt, List.getElem?_take, List.getElem?_take]
  split_ifs with hx
  · unfold direntSize at hx ⊢
    rw [List.getElem?_drop, List.getElem?_drop, setEntry, direntSize, getElem?_patch hle]
    split_ifs with h₁ h₂
    · rfl
    · omega
    · rfl
  · rfl

include hde he in
theorem length_setEntry :
    (setEntry l e de).length = max l.length (direntSize * e + direntSize) := by
  rw [setEntry, length_patch (mul_le_length he), hde]

include hde he in
theorem entries_setEntry (hl : direntSize ∣ l.length) :
    entries (setEntry l e de) = max (entries l) (e + 1) ∧
      direntSize ∣ (setEntry l e de).length := by
  have hlen := length_setEntry hde he
  obtain ⟨c, hc⟩ := hl
  rw [entries, hlen]
  unfold entries direntSize at *
  omega

end SetEntry

/-! ## §2  The loops -/

/-- Entry `dp` of the cache is a directory with the bytes `l`, all of which are there. -/
structure Listing (dp : Slot) (l : List UInt8) (s : Fs) : Prop where
  noHoles : NoHoles (s.icache dp).d s.block
  kind : (s.icache dp).d.kind = .dir
  bytes : contents (s.icache dp).d s.block = l
  whole : direntSize ∣ l.length

namespace Listing

theorem length (h : Listing dp l s) : (s.icache dp).d.size = l.length := by
  rw [← h.bytes, contents, List.length_map, List.length_range]

theorem size (h : Listing dp l s) : (s.icache dp).d.size = direntSize * entries l := by
  rw [h.length, entries, Nat.mul_div_cancel' h.whole]

theorem readi_entry (h : Listing dp l s) (he : e < entries l) :
    wp (readi dp (direntSize * e) direntSize) (fun r s' => s' = s ∧ r = some (entryAt l e))
      E s := by
  have hsize := h.size
  have hmax := h.noHoles.size_le
  have hle : direntSize * e + direntSize ≤ (s.icache dp).d.size := by
    rw [hsize, ← Nat.mul_succ]
    exact Nat.mul_le_mul_left _ he
  have hnot : ¬ ((s.icache dp).d.size < direntSize * e ∨
      uintSize ≤ direntSize * e + direntSize) := by
    simp only [maxfile, bsize, ndirect, nindirect] at hmax
    simp only [uintSize]
    omega
  have hdev : (s.icache dp).d.kind ≠ .dev := by
    rw [h.kind]
    simp
  refine wp_mono (h.noHoles.readi_spec hdev (by decide)) ?_ fun _ => id
  rintro r _ ⟨rfl, rfl⟩
  refine ⟨rfl, ?_⟩
  rw [if_neg hnot, h.bytes, entryAt]

/-- One round of the loops: the end of the directory, or one of its entries. -/
theorem wp_entry {α : Type} {x : α} {f : List UInt8 → M α} {err : Panic} {Q : α → Fs → Prop}
    (h : Listing dp l s) (hend : entries l ≤ e → Q x s)
    (hentry : e < entries l → wp (f (entryAt l e)) Q E s) :
    wp (do
      if (← slot dp).d.size ≤ direntSize * e then return x
      let some de ← readi dp (direntSize * e) direntSize | throw err
      if de.length ≠ direntSize then throw err
      f de) Q E s := by
  apply wp_bind
  apply wp_slot
  rw [h.size]
  apply wp_ite
  · intro hle
    exact wp_pure (hend (Nat.le_of_mul_le_mul_left hle (by decide)))
  · intro hlt
    have he : e < entries l := by
      by_contra hge
      exact hlt (Nat.mul_le_mul_left _ (Nat.le_of_not_lt hge))
    apply wp_call (h.readi_entry he)
    rintro _ _ ⟨rfl, rfl⟩
    dsimp only
    rw [if_neg (not_not.mpr (length_entryAt he))]
    exact hentry he

/-- `dirlookup` gets the inode of the first entry that matches. -/
theorem dirlookupLoop_rule {Q : Option (Slot × ℕ) → Fs → Prop} (h : Listing dp l s)
    (hf : entries l < e + fuel) (hbefore : ∀ e', e' < e → ¬ Matches l name e')
    (hnone : (∀ e', e' < entries l → ¬ Matches l name e') → Q none s)
    (hsome : ∀ e', e' < entries l → Matches l name e' →
      (∀ e'', e'' < e' → ¬ Matches l name e'') →
      wp (iget (inumAt l e')) (fun ip s' => Q (some (ip, direntSize * e')) s') E s) :
    wp (dirlookupLoop dp name fuel (direntSize * e)) Q E s := by
  induction fuel generalizing e with
  | zero => exact wp_pure (hnone fun e' he' => hbefore e' (by omega))
  | succ fuel ih =>
      apply h.wp_entry
      · intro hle
        exact hnone fun e' he' => hbefore e' (by omega)
      · intro he
        apply wp_ite
        · intro hm
          apply wp_bind
          refine wp_mono (hsome e he hm hbefore) ?_ fun _ => id
          intro ip s' hq
          exact wp_pure hq
        · intro hm
          rw [← Nat.mul_succ]
          apply ih (by omega)
          intro e' he'
          rcases Nat.lt_succ_iff_lt_or_eq.mp he' with hlt | rfl
          · exact hbefore e' hlt
          · exact hm

theorem dirlookup_rule {Q : Option (Slot × ℕ) → Fs → Prop} (h : Listing dp l s)
    (hnone : (∀ e, e < entries l → ¬ Matches l name e) → Q none s)
    (hsome : ∀ e, e < entries l → Matches l name e → (∀ e', e' < e → ¬ Matches l name e') →
      wp (iget (inumAt l e)) (fun ip s' => Q (some (ip, direntSize * e)) s') E s) :
    wp (dirlookup dp name) Q E s := by
  apply wp_bind
  apply wp_slot
  rw [if_neg (not_not.mpr h.kind)]
  refine h.dirlookupLoop_rule (e := 0) ?_ nofun hnone hsome
  rw [h.length, entries]
  have := Nat.div_le_self l.length direntSize
  omega

/-- `dirlink` looks for an entry that is free, or the end. -/
theorem dirlinkLoop_rule {Q : ℕ → Fs → Prop} (h : Listing dp l s) (hf : entries l < e + fuel)
    (he : e ≤ entries l)
    (hfound : ∀ e', e' ≤ entries l → inumAt l e' = 0 → Q (direntSize * e') s) :
    wp (dirlinkLoop dp fuel (direntSize * e)) Q E s := by
  induction fuel generalizing e with
  | zero => omega
  | succ fuel ih =>
      apply h.wp_entry
      · intro hle
        exact hfound e he (inumAt_of_le hle h.whole)
      · intro he
        apply wp_ite
        · intro h0
          exact wp_pure (hfound e (Nat.le_of_lt he) h0)
        · intro _
          rw [← Nat.mul_succ]
          exact ih (by omega) he

/-- `isdirempty` looks at all entries but the first two. -/
theorem isdiremptyLoop_rule {Q : Bool → Fs → Prop} (h : Listing dp l s)
    (hf : entries l < e + fuel) (hbefore : ∀ e', 2 ≤ e' → e' < e → inumAt l e' = 0)
    (hempty : (∀ e', 2 ≤ e' → e' < entries l → inumAt l e' = 0) → Q true s)
    (hfull : (∃ e', 2 ≤ e' ∧ e' < entries l ∧ inumAt l e' ≠ 0) → Q false s) (h2 : 2 ≤ e) :
    wp (isdiremptyLoop dp fuel (direntSize * e)) Q E s := by
  induction fuel generalizing e with
  | zero => exact wp_pure (hempty fun e' h2 he' => hbefore e' h2 (by omega))
  | succ fuel ih =>
      apply h.wp_entry
      · intro hle
        exact hempty fun e' h2 he' => hbefore e' h2 (by omega)
      · intro he
        apply wp_ite
        · intro h0
          exact wp_pure (hfull ⟨e, h2, he, h0⟩)
        · intro h0
          rw [← Nat.mul_succ]
          apply ih (by omega) _ (by omega)
          intro e' h2' he'
          rcases Nat.lt_succ_iff_lt_or_eq.mp he' with hlt | rfl
          · exact hbefore e' h2' hlt
          · exact not_not.mp h0

end Listing

/-- Entry `dp` of the cache is a directory with the bytes `l`. -/
structure IsDir (dp : Slot) (l : List UInt8) (s : Fs) : Prop where
  clean : ∃ β, Clean β dp s
  kind : (s.icache dp).d.kind = .dir
  bytes : contents (s.icache dp).d s.block = l
  whole : direntSize ∣ l.length

namespace IsDir

theorem listing (h : IsDir dp l s) : Listing dp l s :=
  have ⟨_, hc⟩ := h.clean
  ⟨hc.noHoles, h.kind, h.bytes, h.whole⟩

theorem length (h : IsDir dp l s) : (s.icache dp).d.size = l.length := h.listing.length

theorem size (h : IsDir dp l s) : (s.icache dp).d.size = direntSize * entries l :=
  h.listing.size

theorem notDev (h : IsDir dp l s) : (s.icache dp).d.kind ≠ .dev := by
  rw [h.kind]
  nofun

/-! ## §3  An entry is written -/

/-- `writei` of an entry, at the place of another or at the end. -/
theorem writei_entry {β : ℕ → ℕ → UInt8} (h : IsDir dp l s) (hc : Clean β dp s)
    (hde : de.length = direntSize) (he : e ≤ entries l) :
    wp (writei dp de (direntSize * e)) (fun r s' =>
      maxfile * bsize < direntSize * e + direntSize ∧ r = -1 ∧ s' = s ∨
      r = direntSize ∧ Wrote dp (direntSize * e) de β s s' ∧ IsDir dp (setEntry l e de) s')
      (fun x => x = .outOfBlocks ∧
        s.nfree + blocksFor l.length < blocksFor (setEntry l e de).length) s := by
  have hle : direntSize * e ≤ (s.icache dp).d.size := h.length ▸ mul_le_length he
  have hbytes := h.bytes
  rw [contents, hc.dirty.bytes] at hbytes
  apply wp_mono (writei_spec hc h.notDev (hde ▸ by decide))
  · rintro r s' (⟨hno | hno, rfl, rfl⟩ | ⟨_, rfl, hw⟩)
    · omega
    · rw [hde] at hno
      exact .inl ⟨hno, rfl, rfl⟩
    · refine .inr ⟨by rw [hde], hw, ⟨_, hw.clean⟩, ?_, ?_, (entries_setEntry hde he h.whole).2⟩
      · obtain ⟨a, hst⟩ := hw.stored
        rw [hst.icache, Function.update_self]
        exact h.kind
      · obtain ⟨a, hst⟩ := hw.stored
        rw [contents, hw.clean.dirty.bytes, hst.icache, Function.update_self,
          Function.update_self]
        show (List.range (max (s.icache dp).d.size _)).map _ = _
        rw [map_range_patchAt hle, hbytes]
        rfl
  · rintro x ⟨hx, _, hlt⟩
    refine ⟨hx, ?_⟩
    rw [length_setEntry hde he]
    rw [h.length, hde] at hlt
    exact hlt

end IsDir

end Xv6.Inodes
