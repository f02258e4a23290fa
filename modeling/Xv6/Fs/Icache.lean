import Xv6.Fs.Contents

/-!
# The inode cache

What `iget`, `idup`, `ilock`, `iunlock` and `iput` do to an entry of the cache.
-/

namespace Xv6.Inodes

open Xv6.Lib PanicM

variable {s s' : Fs} {i j : Slot} {n : ℕ} {β : ℕ → ℕ → UInt8} {E : Panic → Prop}

namespace Fs

/-- An entry of the cache is replaced. -/
def setEntry (s : Fs) (i : Slot) (ip : Inode) : Fs :=
  { s with icache := Function.update s.icache i ip }

def setRef (s : Fs) (i : Slot) (r : ℤ) : Fs := s.setEntry i { s.icache i with ref := r }

/-- An entry is taken for inode `n`. -/
def takeEntry (s : Fs) (i : Slot) (n : ℕ) : Fs :=
  s.setEntry i { s.icache i with inum := n, ref := 1, valid := false }

theorem setEntry_self (s : Fs) (i : Slot) (ip : Inode) : (s.setEntry i ip).icache i = ip :=
  Function.update_self ..

theorem setEntry_ne {ip : Inode} (h : j ≠ i) : (s.setEntry i ip).icache j = s.icache j :=
  Function.update_of_ne h ..

theorem setRef_ne {r : ℤ} (h : j ≠ i) : (s.setRef i r).icache j = s.icache j := setEntry_ne h

theorem takeEntry_ne (h : j ≠ i) : (s.takeEntry i n).icache j = s.icache j := setEntry_ne h

/-- An entry is replaced by one for the same inode. -/
theorem inum_setEntry {ip : Inode} (h : ip.inum = (s.icache i).inum) (j : Slot) :
    ((s.setEntry i ip).icache j).inum = (s.icache j).inum := by
  by_cases hj : j = i
  · rw [hj, setEntry_self, h]
  · rw [setEntry_ne hj]

theorem inum_setRef (s : Fs) (i : Slot) (r : ℤ) (j : Slot) :
    ((s.setRef i r).icache j).inum = (s.icache j).inum := by
  apply inum_setEntry
  rfl

end Fs

theorem iget_spec : wp (iget n) (fun i s' =>
    0 < (s.icache i).ref ∧ (s.icache i).inum = n ∧ s' = s.setRef i ((s.icache i).ref + 1) ∨
    (s.icache i).ref = 0 ∧ (∀ j, 0 < (s.icache j).ref → (s.icache j).inum ≠ n) ∧
      s' = s.takeEntry i n)
    (fun e => e = .igetNoInodes ∧ ∀ i, (s.icache i).ref ≠ 0) s := by
  apply wp_bind
  apply wp_get
  split
  · rename_i i hfind
    have hp := List.find?_some hfind
    obtain ⟨href, hinum⟩ := of_decide_eq_true hp
    apply wp_bind
    apply wp_setSlot
    exact wp_pure (.inl ⟨href, hinum, rfl⟩)
  · rename_i hnone
    have habsent : ∀ j, 0 < (s.icache j).ref → (s.icache j).inum ≠ n := by
      intro j hj hn
      exact List.find?_eq_none.mp hnone j (List.mem_finRange j) (decide_eq_true ⟨hj, hn⟩)
    split
    · rename_i i hfind
      have hp := List.find?_some hfind
      apply wp_bind
      apply wp_setSlot
      exact wp_pure (.inr ⟨of_decide_eq_true hp, habsent, rfl⟩)
    · rename_i hfull
      refine wp_throw ⟨rfl, fun i hi => ?_⟩
      exact List.find?_eq_none.mp hfull i (List.mem_finRange i) (decide_eq_true hi)

theorem idup_spec : wp (idup i) (fun j s' => j = i ∧ s' = s.setRef i ((s.icache i).ref + 1))
    E s := by
  apply wp_bind
  apply wp_slot
  apply wp_bind
  apply wp_setSlot
  exact wp_pure ⟨rfl, rfl⟩

/-- `ilock` waits for ever if the entry is locked, and reads the inode if need be. -/
theorem ilock_spec (hE : (s.icache i).ref < 1 → E .ilock)
    (hdead : (s.icache i).locked = true → E .deadlock)
    (htype : (s.icache i).valid = false → (s.dinode (s.icache i).inum).kind = .free →
      E .ilockNoType) :
    wp (ilock i) (fun _ s' => 1 ≤ (s.icache i).ref ∧ (s.icache i).locked = false ∧
      ((s.icache i).valid = true ∧ s' = s.setEntry i { s.icache i with locked := true } ∨
      (s.icache i).valid = false ∧ (s.dinode (s.icache i).inum).kind ≠ .free ∧
        s' = s.setEntry i { s.icache i with
          locked := true, valid := true, d := s.dinode (s.icache i).inum })) E s := by
  apply wp_bind
  apply wp_slot
  apply wp_ite
  · intro href
    exact wp_throw (hE href)
  · intro href
    apply wp_bind
    apply wp_bind
    apply wp_slot
    apply wp_ite
    · intro hl
      exact wp_throw (hdead hl)
    · intro hl
      apply wp_setSlot
      apply wp_bind
      apply wp_slot
      rw [Bool.not_eq_true] at hl
      simp only [Function.update_self]
      apply wp_ite
      · intro hv
        exact wp_pure ⟨by omega, hl, .inl ⟨hv, rfl⟩⟩
      · intro hv
        rw [Bool.not_eq_true] at hv
        apply wp_bind
        apply wp_get
        apply wp_bind
        apply wp_setSlot
        apply wp_ite
        · intro hk
          exact wp_throw (htype hv hk)
        · intro hk
          refine wp_pure ⟨by omega, hl, .inr ⟨hv, hk, ?_⟩⟩
          simp only [Fs.setEntry, Function.update_idem]

theorem iunlock_spec (hE : (s.icache i).locked = false ∨ (s.icache i).ref < 1 → E .iunlock) :
    wp (iunlock i) (fun _ s' => (s.icache i).locked = true ∧ 1 ≤ (s.icache i).ref ∧
      s' = s.setEntry i { s.icache i with locked := false }) E s := by
  apply wp_bind
  apply wp_slot
  apply wp_ite
  · intro h
    exact wp_throw (hE h)
  · intro h
    obtain ⟨hl, href⟩ := not_or.mp h
    apply wp_bind
    apply wp_slot
    apply wp_setSlot
    exact ⟨by simpa using hl, by omega, rfl⟩

/-- `iput` of a reference that is not the last one to an inode without links. -/
theorem iput_keep_spec (hl : (s.icache i).locked = false)
    (hk : ¬ ((s.icache i).valid = true ∧ (s.icache i).d.nlink = 0 ∧ (s.icache i).ref = 1)) :
    wp (iput i) (fun _ s' => s' = s.setRef i ((s.icache i).ref - 1)) E s := by
  have hend : ∀ {s₁}, s₁ = s.setEntry i { s.icache i with locked := true } →
      wp (do releasesleep i; let ip ← slot i; setSlot i { ip with ref := ip.ref - 1 })
        (fun _ s' => s' = s.setRef i ((s.icache i).ref - 1)) E s₁ := by
    rintro s₁ rfl
    apply wp_bind
    apply wp_bind
    apply wp_slot
    apply wp_setSlot
    apply wp_bind
    apply wp_slot
    apply wp_setSlot
    simp only [Fs.setEntry, Fs.setRef, Function.update_self, Function.update_idem, ← hl]
  apply wp_bind
  apply wp_bind
  apply wp_slot
  rw [if_neg (by rw [hl]; nofun)]
  apply wp_setSlot
  apply wp_bind
  apply wp_slot
  simp only [Function.update_self]
  apply wp_ite
  · rintro ⟨hv, hn⟩
    rw [if_neg fun href => hk ⟨hv, hn, href⟩]
    exact hend rfl
  · intro _
    exact hend rfl

end Xv6.Inodes
