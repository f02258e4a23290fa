import Xv6.Fs.Directory
import Xv6.Fs.Icache

/-!
# Directories as finite maps

The entries of a directory as a map from names, cut to 14 bytes, to inode numbers.
`dirlink` and the removal of an entry by `sys_unlink` are the updates of the map. The
caller has the directory locked: `dirlink` of a name whose entry is one for the
directory itself, such as `.`, waits for that lock in `iput`, and does not return.
-/

namespace Xv6.Inodes

open Xv6.Lib PanicM

variable {s s' : Fs} {dp i j : Slot} {l name de : List UInt8} {e e' n inum : ℕ}
  {m : List UInt8 → Option ℕ}

/-! ## §1  The map -/

/-- What `namecmp` looks at of a name. -/
def key (name : List UInt8) : List UInt8 := name.take dirsiz

/-- The entries `l` are the map `m`, and no name is there twice. -/
structure Maps (l : List UInt8) (m : List UInt8 → Option ℕ) : Prop where
  unique : ∀ e e', inumAt l e ≠ 0 → inumAt l e' ≠ 0 → nameAt l e = nameAt l e' → e = e'
  iff : ∀ k n, m k = some n ↔ ∃ e, inumAt l e = n ∧ n ≠ 0 ∧ nameAt l e = k

namespace Maps

theorem eq_some (h : Maps l m) (hm : Matches l name e) : m (key name) = some (inumAt l e) :=
  (h.iff _ _).mpr ⟨e, rfl, hm.1, ((sameName_direntName _ _).mp hm.2).symm⟩

theorem eq_none (h : Maps l m) (hl : direntSize ∣ l.length)
    (hno : ∀ e, e < entries l → ¬ Matches l name e) : m (key name) = none := by
  cases hk : m (key name) with
  | none => rfl
  | some n =>
      obtain ⟨e, rfl, h0, hname⟩ := (h.iff _ _).mp hk
      have he : e < entries l := by
        by_contra hge
        exact h0 (inumAt_of_le (Nat.le_of_not_lt hge) hl)
      exact absurd ⟨h0, (sameName_direntName _ _).mpr hname.symm⟩ (hno e he)

/-- A free entry gets a name that is not there. -/
theorem link (h : Maps l m) (he : e ≤ entries l) (h0 : inumAt l e = 0)
    (hk : m (key name) = none) (hname : 0 ∉ name) (hpos : inum ≠ 0) (hlt : inum < 65536) :
    Maps (setEntry l e (dirent inum name)) (Function.update m (key name) (some inum)) := by
  have hde := length_dirent inum name
  have hself : inumAt (setEntry l e (dirent inum name)) e = inum := by
    rw [inumAt, entryAt_setEntry_self hde he, direntInum_dirent hlt]
  have hkey : nameAt (setEntry l e (dirent inum name)) e = key name := by
    rw [nameAt, entryAt_setEntry_self hde he, direntName_dirent hname, key]
  have hne : ∀ e', e' ≠ e → inumAt (setEntry l e (dirent inum name)) e' = inumAt l e' ∧
      nameAt (setEntry l e (dirent inum name)) e' = nameAt l e' := by
    intro e' he'
    rw [inumAt, nameAt, entryAt_setEntry_ne hde he he']
    exact ⟨rfl, rfl⟩
  -- no other entry has the name
  have hfresh : ∀ e', inumAt l e' ≠ 0 → nameAt l e' ≠ key name := by
    intro e' h0' hn
    rw [(h.iff _ _).mpr ⟨e', rfl, h0', hn⟩] at hk
    cases hk
  constructor
  · intro e₁ e₂ h₁ h₂ hn
    by_cases he₁ : e₁ = e <;> by_cases he₂ : e₂ = e
    · rw [he₁, he₂]
    · rw [he₁, hkey, (hne e₂ he₂).2] at hn
      rw [(hne e₂ he₂).1] at h₂
      exact absurd hn.symm (hfresh e₂ h₂)
    · rw [he₂, hkey, (hne e₁ he₁).2] at hn
      rw [(hne e₁ he₁).1] at h₁
      exact absurd hn (hfresh e₁ h₁)
    · rw [(hne e₁ he₁).1] at h₁
      rw [(hne e₂ he₂).1] at h₂
      rw [(hne e₁ he₁).2, (hne e₂ he₂).2] at hn
      exact h.unique e₁ e₂ h₁ h₂ hn
  · intro k n
    by_cases hkk : k = key name
    · subst hkk
      rw [Function.update_self]
      constructor
      · intro hn
        obtain rfl := Option.some.inj hn
        exact ⟨e, hself, hpos, hkey⟩
      · rintro ⟨e', hi, hn0, hn⟩
        by_cases he' : e' = e
        · rw [he', hself] at hi
          rw [hi]
        · rw [(hne e' he').1] at hi
          rw [(hne e' he').2] at hn
          exact absurd hn (hfresh e' (hi ▸ hn0))
    · rw [Function.update_of_ne hkk, h.iff]
      constructor
      · rintro ⟨e', hi, hn0, hn⟩
        have he' : e' ≠ e := by
          rintro rfl
          exact hn0 (hi ▸ h0)
        exact ⟨e', (hne e' he').1.trans hi, hn0, (hne e' he').2.trans hn⟩
      · rintro ⟨e', hi, hn0, hn⟩
        have he' : e' ≠ e := by
          rintro rfl
          exact hkk (hn.symm.trans hkey)
        exact ⟨e', (hne e' he').1.symm.trans hi, hn0, (hne e' he').2.symm.trans hn⟩

/-- An entry is cleared. -/
theorem remove (h : Maps l m) (he : e ≤ entries l) (h0 : inumAt l e ≠ 0) :
    Maps (setEntry l e (List.replicate direntSize 0))
      (Function.update m (nameAt l e) none) := by
  have hde : (List.replicate direntSize (0 : UInt8)).length = direntSize :=
    List.length_replicate
  have hself : inumAt (setEntry l e (List.replicate direntSize 0)) e = 0 := by
    rw [inumAt, entryAt_setEntry_self hde he, direntInum_zero]
  have hne : ∀ e', e' ≠ e →
      inumAt (setEntry l e (List.replicate direntSize 0)) e' = inumAt l e' ∧
      nameAt (setEntry l e (List.replicate direntSize 0)) e' = nameAt l e' := by
    intro e' he'
    rw [inumAt, nameAt, entryAt_setEntry_ne hde he he']
    exact ⟨rfl, rfl⟩
  have hold : ∀ e', inumAt (setEntry l e (List.replicate direntSize 0)) e' ≠ 0 → e' ≠ e := by
    rintro e' hi rfl
    exact hi hself
  constructor
  · intro e₁ e₂ h₁ h₂ hn
    have he₁ := hold e₁ h₁
    have he₂ := hold e₂ h₂
    rw [(hne e₁ he₁).1] at h₁
    rw [(hne e₂ he₂).1] at h₂
    rw [(hne e₁ he₁).2, (hne e₂ he₂).2] at hn
    exact h.unique e₁ e₂ h₁ h₂ hn
  · intro k n
    by_cases hkk : k = nameAt l e
    · subst hkk
      rw [Function.update_self]
      constructor
      · simp
      · rintro ⟨e', rfl, hn0, hn⟩
        have he' := hold e' hn0
        rw [(hne e' he').1] at hn0
        rw [(hne e' he').2] at hn
        exact absurd (h.unique e' e hn0 h0 hn) he'
    · rw [Function.update_of_ne hkk, h.iff]
      constructor
      · rintro ⟨e', hi, hn0, hn⟩
        have he' : e' ≠ e := by
          rintro rfl
          exact hkk hn.symm
        exact ⟨e', (hne e' he').1.trans hi, hn0, (hne e' he').2.trans hn⟩
      · rintro ⟨e', rfl, hn0, hn⟩
        have he' := hold e' hn0
        exact ⟨e', (hne e' he').1.symm, hn0, (hne e' he').2.symm.trans hn⟩

end Maps

/-! ## §2  The operations -/

/-- The lines of `sys_unlink` about the directory `dp`: a removal that takes place. What it
checks and changes of the inode is left out. -/
def removeEntry (dp : Slot) (name : List UInt8) : M ℤ := do
  if sameName name dot || sameName name dotdot then return -1
  let some (ip, off) ← dirlookup dp name | return -1
  clearEntry dp off
  iput ip
  return 0

inductive DirOp where
  | link (name : List UInt8) (inum : ℕ)
  | remove (name : List UInt8)
deriving DecidableEq, Repr

namespace DirOp

/-- A name is a string, and an inode number fits into an entry. -/
def Ok : DirOp → Prop
  | link name inum => 0 ∉ name ∧ inum ≠ 0 ∧ inum < 65536
  | remove name => 0 ∉ name

instance : DecidablePred Ok
  | .link .. => inferInstanceAs (Decidable (_ ∧ _))
  | .remove _ => inferInstanceAs (Decidable (¬ _))

def named : DirOp → List UInt8
  | link name _ | remove name => name

def run (dp : Slot) : DirOp → M ℤ
  | link name inum => dirlink dp name inum
  | remove name => removeEntry dp name

/-- `sys_unlink` refuses to remove `.` and `..`. -/
def isDots (name : List UInt8) : Bool := sameName name dot || sameName name dotdot

/-- The operation, on a map. -/
def apply (m : List UInt8 → Option ℕ) : DirOp → List UInt8 → Option ℕ
  | link name inum => if (m (key name)).isSome then m else Function.update m (key name) (some inum)
  | remove name => if isDots name then m else Function.update m (key name) none

def reply (m : List UInt8 → Option ℕ) : DirOp → ℤ
  | link name _ => if (m (key name)).isSome then -1 else 0
  | remove name => if isDots name || (m (key name)).isNone then -1 else 0

/-- The entry that the operation finds is not one for the directory `n` itself. -/
def NotSelf (n : ℕ) (m : List UInt8 → Option ℕ) : DirOp → Prop
  | link name _ => m (key name) ≠ some n
  | remove name => m (key name) ≠ some n

instance (n : ℕ) (m : List UInt8 → Option ℕ) : DecidablePred (NotSelf n m)
  | .link .. => inferInstanceAs (Decidable (_ ≠ _))
  | .remove _ => inferInstanceAs (Decidable (_ ≠ _))

end DirOp

/-- The caller has inode `n`, a directory with the bytes `l`, locked in entry `dp`, and
nothing else. -/
structure OpenDir (dp : Slot) (n : ℕ) (l : List UInt8) (s : Fs) : Prop extends IsDir dp l s where
  inum : (s.icache dp).inum = n
  ref : 0 < (s.icache dp).ref
  locks : ∀ j, j ≠ dp → (s.icache j).locked = false
  unique : ∀ j, 0 < (s.icache j).ref → (s.icache j).inum = n → j = dp

/-- Blocks and room in the directory for `k` more entries, and an entry of the cache. -/
def Room (dp : Slot) (k : ℕ) (s : Fs) : Prop :=
  2 * k ≤ s.nfree ∧ (∃ j, (s.icache j).ref = 0) ∧
  (s.icache dp).d.size + direntSize * k ≤ maxfile * bsize

/-- The panics for want of room. -/
def Exhausted (x : Panic) : Prop := x = .outOfBlocks ∨ x = .igetNoInodes ∨ x = .dirlink

/-- Nothing on the disk, and nothing of the directory, is changed. -/
structure SameDisk (dp : Slot) (s s' : Fs) : Prop where
  sb : s'.sb = s.sb
  bit : s'.bit = s.bit
  dinode : s'.dinode = s.dinode
  block : s'.block = s.block
  allocs : s'.allocs = s.allocs
  entry : s'.icache dp = s.icache dp

theorem SameDisk.isDir (hs : SameDisk dp s s') (h : IsDir dp l s) : IsDir dp l s' := by
  obtain ⟨β, hc⟩ := h.clean
  refine ⟨⟨β, ⟨⟨?_, ?_, ?_⟩, ?_, ?_, ?_⟩⟩, ?_, ?_, h.whole⟩
  · rw [hs.sb]
    exact hc.sb
  · rw [hs.sb, hs.dinode, hs.block, hs.bit]
    exact hc.blocks
  · rw [hs.sb, hs.allocs]
    exact hc.allocs
  · rw [hs.sb, hs.entry]
    exact hc.inum
  · rw [hs.entry]
    exact hc.kind
  · rw [hs.entry, hs.dinode]
    exact hc.same
  · rw [hs.entry]
    exact h.kind
  · rw [hs.entry, hs.block]
    exact h.bytes

/-- Another entry of the cache is replaced. -/
theorem SameDisk.setEntry (hi : i ≠ dp) (ip : Inode) : SameDisk dp s (s.setEntry i ip) :=
  ⟨rfl, rfl, rfl, rfl, rfl, Function.update_of_ne hi.symm ..⟩

namespace OpenDir

/-- Another entry of the cache, which is not locked and not one for the directory. -/
theorem setOther (h : OpenDir dp n l s) (hi : i ≠ dp) {ip : Inode} (hl : ip.locked = false)
    (hn : 0 < ip.ref → ip.inum ≠ n) : OpenDir dp n l (s.setEntry i ip) := by
  have hs := SameDisk.setEntry (s := s) hi ip
  refine ⟨hs.isDir h.toIsDir, ?_, ?_, ?_, ?_⟩
  · rw [hs.entry]
    exact h.inum
  · rw [hs.entry]
    exact h.ref
  · intro j hj
    by_cases e : j = i
    · rw [e]
      show (Function.update s.icache i ip i).locked = false
      rw [Function.update_self]
      exact hl
    · show (Function.update s.icache i ip j).locked = false
      rw [Function.update_of_ne e]
      exact h.locks j hj
  · intro j hr hj
    by_cases e : j = i
    · rw [e] at hr hj
      change 0 < (Function.update s.icache i ip i).ref at hr
      change (Function.update s.icache i ip i).inum = n at hj
      rw [Function.update_self] at hr hj
      exact absurd hj (hn hr)
    · change 0 < (Function.update s.icache i ip j).ref at hr
      change (Function.update s.icache i ip j).inum = n at hj
      rw [Function.update_of_ne e] at hr hj
      exact h.unique j hr hj

/-- The directory is written. -/
theorem stored {d : Dinode} {l' : List UInt8} (h : OpenDir dp n l s) (hst : Stored dp d s s')
    (hd : IsDir dp l' s') : OpenDir dp n l' s' := by
  refine ⟨hd, ?_, ?_, ?_, ?_⟩
  · rw [hst.icache, Function.update_self]
    exact h.inum
  · rw [hst.icache, Function.update_self]
    exact h.ref
  · intro j hj
    rw [hst.icache, Function.update_of_ne hj]
    exact h.locks j hj
  · intro j hr hj
    by_contra hne
    rw [hst.icache, Function.update_of_ne hne] at hr hj
    exact hne (h.unique j hr hj)

end OpenDir

/-- What is known of an entry that `dirlookup` has returned: it can be given up without any
effect. -/
structure Held (dp i : Slot) (n : ℕ) (s : Fs) : Prop where
  ne : i ≠ dp
  last : ¬ ((s.icache i).valid = true ∧ (s.icache i).d.nlink = 0 ∧ (s.icache i).ref = 1)
  other : 0 < (s.icache i).ref - 1 → (s.icache i).inum ≠ n

theorem Held.stored {d : Dinode} (hi : Held dp i n s) (hst : Stored dp d s s') :
    Held dp i n s' := by
  have hent : s'.icache i = s.icache i := by
    rw [hst.icache, Function.update_of_ne hi.ne]
  exact ⟨hi.ne, hent ▸ hi.last, hent ▸ hi.other⟩

namespace OpenDir

theorem iget_spec (h : OpenDir dp n l s) (hne : inum ≠ n) :
    wp (iget inum) (fun i s' => OpenDir dp n l s' ∧ Held dp i n s' ∧ SameDisk dp s s' ∧
        (s'.icache i).inum = inum ∧ (s'.icache i).ref = (s.icache i).ref + 1 ∧
        ∀ j, j ≠ i → s'.icache j = s.icache j)
      (fun x => x = .igetNoInodes ∧ ∀ i, (s.icache i).ref ≠ 0) s := by
  refine wp_mono Inodes.iget_spec ?_ fun _ => id
  rintro i s' (⟨href, hinum, rfl⟩ | ⟨href, _, rfl⟩)
  · have hi : i ≠ dp := by
      rintro rfl
      exact hne (hinum.symm.trans h.inum)
    have hent : (s.setRef i ((s.icache i).ref + 1)).icache i =
        { s.icache i with ref := (s.icache i).ref + 1 } := Function.update_self ..
    refine ⟨h.setOther hi (h.locks i hi) fun _ => hinum ▸ hne, ⟨hi, ?_, ?_⟩, .setEntry hi _,
      ?_, ?_, fun j hj => Function.update_of_ne hj ..⟩
    · rw [hent]
      rintro ⟨_, _, h1⟩
      change (s.icache i).ref + 1 = 1 at h1
      omega
    · rw [hent]
      exact fun _ => hinum ▸ hne
    · rw [hent]
      exact hinum
    · rw [hent]
  · have hi : i ≠ dp := by
      rintro rfl
      have := h.ref
      omega
    have hent : (s.takeEntry i inum).icache i =
        { s.icache i with inum := inum, ref := 1, valid := false } := Function.update_self ..
    refine ⟨h.setOther hi (h.locks i hi) fun _ => hne, ⟨hi, ?_, ?_⟩, .setEntry hi _, ?_, ?_,
      fun j hj => Function.update_of_ne hj ..⟩
    · rw [hent]
      nofun
    · rw [hent]
      exact fun _ => hne
    · rw [hent]
    · rw [hent, href]
      rfl

/-- The entry is given up. -/
theorem iput_spec {E : Panic → Prop} (h : OpenDir dp n l s) (hi : Held dp i n s) :
    wp (iput i) (fun _ s' => OpenDir dp n l s' ∧ SameDisk dp s s' ∧
      s' = s.setRef i ((s.icache i).ref - 1)) E s := by
  refine wp_mono (iput_keep_spec (h.locks i hi.ne) hi.last) ?_ fun _ => id
  rintro _ _ rfl
  exact ⟨h.setOther hi.ne (h.locks i hi.ne) hi.other, .setEntry hi.ne _, rfl⟩

end OpenDir

theorem SameDisk.trans {s'' : Fs} (h : SameDisk dp s s') (h' : SameDisk dp s' s'') :
    SameDisk dp s s'' :=
  ⟨h'.sb.trans h.sb, h'.bit.trans h.bit, h'.dinode.trans h.dinode, h'.block.trans h.block,
    h'.allocs.trans h.allocs, h'.entry.trans h.entry⟩

theorem SameDisk.nfree (h : SameDisk dp s s') : s'.nfree = s.nfree := by
  rw [Fs.nfree, Fs.nfree, h.sb, h.bit]

/-! ## §3  One operation -/

/-- An operation takes two blocks and 16 bytes of the directory at most, and gives all
entries of the cache back. -/
structure Cost (dp : Slot) (s s' : Fs) : Prop where
  refs : ∀ j, (s'.icache j).ref = (s.icache j).ref
  free : s.nfree ≤ s'.nfree + 2
  size : (s'.icache dp).d.size ≤ (s.icache dp).d.size + direntSize

theorem Room.step {k : ℕ} (h : Room dp (k + 1) s) (hc : Cost dp s s') : Room dp k s' := by
  obtain ⟨hfree, ⟨j, hj⟩, hsize⟩ := h
  have hf := hc.free
  have hs := hc.size
  refine ⟨by omega, ⟨j, (hc.refs j).trans hj⟩, ?_⟩
  unfold direntSize at *
  omega

theorem Room.mono {k k' : ℕ} (h : Room dp k s) (hk : k' ≤ k) : Room dp k' s :=
  ⟨by have := h.1; omega, h.2.1,
    Nat.le_trans (Nat.add_le_add_left (Nat.mul_le_mul_left _ hk) _) h.2.2⟩

theorem blocksFor_add_entry (a : ℕ) : blocksFor (a + direntSize) ≤ blocksFor a + 2 := by
  unfold blocksFor withIndirect blocksOf direntSize bsize ndirect
  split_ifs <;> omega

theorem blocksFor_setEntry (hl : de.length = direntSize) (he : e ≤ entries l) :
    blocksFor (setEntry l e de).length ≤ blocksFor l.length + 2 := by
  refine Nat.le_trans (blocksFor_mono ?_) (blocksFor_add_entry _)
  rw [length_setEntry hl he]
  have := mul_le_length he
  omega

/-- The cache and the disk after a look at an entry that is there. -/
theorem Cost.of_same (hs : SameDisk dp s s') (hr : ∀ j, (s'.icache j).ref = (s.icache j).ref) :
    Cost dp s s' where
  refs := hr
  free := by
    rw [hs.nfree]
    omega
  size := by
    rw [hs.entry]
    omega

/-- An entry is written. -/
theorem Cost.of_wrote {β : ℕ → ℕ → UInt8} (h : IsDir dp l s) (hde : de.length = direntSize)
    (he : e ≤ entries l) (hw : Wrote dp (direntSize * e) de β s s') : Cost dp s s' := by
  have hle := mul_le_length he
  have hmax : max (s.icache dp).d.size (direntSize * e + de.length) ≤
      (s.icache dp).d.size + direntSize := by
    rw [h.length, hde]
    omega
  obtain ⟨a, hst⟩ := hw.stored
  constructor
  · intro j
    by_cases hj : j = dp
    · rw [hst.icache, hj, Function.update_self]
    · rw [hst.icache, Function.update_of_ne hj]
  · have hroom := hw.room
    have hadd := blocksFor_add_entry (s.icache dp).d.size
    have hmono := blocksFor_mono hmax
    unfold blocksFor at *
    omega
  · rw [hst.icache, Function.update_self]
    exact hmax

/-- The operation has been done on the map `m`. -/
structure Done (dp : Slot) (n : ℕ) (m : List UInt8 → Option ℕ) (op : DirOp) (s : Fs) (r : ℤ)
    (s' : Fs) : Prop where
  reply : r = op.reply m
  map : ∃ l', OpenDir dp n l' s' ∧ Maps l' (op.apply m)
  cost : Cost dp s s'
  same : r = -1 → SameDisk dp s s'

/-- Why an operation can stop. -/
def Stops (dp : Slot) (s : Fs) (x : Panic) : Prop := Exhausted x ∧ ¬ Room dp 1 s

theorem stops_of_cache (hfull : ∀ i, (s.icache i).ref ≠ 0) : Stops dp s .igetNoInodes :=
  ⟨.inr (.inl rfl), fun ⟨_, ⟨j, hj⟩, _⟩ => hfull j hj⟩

theorem stops_of_blocks (hde : de.length = direntSize) (he : e ≤ entries l)
    (hlt : s.nfree + blocksFor l.length < blocksFor (setEntry l e de).length) :
    Stops dp s .outOfBlocks := by
  refine ⟨.inl rfl, fun ⟨hfree, _⟩ => ?_⟩
  have := blocksFor_setEntry hde he
  omega

namespace OpenDir

theorem dirlink_spec (h : OpenDir dp n l s) (hm : Maps l m) (hop : (DirOp.link name inum).Ok)
    (hself : (DirOp.link name inum).NotSelf n m) :
    wp (dirlink dp name inum) (Done dp n m (.link name inum) s) (Stops dp s) s := by
  obtain ⟨hname, hpos, hlt⟩ := hop
  have hde := length_dirent inum name
  apply wp_bind
  apply h.listing.dirlookup_rule
  · intro hno
    have hk := hm.eq_none h.whole hno
    dsimp only
    apply wp_bind
    apply wp_slot
    apply wp_bind
    refine h.listing.dirlinkLoop_rule (e := 0) ?_ (Nat.zero_le _) ?_
    · rw [h.length, entries]
      have := Nat.div_le_self l.length direntSize
      omega
    · intro e he h0
      obtain ⟨β, hc⟩ := h.clean
      apply wp_bind
      refine wp_mono (h.writei_entry hc hde he) ?_ ?_
      · rintro r s' (⟨hfull, rfl, rfl⟩ | ⟨rfl, hw, hd⟩)
        · refine wp_throw ⟨.inr (.inr rfl), ?_⟩
          rintro ⟨_, _, hsize⟩
          have := mul_le_length he
          rw [h.length] at hsize
          omega
        · obtain ⟨a, hst⟩ := hw.stored
          refine wp_pure ⟨?_, ⟨_, h.stored hst hd, ?_⟩, .of_wrote h.toIsDir hde he hw, by simp⟩
          · simp only [DirOp.reply, hk, Option.isSome_none, Bool.false_eq_true, if_false]
          · simp only [DirOp.apply, hk, Option.isSome_none, Bool.false_eq_true, if_false]
            exact hm.link he h0 hk hname hpos hlt
      · rintro x ⟨rfl, hless⟩
        exact stops_of_blocks hde he hless
  · intro e he hmatch _
    have hk := hm.eq_some hmatch
    have hne : inumAt l e ≠ n := by
      intro hn
      exact hself (hk.trans (congrArg some hn))
    refine wp_mono (h.iget_spec hne) ?_ ?_
    · rintro i s₁ ⟨h₁, hi, hsame, _, href, hrest⟩
      apply wp_call (h₁.iput_spec hi)
      rintro _ s₂ ⟨h₂, hsame₂, rfl⟩
      have hsame := hsame.trans hsame₂
      refine wp_pure ⟨?_, ⟨l, h₂, ?_⟩, .of_same hsame ?_, fun _ => hsame⟩
      · simp only [DirOp.reply, hk, Option.isSome_some, if_true]
      · simp only [DirOp.apply, hk, Option.isSome_some, if_true]
        exact hm
      · intro j
        by_cases hj : j = i
        · rw [hj]
          simp only [Fs.setRef, Fs.setEntry, Function.update_self, href]
          omega
        · simp only [Fs.setRef, Fs.setEntry, Function.update_of_ne hj, hrest j hj]
    · rintro x ⟨rfl, hfull⟩
      exact stops_of_cache hfull

theorem clearEntry_spec {E : Panic → Prop} (h : OpenDir dp n l s) (he : e < entries l) :
    wp (clearEntry dp (direntSize * e))
      (fun _ s' => OpenDir dp n (setEntry l e (List.replicate direntSize 0)) s' ∧
        Cost dp s s' ∧ ∃ d, Stored dp d s s') E s := by
  have hde : (List.replicate direntSize (0 : UInt8)).length = direntSize :=
    List.length_replicate
  have hle := Nat.le_of_lt he
  have hend : direntSize * e + direntSize ≤ l.length := by
    rw [← h.length, h.size, ← Nat.mul_succ]
    exact Nat.mul_le_mul_left _ he
  have hlen : (setEntry l e (List.replicate direntSize 0)).length = l.length := by
    rw [length_setEntry hde hle]
    omega
  obtain ⟨β, hc⟩ := h.clean
  have hmax := hc.size_le
  rw [h.length] at hmax
  apply wp_bind
  refine wp_mono (h.writei_entry hc hde hle) ?_ ?_
  · rintro r s' (⟨hfull, rfl, rfl⟩ | ⟨rfl, hw, hd⟩)
    · omega
    · obtain ⟨a, hst⟩ := hw.stored
      exact wp_pure ⟨h.stored hst hd, .of_wrote h.toIsDir hde hle hw, _, hst⟩
  · rintro x ⟨rfl, hless⟩
    rw [hlen] at hless
    omega

theorem removeEntry_spec (h : OpenDir dp n l s) (hm : Maps l m)
    (hself : (DirOp.remove name).NotSelf n m) :
    wp (removeEntry dp name) (Done dp n m (.remove name) s) (Stops dp s) s := by
  apply wp_ite
  · intro hdots
    have hd : DirOp.isDots name = true := hdots
    refine wp_pure ⟨?_, ⟨l, h, ?_⟩, .of_same ⟨rfl, rfl, rfl, rfl, rfl, rfl⟩ fun _ => rfl,
      fun _ => ⟨rfl, rfl, rfl, rfl, rfl, rfl⟩⟩
    · simp only [DirOp.reply, hd, Bool.true_or, if_true]
    · simp only [DirOp.apply, hd, if_true]
      exact hm
  · intro hdots
    have hd : DirOp.isDots name = false := Bool.not_eq_true _ ▸ hdots
    apply wp_bind
    apply h.listing.dirlookup_rule
    · intro hno
      have hk := hm.eq_none h.whole hno
      refine wp_pure ⟨?_, ⟨l, h, ?_⟩, .of_same ⟨rfl, rfl, rfl, rfl, rfl, rfl⟩ fun _ => rfl,
        fun _ => ⟨rfl, rfl, rfl, rfl, rfl, rfl⟩⟩
      · simp only [DirOp.reply, hk, Option.isNone_none, Bool.or_true, if_true]
      · simp only [DirOp.apply, hd, Bool.false_eq_true, if_false]
        rwa [← hk, Function.update_eq_self]
    · intro e he hmatch _
      have hk := hm.eq_some hmatch
      have hne : inumAt l e ≠ n := by
        intro hn
        exact hself (hk.trans (congrArg some hn))
      refine wp_mono (h.iget_spec hne) ?_ ?_
      · rintro i s₁ ⟨h₁, hi, hsame, _, href, hrest⟩
        dsimp only
        apply wp_call (h₁.clearEntry_spec he)
        rintro _ s₂ ⟨h₂, hcost, d, hst⟩
        apply wp_call (h₂.iput_spec (hi.stored hst))
        rintro _ s₃ ⟨h₃, hsame₃, rfl⟩
        refine wp_pure ⟨?_, ⟨_, h₃, ?_⟩, ⟨?_, ?_, ?_⟩, nofun⟩
        · simp only [DirOp.reply, hd, hk, Option.isNone_some, Bool.or_false,
            Bool.false_eq_true, if_false]
        · simp only [DirOp.apply, hd, Bool.false_eq_true, if_false]
          rw [key, (sameName_direntName _ _).mp hmatch.2]
          exact hm.remove (Nat.le_of_lt he) hmatch.1
        · intro j
          by_cases hj : j = i
          · rw [hj]
            simp only [Fs.setRef, Fs.setEntry, Function.update_self, hcost.refs i, href]
            omega
          · simp only [Fs.setRef, Fs.setEntry, Function.update_of_ne hj, hcost.refs j,
              hrest j hj]
        · rw [hsame₃.nfree, ← hsame.nfree]
          exact hcost.free
        · rw [hsame₃.entry, ← hsame.entry]
          exact hcost.size
      · rintro x ⟨rfl, hfull⟩
        exact stops_of_cache hfull

theorem run_spec {op : DirOp} (h : OpenDir dp n l s) (hm : Maps l m) (hop : op.Ok)
    (hself : op.NotSelf n m) : wp (op.run dp) (Done dp n m op s) (Stops dp s) s := by
  cases op with
  | link name inum => exact h.dirlink_spec hm hop hself
  | remove name => exact h.removeEntry_spec hm hself

/-- `dirlookup` gets the inode that the map gives. -/
theorem dirlookup_spec (h : OpenDir dp n l s) (hm : Maps l m) (name : List UInt8) :
    wp (dirlookup dp name)
      (fun r s' => r.map (fun p => (s'.icache p.1).inum) = m (key name) ∧
        (m (key name) = none → s' = s))
      (fun x => x = .igetNoInodes ∧ ∀ i, (s.icache i).ref ≠ 0) s := by
  apply h.listing.dirlookup_rule
  · intro hno
    exact ⟨(hm.eq_none h.whole hno).symm, fun _ => rfl⟩
  · intro e _ hmatch _
    have hk := hm.eq_some hmatch
    refine wp_mono Inodes.iget_spec ?_ fun _ => id
    rintro i s' hi
    refine ⟨?_, fun hnone => absurd (hk.symm.trans hnone) nofun⟩
    rw [hk, Option.map_some]
    rcases hi with ⟨_, hinum, rfl⟩ | ⟨_, _, rfl⟩
    · simp only [Fs.setRef, Fs.setEntry, Function.update_self, hinum]
    · simp only [Fs.takeEntry, Fs.setEntry, Function.update_self]

end OpenDir

/-! ## §4  Runs -/

def runDir (dp : Slot) : List DirOp → M (List ℤ)
  | [] => return []
  | op :: ops => do
      let r ← op.run dp
      let rs ← runDir dp ops
      return r :: rs

/-- The map after the operations. -/
def applyDir (m : List UInt8 → Option ℕ) (ops : List DirOp) : List UInt8 → Option ℕ :=
  ops.foldl DirOp.apply m

def repliesDir : (List UInt8 → Option ℕ) → List DirOp → List ℤ
  | _, [] => []
  | m, op :: ops => op.reply m :: repliesDir (op.apply m) ops

/-- No operation finds an entry for the directory `n` itself. -/
def Apart (n : ℕ) : (List UInt8 → Option ℕ) → List DirOp → Prop
  | _, [] => True
  | m, op :: ops => op.NotSelf n m ∧ Apart n (op.apply m) ops

instance decidableApart (n : ℕ) : ∀ m ops, Decidable (Apart n m ops)
  | _, [] => inferInstanceAs (Decidable True)
  | m, op :: ops =>
      have := decidableApart n (op.apply m) ops
      inferInstanceAs (Decidable (_ ∧ _))

theorem runDir_spec {ops : List DirOp} (h : OpenDir dp n l s) (hm : Maps l m)
    (hops : ∀ op ∈ ops, op.Ok) (hself : Apart n m ops) :
    wp (runDir dp ops) (fun rs s' => rs = repliesDir m ops ∧
        ∃ l', OpenDir dp n l' s' ∧ Maps l' (applyDir m ops))
      (fun x => Exhausted x ∧ ¬ Room dp ops.length s) s := by
  induction ops generalizing l m s with
  | nil => exact wp_pure ⟨rfl, l, h, hm⟩
  | cons op ops ih =>
      obtain ⟨hop, hops⟩ := List.forall_mem_cons.mp hops
      apply wp_bind
      refine wp_mono (h.run_spec hm hop hself.1) ?_ ?_
      · intro r s₁ hdone
        obtain ⟨l₁, h₁, hm₁⟩ := hdone.map
        apply wp_bind
        refine wp_mono (ih h₁ hm₁ hops hself.2) ?_ ?_
        · rintro rs s' ⟨rfl, hmap⟩
          exact wp_pure ⟨by rw [repliesDir, hdone.reply], hmap⟩
        · rintro x ⟨hx, hroom⟩
          exact ⟨hx, fun hr => hroom (hr.step hdone.cost)⟩
      · rintro x ⟨hx, hroom⟩
        exact ⟨hx, fun hr => hroom (hr.mono (Nat.succ_pos _))⟩

/-- The other names are left alone. -/
theorem DirOp.apply_of_ne {op : DirOp} (hk : key name ≠ key op.named) :
    op.apply m (key name) = m (key name) := by
  cases op with
  | link name' inum =>
      simp only [DirOp.apply]
      split
      · rfl
      · exact Function.update_of_ne hk ..
  | remove name' =>
      simp only [DirOp.apply]
      split
      · rfl
      · exact Function.update_of_ne hk ..

/-- The directory in entry `dp` is the map `m`, as far as the callers can see. -/
structure IsMap (dp : Slot) (n : ℕ) (m : List UInt8 → Option ℕ) (s : Fs) : Prop where
  /-- No two entries have the same name. -/
  unique : ∀ e e', inumAt (contents (s.icache dp).d s.block) e ≠ 0 →
    inumAt (contents (s.icache dp).d s.block) e' ≠ 0 →
    nameAt (contents (s.icache dp).d s.block) e = nameAt (contents (s.icache dp).d s.block) e' →
    e = e'
  lookup : ∀ name, wp (dirlookup dp name)
    (fun r s' => r.map (fun p => (s'.icache p.1).inum) = m (key name))
    (fun x => x = .igetNoInodes ∧ ∀ i, (s.icache i).ref ≠ 0) s
  /-- `dirlink` fails exactly if the name is there, and then changes nothing. -/
  refuse : ∀ name inum, (DirOp.link name inum).Ok → m (key name) ≠ some n →
    wp (dirlink dp name inum)
      (fun r s' => (r = -1 ↔ ∃ k, m (key name) = some k) ∧ (r = -1 → SameDisk dp s s'))
      (Stops dp s) s
  frame : ∀ op : DirOp, op.Ok → op.NotSelf n m → ∀ name, key name ≠ key op.named →
    wp (op.run dp >>= fun _ => dirlookup dp name)
      (fun r s' => r.map (fun p => (s'.icache p.1).inum) = m (key name)) (Stops dp s) s

theorem OpenDir.isMap (h : OpenDir dp n l s) (hm : Maps l m) : IsMap dp n m s where
  unique := by
    rw [h.bytes]
    exact hm.unique
  lookup name := wp_mono (h.dirlookup_spec hm name) (fun _ _ hr => hr.1) fun _ => id
  refuse := by
    intro name inum hop hself
    refine wp_mono (h.dirlink_spec hm hop hself) ?_ fun _ => id
    intro r s' hdone
    refine ⟨?_, hdone.same⟩
    rw [hdone.reply, DirOp.reply, ← Option.isSome_iff_exists]
    split <;> simp_all
  frame := by
    intro op hop hself name hk
    apply wp_bind
    refine wp_mono (h.run_spec hm hop hself) ?_ fun _ => id
    intro r s₁ hdone
    obtain ⟨l₁, h₁, hm₁⟩ := hdone.map
    refine wp_mono (h₁.dirlookup_spec hm₁ name) ?_ ?_
    · rintro r' s' ⟨hr, _⟩
      rw [hr, DirOp.apply_of_ne hk]
    · rintro x ⟨rfl, hfull⟩
      exact stops_of_cache fun i => hdone.cost.refs i ▸ hfull i

/-- A directory is a finite map, over every run of `dirlink` and removals in which no
operation finds an entry for the directory itself. -/
theorem directory_is_finite_map {ops : List DirOp} (h : OpenDir dp n l s) (hm : Maps l m)
    (hops : ∀ op ∈ ops, op.Ok) (hself : Apart n m ops) :
    wp (runDir dp ops) (fun rs s' => rs = repliesDir m ops ∧ IsMap dp n (applyDir m ops) s')
      (fun x => Exhausted x ∧ ¬ Room dp ops.length s) s := by
  refine wp_mono (runDir_spec h hm hops hself) ?_ fun _ => id
  rintro rs s' ⟨hr, l', h', hm'⟩
  exact ⟨hr, h'.isMap hm'⟩

theorem oneInode_openDir : OpenDir 0 2 [] (oneInode .dir) where
  clean := ⟨_, oneInode_clean nofun⟩
  kind := rfl
  bytes := rfl
  whole := ⟨0, rfl⟩
  inum := rfl
  ref := by
    decide
  locks j hj := decide_eq_false hj
  unique j hr _ := by
    by_contra hj
    change 0 < if j = 0 then (1 : ℤ) else 0 at hr
    rw [if_neg hj] at hr
    exact absurd hr (by decide)

theorem maps_nil : Maps [] fun _ => none where
  unique e e' h := absurd (inumAt_of_le (Nat.zero_le e) ⟨0, rfl⟩) h
  iff k n := by
    constructor
    · nofun
    · rintro ⟨e, rfl, h0, _⟩
      exact absurd (inumAt_of_le (Nat.zero_le e) ⟨0, rfl⟩) h0

/-- Two names are linked, one of them twice, and one is removed, twice. -/
def shortRun : List DirOp :=
  [.link [97] 3, .link [97] 4, .link [98] 5, .remove [97], .remove [97]]

theorem directory_is_finite_map_short : ∃ s',
    runDir 0 shortRun (oneInode .dir) = .ok ([0, -1, 0, 0, -1], s') ∧
    IsMap 0 2 (applyDir (fun _ => none) shortRun) s' ∧
    applyDir (fun _ => none) shortRun [98] = some 5 ∧
    applyDir (fun _ => none) shortRun [97] = none := by
  have hroom : Room 0 5 (oneInode .dir) := ⟨by decide, ⟨1, by decide⟩, by decide⟩
  obtain ⟨rs, s', hrun, rfl, hmap⟩ := exists_of_wp (wp_mono
    (directory_is_finite_map oneInode_openDir maps_nil (by decide : ∀ op ∈ shortRun, op.Ok)
      (by decide)) (fun _ _ => id) fun _ hx => hx.2 hroom)
  exact ⟨s', hrun, hmap, by decide, by decide⟩

/-- `dirlink` of the name of an entry for the directory itself waits for ever. -/
theorem dirlink_self_deadlock : OpenDir 0 2 [] (oneInode .dir) ∧ Room 0 5 (oneInode .dir) ∧
    runDir 0 [.link dot 2, .link dot 3] (oneInode .dir) = .error .deadlock := by
  refine ⟨oneInode_openDir, ⟨by decide, ⟨1, by decide⟩, by decide⟩, ?_⟩
  exact error_of_panic (by decide)

end Xv6.Inodes
