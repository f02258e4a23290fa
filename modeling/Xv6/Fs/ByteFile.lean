import Xv6.Fs.Contents
import Xv6.Lib.Patch

/-!
# Files as byte arrays

What `readi` and `writei` return and do to the bytes of an inode, whatever blocks the
bytes are in. A file that is read and written by any sequence of calls is compared
with a list of bytes.
-/

namespace Xv6.Inodes

open Xv6.Lib PanicM

variable {s s' : Fs} {i : Slot} {k b off n m fuel : ℕ} {src : List UInt8} {d : Dinode}
  {β : ℕ → ℕ → UInt8} {E : Panic → Prop}

/-! ## §1  One block -/

/-- The bytes of a block that are read. -/
theorem read_eq_bytes {block : ℕ → Block} (hb : refAt d block (filePos (off / bsize)) = some b)
    (hm : off % bsize + m ≤ bsize) : (block b).read (off % bsize) m =
      (List.range m).map fun x => byteAt d block (off + x) := by
  apply List.map_congr_left
  intro x hx
  rw [List.mem_range] at hx
  have hdiv : (off + x) / bsize = off / bsize := by
    unfold bsize at hm ⊢
    omega
  have hmod : (off + x) % bsize = off % bsize + x := by
    unfold bsize at hm ⊢
    omega
  unfold byteAt
  rw [hdiv, hb, hmod]

/-- The bytes of a block that is written. -/
theorem write_eq_patchAt {block : ℕ → Block}
    (hb : refAt d block (filePos (off / bsize)) = some b)
    (hm : off % bsize + src.length ≤ bsize) :
    (fun x => if x / bsize = off / bsize then
        UInt8.ofNat (((block b).write (off % bsize) src).byte (x % bsize))
      else byteAt d block x) = patchAt (byteAt d block) off src := by
  funext x
  unfold patchAt
  by_cases hx : x / bsize = off / bsize
  · have hbyte : byteAt d block x = UInt8.ofNat ((block b).byte (x % bsize)) := by
      unfold byteAt
      rw [hx, hb]
    have hlt : x % bsize < bsize := Nat.mod_lt _ (by decide)
    rw [if_pos hx, Block.byte_write, hbyte]
    by_cases hin : off ≤ x ∧ x < off + src.length
    · have hsub : x % bsize - off % bsize = x - off := by
        unfold bsize at hx ⊢
        omega
      have hin' : off % bsize ≤ x % bsize ∧ x % bsize < off % bsize + src.length := by
        unfold bsize at hx ⊢
        omega
      have hsrc : x - off < src.length := by omega
      rw [if_pos ⟨hin'.1, hin'.2, hlt⟩, if_pos hin.1, hsub, UInt8.ofNat_toNat,
        List.getD_eq_getElem src _ hsrc, List.getD_eq_getElem src _ hsrc]
    · have hout : ¬ (off % bsize ≤ x % bsize ∧ x % bsize < off % bsize + src.length ∧
          x % bsize < bsize) := by
        unfold bsize at hx ⊢
        omega
      rw [if_neg hout]
      split_ifs with h
      · rw [List.getD_eq_default src _ (by omega)]
      · rfl
  · rw [if_neg hx]
    split_ifs with h
    · have : src.length ≤ x - off := by
        unfold bsize at hx hm
        omega
      rw [List.getD_eq_default src _ this]
    · rfl

/-! ## §2  `readi` -/

/-- The bytes of an inode. -/
def contents (d : Dinode) (block : ℕ → Block) : List UInt8 :=
  (List.range d.size).map (byteAt d block)

/-- Every block of the file is there. -/
structure NoHoles (d : Dinode) (block : ℕ → Block) : Prop where
  le : blocksOf d.size ≤ maxfile
  blocks : ∀ bn, bn < blocksOf d.size → refAt d block (filePos bn) ≠ none

theorem Filled.noHoles {block : ℕ → Block} (h : Filled d block (blocksOf d.size)) :
    NoHoles d block :=
  ⟨h.le, fun bn hbn => (h.iff bn (Nat.lt_of_lt_of_le hbn h.le)).mpr hbn⟩

theorem NoHoles.size_le {block : ℕ → Block} (h : NoHoles d block) :
    d.size ≤ maxfile * bsize := by
  have hle := h.le
  simp only [blocksOf, bsize, maxfile, ndirect, nindirect] at hle ⊢
  omega

theorem Clean.noHoles (h : Clean β i s) : NoHoles (s.icache i).d s.block :=
  h.dirty.filled.noHoles

/-- `bmap` of a block that is there allocates nothing. -/
theorem bmap_of_ref {bn : ℕ} (h : refAt (s.icache i).d s.block (filePos bn) = some b)
    (hbn : bn < maxfile) : wp (bmap i bn) (fun b' s' => s' = s ∧ b' = b) E s := by
  unfold bmap
  by_cases hlt : bn < ndirect
  · rw [filePos, dif_pos hlt, refAt_addr] at h
    rw [dif_pos hlt]
    apply wp_bind
    apply wp_slot
    rw [if_neg (h.1.symm ▸ h.2)]
    exact wp_pure ⟨rfl, h.1⟩
  · rw [filePos, dif_neg hlt, refAt_word] at h
    obtain ⟨ha, hw, hb⟩ := h
    have hword : bn - ndirect < nindirect := by
      unfold maxfile at hbn
      omega
    rw [dif_neg hlt, if_pos hword]
    apply wp_bind
    apply wp_bind
    apply wp_slot
    rw [if_neg ha]
    apply wp_pure
    apply wp_bind
    apply wp_get
    rw [if_neg (hw.symm ▸ hb)]
    exact wp_pure ⟨rfl, hw⟩

theorem readLoop_spec (h : NoHoles (s.icache i).d s.block) (hn : n ≤ fuel)
    (hk : blocksOf (off + n) ≤ blocksOf (s.icache i).d.size) :
    wp (readLoop i fuel off n) (fun r s' => s' = s ∧
      r = (List.range n).map fun x => byteAt (s.icache i).d s.block (off + x)) E s := by
  induction fuel generalizing off n with
  | zero =>
      obtain rfl : n = 0 := by omega
      exact wp_pure ⟨rfl, rfl⟩
  | succ fuel ih =>
      apply wp_ite
      · rintro rfl
        exact wp_pure ⟨rfl, rfl⟩
      · intro h0
        have hbn : off / bsize < blocksOf (s.icache i).d.size :=
          Nat.lt_of_lt_of_le (div_lt_blocksOf (by omega)) hk
        obtain ⟨b, href⟩ := Option.ne_none_iff_exists'.mp (h.blocks _ hbn)
        apply wp_call (bmap_of_ref href (Nat.lt_of_lt_of_le hbn h.le))
        rintro b s ⟨rfl, rfl⟩
        apply wp_bind
        apply wp_get
        have hm : min n (bsize - off % bsize) ≤ n := Nat.min_le_left ..
        have hm' : off % bsize + min n (bsize - off % bsize) ≤ bsize := by
          have : off % bsize < bsize := Nat.mod_lt _ (by decide)
          omega
        have hpos : 0 < min n (bsize - off % bsize) := by
          have : off % bsize < bsize := Nat.mod_lt _ (by decide)
          omega
        generalize min n (bsize - off % bsize) = m at hm hm' hpos ⊢
        have hk' : blocksOf (off + m + (n - m)) ≤ blocksOf (s.icache i).d.size := by
          rwa [Nat.add_assoc, Nat.add_sub_cancel' hm]
        apply wp_call (ih (by omega) hk')
        rintro r _ ⟨rfl, rfl⟩
        refine wp_pure ⟨rfl, ?_⟩
        rw [read_eq_bytes href hm']
        conv_rhs => rw [← Nat.add_sub_cancel' hm, List.range_add, List.map_append,
          List.map_map]
        congr 2
        funext x
        simp [Nat.add_assoc]

theorem Clean.size_le (h : Clean β i s) : (s.icache i).d.size ≤ maxfile * bsize :=
  h.noHoles.size_le

/-- The sum of two `uint` that wraps around. -/
theorem mod_lt_of_wrap {a b : ℕ} (hb : b < uintSize) (h : uintSize ≤ a + b)
    (ha : a < uintSize) : (a + b) % uintSize < a := by
  rw [Nat.mod_eq_sub_mod h, Nat.mod_eq_of_lt (by omega)]
  omega

/-- The bytes of an inode that is not a device and has no holes. -/
theorem NoHoles.readi_spec (h : NoHoles (s.icache i).d s.block)
    (hk : (s.icache i).d.kind ≠ .dev) (hn : n < uintSize) :
    wp (readi i off n) (fun r s' => s' = s ∧ r =
      if (s.icache i).d.size < off ∨ uintSize ≤ off + n then none
      else some (((contents (s.icache i).d s.block).drop off).take n)) E s := by
  have hsize := h.size_le
  have hmax : maxfile * bsize < uintSize := by decide
  apply wp_bind
  apply wp_slot
  rw [if_neg hk]
  by_cases hoff : (s.icache i).d.size < off
  · rw [if_pos (.inl hoff), if_pos (.inl hoff)]
    exact wp_pure ⟨rfl, rfl⟩
  · by_cases hwrap : uintSize ≤ off + n
    · have hlt := mod_lt_of_wrap hn hwrap (by omega)
      rw [if_pos (.inr hlt), if_pos (.inr hwrap)]
      exact wp_pure ⟨rfl, rfl⟩
    · have hmod : (off + n) % uintSize = off + n := Nat.mod_eq_of_lt (by omega)
      rw [hmod, if_neg (by omega)]
      have hmin : (if (s.icache i).d.size < off + n then (s.icache i).d.size - off else n) =
          min n ((s.icache i).d.size - off) := by
        split_ifs <;> omega
      show wp (readLoop i (if (s.icache i).d.size < off + n then _ else _) off
        (if (s.icache i).d.size < off + n then _ else _) >>= _) _ E s
      rw [hmin, if_neg (by omega)]
      apply wp_call (readLoop_spec h (Nat.le_refl _) (blocksOf_le_of_le (by omega)))
      rintro r _ ⟨rfl, rfl⟩
      refine wp_pure ⟨rfl, ?_⟩
      rw [contents, take_drop_map_range]

theorem readi_spec (h : Clean β i s) (hk : (s.icache i).d.kind ≠ .dev) (hn : n < uintSize) :
    wp (readi i off n) (fun r s' => s' = s ∧ r =
      if (s.icache i).d.size < off ∨ uintSize ≤ off + n then none
      else some ((((List.range (s.icache i).d.size).map (β (s.icache i).inum)).drop off).take n))
      E s := by
  rw [← h.dirty.bytes]
  exact h.noHoles.readi_spec hk hn

/-! ## §3  `writei` -/

/-- What `writeLoop` leaves. -/
structure Written (i : Slot) (k k' : ℕ) (β : ℕ → ℕ → UInt8) (s s' : Fs) : Prop
    extends Mapped i k k' β s s' where
  /-- Nothing but data is changed if no block is added. -/
  icache : k' = k → s'.icache = s.icache

theorem Dirty.unwritten (h : Dirty i (s.icache i).d k β ∅ s) (hk : blocksOf off ≤ k) :
    Written i k (max k (blocksOf (off + ([] : List UInt8).length)))
      (Function.update β (s.icache i).inum (patchAt (β (s.icache i).inum) off [])) s s := by
  rw [patchAt_nil, Function.update_eq_self, List.length_nil, Nat.add_zero, Nat.max_eq_left hk]
  exact ⟨h.mapped, fun _ => rfl⟩

/-- One round of the loop, after `bmap`. -/
theorem Mapped.write {k' : ℕ} (h : Mapped i k k' β s s')
    (hb : refAt (s'.icache i).d s'.block (filePos (off / bsize)) = some b)
    (hm : off % bsize + src.length ≤ bsize) :
    Mapped i k k' (Function.update β (s.icache i).inum (patchAt (β (s.icache i).inum) off src)) s
      (s'.setBlock b ((s'.block b).write (off % bsize) src)) where
  moved := h.moved.trans (.setBlock i s' b _)
  dirty := by
    have hd := h.dirty.write hb ((s'.block b).write (off % bsize) src)
    have hpatch := write_eq_patchAt hb hm
    rw [h.dirty.bytes] at hpatch
    rw [hpatch, h.moved.inum] at hd
    exact hd
  room := h.room

theorem writeLoop_spec (h : Dirty i (s.icache i).d k β ∅ s) (hn : src.length ≤ fuel)
    (hk : blocksOf off ≤ k) (hmax : off + src.length ≤ maxfile * bsize) :
    wp (writeLoop i fuel off src) (fun _ s' => Written i k (max k (blocksOf (off + src.length)))
        (Function.update β (s.icache i).inum (patchAt (β (s.icache i).inum) off src)) s s')
      (fun e => e = .outOfBlocks ∧
        s.nfree + withIndirect k < withIndirect (blocksOf (off + src.length))) s := by
  induction fuel generalizing off src s k β with
  | zero =>
      obtain rfl := List.eq_nil_of_length_eq_zero (Nat.le_zero.mp hn)
      exact wp_pure (h.unwritten hk)
  | succ fuel ih =>
      apply wp_ite
      · intro h0
        obtain rfl := List.eq_nil_of_length_eq_zero h0
        exact wp_pure (h.unwritten hk)
      · intro h0
        have hlast : off / bsize + 1 ≤ blocksOf (off + src.length) :=
          div_lt_blocksOf (by omega)
        have hbn : off / bsize ≤ k := Nat.le_trans (div_le_blocksOf (Nat.le_refl _)) hk
        have hbmax : off / bsize < maxfile := Nat.div_lt_of_lt_mul (by
          rw [Nat.mul_comm]
          omega)
        apply wp_bind
        apply wp_mono (bmap_spec h hbn hbmax)
        · rintro b s₁ ⟨hm₁, href, hsame⟩
          apply wp_bind
          apply wp_modify
          have hmod : off % bsize < bsize := Nat.mod_lt _ (by decide)
          have hm : min src.length (bsize - off % bsize) ≤ src.length := Nat.min_le_left ..
          have hm' : off % bsize + min src.length (bsize - off % bsize) ≤ bsize := by omega
          have hend : blocksOf (off + min src.length (bsize - off % bsize)) ≤ off / bsize + 1 := by
            unfold blocksOf bsize at *
            omega
          have hpos : 0 < min src.length (bsize - off % bsize) := by omega
          generalize min src.length (bsize - off % bsize) = m at hm hm' hend hpos ⊢
          have hlen : (src.take m).length = m := List.length_take_of_le hm
          have hdrop : off + m + (src.drop m).length = off + src.length := by
            rw [List.length_drop]
            omega
          have hm₂ := hm₁.write href (hlen.symm ▸ hm')
          have hcache : (s₁.setBlock b ((s₁.block b).write (off % bsize) (src.take m))).icache =
            s₁.icache := rfl
          show wp (writeLoop i fuel (off + m) (src.drop m)) _ _
            (s₁.setBlock b ((s₁.block b).write (off % bsize) (src.take m)))
          generalize s₁.setBlock b ((s₁.block b).write (off % bsize) (src.take m)) = s₂
            at hm₂ hcache ⊢
          have hfuel : (src.drop m).length ≤ fuel := by omega
          have hih := ih hm₂.dirty hfuel (Nat.le_trans hend (Nat.le_max_right ..)) (by omega)
          -- the two patches are one
          have hpatch := patchAt_append (β (s.icache i).inum) off (src.take m) (src.drop m)
          rw [hlen, List.take_append_drop] at hpatch
          rw [hm₂.moved.inum, Function.update_self, Function.update_idem, hpatch, hdrop,
            Nat.max_assoc, Nat.max_eq_right hlast] at hih
          apply wp_mono hih
          · intro _ s' hw
            refine ⟨hm₂.trans hw.toMapped, fun hk' => ?_⟩
            have hlt : off / bsize < k := by omega
            rw [hw.icache (by omega), hcache, hsame hlt]
          · rintro e ⟨he, hlt⟩
            have hroom := hm₂.room
            exact ⟨he, by omega⟩
        · rintro e ⟨he, hlt⟩
          exact ⟨he, Nat.lt_of_lt_of_le hlt (withIndirect_mono hlast)⟩

/-- `writei` refuses to write. -/
def Refused (size off n : ℕ) : Prop := size < off ∨ maxfile * bsize < off + n

instance (size off n : ℕ) : Decidable (Refused size off n) :=
  inferInstanceAs (Decidable (_ ∨ _))

/-- What `writei` leaves when it has written `src`. -/
structure Wrote (i : Slot) (off : ℕ) (src : List UInt8) (β : ℕ → ℕ → UInt8) (s s' : Fs) :
    Prop where
  stored : ∃ a, Stored i { (s.icache i).d with
    size := max (s.icache i).d.size (off + src.length), addrs := a } s s'
  clean : Clean (Function.update β (s.icache i).inum
    (patchAt (β (s.icache i).inum) off src)) i s'
  room : s.nfree + withIndirect (blocksOf (s.icache i).d.size) ≤
    s'.nfree + withIndirect (blocksOf (max (s.icache i).d.size (off + src.length)))

/-- The file does not become longer. -/
theorem Clean.wrote (h : Clean β i s)
    (hw : Written i (blocksOf (s.icache i).d.size)
      (max (blocksOf (s.icache i).d.size) (blocksOf (off + src.length)))
      (Function.update β (s.icache i).inum (patchAt (β (s.icache i).inum) off src)) s s')
    (hs : off + src.length ≤ (s.icache i).d.size) : Wrote i off src β s s' := by
  have hsize : max (s.icache i).d.size (off + src.length) = (s.icache i).d.size :=
    Nat.max_eq_left hs
  have hk := Nat.max_eq_left (blocksOf_le_of_le hs)
  have hcache := hw.icache hk
  refine ⟨⟨(s.icache i).d.addrs, ?_⟩, ?_, ?_⟩
  · rw [hsize]
    exact h.stored hw.moved hcache
  · have hd := hw.dirty
    rw [hk, hcache] at hd
    apply hd.clean_of_same
    · rw [hcache]
    · rw [hcache, hw.moved.dinode]
      exact h.same
  · have hroom := hw.room
    rw [hk] at hroom
    rw [hsize]
    exact hroom

/-- The file becomes longer. -/
theorem Written.grown (hw : Written i (blocksOf (s.icache i).d.size)
      (max (blocksOf (s.icache i).d.size) (blocksOf (off + src.length)))
      (Function.update β (s.icache i).inum (patchAt (β (s.icache i).inum) off src)) s s')
    (hs : (s.icache i).d.size < off + src.length) :
    Wrote i off src β s ((s'.setD i { (s'.icache i).d with size := off + src.length }).flush i) := by
  have hsize : max (s.icache i).d.size (off + src.length) = off + src.length :=
    Nat.max_eq_right (Nat.le_of_lt hs)
  have hk := Nat.max_eq_right (blocksOf_le_of_le (Nat.le_of_lt hs))
  refine ⟨⟨(s'.icache i).d.addrs, ?_⟩, ?_, ?_⟩
  · have hst := hw.moved.flush (off + src.length)
    have hd : { (s'.icache i).d with size := off + src.length } =
        { (s.icache i).d with size := off + src.length, addrs := (s'.icache i).d.addrs } := by
      rw [hw.moved.data]
    rw [hsize, ← hd]
    exact hst
  · have hd := hw.dirty
    rw [hk] at hd
    have hd' : Dirty i { (s'.icache i).d with size := off + src.length } _ _ ∅ s' :=
      hd.setFields rfl rfl
    exact hd'.clean ((Moved.refl i s').flush _) rfl rfl rfl
  · rw [hsize]
    have hroom := hw.room
    rw [hk] at hroom
    exact hroom

theorem writei_spec (h : Clean β i s) (hk : (s.icache i).d.kind ≠ .dev)
    (hn : src.length < uintSize) :
    wp (writei i src off) (fun r s' =>
      Refused (s.icache i).d.size off src.length ∧ r = -1 ∧ s' = s ∨
      ¬ Refused (s.icache i).d.size off src.length ∧ r = src.length ∧ Wrote i off src β s s')
      (fun e => e = .outOfBlocks ∧ ¬ Refused (s.icache i).d.size off src.length ∧
        s.nfree + withIndirect (blocksOf (s.icache i).d.size) <
          withIndirect (blocksOf (max (s.icache i).d.size (off + src.length)))) s := by
  have hsize := h.size_le
  have hmax : maxfile * bsize < uintSize := by decide
  apply wp_bind
  apply wp_slot
  rw [if_neg hk]
  dsimp only
  by_cases hoff : (s.icache i).d.size < off
  · rw [if_pos (.inl hoff)]
    exact wp_pure (.inl ⟨.inl hoff, rfl, rfl⟩)
  by_cases hwrap : uintSize ≤ off + src.length
  · have hlt := mod_lt_of_wrap hn hwrap (by omega)
    rw [if_pos (.inr hlt)]
    exact wp_pure (.inl ⟨.inr (by omega), rfl, rfl⟩)
  have hmod : (off + src.length) % uintSize = off + src.length := Nat.mod_eq_of_lt (by omega)
  rw [hmod, if_neg (by omega)]
  by_cases hbig : maxfile * bsize < off + src.length
  · rw [if_pos hbig]
    exact wp_pure (.inl ⟨.inr hbig, rfl, rfl⟩)
  have hnot : ¬ Refused (s.icache i).d.size off src.length := not_or.mpr ⟨hoff, hbig⟩
  rw [if_neg hbig]
  apply wp_bind
  apply wp_mono (writeLoop_spec h.dirty (Nat.le_refl _) (blocksOf_le_of_le (by omega)) (by omega))
  · intro _ s₁ hw
    apply wp_ite
    · rintro ⟨_, hgrow⟩
      apply wp_bind
      apply wp_setData
      apply wp_bind
      apply wp_iupdate
      exact wp_pure (.inr ⟨hnot, rfl, hw.grown hgrow⟩)
    · intro hgrow
      exact wp_pure (.inr ⟨hnot, rfl, h.wrote hw (by omega)⟩)
  · rintro e ⟨he, hlt⟩
    refine ⟨he, hnot, Nat.lt_of_lt_of_le hlt (withIndirect_mono ?_)⟩
    exact blocksOf_le_of_le (Nat.le_max_right ..)

/-! ## §4  Any sequence of calls -/

/-- A call of `writei` or `readi`. -/
inductive FileOp where
  | write (src : List UInt8) (off : ℕ)
  | read (off n : ℕ)
deriving DecidableEq, Repr

/-- What the call returns. -/
inductive Reply where
  | wrote (r : ℤ)
  | got (bytes : Option (List UInt8))
deriving DecidableEq, Repr

namespace FileOp

/-- The arguments are 32-bit numbers. -/
def Ok : FileOp → Prop
  | write src off => off < uintSize ∧ src.length < uintSize
  | read off n => off < uintSize ∧ n < uintSize

instance : DecidablePred Ok
  | .write .. => inferInstanceAs (Decidable (_ ∧ _))
  | .read .. => inferInstanceAs (Decidable (_ ∧ _))

def run (i : Slot) : FileOp → M Reply
  | write src off => do return .wrote (← writei i src off)
  | read off n => do return .got (← readi i off n)

/-- The call, on an array of bytes. -/
def apply (l : List UInt8) : FileOp → List UInt8
  | write src off => if Refused l.length off src.length then l else patch l off src
  | read _ _ => l

def reply (l : List UInt8) : FileOp → Reply
  | write src off => .wrote (if Refused l.length off src.length then -1 else src.length)
  | read off n =>
      .got (if l.length < off ∨ uintSize ≤ off + n then none else some ((l.drop off).take n))

/-- The call reads, or fails. -/
def Quiet (l : List UInt8) : FileOp → Prop
  | write src off => Refused l.length off src.length
  | read _ _ => True

end FileOp

/-- A sequence of calls. -/
def runOps (i : Slot) : List FileOp → M (List Reply)
  | [] => return []
  | op :: ops => do
      let r ← op.run i
      let rs ← runOps i ops
      return r :: rs

/-- The array after a sequence of calls. -/
def applyOps (l : List UInt8) (ops : List FileOp) : List UInt8 := ops.foldl FileOp.apply l

def replies (l : List UInt8) : List FileOp → List Reply
  | [] => []
  | op :: ops => op.reply l :: replies (op.apply l) ops

/-- Entry `i` of the cache is a file, inode `n`, with the bytes `l`. -/
structure Holds (i : Slot) (n : ℕ) (l : List UInt8) (s : Fs) : Prop where
  clean : ∃ β, Clean β i s
  inum : (s.icache i).inum = n
  kind : (s.icache i).d.kind = .file
  bytes : contents (s.icache i).d s.block = l

/-- The number of blocks of a file of `size` bytes. -/
def blocksFor (size : ℕ) : ℕ := withIndirect (blocksOf size)

section Ops

variable {l : List UInt8} {op : FileOp} {ops : List FileOp}

theorem FileOp.length_le_apply : l.length ≤ (op.apply l).length := by
  cases op with
  | read off n => exact Nat.le_refl _
  | write src off =>
      show l.length ≤ (if Refused l.length off src.length then l else patch l off src).length
      split_ifs with h
      · exact Nat.le_refl _
      · rw [length_patch (Nat.le_of_not_lt (not_or.mp h).1)]
        exact Nat.le_max_left ..

theorem length_le_applyOps : l.length ≤ (applyOps l ops).length := by
  induction ops generalizing l with
  | nil => exact Nat.le_refl _
  | cons op ops ih => exact Nat.le_trans FileOp.length_le_apply ih

theorem blocksFor_mono {a b : ℕ} (h : a ≤ b) : blocksFor a ≤ blocksFor b :=
  withIndirect_mono (blocksOf_le_of_le h)

theorem Holds.length (h : Holds i n l s) : l.length = (s.icache i).d.size := by
  rw [← h.bytes, contents, List.length_map, List.length_range]

/-- The call on the file and on the array. -/
theorem FileOp.run_spec (h : Holds i n l s) (hop : op.Ok) :
    wp (op.run i) (fun r s' => r = op.reply l ∧ Holds i n (op.apply l) s' ∧
        (op.Quiet l → s' = s) ∧
        s.nfree + blocksFor l.length ≤ s'.nfree + blocksFor (op.apply l).length)
      (fun _ => s.nfree + blocksFor l.length < blocksFor (op.apply l).length) s := by
  obtain ⟨β, hc⟩ := h.clean
  have hbytes := hc.dirty.bytes
  have hdev : (s.icache i).d.kind ≠ .dev := by
    rw [h.kind]
    nofun
  have hl := h.bytes
  rw [contents, hbytes] at hl
  cases op with
  | read off n =>
      apply wp_call (readi_spec hc hdev hop.2)
      rintro r _ ⟨rfl, rfl⟩
      refine wp_pure ⟨?_, h, fun _ => rfl, Nat.le_refl _⟩
      rw [reply, h.length, ← hl]
  | write src off =>
      apply wp_bind
      apply wp_mono (writei_spec hc hdev hop.2)
      · rintro r s' (⟨href, rfl, rfl⟩ | ⟨hnot, rfl, hw⟩)
        · rw [← h.length] at href
          refine wp_pure ⟨?_, ?_, fun _ => rfl, ?_⟩
          · rw [reply, if_pos href]
          · rw [apply, if_pos href]
            exact h
          · rw [apply, if_pos href]
        · have hoff : off ≤ (s.icache i).d.size := Nat.le_of_not_lt (not_or.mp hnot).1
          obtain ⟨a, hst⟩ := hw.stored
          have hdata : (s'.icache i).d = { (s.icache i).d with
              size := max (s.icache i).d.size (off + src.length), addrs := a } := by
            rw [hst.icache, Function.update_self]
          have hinum : (s'.icache i).inum = (s.icache i).inum := by
            rw [hst.icache, Function.update_self]
          have hlen : (patch l off src).length = max (s.icache i).d.size (off + src.length) := by
            rw [length_patch (h.length ▸ hoff), h.length]
          rw [← h.length] at hnot
          rw [reply, if_neg hnot, apply, if_neg hnot, hlen]
          refine wp_pure ⟨rfl, ⟨⟨_, hw.clean⟩, hinum.trans h.inum, ?_, ?_⟩, ?_, ?_⟩
          · rw [hdata]
            exact h.kind
          · rw [contents, hw.clean.dirty.bytes, hinum, Function.update_self, hdata]
            show (List.range (max (s.icache i).d.size (off + src.length))).map _ = _
            rw [map_range_patchAt hoff, hl]
          · exact fun hq => absurd hq hnot
          · rw [h.length]
            exact hw.room
      · rintro e ⟨_, hnot, hlt⟩
        have hoff : off ≤ (s.icache i).d.size := Nat.le_of_not_lt (not_or.mp hnot).1
        rw [← h.length] at hnot
        rw [apply, if_neg hnot, length_patch (h.length ▸ hoff), h.length]
        exact hlt

theorem runOps_spec (h : Holds i n l s) (hops : ∀ op ∈ ops, op.Ok)
    (hfree : blocksFor (applyOps l ops).length ≤ s.nfree + blocksFor l.length) :
    wp (runOps i ops) (fun rs s' => rs = replies l ops ∧ Holds i n (applyOps l ops) s')
      (fun _ => False) s := by
  induction ops generalizing s l with
  | nil => exact wp_pure ⟨rfl, h⟩
  | cons op ops ih =>
      have hmono : blocksFor (op.apply l).length ≤ blocksFor (applyOps (op.apply l) ops).length :=
        blocksFor_mono length_le_applyOps
      have hlast : applyOps l (op :: ops) = applyOps (op.apply l) ops := rfl
      rw [hlast] at hfree ⊢
      apply wp_bind
      apply wp_mono (FileOp.run_spec h (hops op List.mem_cons_self))
      · rintro r s₁ ⟨rfl, h₁, _, hroom⟩
        apply wp_call (ih h₁ (fun op hop => hops op (List.mem_cons_of_mem _ hop)) (by omega))
        rintro rs s₂ ⟨rfl, h₂⟩
        exact wp_pure ⟨rfl, h₂⟩
      · intro e hlt
        omega

end Ops

/-- An empty file, with free blocks for all that is written, behaves as an array of
bytes. -/
theorem file_is_byte_array {ops : List FileOp} (hc : Clean β i s)
    (hk : (s.icache i).d.kind = .file) (h0 : (s.icache i).d.size = 0)
    (hops : ∀ op ∈ ops, op.Ok) (hfree : blocksFor (applyOps [] ops).length ≤ s.nfree) :
    ∃ s', runOps i ops s = .ok (replies [] ops, s') ∧
      contents (s'.icache i).d s'.block = applyOps [] ops ∧
      s'.dinode (s.icache i).inum = (s'.icache i).d ∧
      ∀ op : FileOp, op.Ok → op.Quiet (applyOps [] ops) →
        op.run i s' = .ok (op.reply (applyOps [] ops), s') := by
  have h : Holds i (s.icache i).inum [] s := by
    refine ⟨⟨β, hc⟩, rfl, hk, ?_⟩
    rw [contents, h0]
    rfl
  obtain ⟨_, s', hrun, rfl, h'⟩ := exists_of_wp (runOps_spec h hops hfree)
  refine ⟨s', hrun, h'.bytes, ?_, ?_⟩
  · obtain ⟨β', hc'⟩ := h'.clean
    rw [← h'.inum]
    exact hc'.same
  · intro op hop hq
    -- such a call allocates no block, so that it cannot panic
    have hsame : op.apply (applyOps [] ops) = applyOps [] ops := by
      cases op with
      | read off n => rfl
      | write src off => exact if_pos hq
    have hspec := FileOp.run_spec h' hop
    rw [hsame] at hspec
    obtain ⟨r, s'', hr, rfl, _, hs, _⟩ :=
      exists_of_wp (wp_mono hspec (fun _ _ => id) fun _ hlt => by omega)
    rw [hr, hs hq]

/-- A disk of 20 blocks, of which 13 are for data. -/
def smallDisk : Superblock where
  size := 20
  nblocks := 13
  ninodes := 6
  nlog := 3
  logstart := 2
  inodestart := 5
  bmapstart := 6

theorem smallDisk_ok : smallDisk.Ok := by
  refine ⟨?_, by decide, by decide⟩
  rintro b (rfl | rfl | ⟨_, hb⟩ | ⟨n, hn, rfl⟩ | ⟨c, hc, rfl⟩)
  · decide
  · decide
  · exact Nat.lt_of_lt_of_le hb (by decide)
  · have : n / 8 = 0 := Nat.div_eq_of_lt (Nat.lt_trans hn (by decide))
    rw [this]
    decide
  · have : c / 4096 = 0 := Nat.div_eq_of_lt (Nat.lt_trans hc (by decide))
    rw [this]
    decide

/-- A disk with one inode, number 2, which has no blocks; entry 0 of the cache has it
locked. -/
def oneInode (k : Kind) : Fs where
  sb := smallDisk
  bit b := decide (b < 7)
  dinode n := .new (if n = 2 then k else .free)
  block _ := .zero
  icache i := {
    inum := 2, ref := if i = 0 then 1 else 0, locked := decide (i = 0),
    valid := decide (i = 0), d := .new k }
  devsw _ := none
  file _ := {
    type := .none, ref := 0, readable := false, writable := false, ip := 0, off := 0 }
  proc _ := { cwd := none, ofile := fun _ => none }
  outstanding := 1
  allocs := []

theorem oneInode_clean {k : Kind} (hk : k ≠ .free) : Clean (fun _ _ => 0) 0 (oneInode k) where
  sb := smallDisk_ok
  blocks := by
    have hcount : (fun n => blocksOf ((oneInode k).dinode n).size) = fun _ => 0 := by
      funext n
      show blocksOf 0 = 0
      decide
    rw [hcount]
    exact Blocks.fresh (fun _ _ => rfl) fun b => decide_eq_true_iff
  allocs := nofun
  inum := by
    show 2 < 6
    decide
  kind := hk
  same := rfl

theorem file_is_byte_array_short : ∃ s', runOps 0
    [.write [1, 2, 3] 0, .read 1 5, .write [9] 100, .write [7] 2] (oneInode .file) =
      .ok ([.wrote 3, .got (some [2, 3]), .wrote (-1), .wrote 1], s') ∧
    contents (s'.icache 0).d s'.block = [1, 2, 7] := by
  have hok : ∀ op ∈ [FileOp.write [1, 2, 3] 0, .read 1 5, .write [9] 100, .write [7] 2],
      op.Ok := by decide
  obtain ⟨s', hrun, hbytes, _⟩ := file_is_byte_array (oneInode_clean (k := .file) nofun) rfl rfl
    hok (by decide)
  exact ⟨s', hrun, hbytes⟩

end Xv6.Inodes
