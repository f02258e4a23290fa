import Mathlib.Data.Finset.Card
import Mathlib.Order.Interval.Finset.Nat
import Xv6.Fs.Owned

/-!
# The blocks of one inode

`bmap`, `readi`, `writei` and `itrunc` work on the copy of an inode in the cache, and
write it to the disk when they are done. `Dirty` describes the disk in between,
with the copy in place of the inode; `Tidy` describes it when they are done. The only
panic is that there is no free block, and then there were too few from the beginning.
-/

namespace Xv6.Inodes

open Xv6.Lib PanicM

variable {s s' s'' : Fs} {i j : Slot} {k b bn off n : ℕ} {X : Set ℕ} {src : List UInt8}
  {d d' : Dinode} {β : ℕ → ℕ → UInt8}

/-! ## §1  States -/

namespace Fs

/-- The fields of an inode in the cache are replaced. -/
def setD (s : Fs) (i : Slot) (d : Dinode) : Fs :=
  { s with icache := Function.update s.icache i { s.icache i with d := d } }

/-- `balloc` has returned `b`. -/
def alloc (s : Fs) (b : ℕ) : Fs :=
  { s with
    bit := Function.update s.bit b true
    block := Function.update s.block b .zero
    allocs := b :: s.allocs }

def free (s : Fs) (b : ℕ) : Fs := { s with bit := Function.update s.bit b false }

def setBlock (s : Fs) (b : ℕ) (v : Block) : Fs :=
  { s with block := Function.update s.block b v }

/-- An inode of the cache is written to the disk. -/
def flush (s : Fs) (i : Slot) : Fs :=
  { s with dinode := Function.update s.dinode (s.icache i).inum (s.icache i).d }

/-- The inodes of the disk, with `d` in place of the one in entry `i`. -/
def view (s : Fs) (i : Slot) (d : Dinode) : ℕ → Dinode :=
  Function.update s.dinode (s.icache i).inum d

/-- The numbers of blocks of the inodes, with `k` for the one in entry `i`. -/
def counts (s : Fs) (i : Slot) (k : ℕ) : ℕ → ℕ :=
  Function.update (fun n => blocksOf (s.dinode n).size) (s.icache i).inum k

/-- The number of free blocks. -/
def nfree (s : Fs) : ℕ := ((Finset.range s.sb.size).filter fun b => s.bit b = false).card

end Fs

/-- The disk is consistent, and the bytes of the inodes are `β`. -/
structure Tidy (β : ℕ → ℕ → UInt8) (s : Fs) : Prop where
  sb : s.sb.Ok
  blocks : Blocks s.sb s.dinode (fun n => blocksOf (s.dinode n).size) β ∅ s.block s.bit
  allocs : ∀ b ∈ s.allocs, s.sb.Data b

/-- The disk is consistent with `d`, which has `k` blocks, in place of the inode in
entry `i`, and with the blocks in `X` in hand. -/
structure Dirty (i : Slot) (d : Dinode) (k : ℕ) (β : ℕ → ℕ → UInt8) (X : Set ℕ) (s : Fs) :
    Prop where
  sb : s.sb.Ok
  inum : (s.icache i).inum < s.sb.ninodes
  kind : d.kind ≠ .free
  blocks : Blocks s.sb (s.view i d) (s.counts i k) β X s.block s.bit
  allocs : ∀ b ∈ s.allocs, s.sb.Data b

/-- An entry of the cache that agrees with the disk. -/
structure Clean (β : ℕ → ℕ → UInt8) (i : Slot) (s : Fs) : Prop extends Tidy β s where
  inum : (s.icache i).inum < s.sb.ninodes
  kind : (s.icache i).d.kind ≠ .free
  same : s.dinode (s.icache i).inum = (s.icache i).d

/-- Only blocks, and addresses of entry `i`, are changed. -/
structure Moved (i : Slot) (s s' : Fs) : Prop where
  sb : s'.sb = s.sb
  dinode : s'.dinode = s.dinode
  devsw : s'.devsw = s.devsw
  file : s'.file = s.file
  proc : s'.proc = s.proc
  outstanding : s'.outstanding = s.outstanding
  icache : ∃ a, s'.icache = Function.update s.icache i
    { s.icache i with d := { (s.icache i).d with addrs := a } }

/-- Only blocks, and the inode in entry `i`, are changed, in the cache and on the disk
alike. -/
structure Stored (i : Slot) (d : Dinode) (s s' : Fs) : Prop where
  sb : s'.sb = s.sb
  dinode : s'.dinode = Function.update s.dinode (s.icache i).inum d
  devsw : s'.devsw = s.devsw
  file : s'.file = s.file
  proc : s'.proc = s.proc
  outstanding : s'.outstanding = s.outstanding
  icache : s'.icache = Function.update s.icache i { s.icache i with d := d }

namespace Moved

theorem refl (i : Slot) (s : Fs) : Moved i s s where
  sb := rfl
  dinode := rfl
  devsw := rfl
  file := rfl
  proc := rfl
  outstanding := rfl
  icache := ⟨(s.icache i).d.addrs, (Function.update_eq_self i s.icache).symm⟩

theorem trans (h : Moved i s s') (h' : Moved i s' s'') : Moved i s s'' := by
  obtain ⟨a, ha⟩ := h.icache
  obtain ⟨a', ha'⟩ := h'.icache
  refine ⟨h'.sb.trans h.sb, h'.dinode.trans h.dinode, h'.devsw.trans h.devsw,
    h'.file.trans h.file, h'.proc.trans h.proc, h'.outstanding.trans h.outstanding, a', ?_⟩
  rw [ha', ha, Function.update_idem, Function.update_self]

theorem inum (h : Moved i s s') : (s'.icache i).inum = (s.icache i).inum := by
  obtain ⟨a, ha⟩ := h.icache
  rw [ha, Function.update_self]

/-- The inode has other addresses only. -/
theorem data (h : Moved i s s') :
    (s'.icache i).d = { (s.icache i).d with addrs := (s'.icache i).d.addrs } := by
  obtain ⟨a, ha⟩ := h.icache
  rw [ha, Function.update_self]

theorem setAddr (i : Slot) (s : Fs) (k : Fin (ndirect + 1)) (b : ℕ) :
    Moved i s (s.setD i ((s.icache i).d.setAddr k b)) :=
  ⟨rfl, rfl, rfl, rfl, rfl, rfl, _, rfl⟩

theorem alloc (i : Slot) (s : Fs) (b : ℕ) : Moved i s (s.alloc b) :=
  { refl i s with }

theorem free (i : Slot) (s : Fs) (b : ℕ) : Moved i s (s.free b) :=
  { refl i s with }

theorem setBlock (i : Slot) (s : Fs) (b : ℕ) (v : Block) : Moved i s (s.setBlock b v) :=
  { refl i s with }

/-- The inode gets a new size and is written to the disk. -/
theorem flush (h : Moved i s s') (z : ℕ) : Stored i { (s'.icache i).d with size := z } s
    ((s'.setD i { (s'.icache i).d with size := z }).flush i) := by
  obtain ⟨a, ha⟩ := h.icache
  refine ⟨h.sb, ?_, h.devsw, h.file, h.proc, h.outstanding, ?_⟩
  · show Function.update s'.dinode _ _ = _
    simp only [Fs.setD, Function.update_self]
    rw [h.dinode, h.inum]
  · show Function.update s'.icache i _ = _
    rw [ha, Function.update_idem, Function.update_self]

end Moved

theorem Clean.dirty (h : Clean β i s) :
    Dirty i (s.icache i).d (blocksOf (s.icache i).d.size) β ∅ s where
  sb := h.sb
  inum := h.inum
  kind := h.kind
  blocks := by
    have hview : s.view i (s.icache i).d = s.dinode := by
      unfold Fs.view
      rw [← h.same, Function.update_eq_self]
    have hcounts : s.counts i (blocksOf (s.icache i).d.size) =
        fun n => blocksOf (s.dinode n).size := by
      unfold Fs.counts
      rw [← h.same]
      exact Function.update_eq_self ..
    rw [hview, hcounts]
    exact h.blocks
  allocs := h.allocs

/-- An inode that has not changed. -/
theorem Clean.stored (h : Clean β i s) (hm : Moved i s s') (hi : s'.icache = s.icache) :
    Stored i (s.icache i).d s s' where
  sb := hm.sb
  dinode := by
    rw [hm.dinode, ← h.same, Function.update_eq_self]
  devsw := hm.devsw
  file := hm.file
  proc := hm.proc
  outstanding := hm.outstanding
  icache := by
    rw [hi]
    exact (Function.update_eq_self i s.icache).symm

namespace Dirty

/-- The inode of entry `i` in the view. -/
theorem view_self (s : Fs) (i : Slot) (d : Dinode) : s.view i d (s.icache i).inum = d :=
  Function.update_self ..

theorem counts_self (s : Fs) (i : Slot) (k : ℕ) : s.counts i k (s.icache i).inum = k :=
  Function.update_self ..

theorem view_kind (h : Dirty i d k β X s) : (s.view i d (s.icache i).inum).kind ≠ .free := by
  rw [view_self]
  exact h.kind

theorem filled (h : Dirty i d k β X s) : Filled d s.block k := by
  have hf := h.blocks.filled _ h.inum h.view_kind
  rwa [view_self, counts_self] at hf

theorem bytes (h : Dirty i d k β X s) : byteAt d s.block = β (s.icache i).inum := by
  have hb := h.blocks.bytes _ h.inum h.view_kind
  rwa [view_self] at hb

/-- No block is referred to twice. -/
theorem unique (h : Dirty i d k β X s) {p p' : Pos} (hp : refAt d s.block p = some b)
    (hp' : refAt d s.block p' = some b) : p = p' := by
  have hk := h.view_kind
  rw [← view_self s i d] at hp hp'
  exact (h.blocks.unique h.inum hk hp h.inum hk hp').2

/-- The addresses of the inode tell its blocks. -/
theorem setFields (h : Dirty i d k β X s) (ha : d'.addrs = d.addrs) (hk : d'.kind = d.kind) :
    Dirty i d' k β X s := by
  have hset := h.blocks.setFields (view_self s i d) ha hk
  unfold Fs.view at hset
  rw [Function.update_idem] at hset
  exact ⟨h.sb, h.inum, hk ▸ h.kind, hset, h.allocs⟩

/-- The view is written to the disk. -/
theorem clean (h : Dirty i d (blocksOf d.size) β ∅ s) (hd : Stored i d s s')
    (hblock : s'.block = s.block) (hbit : s'.bit = s.bit) (hallocs : s'.allocs = s.allocs) :
    Clean β i s' where
  sb := hd.sb ▸ h.sb
  blocks := by
    have hcounts : (fun n => blocksOf (s'.dinode n).size) = s.counts i (blocksOf d.size) := by
      funext n
      rw [hd.dinode]
      by_cases e : n = (s.icache i).inum
      · subst e
        rw [Function.update_self, counts_self]
      · rw [Function.update_of_ne e, Fs.counts, Function.update_of_ne e]
    rw [hcounts, hd.sb, hd.dinode, hblock, hbit]
    exact h.blocks
  allocs := by
    rw [hallocs, hd.sb]
    exact h.allocs
  inum := by
    rw [hd.icache, Function.update_self, hd.sb]
    exact h.inum
  kind := by
    rw [hd.icache, Function.update_self]
    exact h.kind
  same := by
    rw [hd.icache, Function.update_self, hd.dinode]
    exact Function.update_self ..

/-- The view has the inode of the disk. -/
theorem clean_of_same (h : Dirty i d (blocksOf d.size) β ∅ s) (hd : (s.icache i).d = d)
    (hs : s.dinode (s.icache i).inum = d) : Clean β i s := by
  apply h.clean _ rfl rfl rfl
  refine ⟨rfl, ?_, rfl, rfl, rfl, rfl, ?_⟩
  · rw [← hs, Function.update_eq_self]
  · rw [← hd]
    exact (Function.update_eq_self i s.icache).symm

/-! ## §2  Blocks are allocated and freed -/

/-- A block that can be allocated. -/
theorem alloc (h : Dirty i d k β X s) (hb : s.bit b = false) (hlt : b < s.sb.size) :
    Dirty i d k β (insert b X) (s.alloc b) ∧ b ≠ 0 := by
  obtain ⟨hblocks, hdata⟩ := h.blocks.take hb hlt
  refine ⟨⟨h.sb, h.inum, h.kind, hblocks, ?_⟩, ?_⟩
  · intro c hc
    rcases List.mem_cons.mp hc with rfl | hc
    · exact hdata
    · exact h.allocs c hc
  · have h0 : 0 < s.sb.size - s.sb.nblocks := h.sb.areas 0 (.inl rfl)
    exact Nat.ne_of_gt (Nat.lt_of_lt_of_le h0 hdata.1)

/-- A block in hand is freed. -/
theorem free (h : Dirty i d k β X s) (hb : b ∈ X) : Dirty i d k β (X \ {b}) (s.free b) :=
  ⟨h.sb, h.inum, h.kind, h.blocks.giveBack hb, h.allocs⟩

/-- The view does not depend on the rest of the entry. -/
theorem setD (h : Dirty i d k β X s) (d' : Dinode) : Dirty i d k β X (s.setD i d') := by
  have hinum : ((s.setD i d').icache i).inum = (s.icache i).inum := by
    simp only [Fs.setD, Function.update_self]
  refine ⟨h.sb, ?_, h.kind, ?_, h.allocs⟩
  · rw [hinum]
    exact h.inum
  · unfold Fs.view Fs.counts
    rw [hinum]
    exact h.blocks

theorem addDirect (h : Dirty i d k β X s) (hb : b ∈ X) (hb0 : b ≠ 0) (hz : s.block b = .zero)
    (hk : k < ndirect) (h0 : d.addrs ⟨k, Nat.lt_succ_of_lt hk⟩ = 0) :
    Dirty i (d.setAddr ⟨k, Nat.lt_succ_of_lt hk⟩ b) (k + 1) β (X \ {b}) s := by
  have hadd := h.blocks.addDirect (view_self s i d) (counts_self s i k) h.inum h.kind hb hb0
    hz hk h0
  unfold Fs.view Fs.counts at hadd
  rw [Function.update_idem, Function.update_idem] at hadd
  exact ⟨h.sb, h.inum, h.kind, hadd, h.allocs⟩

theorem addIndirect (h : Dirty i d k β X s) (hb : b ∈ X) (hb0 : b ≠ 0)
    (hz : s.block b = .zero) (h0 : d.addrs indirect = 0) :
    Dirty i (d.setAddr indirect b) k β (X \ {b}) s := by
  have hadd := h.blocks.addIndirect (view_self s i d) h.inum h.kind hb hb0 hz h0
  unfold Fs.view at hadd
  rw [Function.update_idem] at hadd
  exact ⟨h.sb, h.inum, h.kind, hadd, h.allocs⟩

theorem addWord {w : ℕ} (h : Dirty i d (ndirect + w) β X s) (hb : b ∈ X) (hb0 : b ≠ 0)
    (hz : s.block b = .zero) (hw : w < nindirect) (hc : d.addrs indirect ≠ 0)
    (h0 : (s.block (d.addrs indirect)).word w = 0) :
    Dirty i d (ndirect + w + 1) β (X \ {b})
      (s.setBlock (d.addrs indirect) ((s.block (d.addrs indirect)).setWord w b)) := by
  have hadd := h.blocks.addWord h.sb (view_self s i d) (counts_self s i _) h.inum h.kind hb hb0
    hz hw hc h0
  unfold Fs.counts at hadd
  rw [Function.update_idem] at hadd
  exact ⟨h.sb, h.inum, h.kind, hadd, h.allocs⟩

/-- Data are written into a block of the file. -/
theorem write (h : Dirty i d k β X s) (hb : refAt d s.block (filePos bn) = some b)
    (w : Block) :
    Dirty i d k (Function.update β (s.icache i).inum fun x =>
      if x / bsize = bn then UInt8.ofNat (w.byte (x % bsize)) else β (s.icache i).inum x) X
      (s.setBlock b w) :=
  ⟨h.sb, h.inum, h.kind, h.blocks.write (view_self s i d) h.inum h.kind hb, h.allocs⟩

end Dirty

theorem Fs.nfree_alloc (hb : s.bit b = false) (hlt : b < s.sb.size) :
    (s.alloc b).nfree + 1 = s.nfree := by
  have hmem : b ∈ (Finset.range s.sb.size).filter fun b => s.bit b = false :=
    Finset.mem_filter.mpr ⟨Finset.mem_range.mpr hlt, hb⟩
  have herase : ((Finset.range s.sb.size).filter fun c => (s.alloc b).bit c = false) =
      ((Finset.range s.sb.size).filter fun b => s.bit b = false).erase b := by
    ext c
    rw [Finset.mem_erase, Finset.mem_filter, Finset.mem_filter]
    show _ ∧ Function.update s.bit b true c = false ↔ _
    by_cases e : c = b
    · rw [e, Function.update_self]
      exact ⟨fun h => Bool.noConfusion h.2, fun h => absurd rfl h.1⟩
    · rw [Function.update_of_ne e]
      exact ⟨fun h => ⟨e, h⟩, fun h => h.2⟩
  show ((Finset.range s.sb.size).filter _).card + 1 = _
  rw [herase]
  exact Finset.card_erase_add_one hmem

/-! ## §3  `balloc` and `bmap` -/

section Steps

variable {E : Panic → Prop}

theorem wp_slot {Q : Inode → Fs → Prop} (h : Q (s.icache i) s) : wp (slot i) Q E s := by
  apply wp_bind
  apply wp_get
  exact wp_pure h

theorem wp_setSlot {Q : Unit → Fs → Prop} {ip : Inode}
    (h : Q () { s with icache := Function.update s.icache i ip }) :
    wp (setSlot i ip) Q E s :=
  wp_modify h

theorem wp_setData {Q : Unit → Fs → Prop} {f : Dinode → Dinode}
    (h : Q () (s.setD i (f (s.icache i).d))) : wp (setData i f) Q E s := by
  apply wp_bind
  apply wp_slot
  exact wp_setSlot h

theorem wp_iupdate {Q : Unit → Fs → Prop} (h : Q () (s.flush i)) : wp (iupdate i) Q E s := by
  apply wp_bind
  apply wp_slot
  exact wp_modify h

end Steps

theorem balloc_spec : wp balloc (fun b s' => s.bit b = false ∧ b < s.sb.size ∧
    s' = s.alloc b) (fun e => e = .outOfBlocks ∧ s.nfree = 0) s := by
  apply wp_bind
  apply wp_get
  split
  · rename_i b hfind
    apply wp_bind
    apply wp_set
    refine wp_pure ⟨?_, ?_, rfl⟩
    · have hb := List.find?_some hfind
      exact Bool.not_eq_true' _ |>.mp hb
    · exact List.mem_range.mp (List.mem_of_find?_eq_some hfind)
  · rename_i hfind
    refine wp_throw ⟨rfl, ?_⟩
    rw [Fs.nfree, Finset.card_eq_zero, Finset.filter_eq_empty_iff]
    intro b hb hbit
    have := List.find?_eq_none.mp hfind b (List.mem_range.mpr (Finset.mem_range.mp hb))
    rw [hbit] at this
    exact this rfl

/-- A block that is marked is freed. -/
theorem bfree_spec {E : Panic → Prop} (hb : s.bit b = true) :
    wp (bfree b) (fun _ s' => s' = s.free b) E s := by
  apply wp_bind
  apply wp_get
  rw [if_neg (by rw [hb]; nofun)]
  exact wp_set rfl

theorem bmapAddr_spec (a : Fin (ndirect + 1)) :
    wp (bmapAddr i a) (fun b s' =>
      (s.icache i).d.addrs a = b ∧ b ≠ 0 ∧ s' = s ∨
      (s.icache i).d.addrs a = 0 ∧ s.bit b = false ∧ b < s.sb.size ∧
        s' = (s.alloc b).setD i ((s.icache i).d.setAddr a b))
      (fun e => e = .outOfBlocks ∧ (s.icache i).d.addrs a = 0 ∧ s.nfree = 0) s := by
  apply wp_bind
  apply wp_slot
  apply wp_ite
  · intro h0
    apply wp_bind
    refine wp_mono balloc_spec ?_ fun e he => ⟨he.1, h0, he.2⟩
    rintro b _ ⟨hb, hlt, rfl⟩
    apply wp_bind
    apply wp_setData
    exact wp_pure (.inr ⟨h0, hb, hlt, rfl⟩)
  · intro h0
    exact wp_pure (.inl ⟨rfl, h0, rfl⟩)

/-- The number of blocks of a file with `k` blocks of data: the indirect block is
counted. -/
def withIndirect (k : ℕ) : ℕ := if ndirect < k then k + 1 else k

theorem withIndirect_mono {k k' : ℕ} (h : k ≤ k') : withIndirect k ≤ withIndirect k' := by
  unfold withIndirect
  split_ifs <;> omega

/-- What `bmap` leaves: the file has `k` blocks now, and no more free blocks are used
than the file has become longer. -/
structure Mapped (i : Slot) (k k' : ℕ) (β : ℕ → ℕ → UInt8) (s s' : Fs) : Prop where
  moved : Moved i s s'
  dirty : Dirty i (s'.icache i).d k' β ∅ s'
  room : s.nfree + withIndirect k ≤ s'.nfree + withIndirect k'

theorem Mapped.trans {k' k'' : ℕ} {β' : ℕ → ℕ → UInt8} (h : Mapped i k k' β s s')
    (h' : Mapped i k' k'' β' s' s'') : Mapped i k k'' β' s s'' where
  moved := h.moved.trans h'.moved
  dirty := h'.dirty
  room := by
    have := h.room
    have := h'.room
    omega

/-- A block of a file is in the file already. -/
theorem Dirty.mapped (h : Dirty i (s.icache i).d k β ∅ s) : Mapped i k k β s s :=
  ⟨.refl i s, h, Nat.le_refl _⟩

/-- A direct block is added. -/
theorem Dirty.mapDirect (h : Dirty i (s.icache i).d k β ∅ s) (hk : k < ndirect)
    (h0 : (s.icache i).d.addrs ⟨k, Nat.lt_succ_of_lt hk⟩ = 0) (hb : s.bit b = false)
    (hlt : b < s.sb.size) :
    Mapped i k (k + 1) β s
      ((s.alloc b).setD i ((s.icache i).d.setAddr ⟨k, Nat.lt_succ_of_lt hk⟩ b)) := by
  obtain ⟨ha, hb0⟩ := h.alloc hb hlt
  have hadd := (ha.addDirect (Set.mem_insert b ∅) hb0 (Function.update_self ..) hk h0).setD
    ((s.icache i).d.setAddr ⟨k, Nat.lt_succ_of_lt hk⟩ b)
  rw [Set.insert_sdiff_self_of_notMem (Set.notMem_empty b)] at hadd
  refine ⟨(Moved.alloc i s b).trans (Moved.setAddr i (s.alloc b) _ b), ?_, ?_⟩
  · simp only [Fs.setD, Function.update_self] at hadd ⊢
    exact hadd
  · have hfree := Fs.nfree_alloc hb hlt
    have hk1 : withIndirect (k + 1) = k + 1 := if_neg (by omega)
    have hk0 : withIndirect k = k := if_neg (by omega)
    rw [hk1, hk0]
    show s.nfree + k ≤ (s.alloc b).nfree + (k + 1)
    omega

/-- Without an indirect block there are no more than the direct ones. -/
theorem Dirty.no_words {w : ℕ} (h : Dirty i d k β X s) (h0 : d.addrs indirect = 0)
    (hbn : ndirect + w ≤ k) : k = ndirect ∧ w = 0 := by
  have hnone : refAt d s.block (filePos ndirect) = none := if_pos (.inl h0)
  have hiff := h.filled.iff ndirect (by decide)
  rw [hnone] at hiff
  have : ¬ ndirect < k := fun hk => hiff.mpr hk rfl
  omega

/-- The indirect block is added. -/
theorem Dirty.mapIndirect (h : Dirty i (s.icache i).d k β ∅ s)
    (h0 : (s.icache i).d.addrs indirect = 0) (hb : s.bit b = false) (hlt : b < s.sb.size)
    (hs : s' = (s.alloc b).setD i ((s.icache i).d.setAddr indirect b)) :
    Moved i s s' ∧ Dirty i (s'.icache i).d k β ∅ s' ∧ (s'.icache i).d.addrs indirect = b ∧
      b ≠ 0 ∧ s'.nfree + 1 = s.nfree := by
  have hself : (s'.icache i).d = (s.icache i).d.setAddr indirect b := by
    rw [hs]
    simp only [Fs.setD, Function.update_self]
  obtain ⟨ha, hb0⟩ := h.alloc hb hlt
  have hadd := (ha.addIndirect (Set.mem_insert b ∅) hb0 (Function.update_self ..) h0).setD
    ((s.icache i).d.setAddr indirect b)
  rw [Set.insert_sdiff_self_of_notMem (Set.notMem_empty b), ← hs] at hadd
  rw [hself]
  refine ⟨?_, hadd, ?_, hb0, ?_⟩
  · rw [hs]
    exact (Moved.alloc i s b).trans (Moved.setAddr i (s.alloc b) indirect b)
  · simp only [Dinode.setAddr, Function.update_self]
  · rw [hs]
    exact Fs.nfree_alloc hb hlt

/-- A word of the indirect block is filled in. -/
theorem Dirty.mapWord {w : ℕ} (h : Dirty i (s.icache i).d (ndirect + w) β ∅ s)
    (hw : w < nindirect) (hc : (s.icache i).d.addrs indirect ≠ 0)
    (h0 : (s.block ((s.icache i).d.addrs indirect)).word w = 0) (hb : s.bit b = false)
    (hlt : b < s.sb.size) :
    Dirty i (s.icache i).d (ndirect + w + 1) β ∅
      ((s.alloc b).setBlock ((s.icache i).d.addrs indirect)
        (((s.alloc b).block ((s.icache i).d.addrs indirect)).setWord w b)) := by
  obtain ⟨ha, hb0⟩ := h.alloc hb hlt
  -- the indirect block is in use, so that it is not the new one
  have hused := h.blocks.used h.inum h.view_kind
    (p := .addr indirect) (b := (s.icache i).d.addrs indirect) (by
      rw [view_self]
      exact refAt_addr.mpr ⟨rfl, hc⟩)
  have hne : (s.icache i).d.addrs indirect ≠ b := by
    intro e
    rw [e, hb] at hused
    cases hused.1
  have hword : ((s.alloc b).block ((s.icache i).d.addrs indirect)).word w = 0 := by
    show (Function.update s.block b .zero _).word w = 0
    rw [Function.update_of_ne hne]
    exact h0
  have hadd := ha.addWord (Set.mem_insert b ∅) hb0 (Function.update_self ..) hw hc hword
  rwa [Set.insert_sdiff_self_of_notMem (Set.notMem_empty b)] at hadd

/-- `bmap` of a block of `addrs[]`, which may be the next block of the file. -/
theorem bmap_direct_spec (h : Dirty i (s.icache i).d k β ∅ s) (hbn : bn ≤ k)
    (hlt : bn < ndirect) :
    wp (bmapAddr i ⟨bn, Nat.lt_succ_of_lt hlt⟩) (fun b s' =>
      Mapped i k (max k (bn + 1)) β s s' ∧
      refAt (s'.icache i).d s'.block (filePos bn) = some b ∧ (bn < k → s' = s))
      (fun e => e = .outOfBlocks ∧ s.nfree + withIndirect k < withIndirect (bn + 1)) s := by
  have hpos : filePos bn = .addr ⟨bn, Nat.lt_succ_of_lt hlt⟩ := dif_pos hlt
  have hmax : bn < maxfile := Nat.lt_of_lt_of_le hlt (Nat.le_add_right ..)
  have hiff := h.filled.iff bn hmax
  rw [hpos] at hiff
  -- an address that is 0 is the one of the next block
  have hnext : (s.icache i).d.addrs ⟨bn, Nat.lt_succ_of_lt hlt⟩ = 0 → bn = k := by
    intro h0
    have hnone : refAt (s.icache i).d s.block (.addr ⟨bn, Nat.lt_succ_of_lt hlt⟩) = none :=
      if_pos h0
    rw [hnone] at hiff
    have : ¬ bn < k := fun hk => hiff.mpr hk rfl
    omega
  apply wp_mono (bmapAddr_spec _)
  · rintro b s' (⟨hb, hb0, rfl⟩ | ⟨h0, hb, hsz, rfl⟩)
    · have href : refAt (s'.icache i).d s'.block (.addr ⟨bn, by omega⟩) = some b :=
        refAt_addr.mpr ⟨hb, hb0⟩
      have hk : bn < k := hiff.mp (by rw [href]; nofun)
      refine ⟨?_, ?_, fun _ => rfl⟩
      · rw [Nat.max_eq_left hk]
        exact h.mapped
      · rw [hpos]
        exact href
    · obtain rfl := hnext h0
      have hm := h.mapDirect hlt h0 hb hsz
      refine ⟨?_, ?_, fun hk => absurd hk (Nat.lt_irrefl _)⟩
      · rw [Nat.max_eq_right (Nat.le_succ _)]
        exact hm
      · rw [hpos]
        simp only [Fs.setD, Function.update_self]
        exact refAt_setAddr_self (h.alloc hb hsz).2
  · rintro e ⟨he, h0, hfree⟩
    refine ⟨he, ?_⟩
    obtain rfl := hnext h0
    have hk1 : withIndirect (bn + 1) = bn + 1 := if_neg (by omega)
    have hk0 : withIndirect bn = bn := if_neg (by omega)
    omega

/-- `bmap` of a block of the indirect block. -/
theorem bmapWord_spec {w : ℕ} (h : Dirty i (s.icache i).d k β ∅ s) (hbn : ndirect + w ≤ k)
    (hw : w < nindirect) (hc : (s.icache i).d.addrs indirect ≠ 0) :
    wp (bmapWord ((s.icache i).d.addrs indirect) w) (fun b s' =>
      (ndirect + w < k ∧ s' = s ∨ k = ndirect + w ∧ Moved i s s' ∧ s'.nfree + 1 = s.nfree) ∧
      Dirty i (s'.icache i).d (max k (ndirect + w + 1)) β ∅ s' ∧
      refAt (s'.icache i).d s'.block (filePos (ndirect + w)) = some b)
      (fun e => e = .outOfBlocks ∧ k = ndirect + w ∧ s.nfree = 0) s := by
  have hpos : filePos (ndirect + w) = .word w := by
    unfold filePos
    rw [dif_neg (by omega), Nat.add_sub_cancel_left]
  have hmax : ndirect + w < maxfile := Nat.add_lt_add_left hw _
  have hiff := h.filled.iff _ hmax
  rw [hpos] at hiff
  apply wp_bind
  apply wp_get
  apply wp_ite
  · intro h0
    -- a word that is 0 is the one of the next block
    have hnone : refAt (s.icache i).d s.block (.word w) = none := if_pos (.inr h0)
    rw [hnone] at hiff
    have hnot : ¬ ndirect + w < k := fun hk => hiff.mpr hk rfl
    obtain rfl : k = ndirect + w := by omega
    apply wp_bind
    refine wp_mono balloc_spec ?_ fun e he => ⟨he.1, rfl, he.2⟩
    rintro b _ ⟨hb, hlt, rfl⟩
    have hd := h.mapWord hw hc h0 hb hlt
    apply wp_bind
    apply wp_modify
    refine wp_pure ⟨.inr ⟨rfl, ?_, Fs.nfree_alloc hb hlt⟩, ?_, ?_⟩
    · exact (Moved.alloc i s b).trans (Moved.setBlock i _ _ _)
    · rw [Nat.max_eq_right (Nat.le_succ _)]
      exact hd
    · rw [hpos]
      obtain ⟨_, hb0⟩ := h.alloc hb hlt
      exact refAt_setWord_self hw hb0 (Nat.lt_of_lt_of_le hlt h.sb.size) hc
  · intro h0
    have href : refAt (s.icache i).d s.block (.word w) = some _ :=
      refAt_word.mpr ⟨hc, rfl, h0⟩
    have hk : ndirect + w < k := hiff.mp (by rw [href]; nofun)
    refine wp_pure ⟨.inl ⟨hk, rfl⟩, ?_, ?_⟩
    · rw [Nat.max_eq_left hk]
      exact h
    · rw [hpos]
      exact href

/-- `bmap` of a block of the file, or of the next one. -/
theorem bmap_spec (h : Dirty i (s.icache i).d k β ∅ s) (hbn : bn ≤ k) (hmax : bn < maxfile) :
    wp (bmap i bn) (fun b s' => Mapped i k (max k (bn + 1)) β s s' ∧
      refAt (s'.icache i).d s'.block (filePos bn) = some b ∧ (bn < k → s' = s))
      (fun e => e = .outOfBlocks ∧ s.nfree + withIndirect k < withIndirect (bn + 1)) s := by
  unfold bmap
  by_cases hlt : bn < ndirect
  · rw [dif_pos hlt]
    exact bmap_direct_spec h hbn hlt
  obtain ⟨w, rfl⟩ := Nat.exists_eq_add_of_le (Nat.le_of_not_lt hlt)
  have hw : w < nindirect := Nat.lt_of_add_lt_add_left hmax
  rw [dif_neg hlt, Nat.add_sub_cancel_left, if_pos hw]
  have hk1 : withIndirect (ndirect + w + 1) = ndirect + w + 2 := if_pos (by omega)
  have hk0 : withIndirect (ndirect + w) ≤ ndirect + w + 1 := by
    unfold withIndirect
    split_ifs <;> omega
  apply wp_bind
  apply wp_mono (bmapAddr_spec _)
  · rintro a s' (⟨rfl, hc, rfl⟩ | ⟨h0, hb, hsz, hs⟩)
    · apply wp_mono (bmapWord_spec h hbn hw hc)
      · rintro b s₁ ⟨⟨hk, rfl⟩ | ⟨rfl, hm, hfree⟩, hd, href⟩
        · refine ⟨?_, href, fun _ => rfl⟩
          rw [Nat.max_eq_left hk] at hd ⊢
          exact hd.mapped
        · refine ⟨⟨hm, hd, ?_⟩, href, fun hk => absurd hk (Nat.lt_irrefl _)⟩
          rw [Nat.max_eq_right (Nat.le_succ _), hk1]
          omega
      · rintro e ⟨he, rfl, hfree⟩
        exact ⟨he, by omega⟩
    · obtain ⟨rfl, rfl⟩ := h.no_words h0 hbn
      obtain ⟨hm₁, hd₁, rfl, ha0, hfree₁⟩ := h.mapIndirect h0 hb hsz hs
      apply wp_mono (bmapWord_spec hd₁ (Nat.le_refl _) hw ha0)
      · rintro b s₂ ⟨⟨hk, _⟩ | ⟨_, hm, hfree⟩, hd, href⟩
        · exact absurd hk (Nat.lt_irrefl _)
        · refine ⟨⟨hm₁.trans hm, hd, ?_⟩, href, fun hk => absurd hk (Nat.lt_irrefl _)⟩
          rw [Nat.max_eq_right (Nat.le_succ _), hk1, withIndirect, if_neg (Nat.lt_irrefl _)]
          omega
      · rintro e ⟨he, _, hfree⟩
        refine ⟨he, ?_⟩
        rw [hk1, withIndirect, if_neg (Nat.lt_irrefl _)]
        omega
  · rintro e ⟨he, h0, hfree⟩
    refine ⟨he, ?_⟩
    obtain ⟨rfl, rfl⟩ := h.no_words h0 hbn
    rw [hk1, withIndirect, if_neg (Nat.lt_irrefl _)]
    omega

/-! ## §4  `itrunc` -/

/-- The blocks that the positions in `P` refer to. -/
def refs (d : Dinode) (block : ℕ → Block) (P : Set Pos) : Set ℕ :=
  {b | ∃ p ∈ P, refAt d block p = some b}

section Refs

variable {block : ℕ → Block} {P : Set Pos} {p : Pos}

theorem refs_sdiff_of_some
    (hu : ∀ {p p' b}, refAt d block p = some b → refAt d block p' = some b → p = p')
    (hb : refAt d block p = some b) : refs d block P \ {b} = refs d block (P \ {p}) := by
  ext c
  constructor
  · rintro ⟨⟨p', hp', hc⟩, hne⟩
    refine ⟨p', ⟨hp', ?_⟩, hc⟩
    rintro rfl
    exact hne (Option.some.inj (hc.symm.trans hb))
  · rintro ⟨p', ⟨hp', hne⟩, hc⟩
    refine ⟨⟨p', hp', hc⟩, ?_⟩
    rintro rfl
    exact hne (hu hc hb)

theorem refs_sdiff_of_none (hb : refAt d block p = none) :
    refs d block P = refs d block (P \ {p}) := by
  ext c
  constructor
  · rintro ⟨p', hp', hc⟩
    refine ⟨p', ⟨hp', ?_⟩, hc⟩
    rintro rfl
    cases hb.symm.trans hc
  · rintro ⟨p', hp', hc⟩
    exact ⟨p', hp'.1, hc⟩

end Refs

/-- An inode without contents. -/
def Dinode.cleared (d : Dinode) : Dinode := { d with size := 0, addrs := fun _ => 0 }

/-- In `itrunc`, which began in the state `s`: the blocks at the positions in `P` are not
yet freed. -/
structure Cut (i : Slot) (β : ℕ → ℕ → UInt8) (P : Set Pos) (s s' : Fs) : Prop where
  moved : Moved i s s'
  block : s'.block = s.block
  dirty : Dirty i (s.icache i).d.cleared 0 (Function.update β (s.icache i).inum fun _ => 0)
    (refs (s.icache i).d s.block P) s'

namespace Cut

variable {P : Set Pos} {p : Pos} {E : Panic → Prop}

theorem start (h : Clean β i s) : Cut i β Set.univ s s where
  moved := .refl i s
  block := rfl
  dirty := by
    have hd := h.dirty
    have hkind : (s.icache i).d.cleared.kind = (s.icache i).d.kind := rfl
    have hcut := hd.blocks.detach (Dirty.view_self s i _) hd.inum hd.kind hkind fun _ => rfl
    have hX : ∅ ∪ {b | ∃ p, refAt (s.icache i).d s.block p = some b} =
        refs (s.icache i).d s.block Set.univ := by
      ext b
      simp [refs]
    rw [hX] at hcut
    unfold Fs.view Fs.counts at hcut
    rw [Function.update_idem, Function.update_idem] at hcut
    exact ⟨hd.sb, hd.inum, hd.kind, hcut, hd.allocs⟩

/-- A block is freed. -/
theorem bfree_spec (hc : Clean β i s) (h : Cut i β P s s') (hp : p ∈ P)
    (hb : refAt (s.icache i).d s.block p = some b) :
    wp (bfree b) (fun _ s'' => Cut i β (P \ {p}) s s'' ∧ s''.icache = s'.icache) E s' := by
  have hmem : b ∈ refs (s.icache i).d s.block P := ⟨p, hp, hb⟩
  apply wp_mono (Inodes.bfree_spec (E := E) (h.dirty.blocks.inHand hmem).1) _ fun _ => id
  rintro _ _ rfl
  refine ⟨⟨h.moved.trans (.free i s' b), h.block, ?_⟩, rfl⟩
  rw [← refs_sdiff_of_some hc.dirty.unique hb]
  exact h.dirty.free hmem

/-- There is no block. -/
theorem skip (h : Cut i β P s s') (hb : refAt (s.icache i).d s.block p = none) :
    Cut i β (P \ {p}) s s' :=
  ⟨h.moved, h.block, refs_sdiff_of_none hb ▸ h.dirty⟩

theorem setAddr (h : Cut i β P s s') (k : Fin (ndirect + 1)) (b : ℕ) :
    Cut i β P s (s'.setD i ((s'.icache i).d.setAddr k b)) :=
  ⟨h.moved.trans (.setAddr i s' k b), h.block, h.dirty.setD _⟩

/-- The positions of a list are taken out one by one. -/
theorem sdiff_cons {α : Type} (f : α → Pos) (P : Set Pos) (a : α) (l : List α) :
    (P \ {f a}) \ {p | ∃ b ∈ l, p = f b} = P \ {p | ∃ b ∈ a :: l, p = f b} := by
  rw [Set.sdiff_sdiff]
  congr 1
  ext p
  simp

theorem truncDirect_spec {ks : List (Fin (ndirect + 1))} (hc : Clean β i s) (hks : ks.Nodup)
    (h : Cut i β P s s') (hin : ∀ k ∈ ks, (s'.icache i).d.addrs k = (s.icache i).d.addrs k ∧
      Pos.addr k ∈ P) :
    wp (truncDirect i ks) (fun _ s'' => Cut i β (P \ {p | ∃ k ∈ ks, p = .addr k}) s s'' ∧
      ∀ k, (s''.icache i).d.addrs k = if k ∈ ks then 0 else (s'.icache i).d.addrs k) E s' := by
  induction ks generalizing P s' with
  | nil =>
      refine wp_pure ⟨?_, fun k => rfl⟩
      have hP : P \ {p | ∃ k ∈ ([] : List (Fin (ndirect + 1))), p = .addr k} = P := by
        ext p
        simp
      rw [hP]
      exact h
  | cons k ks ih =>
      obtain ⟨hk, hks⟩ := List.nodup_cons.mp hks
      obtain ⟨haddr, hP⟩ := hin k List.mem_cons_self
      -- the rest of the list, from a state in which this address is 0
      have hrest : ∀ {s₁}, Cut i β (P \ {.addr k}) s s₁ →
          (∀ k', (s₁.icache i).d.addrs k' = if k' = k then 0 else (s'.icache i).d.addrs k') →
          wp (truncDirect i ks) (fun _ s'' =>
            Cut i β (P \ {p | ∃ k' ∈ k :: ks, p = .addr k'}) s s'' ∧
            ∀ k', (s''.icache i).d.addrs k' =
              if k' ∈ k :: ks then 0 else (s'.icache i).d.addrs k') E s₁ := by
        intro s₁ h₁ ha₁
        refine wp_mono (ih hks h₁ ?_) ?_ fun _ => id
        · intro k' hk'
          have hne : k' ≠ k := fun e => hk (e ▸ hk')
          obtain ⟨ha', hP'⟩ := hin k' (List.mem_cons_of_mem _ hk')
          refine ⟨?_, hP', fun e => hne (Pos.addr.inj e)⟩
          rw [ha₁, if_neg hne, ha']
        · rintro _ s₂ ⟨h₂, ha₂⟩
          rw [sdiff_cons Pos.addr] at h₂
          refine ⟨h₂, fun k' => ?_⟩
          rw [ha₂, ha₁]
          by_cases e : k' = k <;> by_cases e' : k' ∈ ks <;> simp [e, e']
      apply wp_bind
      apply wp_slot
      apply wp_ite
      · intro h0
        rw [haddr] at h0
        have href : refAt (s.icache i).d s.block (.addr k) = some ((s'.icache i).d.addrs k) :=
          refAt_addr.mpr ⟨haddr.symm, haddr ▸ h0⟩
        apply wp_call (bfree_spec hc h hP href)
        rintro _ s₁ ⟨h₁, hs₁⟩
        apply wp_bind
        apply wp_setData
        apply hrest (h₁.setAddr k 0)
        intro k'
        simp only [Fs.setD, Function.update_self, Dinode.setAddr, hs₁]
        by_cases e : k' = k
        · rw [e, Function.update_self, if_pos rfl]
        · rw [Function.update_of_ne e, if_neg e]
      · intro h0
        rw [not_not] at h0
        apply hrest (h.skip (if_pos (haddr ▸ h0)))
        intro k'
        split_ifs with e
        · rw [e, h0]
        · rfl

theorem truncIndirect_spec {js : List ℕ} (hc : Clean β i s) (hjs : js.Nodup)
    (hne : (s.icache i).d.addrs indirect ≠ 0) (h : Cut i β P s s')
    (hin : ∀ j ∈ js, Pos.word j ∈ P) :
    wp (truncIndirect (s.block ((s.icache i).d.addrs indirect)) js) (fun _ s'' =>
      Cut i β (P \ {p | ∃ j ∈ js, p = .word j}) s s'' ∧ s''.icache = s'.icache) E s' := by
  induction js generalizing P s' with
  | nil =>
      refine wp_pure ⟨?_, rfl⟩
      have hP : P \ {p | ∃ j ∈ ([] : List ℕ), p = .word j} = P := by
        ext p
        simp
      rw [hP]
      exact h
  | cons j js ih =>
      obtain ⟨hj, hjs⟩ := List.nodup_cons.mp hjs
      have hrest : ∀ {s₁}, Cut i β (P \ {.word j}) s s₁ → s₁.icache = s'.icache →
          wp (truncIndirect (s.block ((s.icache i).d.addrs indirect)) js) (fun _ s'' =>
            Cut i β (P \ {p | ∃ j' ∈ j :: js, p = .word j'}) s s'' ∧
            s''.icache = s'.icache) E s₁ := by
        intro s₁ h₁ hs₁
        refine wp_mono (ih hjs h₁ ?_) ?_ fun _ => id
        · intro j' hj'
          have hjj : j' ≠ j := fun e => hj (e ▸ hj')
          exact ⟨hin j' (List.mem_cons_of_mem _ hj'), fun e => hjj (Pos.word.inj e)⟩
        · rintro _ s₂ ⟨h₂, hs₂⟩
          rw [sdiff_cons Pos.word] at h₂
          exact ⟨h₂, hs₂.trans hs₁⟩
      apply wp_ite
      · intro h0
        have href : refAt (s.icache i).d s.block (.word j) = some _ :=
          refAt_word.mpr ⟨hne, rfl, h0⟩
        apply wp_call (bfree_spec hc h (hin j List.mem_cons_self) href)
        rintro _ s₁ ⟨h₁, hs₁⟩
        exact hrest h₁ hs₁
      · intro h0
        exact hrest (h.skip (if_pos (.inr (not_not.mp h0)))) rfl

/-- All blocks are freed, and the inode is written. -/
theorem finish (h : Cut i β P s s') (hP : ∀ p b, refAt (s.icache i).d s.block p = some b → p ∉ P)
    (ha : ∀ k, (s'.icache i).d.addrs k = 0) :
    Stored i (s.icache i).d.cleared s
      ((s'.setD i { (s'.icache i).d with size := 0 }).flush i) ∧
    Clean (Function.update β (s.icache i).inum fun _ => 0) i
      ((s'.setD i { (s'.icache i).d with size := 0 }).flush i) := by
  have hrefs : refs (s.icache i).d s.block P = ∅ := by
    ext b
    constructor
    · rintro ⟨p, hp, hb⟩
      exact hP p b hb hp
    · nofun
  have hd := h.dirty
  rw [hrefs] at hd
  have hdata : { (s'.icache i).d with size := 0 } = (s.icache i).d.cleared := by
    rw [h.moved.data, (funext ha : (s'.icache i).d.addrs = fun _ => 0)]
    rfl
  have hblocks : blocksOf (s.icache i).d.cleared.size = 0 := by
    show blocksOf 0 = 0
    decide
  rw [← hblocks] at hd
  have hflush := h.moved.flush 0
  have hflush' := (Moved.refl i s').flush 0
  rw [hdata] at hflush hflush' ⊢
  exact ⟨hflush, hd.clean hflush' rfl rfl rfl⟩

end Cut

theorem itrunc_spec {E : Panic → Prop} (h : Clean β i s) :
    wp (itrunc i) (fun _ s' => Stored i (s.icache i).d.cleared s s' ∧
      Clean (Function.update β (s.icache i).inum fun _ => 0) i s') E s := by
  have hdirects : ∀ k, k ∈ directs ↔ k ≠ indirect := by decide
  have hstart := Cut.start h
  apply wp_call (Cut.truncDirect_spec h (by decide) hstart fun k _ => ⟨rfl, trivial⟩)
  rintro _ s₁ ⟨h₁, ha₁⟩
  have hind : (s₁.icache i).d.addrs indirect = (s.icache i).d.addrs indirect := by
    rw [ha₁, if_neg fun hm => (hdirects _).mp hm rfl]
  -- the direct addresses are 0 from here on
  have hzero : ∀ k, k ≠ indirect → (s₁.icache i).d.addrs k = 0 := by
    intro k hk
    rw [ha₁, if_pos ((hdirects k).mpr hk)]
  apply wp_bind
  apply wp_slot
  apply wp_ite
  · intro h0
    rw [hind] at h0
    apply wp_bind
    apply wp_get
    rw [hind, h₁.block]
    apply wp_call (Cut.truncIndirect_spec h (by decide +kernel) h0 h₁ ?_)
    · rintro _ s₂ ⟨h₂, hs₂⟩
      have hself : refAt (s.icache i).d s.block (.addr indirect) =
          some ((s.icache i).d.addrs indirect) := refAt_addr.mpr ⟨rfl, h0⟩
      apply wp_call (Cut.bfree_spec h h₂ ?_ hself)
      · rintro _ s₃ ⟨h₃, hs₃⟩
        apply wp_bind
        apply wp_setData
        apply wp_bind
        apply wp_setData
        apply wp_iupdate
        apply (h₃.setAddr indirect 0).finish
        · rintro p b hb ⟨⟨⟨_, hdir⟩, hword⟩, hi⟩
          cases p with
          | addr k => exact hi (congrArg _ (not_not.mp fun hk => hdir ⟨k, (hdirects k).mpr hk, rfl⟩))
          | word j =>
              refine hword ⟨j, List.mem_range.mpr (Nat.lt_of_not_le fun hj => ?_), rfl⟩
              obtain ⟨_, rfl, hne⟩ := refAt_word.mp hb
              exact hne (Block.word_of_le hj)
        · intro k
          simp only [Fs.setD, Function.update_self, Dinode.setAddr, hs₃, hs₂]
          by_cases e : k = indirect
          · rw [e, Function.update_self]
          · rw [Function.update_of_ne e]
            exact hzero k e
      · refine ⟨⟨trivial, ?_⟩, ?_⟩
        · rintro ⟨k, hk, e⟩
          exact (hdirects k).mp hk (Pos.addr.inj e).symm
        · rintro ⟨j, _, e⟩
          cases e
    · intro j _
      refine ⟨trivial, ?_⟩
      rintro ⟨k, _, e⟩
      cases e
  · intro h0
    rw [not_not, hind] at h0
    apply wp_bind
    apply wp_setData
    apply wp_iupdate
    apply h₁.finish
    · rintro p b hb ⟨_, hdir⟩
      cases p with
      | addr k =>
          by_cases hk : k = indirect
          · obtain ⟨e, hne⟩ := refAt_addr.mp hb
            rw [hk, h0] at e
            exact hne e.symm
          · exact hdir ⟨k, (hdirects k).mpr hk, rfl⟩
      | word j => exact (refAt_word.mp hb).1 h0
    · intro k
      by_cases hk : k = indirect
      · rw [hk, hind, h0]
      · exact hzero k hk

end Xv6.Inodes
