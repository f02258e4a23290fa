import Xv6.Fs.Inode
import Xv6.Lib.Ledger

/-!
# Who owns a block

A block is referenced from a position of an inode: an entry of `addrs[]`, or a word
of the indirect block (`refAt`). `Blocks` says that the bitmap is a ledger of these
references, that the inodes have no holes, and what their bytes are. It is about a
view of the inodes, which may be ahead of the disk, and leaves out a set of blocks in
hand, which are marked and not yet, or no longer, referenced. One lemma for each thing
that fs.c does to a block or an inode.
-/

namespace Xv6.Inodes

open Xv6.Lib

/-! ## §1  Words and bytes of a block -/

namespace Block

variable {v : Block} {i j w : ℕ} {src : List UInt8}

theorem byte_zero (i : ℕ) : zero.byte i = 0 := by
  unfold byte
  split <;> rfl

theorem word_zero (j : ℕ) : zero.word j = 0 := by
  simp [word, byte_zero]

theorem byte_setWord (v : Block) (j w i : ℕ) : (v.setWord j w).byte i =
    if i / 4 = j ∧ i < bsize then w / 256 ^ (i % 4) % 256 else v.byte i := by
  unfold byte
  by_cases hi : i < bsize
  · by_cases hj : i / 4 = j
    · simp [hi, hj, setWord]
    · simp [hi, hj, setWord]
  · simp [hi]

theorem word_setWord_self (hj : j < nindirect) (hw : w < uintSize) :
    (v.setWord j w).word j = w := by
  unfold nindirect at hj
  unfold uintSize at hw
  have h0 : 4 * j / 4 = j ∧ 4 * j < bsize := by unfold bsize; omega
  have h1 : (4 * j + 1) / 4 = j ∧ 4 * j + 1 < bsize := by unfold bsize; omega
  have h2 : (4 * j + 2) / 4 = j ∧ 4 * j + 2 < bsize := by unfold bsize; omega
  have h3 : (4 * j + 3) / 4 = j ∧ 4 * j + 3 < bsize := by unfold bsize; omega
  have m0 : 4 * j % 4 = 0 := by omega
  have m1 : (4 * j + 1) % 4 = 1 := by omega
  have m2 : (4 * j + 2) % 4 = 2 := by omega
  have m3 : (4 * j + 3) % 4 = 3 := by omega
  simp only [word, byte_setWord, if_pos h0, if_pos h1, if_pos h2, if_pos h3, m0, m1, m2, m3]
  omega

theorem word_setWord_ne (h : i ≠ j) : (v.setWord j w).word i = v.word i := by
  have h0 : ¬ (4 * i / 4 = j ∧ 4 * i < bsize) := by omega
  have h1 : ¬ ((4 * i + 1) / 4 = j ∧ 4 * i + 1 < bsize) := by omega
  have h2 : ¬ ((4 * i + 2) / 4 = j ∧ 4 * i + 2 < bsize) := by omega
  have h3 : ¬ ((4 * i + 3) / 4 = j ∧ 4 * i + 3 < bsize) := by omega
  simp only [word, byte_setWord, if_neg h0, if_neg h1, if_neg h2, if_neg h3]

/-- There are only `nindirect` words. -/
theorem word_of_le (h : nindirect ≤ j) : v.word j = 0 := by
  unfold nindirect at h
  have hb : ∀ k, v.byte (4 * j + k) = 0 := by
    intro k
    unfold byte bsize
    rw [dif_neg (by omega)]
  have h0 : v.byte (4 * j) = 0 := hb 0
  simp [word, h0, hb]

theorem byte_write (v : Block) (pos : ℕ) (src : List UInt8) (i : ℕ) :
    (v.write pos src).byte i =
      if pos ≤ i ∧ i < pos + src.length ∧ i < bsize then (src.getD (i - pos) 0).toNat
      else v.byte i := by
  unfold byte
  by_cases hi : i < bsize
  · by_cases hp : pos ≤ i ∧ i < pos + src.length
    · simp [hi, hp, write]
    · simp [hi, hp, write]
  · simp [hi]

end Block

/-! ## §2  References -/

/-- A position of an inode: an entry of `addrs[]`, or a word of the indirect
block. -/
inductive Pos where
  | addr (k : Fin (ndirect + 1))
  | word (j : ℕ)
deriving DecidableEq, Repr

/-- The block that a position refers to. -/
def refAt (d : Dinode) (block : ℕ → Block) : Pos → Option ℕ
  | .addr k => if d.addrs k = 0 then none else some (d.addrs k)
  | .word j =>
      if d.addrs indirect = 0 ∨ (block (d.addrs indirect)).word j = 0 then none
      else some ((block (d.addrs indirect)).word j)

/-- The references of all allocated inodes. -/
def place (ninodes : ℕ) (v : ℕ → Dinode) (block : ℕ → Block) (r : ℕ × Pos) : Option ℕ :=
  if r.1 < ninodes ∧ (v r.1).kind ≠ .free then refAt (v r.1) block r.2 else none

/-- The position of block `bn` of a file. -/
def filePos (bn : ℕ) : Pos :=
  if h : bn < ndirect then .addr ⟨bn, Nat.lt_succ_of_lt h⟩ else .word (bn - ndirect)

/-- The number of blocks of `size` bytes. -/
def blocksOf (size : ℕ) : ℕ := (size + bsize - 1) / bsize

/-- The file has its first `k` blocks, and no others. -/
structure Filled (d : Dinode) (block : ℕ → Block) (k : ℕ) : Prop where
  le : k ≤ maxfile
  iff : ∀ bn, bn < maxfile → (refAt d block (filePos bn) ≠ none ↔ bn < k)

/-- Byte `x` of the contents of an inode, and 0 where there is no block. -/
def byteAt (d : Dinode) (block : ℕ → Block) (x : ℕ) : UInt8 :=
  match refAt d block (filePos (x / bsize)) with
  | some b => UInt8.ofNat ((block b).byte (x % bsize))
  | none => 0

/-- The areas of the disk are in front of the data blocks, and block numbers fit
into a word. -/
structure Superblock.Ok (sb : Superblock) : Prop where
  areas : ∀ b, sb.Area b → b < sb.size - sb.nblocks
  size : sb.size ≤ uintSize
  ninodes : 1 < sb.ninodes

/-- The bitmap, for a view `v` of the inodes in which inode `n` has `nb n` blocks and the
bytes `β n`, with the blocks in `X` in hand. -/
structure Blocks (sb : Superblock) (v : ℕ → Dinode) (nb : ℕ → ℕ) (β : ℕ → ℕ → UInt8)
    (X : Set ℕ) (block : ℕ → Block) (bit : ℕ → Bool) : Prop where
  ledger : Ledger (place sb.ninodes v block) X fun b => bit b = true ∧ sb.Data b
  areas : ∀ b, b < sb.size - sb.nblocks → bit b = true
  filled : ∀ n, n < sb.ninodes → (v n).kind ≠ .free → Filled (v n) block (nb n)
  bytes : ∀ n, n < sb.ninodes → (v n).kind ≠ .free → byteAt (v n) block = β n

section References

variable {d d' : Dinode} {block block' : ℕ → Block} {k : Fin (ndirect + 1)} {b c n j : ℕ}
  {p : Pos} {v v' : ℕ → Dinode} {ninodes : ℕ}

theorem refAt_addr : refAt d block (.addr k) = some b ↔ d.addrs k = b ∧ b ≠ 0 := by
  show (if d.addrs k = 0 then none else some (d.addrs k)) = some b ↔ _
  split_ifs with h
  · constructor
    · nofun
    · rintro ⟨rfl, hb⟩
      exact absurd h hb
  · constructor
    · intro e
      obtain rfl := Option.some.inj e
      exact ⟨rfl, h⟩
    · rintro ⟨rfl, _⟩
      rfl

theorem refAt_word : refAt d block (.word j) = some b ↔
    d.addrs indirect ≠ 0 ∧ (block (d.addrs indirect)).word j = b ∧ b ≠ 0 := by
  show (if d.addrs indirect = 0 ∨ (block (d.addrs indirect)).word j = 0 then none
    else some ((block (d.addrs indirect)).word j)) = some b ↔ _
  split_ifs with h
  · constructor
    · nofun
    · rintro ⟨hi, rfl, hb⟩
      exact absurd h (not_or.mpr ⟨hi, hb⟩)
  · obtain ⟨hi, hw⟩ := not_or.mp h
    constructor
    · intro e
      obtain rfl := Option.some.inj e
      exact ⟨hi, rfl, hw⟩
    · rintro ⟨_, rfl, _⟩
      rfl

theorem place_eq_some : place ninodes v block (n, p) = some b ↔
    (n < ninodes ∧ (v n).kind ≠ .free) ∧ refAt (v n) block p = some b := by
  unfold place
  split_ifs with h
  · exact ⟨fun e => ⟨h, e⟩, fun e => e.2⟩
  · exact ⟨nofun, fun e => absurd e.1 h⟩

/-- The references depend on the addresses and the indirect block only. -/
theorem refAt_congr (ha : d'.addrs = d.addrs)
    (hb : d.addrs indirect ≠ 0 → block' (d.addrs indirect) = block (d.addrs indirect)) :
    refAt d' block' p = refAt d block p := by
  cases p with
  | addr k => simp only [refAt, ha]
  | word j =>
      by_cases h0 : d.addrs indirect = 0
      · simp [refAt, ha, h0]
      · simp [refAt, ha, h0, hb h0]

theorem filePos_ne_indirect (bn : ℕ) : filePos bn ≠ .addr indirect := by
  unfold filePos
  split_ifs with h
  · intro e
    have := congrArg Fin.val (Pos.addr.inj e)
    simp only [indirect, Fin.val_last] at this
    omega
  · nofun

theorem filePos_inj {bn bn' : ℕ} (h : filePos bn = filePos bn') : bn = bn' := by
  unfold filePos at h
  split_ifs at h with h₁ h₂ h₂
  · exact congrArg Fin.val (Pos.addr.inj h)
  · have := Pos.word.inj h
    omega

/-- An inode without addresses. -/
theorem refAt_eq_none (h : ∀ k, d.addrs k = 0) (p : Pos) : refAt d block p = none := by
  cases p with
  | addr k => exact if_pos (h k)
  | word j => exact if_pos (.inl (h indirect))

theorem refAt_setAddr_self (hb : b ≠ 0) : refAt (d.setAddr k b) block (.addr k) = some b :=
  refAt_addr.mpr ⟨Function.update_self .., hb⟩

/-- The other positions, where the new address is one of a zeroed block. -/
theorem refAt_setAddr_ne (h0 : d.addrs k = 0) (hz : block b = .zero) (hp : p ≠ .addr k) :
    refAt (d.setAddr k b) block p = refAt d block p := by
  cases p with
  | addr k' =>
      have hk : k' ≠ k := fun e => hp (congrArg _ e)
      simp only [refAt, Dinode.setAddr, Function.update_of_ne hk]
  | word j =>
      by_cases hk : indirect = k
      · subst hk
        have hw : (block b).word j = 0 := hz ▸ Block.word_zero j
        simp [refAt, Dinode.setAddr, h0, hw]
      · simp only [refAt, Dinode.setAddr, Function.update_of_ne hk]

/-- A word of block `c` is set. -/
def setWordAt (block : ℕ → Block) (c j b : ℕ) : ℕ → Block :=
  Function.update block c ((block c).setWord j b)

theorem refAt_setWord_self (hj : j < nindirect) (hb : b ≠ 0) (hlt : b < uintSize)
    (hc : d.addrs indirect ≠ 0) :
    refAt d (setWordAt block (d.addrs indirect) j b) (.word j) = some b := by
  rw [refAt_word, setWordAt, Function.update_self, Block.word_setWord_self hj hlt]
  exact ⟨hc, rfl, hb⟩

theorem refAt_setWord_ne (hp : p ≠ .word j) :
    refAt d (setWordAt block (d.addrs indirect) j b) p = refAt d block p := by
  cases p with
  | addr k => rfl
  | word i =>
      have hi : i ≠ j := fun e => hp (congrArg _ e)
      simp only [refAt, setWordAt, Function.update_self, Block.word_setWord_ne hi]

end References

/-! ## §3  Files without holes -/

section Files

variable {d d' : Dinode} {block block' : ℕ → Block} {b k bn size ninodes : ℕ}

theorem blocksOf_le_of_le (h : b ≤ size) : blocksOf b ≤ blocksOf size :=
  Nat.div_le_div_right (by omega)

theorem div_lt_blocksOf (h : b < size) : b / bsize < blocksOf size := by
  unfold blocksOf bsize
  omega

theorem div_le_blocksOf (h : b ≤ size) : b / bsize ≤ blocksOf size := by
  unfold blocksOf bsize
  omega

/-- The next block of a file. -/
theorem Filled.add (h : Filled d block bn) (hbn : bn < maxfile)
    (hself : refAt d' block' (filePos bn) = some b)
    (hne : ∀ p, p ≠ filePos bn → refAt d' block' p = refAt d block p) :
    Filled d' block' (bn + 1) := by
  refine ⟨hbn, fun i hi => ?_⟩
  by_cases e : i = bn
  · subst e
    rw [hself]
    exact ⟨fun _ => Nat.lt_succ_self i, fun _ => nofun⟩
  · rw [hne _ fun he => e (filePos_inj he), h.iff i hi]
    omega

theorem Filled.congr (h : Filled d block k)
    (hp : ∀ bn, refAt d' block' (filePos bn) = refAt d block (filePos bn)) :
    Filled d' block' k := by
  refine ⟨h.le, fun i hi => ?_⟩
  rw [hp i]
  exact h.iff i hi

theorem Filled.empty (h : ∀ k, d.addrs k = 0) : Filled d block 0 := by
  refine ⟨Nat.zero_le _, fun i _ => ?_⟩
  rw [refAt_eq_none h]
  exact ⟨fun hne => absurd rfl hne, nofun⟩

/-- A file that has its first `k` blocks has no other. -/
theorem Filled.none_of_le (h : Filled d block k) (hk : k ≤ bn) (hbn : bn < maxfile) :
    refAt d block (filePos bn) = none := by
  by_contra hne
  have := (h.iff bn hbn).mp hne
  omega

theorem byteAt_congr
    (hp : ∀ bn, refAt d' block' (filePos bn) = refAt d block (filePos bn))
    (hdata : ∀ bn c, refAt d block (filePos bn) = some c → block' c = block c) :
    byteAt d' block' = byteAt d block := by
  funext x
  unfold byteAt
  rw [hp]
  cases hc : refAt d block (filePos (x / bsize)) with
  | none => rfl
  | some c =>
      dsimp only
      rw [hdata _ c hc]

/-- A block that is added is zeroed, as its bytes were before. -/
theorem byteAt_add (hnone : refAt d block (filePos bn) = none)
    (hself : refAt d' block' (filePos bn) = some b)
    (hne : ∀ p, p ≠ filePos bn → refAt d' block' p = refAt d block p) (hz : block' b = .zero)
    (hdata : ∀ i c, refAt d block (filePos i) = some c → block' c = block c) :
    byteAt d' block' = byteAt d block := by
  funext x
  unfold byteAt
  by_cases e : x / bsize = bn
  · rw [e, hself, hnone]
    dsimp only
    rw [hz, Block.byte_zero]
    rfl
  · rw [hne _ fun he => e (filePos_inj he)]
    cases hc : refAt d block (filePos (x / bsize)) with
    | none => rfl
    | some c =>
        dsimp only
        rw [hdata _ c hc]

theorem byteAt_empty (h : ∀ k, d.addrs k = 0) : byteAt d block = fun _ => 0 := by
  funext x
  unfold byteAt
  rw [refAt_eq_none h]

end Files

/-! ## §4  What the code does to blocks and inodes -/

namespace Blocks

variable {sb : Superblock} {v : ℕ → Dinode} {nb : ℕ → ℕ} {β : ℕ → ℕ → UInt8} {X : Set ℕ}
  {block : ℕ → Block} {bit : ℕ → Bool} {b n m j : ℕ} {d d' : Dinode} {p : Pos}
  {k : Fin (ndirect + 1)} {w : Block} {g : ℕ → UInt8}

/-- A block that an allocated inode refers to. -/
theorem used (h : Blocks sb v nb β X block bit) (hn : n < sb.ninodes)
    (hk : (v n).kind ≠ .free) (hp : refAt (v n) block p = some b) :
    bit b = true ∧ sb.Data b :=
  (h.ledger.marks b).mpr (.inr ⟨(n, p), place_eq_some.mpr ⟨⟨hn, hk⟩, hp⟩⟩)

theorem inHand (h : Blocks sb v nb β X block bit) (hb : b ∈ X) : bit b = true ∧ sb.Data b :=
  (h.ledger.marks b).mpr (.inl hb)

/-- Two positions that refer to one block. -/
theorem unique (h : Blocks sb v nb β X block bit) {p' : Pos} (hn : n < sb.ninodes)
    (hk : (v n).kind ≠ .free) (hp : refAt (v n) block p = some b) (hm : m < sb.ninodes)
    (hk' : (v m).kind ≠ .free) (hp' : refAt (v m) block p' = some b) : n = m ∧ p = p' :=
  Prod.mk.inj (h.ledger.unique (place_eq_some.mpr ⟨⟨hn, hk⟩, hp⟩)
    (place_eq_some.mpr ⟨⟨hm, hk'⟩, hp'⟩))

/-- One inode is changed, and the blocks are not. -/
theorem of_update (h : Blocks sb v nb β X block bit) {X' : Set ℕ}
    (hl : Ledger (place sb.ninodes (Function.update v n d') block) X'
      fun b => bit b = true ∧ sb.Data b)
    (hf : n < sb.ninodes → d'.kind ≠ .free → Filled d' block m)
    (hg : n < sb.ninodes → d'.kind ≠ .free → byteAt d' block = g) :
    Blocks sb (Function.update v n d') (Function.update nb n m) (Function.update β n g) X'
      block bit where
  ledger := hl
  areas := h.areas
  filled i hi hk := by
    by_cases e : i = n
    · subst e
      rw [Function.update_self] at hk ⊢
      rw [Function.update_self]
      exact hf hi hk
    · rw [Function.update_of_ne e] at hk ⊢
      rw [Function.update_of_ne e]
      exact h.filled i hi hk
  bytes i hi hk := by
    by_cases e : i = n
    · subst e
      rw [Function.update_self] at hk ⊢
      rw [Function.update_self]
      exact hg hi hk
    · rw [Function.update_of_ne e] at hk ⊢
      rw [Function.update_of_ne e]
      exact h.bytes i hi hk

theorem place_update_ne (block : ℕ → Block) {r : ℕ × Pos} (hr : r.1 ≠ n) :
    place sb.ninodes (Function.update v n d') block r = place sb.ninodes v block r := by
  unfold place
  rw [Function.update_of_ne hr]

theorem place_update_self (block : ℕ → Block) (hn : n < sb.ninodes) (hk : d'.kind ≠ .free) :
    place sb.ninodes (Function.update v n d') block (n, p) = refAt d' block p := by
  unfold place
  rw [Function.update_self, if_pos ⟨hn, hk⟩]

theorem place_self (block : ℕ → Block) (hn : n < sb.ninodes) (hk : (v n).kind ≠ .free) :
    place sb.ninodes v block (n, p) = refAt (v n) block p :=
  if_pos ⟨hn, hk⟩

/-- `balloc`. -/
theorem take (h : Blocks sb v nb β X block bit) (hb : bit b = false) (hlt : b < sb.size) :
    Blocks sb v nb β (insert b X) (Function.update block b .zero)
      (Function.update bit b true) ∧ sb.Data b := by
  have hdata : sb.Data b := by
    refine ⟨Nat.le_of_not_lt fun hlt' => ?_, hlt⟩
    rw [h.areas b hlt'] at hb
    cases hb
  have hfree : ¬ (bit b = true ∧ sb.Data b) := by
    rw [hb]
    nofun
  -- no reference goes to the block, so that nothing that is in use is zeroed
  have hkept : ∀ i p c, i < sb.ninodes → (v i).kind ≠ .free → refAt (v i) block p = some c →
      Function.update block b .zero c = block c := by
    intro i p c hi hk hp
    apply Function.update_of_ne
    rintro rfl
    exact hfree (h.used hi hk hp)
  have href : ∀ i p, i < sb.ninodes → (v i).kind ≠ .free →
      refAt (v i) (Function.update block b .zero) p = refAt (v i) block p := by
    intro i p hi hk
    apply refAt_congr rfl
    intro h0
    exact hkept i _ _ hi hk (refAt_addr.mpr ⟨rfl, h0⟩)
  have hplace : place sb.ninodes v (Function.update block b .zero) =
      place sb.ninodes v block := by
    funext r
    unfold place
    split_ifs with hr
    · exact href r.1 r.2 hr.1 hr.2
    · rfl
  refine ⟨⟨?_, ?_, ?_, ?_⟩, hdata⟩
  · rw [hplace]
    apply h.ledger.take hfree
    intro c
    by_cases e : c = b
    · subst e
      simp [hdata]
    · simp [e]
  · intro c hc
    by_cases e : c = b
    · rw [e, Function.update_self]
    · rw [Function.update_of_ne e]
      exact h.areas c hc
  · intro i hi hk
    exact (h.filled i hi hk).congr fun bn => href i _ hi hk
  · intro i hi hk
    rw [← h.bytes i hi hk]
    exact byteAt_congr (fun bn => href i _ hi hk) fun bn c hc => hkept i _ c hi hk hc

/-- `bfree`. -/
theorem giveBack (h : Blocks sb v nb β X block bit) (hb : b ∈ X) :
    Blocks sb v nb β (X \ {b}) block (Function.update bit b false) where
  ledger := by
    apply h.ledger.give_back hb
    intro c
    by_cases e : c = b
    · subst e
      simp
    · simp [e]
  areas c hc := by
    have hne : c ≠ b := by
      rintro rfl
      exact absurd (h.inHand hb).2.1 (Nat.not_le_of_lt hc)
    rw [Function.update_of_ne hne]
    exact h.areas c hc
  filled := h.filled
  bytes := h.bytes

/-- `ip->addrs[k] = b`, for a block in hand that is zeroed. -/
theorem setAddr (h : Blocks sb v nb β X block bit) (hn : n < sb.ninodes)
    (hk : (v n).kind ≠ .free) (hb : b ∈ X) (hb0 : b ≠ 0) (hz : block b = .zero)
    (h0 : (v n).addrs k = 0) (hf : Filled ((v n).setAddr k b) block m)
    (hg : byteAt ((v n).setAddr k b) block = byteAt (v n) block) :
    Blocks sb (Function.update v n ((v n).setAddr k b)) (Function.update nb n m) β (X \ {b})
      block bit := by
  have hk' : ((v n).setAddr k b).kind ≠ .free := hk
  have hput : Ledger (place sb.ninodes (Function.update v n ((v n).setAddr k b)) block)
      (X \ {b}) fun b => bit b = true ∧ sb.Data b := by
    apply h.ledger.put hb (r := (n, .addr k))
    · rw [place_self block hn hk]
      exact if_pos h0
    · rw [place_update_self block hn hk']
      exact refAt_setAddr_self hb0
    · rintro ⟨i, p⟩ hr
      by_cases e : i = n
      · subst e
        rw [place_update_self block hn hk', place_self block hn hk]
        exact refAt_setAddr_ne h0 hz fun hp => hr (congrArg _ hp)
      · exact place_update_ne block e
  have hset := h.of_update hput (fun _ _ => hf) fun _ _ => hg.trans (h.bytes n hn hk)
  rwa [Function.update_eq_self n β] at hset

/-- The next block of a file, in `addrs[]`. -/
theorem addDirect (h : Blocks sb v nb β X block bit) (hv : v n = d) (hnb : nb n = m)
    (hn : n < sb.ninodes) (hk : d.kind ≠ .free) (hb : b ∈ X) (hb0 : b ≠ 0)
    (hz : block b = .zero) (hm : m < ndirect) (h0 : d.addrs ⟨m, Nat.lt_succ_of_lt hm⟩ = 0) :
    Blocks sb (Function.update v n (d.setAddr ⟨m, Nat.lt_succ_of_lt hm⟩ b))
      (Function.update nb n (m + 1)) β (X \ {b}) block bit := by
  subst hv hnb
  have hpos : filePos (nb n) = .addr ⟨nb n, Nat.lt_succ_of_lt hm⟩ := dif_pos hm
  have hmax : nb n < maxfile := Nat.lt_of_lt_of_le hm (Nat.le_add_right ..)
  have hself : refAt ((v n).setAddr ⟨nb n, Nat.lt_succ_of_lt hm⟩ b) block
      (filePos (nb n)) = some b := by
    rw [hpos]
    exact refAt_setAddr_self hb0
  have hne : ∀ p, p ≠ filePos (nb n) →
      refAt ((v n).setAddr ⟨nb n, Nat.lt_succ_of_lt hm⟩ b) block p = refAt (v n) block p :=
    fun p hp => refAt_setAddr_ne h0 hz (hpos ▸ hp)
  have hf := h.filled n hn hk
  apply h.setAddr hn hk hb hb0 hz h0 (hf.add hmax hself hne)
  exact byteAt_add (hf.none_of_le (Nat.le_refl _) hmax) hself hne hz fun _ _ _ => rfl

/-- The indirect block of a file. -/
theorem addIndirect (h : Blocks sb v nb β X block bit) (hv : v n = d) (hn : n < sb.ninodes)
    (hk : d.kind ≠ .free) (hb : b ∈ X) (hb0 : b ≠ 0) (hz : block b = .zero)
    (h0 : d.addrs indirect = 0) :
    Blocks sb (Function.update v n (d.setAddr indirect b)) nb β (X \ {b}) block bit := by
  subst hv
  have hne : ∀ bn, refAt ((v n).setAddr indirect b) block (filePos bn) =
      refAt (v n) block (filePos bn) :=
    fun bn => refAt_setAddr_ne h0 hz (filePos_ne_indirect bn)
  have hset : Blocks sb (Function.update v n ((v n).setAddr indirect b))
      (Function.update nb n (nb n)) β (X \ {b}) block bit :=
    h.setAddr hn hk hb hb0 hz h0 ((h.filled n hn hk).congr hne)
      (byteAt_congr hne fun _ _ _ => rfl)
  rwa [Function.update_eq_self] at hset

/-- The next block of a file, in its indirect block. -/
theorem addWord (h : Blocks sb v nb β X block bit) (hok : sb.Ok) (hv : v n = d)
    (hnb : nb n = ndirect + j) (hn : n < sb.ninodes) (hk : d.kind ≠ .free) (hb : b ∈ X)
    (hb0 : b ≠ 0) (hz : block b = .zero) (hj : j < nindirect) (hc : d.addrs indirect ≠ 0)
    (hw : (block (d.addrs indirect)).word j = 0) :
    Blocks sb v (Function.update nb n (ndirect + j + 1)) β (X \ {b})
      (setWordAt block (d.addrs indirect) j b) bit := by
  subst hv
  have hpos : filePos (ndirect + j) = .word j := by
    unfold filePos
    rw [dif_neg (by omega), Nat.add_sub_cancel_left]
  have hmax : ndirect + j < maxfile := Nat.add_lt_add_left hj _
  have hlt : b < uintSize := Nat.lt_of_lt_of_le (h.inHand hb).2.2 hok.size
  have hind : refAt (v n) block (.addr indirect) = some ((v n).addrs indirect) :=
    refAt_addr.mpr ⟨rfl, hc⟩
  have hself : refAt (v n) (setWordAt block ((v n).addrs indirect) j b) (.word j) = some b :=
    refAt_setWord_self hj hb0 hlt hc
  have hne : ∀ p, p ≠ .word j →
      refAt (v n) (setWordAt block ((v n).addrs indirect) j b) p = refAt (v n) block p :=
    fun p hp => refAt_setWord_ne hp
  -- the indirect block belongs to this inode only, and has no data
  have hother : ∀ i p, i < sb.ninodes → (v i).kind ≠ .free → i ≠ n →
      refAt (v i) (setWordAt block ((v n).addrs indirect) j b) p = refAt (v i) block p := by
    intro i p hi hki e
    apply refAt_congr rfl
    intro hci
    apply Function.update_of_ne
    intro hcc
    exact e (h.unique hi hki (refAt_addr.mpr ⟨rfl, hci⟩) hn hk (hcc ▸ hind)).1
  have hdata : ∀ i, i < sb.ninodes → (v i).kind ≠ .free → ∀ bn c,
      refAt (v i) block (filePos bn) = some c →
      setWordAt block ((v n).addrs indirect) j b c = block c := by
    intro i hi hki bn c hc'
    apply Function.update_of_ne
    rintro rfl
    exact filePos_ne_indirect bn (h.unique hi hki hc' hn hk hind).2
  have hzero : setWordAt block ((v n).addrs indirect) j b b = .zero := by
    rw [setWordAt, Function.update_of_ne, hz]
    rintro rfl
    exact h.ledger.apart (place_eq_some.mpr ⟨⟨hn, hk⟩, hind⟩) hb
  refine ⟨h.ledger.put hb (r := (n, .word j)) ?_ ?_ ?_, h.areas, ?_, ?_⟩
  · rw [place_self block hn hk]
    exact if_pos (.inr hw)
  · rw [place_self _ hn hk]
    exact hself
  · rintro ⟨i, p⟩ hr
    by_cases e : i = n
    · subst e
      rw [place_self _ hn hk, place_self _ hn hk]
      exact hne p fun hp => hr (congrArg _ hp)
    · unfold place
      split_ifs with hi
      · exact hother i p hi.1 hi.2 e
      · rfl
  · intro i hi hki
    by_cases e : i = n
    · subst e
      rw [Function.update_self]
      rw [← hpos] at hself hne
      exact (hnb ▸ h.filled i hi hki).add hmax hself hne
    · rw [Function.update_of_ne e]
      exact (h.filled i hi hki).congr fun bn => hother i _ hi hki e
  · intro i hi hki
    rw [← h.bytes i hi hki]
    by_cases e : i = n
    · subst e
      rw [← hpos] at hself hne
      have hnone := (hnb ▸ h.filled i hi hki).none_of_le (Nat.le_refl _) hmax
      exact byteAt_add hnone hself hne hzero (hdata i hi hki)
    · exact byteAt_congr (fun bn => hother i _ hi hki e) (hdata i hi hki)

/-- Data are written into a block of a file. -/
theorem write (h : Blocks sb v nb β X block bit) {bn : ℕ} (hv : v n = d) (hn : n < sb.ninodes)
    (hk : d.kind ≠ .free) (hb : refAt d block (filePos bn) = some b) :
    Blocks sb v nb (Function.update β n fun x =>
        if x / bsize = bn then UInt8.ofNat (w.byte (x % bsize)) else β n x) X
      (Function.update block b w) bit := by
  subst hv
  have hind : ∀ i, i < sb.ninodes → (v i).kind ≠ .free → (v i).addrs indirect ≠ 0 →
      Function.update block b w ((v i).addrs indirect) = block ((v i).addrs indirect) := by
    intro i hi hki h0
    apply Function.update_of_ne
    intro e
    exact filePos_ne_indirect bn (h.unique hn hk hb hi hki (refAt_addr.mpr ⟨e, e ▸ h0⟩)).2
  have href : ∀ i p, i < sb.ninodes → (v i).kind ≠ .free →
      refAt (v i) (Function.update block b w) p = refAt (v i) block p :=
    fun i p hi hki => refAt_congr rfl (hind i hi hki)
  have hplace : place sb.ninodes v (Function.update block b w) = place sb.ninodes v block := by
    funext ⟨i, p⟩
    unfold place
    split_ifs with hi
    · exact href i p hi.1 hi.2
    · rfl
  -- the other blocks of files keep their data
  have hkept : ∀ i i' c, i < sb.ninodes → (v i).kind ≠ .free → (i ≠ n ∨ i' ≠ bn) →
      refAt (v i) block (filePos i') = some c → Function.update block b w c = block c := by
    intro i i' c hi hki hne hc
    apply Function.update_of_ne
    rintro rfl
    obtain ⟨e, e'⟩ := h.unique hi hki hc hn hk hb
    exact hne.elim (fun hne => hne e) fun hne => hne (filePos_inj e')
  refine ⟨hplace ▸ h.ledger, h.areas, ?_, ?_⟩
  · intro i hi hki
    exact (h.filled i hi hki).congr fun _ => href i _ hi hki
  · intro i hi hki
    by_cases e : i = n
    · subst e
      rw [Function.update_self]
      funext x
      rw [← h.bytes i hi hki]
      unfold byteAt
      rw [href i _ hi hki]
      by_cases ex : x / bsize = bn
      · rw [if_pos ex, ex, hb]
        dsimp only
        rw [Function.update_self]
      · rw [if_neg ex]
        cases hc : refAt (v i) block (filePos (x / bsize)) with
        | none => rfl
        | some c =>
            dsimp only
            rw [hkept i _ c hi hki (.inr ex) hc]
    · rw [Function.update_of_ne e, ← h.bytes i hi hki]
      exact byteAt_congr (fun _ => href i _ hi hki) fun bn' c hc =>
        hkept i bn' c hi hki (.inl e) hc

/-- Other fields of an inode are changed. -/
theorem setFields (h : Blocks sb v nb β X block bit) (hv : v n = d) (ha : d'.addrs = d.addrs)
    (hkind : d'.kind = d.kind) : Blocks sb (Function.update v n d') nb β X block bit := by
  subst hv
  have hself : ∀ p, refAt d' block p = refAt (v n) block p :=
    fun p => refAt_congr ha fun _ => rfl
  have hplace : place sb.ninodes (Function.update v n d') block =
      place sb.ninodes v block := by
    funext ⟨i, p⟩
    by_cases e : i = n
    · subst e
      unfold place
      rw [Function.update_self, hkind, hself]
    · exact place_update_ne _ e
  have hfields := h.of_update (m := nb n) (g := β n) (hplace ▸ h.ledger)
    (fun hn hk => (h.filled n hn (hkind ▸ hk)).congr fun _ => hself _) ?_
  · rwa [Function.update_eq_self, Function.update_eq_self] at hfields
  · intro hn hk
    rw [← h.bytes n hn (hkind ▸ hk)]
    exact byteAt_congr (fun _ => hself _) fun _ _ _ => rfl

/-- An inode without blocks is allocated or freed. -/
theorem setEmpty (h : Blocks sb v nb β X block bit)
    (hold : ∀ p, place sb.ninodes v block (n, p) = none) (ha : ∀ k, d'.addrs k = 0) :
    Blocks sb (Function.update v n d') (Function.update nb n 0)
      (Function.update β n fun _ => 0) X block bit := by
  have hplace : place sb.ninodes (Function.update v n d') block =
      place sb.ninodes v block := by
    funext ⟨i, p⟩
    by_cases e : i = n
    · subst e
      rw [hold p]
      unfold place
      split_ifs
      · rw [Function.update_self]
        exact refAt_eq_none ha p
      · rfl
    · exact place_update_ne _ e
  exact h.of_update (hplace ▸ h.ledger) (fun _ _ => .empty ha) fun _ _ => byteAt_empty ha

/-- All blocks of an inode are taken in hand. -/
theorem detach (h : Blocks sb v nb β X block bit) (hv : v n = d) (hn : n < sb.ninodes)
    (hk : d.kind ≠ .free) (hkind : d'.kind = d.kind) (ha : ∀ k, d'.addrs k = 0) :
    Blocks sb (Function.update v n d') (Function.update nb n 0)
      (Function.update β n fun _ => 0) (X ∪ {b | ∃ p, refAt d block p = some b}) block bit := by
  subst hv
  have hX : {b | ∃ r ∈ {r : ℕ × Pos | r.1 = n}, place sb.ninodes v block r = some b} =
      {b | ∃ p, refAt (v n) block p = some b} := by
    ext b
    constructor
    · rintro ⟨⟨i, p⟩, rfl, hr⟩
      exact ⟨p, (place_eq_some.mp hr).2⟩
    · rintro ⟨p, hp⟩
      exact ⟨(n, p), rfl, place_eq_some.mpr ⟨⟨hn, hk⟩, hp⟩⟩
  rw [← hX]
  refine h.of_update (h.ledger.pick_up {r | r.1 = n} ?_ ?_) (fun _ _ => .empty ha)
    fun _ _ => byteAt_empty ha
  · rintro ⟨i, p⟩ rfl
    rw [place_update_self block hn (hkind ▸ hk)]
    exact refAt_eq_none ha p
  · intro r hr
    exact place_update_ne block hr

/-- A disk on which no inode has a block. -/
theorem fresh (ha : ∀ n k, (v n).addrs k = 0)
    (hbit : ∀ b, bit b = true ↔ b < sb.size - sb.nblocks) :
    Blocks sb v (fun _ => 0) (fun _ _ => 0) ∅ block bit where
  ledger := by
    have hplace : ∀ r, place sb.ninodes v block r = none := by
      intro r
      unfold place
      rw [refAt_eq_none (ha r.1), ite_self]
    refine ⟨?_, ?_, ?_⟩
    · intro r r' b hr
      rw [hplace] at hr
      cases hr
    · intro r b hr
      rw [hplace] at hr
      cases hr
    · intro b
      rw [hbit]
      constructor
      · rintro ⟨hlt, hle, _⟩
        exact absurd hlt (Nat.not_lt_of_le hle)
      · rintro (hb | ⟨r, hr⟩)
        · cases hb
        · rw [hplace] at hr
          cases hr
  areas b := (hbit b).mpr
  filled n _ _ := .empty (ha n)
  bytes n _ _ := byteAt_empty (ha n)

end Blocks

end Xv6.Inodes
