import Mathlib.Algebra.Order.BigOperators.Group.Finset
import Xv6.Fs.Directory
import Xv6.Fs.Refs

/-!
# The inodes of a consistent disk

The inodes as a partial map from their numbers to types, link counts and bytes. What
the functions of fs.c do to the map, where the disk is consistent and the cache agrees
with it.
-/

namespace Xv6.Inodes

open Xv6.Lib PanicM

variable {s s' : Fs} {i j : Slot} {n m : ℕ} {β β' : ℕ → ℕ → UInt8} {d : Dinode} {ip : Inode}
  {T : Tables} {L : Multiset Slot} {R : Multiset (Slot × ℕ)} {E : Panic → Prop}

/-! ## §1  The map -/

/-- An inode: its type, its links and its bytes. -/
structure Node where
  kind : Kind
  nlink : ℤ
  data : List UInt8

namespace Node

def setData (x : Node) (l : List UInt8) : Node := { x with data := l }

def setLinks (x : Node) (k : ℤ) : Node := { x with nlink := k }

end Node

def Dinode.node (d : Dinode) (bytes : ℕ → UInt8) : Option Node :=
  if d.kind = .free then none
  else some { kind := d.kind, nlink := d.nlink, data := (List.range d.size).map bytes }

/-- The inode in an entry of the cache. -/
def Inode.node (ip : Inode) (block : ℕ → Block) : Node where
  kind := ip.d.kind
  nlink := ip.d.nlink
  data := contents ip.d block

/-- The inodes of a disk, where `β` are the bytes. -/
def nodesOf (ninodes : ℕ) (v : ℕ → Dinode) (β : ℕ → ℕ → UInt8) (n : ℕ) : Option Node :=
  if n < ninodes then (v n).node (β n) else none

theorem nodesOf_update {ninodes : ℕ} {v : ℕ → Dinode} (hn : n < ninodes)
    (hβ : ∀ m, m ≠ n → β' m = β m) :
    nodesOf ninodes (Function.update v n d) β' =
      Function.update (nodesOf ninodes v β) n (d.node (β' n)) := by
  funext m
  by_cases hm : m = n
  · rw [hm, nodesOf, if_pos hn, Function.update_self, Function.update_self]
  · rw [nodesOf, Function.update_of_ne hm, Function.update_of_ne hm, nodesOf, hβ m hm]

/-- A directory has whole entries, for inodes that exist. -/
def Node.DirOk (ninodes : ℕ) (x : Node) : Prop :=
  x.kind = .dir → direntSize ∣ x.data.length ∧ ∀ e, inumAt x.data e < ninodes

/-- The disk is consistent, its inodes are `A`, and the cache agrees with it. -/
structure Disk (A : ℕ → Option Node) (s : Fs) : Prop where
  nodes : ∃ β, Tidy β s ∧ A = nodesOf s.sb.ninodes s.dinode β
  dirs : ∀ n x, A n = some x → x.DirOk s.sb.ninodes
  inum : ∀ i, 0 < (s.icache i).ref → (s.icache i).inum < s.sb.ninodes
  same : ∀ i, 0 < (s.icache i).ref → (s.icache i).valid = true →
    (s.icache i).d = s.dinode (s.icache i).inum ∧ (s.icache i).d.kind ≠ .free
  unique : ∀ i j, 0 < (s.icache i).ref → 0 < (s.icache j).ref →
    (s.icache i).inum = (s.icache j).inum → i = j
  locked : ∀ i, (s.icache i).locked = true → (s.icache i).valid = true
  files : ∀ f i, (s.file f).Uses i → (s.icache i).valid = true ∧
    ((s.file f).writable = true → (s.icache i).d.kind ≠ .dir)

variable {A : ℕ → Option Node}

/-- An open file has a reference. -/
theorem Refs.held_of_uses {f : FileId} (h : Refs T L R s) (hf : (s.file f).Uses i) :
    0 < T.held i := by
  rw [h.file] at hf
  have hle : 1 ≤ T.files i := by
    refine Nat.le_trans ?_ (Finset.single_le_sum (f := fun f =>
      if (T.file f).Uses i then 1 else 0) (fun _ _ => Nat.zero_le _) (Finset.mem_univ f))
    rw [if_pos hf]
  exact Nat.lt_of_lt_of_le hle (Nat.le_add_right ..)

theorem Refs.pos_of_uses {f : FileId} (h : Refs T L R s) (hf : (s.file f).Uses i) :
    0 < (s.icache i).ref := by
  have := h.held_of_uses hf
  rw [h.ref]
  omega

theorem iget_frame : wp (iget n) (fun _ s' =>
    (∀ j, 0 < (s.icache j).ref → (s'.icache j).inum = (s.icache j).inum) ∧
    ∀ j, 0 < (s'.icache j).ref → 0 < (s.icache j).ref ∨ (s'.icache j).inum = n)
    (fun _ => True) s := by
  refine wp_mono iget_spec ?_ fun _ _ => trivial
  rintro i s' (⟨hpos, hi, rfl⟩ | ⟨h0, _, rfl⟩)
  · refine ⟨fun j _ => s.inum_setRef i _ j, fun j hj => .inl ?_⟩
    by_cases hji : j = i
    · rw [hji]
      exact hpos
    · rwa [Fs.setRef_ne hji] at hj
  · refine ⟨fun j hj => ?_, fun j hj => ?_⟩
    · have hji : j ≠ i := by
        rintro rfl
        omega
      rw [Fs.takeEntry_ne hji]
    · by_cases hji : j = i
      · right
        rw [hji, Fs.takeEntry, Fs.setEntry_self]
      · left
        rwa [Fs.takeEntry_ne hji] at hj

namespace Disk

theorem clean (h : Disk A s) (hr : 0 < (s.icache i).ref) (hv : (s.icache i).valid = true) :
    ∃ β, Clean β i s ∧ A = nodesOf s.sb.ninodes s.dinode β := by
  obtain ⟨β, ht, hA⟩ := h.nodes
  obtain ⟨hd, hk⟩ := h.same i hr hv
  exact ⟨β, ⟨ht, h.inum i hr, hk, hd.symm⟩, hA⟩

theorem node (h : Disk A s) (hr : 0 < (s.icache i).ref) (hv : (s.icache i).valid = true) :
    A (s.icache i).inum = some ((s.icache i).node s.block) := by
  obtain ⟨β, hc, hA⟩ := h.clean hr hv
  rw [hA, nodesOf, if_pos hc.inum, hc.same, Dinode.node, if_neg hc.kind, Inode.node, contents,
    hc.dirty.bytes]

/-- Only the cache changes, in one entry. -/
theorem setEntry (h : Disk A s) (hn : 0 < ip.ref → ip.inum < s.sb.ninodes)
    (hd : 0 < ip.ref → ip.valid = true → ip.d = s.dinode ip.inum ∧ ip.d.kind ≠ .free)
    (hu : 0 < ip.ref → ∀ j, j ≠ i → 0 < (s.icache j).ref → (s.icache j).inum ≠ ip.inum)
    (hl : ip.locked = true → ip.valid = true)
    (hf : ∀ f, (s.file f).Uses i →
      ip.valid = true ∧ ((s.file f).writable = true → ip.d.kind ≠ .dir)) :
    Disk A (s.setEntry i ip) := by
  have hself : (s.setEntry i ip).icache i = ip := Function.update_self ..
  have hne : ∀ {j}, j ≠ i → (s.setEntry i ip).icache j = s.icache j :=
    fun hj => Function.update_of_ne hj ..
  obtain ⟨β, ht, hA⟩ := h.nodes
  refine ⟨⟨β, ⟨ht.sb, ht.blocks, ht.allocs⟩, hA⟩, h.dirs, ?_, ?_, ?_, ?_, ?_⟩
  · intro j
    by_cases hj : j = i
    · rw [hj, hself]
      exact hn
    · rw [hne hj]
      exact h.inum j
  · intro j
    by_cases hj : j = i
    · rw [hj, hself]
      exact hd
    · rw [hne hj]
      exact h.same j
  · intro j k
    by_cases hj : j = i <;> by_cases hk : k = i
    · rw [hj, hk]
      exact fun _ _ _ => rfl
    · rw [hj, hself, hne hk]
      intro h₁ h₂ he
      exact absurd he.symm (hu h₁ k hk h₂)
    · rw [hk, hself, hne hj]
      intro h₁ h₂ he
      exact absurd he (hu h₂ j hj h₁)
    · rw [hne hj, hne hk]
      exact h.unique j k
  · intro j
    by_cases hj : j = i
    · rw [hj, hself]
      exact hl
    · rw [hne hj]
      exact h.locked j
  · intro f j hj
    by_cases hji : j = i
    · rw [hji] at hj
      rw [hji, hself]
      exact hf f hj
    · rw [hne hji]
      exact h.files f j hj

/-- Only the count or the lock of an entry changes. -/
theorem setEntry_same (h : Disk A s) (hn : ip.inum = (s.icache i).inum)
    (hr : 0 < ip.ref → 0 < (s.icache i).ref) (hv : ip.valid = (s.icache i).valid)
    (hd : ip.d = (s.icache i).d) (hl : ip.locked = true → (s.icache i).locked = true ∨
      (s.icache i).valid = true) : Disk A (s.setEntry i ip) := by
  refine h.setEntry ?_ ?_ ?_ ?_ ?_
  · intro hp
    rw [hn]
    exact h.inum i (hr hp)
  · intro hp hval
    rw [hn, hd]
    exact h.same i (hr hp) (hv ▸ hval)
  · intro hp j hj hpj he
    exact hj (h.unique j i hpj (hr hp) (he.trans hn))
  · intro hb
    rw [hv]
    exact (hl hb).elim (h.locked i) id
  · intro f hf
    rw [hv, hd]
    exact h.files f i hf

/-- Only the tables change. -/
theorem retable (h : Disk A s) (hsb : s'.sb = s.sb) (hbit : s'.bit = s.bit)
    (hdinode : s'.dinode = s.dinode) (hblock : s'.block = s.block)
    (hcache : s'.icache = s.icache) (hallocs : s'.allocs = s.allocs)
    (hf : ∀ f i, (s'.file f).Uses i → (s.icache i).valid = true ∧
      ((s'.file f).writable = true → (s.icache i).d.kind ≠ .dir)) : Disk A s' := by
  obtain ⟨β, ht, hA⟩ := h.nodes
  have ht' : Tidy β s' := by
    refine ⟨hsb ▸ ht.sb, ?_, ?_⟩
    · rw [hsb, hdinode, hblock, hbit]
      exact ht.blocks
    · rw [hsb, hallocs]
      exact ht.allocs
  refine ⟨⟨β, ht', ?_⟩, ?_, ?_, ?_, ?_, ?_, ?_⟩
  · rw [hsb, hdinode]
    exact hA
  · rw [hsb]
    exact h.dirs
  · rw [hsb, hcache]
    exact h.inum
  · rw [hcache, hdinode]
    exact h.same
  · rw [hcache]
    exact h.unique
  · rw [hcache]
    exact h.locked
  · rw [hcache]
    exact hf

theorem iget_spec (h : Disk A s) (hr : Refs T L R s) (hn : n < s.sb.ninodes) :
    wp (iget n) (fun i s' => Disk A s' ∧ (s'.icache i).inum = n)
      (fun e => e = .igetNoInodes) s := by
  refine wp_mono Inodes.iget_spec ?_ fun _ he => he.1
  rintro i s' (⟨hpos, hi, rfl⟩ | ⟨h0, hno, rfl⟩)
  · refine ⟨h.setEntry_same rfl (fun _ => hpos) rfl rfl .inl, ?_⟩
    simp only [Fs.setRef, Fs.setEntry, Function.update_self, hi]
  · refine ⟨?_, by simp only [Fs.takeEntry, Fs.setEntry, Function.update_self]⟩
    refine h.setEntry (fun _ => hn) (by simp) (fun _ j _ hj => hno j hj) ?_ ?_
    · intro hl
      have hl : (s.icache i).locked = true := hl
      have := hr.pos i ((hr.locked i).mp hl)
      omega
    · intro f hf
      have := hr.pos_of_uses hf
      omega

theorem idup_spec (h : Disk A s) (hr : 0 < (s.icache i).ref) :
    wp (idup i) (fun _ s' => Disk A s') E s := by
  refine wp_mono Inodes.idup_spec ?_ fun _ => id
  rintro j s' ⟨rfl, rfl⟩
  exact h.setEntry_same rfl (fun _ => hr) rfl rfl .inl

/-- `ilock` finds the inode, if there is one. -/
theorem ilock_spec (h : Disk A s) :
    wp (ilock i) (fun _ s' => Disk A s') (fun e => e = .ilock ∨ e = .deadlock ∨
      e = .ilockNoType ∧ A (s.icache i).inum = none) s := by
  obtain ⟨β, ht, hA⟩ := h.nodes
  have hnone : (s.dinode (s.icache i).inum).kind = .free → A (s.icache i).inum = none := by
    intro hk
    rw [hA, nodesOf, Dinode.node, if_pos hk, ite_self]
  refine wp_mono (Inodes.ilock_spec (fun _ => .inl rfl) (fun _ => .inr (.inl rfl))
    fun _ hk => .inr (.inr ⟨rfl, hnone hk⟩)) ?_ fun _ => id
  rintro _ s' ⟨hr, _, ⟨hv, rfl⟩ | ⟨hv, hk, rfl⟩⟩
  · exact h.setEntry_same rfl (fun _ => hr) rfl rfl fun _ => .inr hv
  · refine h.setEntry (fun _ => h.inum i hr) (fun _ _ => ⟨rfl, hk⟩) ?_ (fun _ => rfl) ?_
    · intro _ j hj hpj he
      exact hj (h.unique j i hpj hr he)
    · intro f hf
      rw [(h.files f i hf).1] at hv
      cases hv

theorem iunlock_spec (h : Disk A s) :
    wp (iunlock i) (fun _ s' => Disk A s') (fun e => e = .iunlock) s := by
  refine wp_mono (Inodes.iunlock_spec (E := fun e => e = .iunlock) fun _ => rfl) ?_ fun _ => id
  rintro _ s' ⟨_, hr, rfl⟩
  exact h.setEntry_same rfl (fun _ => hr) rfl rfl nofun

/-! ## §2  Contents -/

section Contents

variable {off : ℕ} {src : List UInt8}

theorem readi_spec (h : Disk A s) (hr : 0 < (s.icache i).ref) (hv : (s.icache i).valid = true)
    (hn : n < uintSize) : wp (readi i off n) (fun _ s' => s' = s) E s := by
  obtain ⟨β, hc, _⟩ := h.clean hr hv
  by_cases hk : (s.icache i).d.kind = .dev
  · apply wp_bind
    apply wp_slot
    rw [if_pos hk]
    apply wp_ite
    · intro _
      exact wp_pure rfl
    · intro _
      apply wp_bind
      apply wp_get
      split
      · exact wp_pure rfl
      · exact wp_pure rfl
  · exact wp_mono (Inodes.readi_spec hc hk hn) (fun _ _ h => h.1) fun _ => id

/-- The inode in entry `i` has been changed, in the cache and on the disk. -/
theorem stored (h : Disk A s) (hr : 0 < (s.icache i).ref) (hc : Clean β i s)
    (hA : A = nodesOf s.sb.ninodes s.dinode β) (hst : Stored i d s s') (hc' : Clean β' i s')
    (hβ : ∀ m, m ≠ (s.icache i).inum → β' m = β m) (hk : d.kind = (s.icache i).d.kind)
    (hdir : ∀ x, d.node (β' (s.icache i).inum) = some x → x.DirOk s.sb.ninodes) :
    Disk (Function.update A (s.icache i).inum (d.node (β' (s.icache i).inum))) s' := by
  have hself : s'.icache i = { s.icache i with d := d } := by
    rw [hst.icache, Function.update_self]
  have hne : ∀ {j}, j ≠ i → s'.icache j = s.icache j := by
    intro j hj
    rw [hst.icache, Function.update_of_ne hj]
  have hfix : ∀ j, (s'.icache j).ref = (s.icache j).ref ∧
      (s'.icache j).inum = (s.icache j).inum ∧ (s'.icache j).locked = (s.icache j).locked ∧
      (s'.icache j).valid = (s.icache j).valid := by
    intro j
    by_cases hj : j = i
    · rw [hj, hself]
      exact ⟨rfl, rfl, rfl, rfl⟩
    · rw [hne hj]
      exact ⟨rfl, rfl, rfl, rfl⟩
  refine ⟨⟨β', hc'.toTidy, ?_⟩, ?_, ?_, ?_, ?_, ?_, ?_⟩
  · rw [hst.dinode, hst.sb, nodesOf_update hc.inum hβ, hA]
  · intro n x hx
    rw [hst.sb]
    by_cases hn : n = (s.icache i).inum
    · rw [hn, Function.update_self] at hx
      exact hdir x hx
    · rw [Function.update_of_ne hn] at hx
      exact h.dirs n x hx
  · intro j
    rw [(hfix j).1, (hfix j).2.1, hst.sb]
    exact h.inum j
  · intro j hrj hvj
    rw [(hfix j).1] at hrj
    rw [(hfix j).2.2.2] at hvj
    by_cases hj : j = i
    · rw [hj, hst.dinode, hself, Function.update_self]
      exact ⟨rfl, hk ▸ hc.kind⟩
    · have hnum : (s.icache j).inum ≠ (s.icache i).inum := fun he => hj (h.unique j i hrj hr he)
      rw [hne hj, hst.dinode, Function.update_of_ne hnum]
      exact h.same j hrj hvj
  · intro j k
    rw [(hfix j).1, (hfix k).1, (hfix j).2.1, (hfix k).2.1]
    exact h.unique j k
  · intro j
    rw [(hfix j).2.2.1, (hfix j).2.2.2]
    exact h.locked j
  · intro f j hf
    rw [hst.file] at hf ⊢
    rw [(hfix j).2.2.2]
    obtain ⟨hval, hw⟩ := h.files f j hf
    refine ⟨hval, fun hwr => ?_⟩
    by_cases hj : j = i
    · rw [hj] at hw
      rw [hj, hself]
      show d.kind ≠ .dir
      rw [hk]
      exact hw hwr
    · rw [hne hj]
      exact hw hwr

/-- `writei` changes nothing, or the bytes of the inode. -/
theorem writei_spec (h : Disk A s) (hr : 0 < (s.icache i).ref) (hv : (s.icache i).valid = true)
    (hn : src.length < uintSize)
    (hdir : off ≤ (s.icache i).d.size → Node.DirOk s.sb.ninodes
      (((s.icache i).node s.block).setData (patch (contents (s.icache i).d s.block) off src))) :
    wp (writei i src off) (fun r s' =>
        s' = s ∧ ((s.icache i).d.kind = .dev ∨ r = -1) ∨
        (s.icache i).d.kind ≠ .dev ∧ r = src.length ∧ off ≤ (s.icache i).d.size ∧
        Disk (Function.update A (s.icache i).inum (some (((s.icache i).node s.block).setData
          (patch (contents (s.icache i).d s.block) off src)))) s')
      (fun e => e = .outOfBlocks) s := by
  obtain ⟨β, hc, hA⟩ := h.clean hr hv
  by_cases hk : (s.icache i).d.kind = .dev
  · apply wp_bind
    apply wp_slot
    rw [if_pos hk]
    apply wp_ite
    · intro _
      exact wp_pure (.inl ⟨rfl, .inl hk⟩)
    · intro _
      apply wp_bind
      apply wp_get
      split
      · exact wp_pure (.inl ⟨rfl, .inl hk⟩)
      · exact wp_pure (.inl ⟨rfl, .inl hk⟩)
  · refine wp_mono (Inodes.writei_spec hc hk hn) ?_ fun _ he => he.1
    rintro r s' (⟨_, rfl, rfl⟩ | ⟨hnot, rfl, hw⟩)
    · exact .inl ⟨rfl, .inr rfl⟩
    · have hoff : off ≤ (s.icache i).d.size := Nat.le_of_not_lt (not_or.mp hnot).1
      obtain ⟨a, hst⟩ := hw.stored
      have hnode : Dinode.node { (s.icache i).d with
          size := max (s.icache i).d.size (off + src.length), addrs := a }
          (Function.update β (s.icache i).inum (patchAt (β (s.icache i).inum) off src)
            (s.icache i).inum) = some (((s.icache i).node s.block).setData
              (patch (contents (s.icache i).d s.block) off src)) := by
        rw [Dinode.node, if_neg hc.kind, Function.update_self, contents, hc.dirty.bytes,
          ← map_range_patchAt hoff]
        rfl
      refine .inr ⟨hk, rfl, hoff, ?_⟩
      rw [← hnode]
      refine h.stored hr hc hA hst hw.clean (fun m hm => Function.update_of_ne hm ..) rfl ?_
      intro x hx
      rw [hnode] at hx
      obtain rfl := Option.some.inj hx
      exact hdir hoff

/-- An assignment to the number of links, or to the device numbers. -/
theorem store_spec {f : Dinode → Dinode} (h : Disk A s) (hr : 0 < (s.icache i).ref)
    (hv : (s.icache i).valid = true) (hk : (f (s.icache i).d).kind = (s.icache i).d.kind)
    (hs : (f (s.icache i).d).size = (s.icache i).d.size)
    (ha : (f (s.icache i).d).addrs = (s.icache i).d.addrs) :
    wp (store i f) (fun _ s' => Disk (Function.update A (s.icache i).inum
      (some (((s.icache i).node s.block).setLinks (f (s.icache i).d).nlink))) s') E s := by
  obtain ⟨β, hc, hA⟩ := h.clean hr hv
  apply wp_bind
  apply wp_setData
  apply wp_iupdate
  have hst : Stored i (f (s.icache i).d) s ((s.setD i (f (s.icache i).d)).flush i) := by
    refine ⟨rfl, ?_, rfl, rfl, rfl, rfl, rfl⟩
    show Function.update s.dinode _ _ = _
    simp only [Fs.setD, Function.update_self]
  have hd : Dirty i (f (s.icache i).d) (blocksOf (f (s.icache i).d).size) β ∅ s := by
    rw [hs]
    exact hc.dirty.setFields ha hk
  have hnode : (f (s.icache i).d).node (β (s.icache i).inum) =
      some (((s.icache i).node s.block).setLinks (f (s.icache i).d).nlink) := by
    rw [Dinode.node, if_neg (hk ▸ hc.kind), hk, hs, Inode.node, contents, hc.dirty.bytes]
    rfl
  rw [← hnode]
  refine h.stored hr hc hA hst (hd.clean hst rfl rfl rfl) (fun _ _ => rfl) hk ?_
  intro x hx
  rw [hnode] at hx
  obtain rfl := Option.some.inj hx
  have hdir := h.dirs _ _ (h.node hr hv)
  exact hdir

end Contents

/-! ## §3  Inodes are freed and allocated -/

/-- The inode of an entry that nobody refers to is freed. -/
theorem freed (h : Disk A s) (hr : 0 < (s.icache i).ref)
    (hA : A = nodesOf s.sb.ninodes s.dinode β) (hn : (s.icache i).inum < s.sb.ninodes)
    (hsb : s'.sb = s.sb) (hfile : s'.file = s.file)
    (hdinode : s'.dinode = Function.update s.dinode (s.icache i).inum d)
    (hcache : s'.icache = Function.update s.icache i ip) (ht : Tidy β' s')
    (hβ : ∀ m, m ≠ (s.icache i).inum → β' m = β m) (hd : d.kind = .free) (hr' : ip.ref = 0)
    (hl : ip.locked = false) (hf : ∀ f, ¬ (s.file f).Uses i) :
    Disk (Function.update A (s.icache i).inum none) s' := by
  have hself : s'.icache i = ip := by
    rw [hcache, Function.update_self]
  have hne : ∀ {j}, j ≠ i → s'.icache j = s.icache j := by
    intro j hj
    rw [hcache, Function.update_of_ne hj]
  have hpos : ∀ {j}, 0 < (s'.icache j).ref → j ≠ i ∧ 0 < (s.icache j).ref := by
    intro j hj
    by_cases hji : j = i
    · rw [hji, hself, hr'] at hj
      exact absurd hj (by decide)
    · rw [hne hji] at hj
      exact ⟨hji, hj⟩
  refine ⟨⟨β', ht, ?_⟩, ?_, ?_, ?_, ?_, ?_, ?_⟩
  · rw [hdinode, hsb, nodesOf_update hn hβ, hA, Dinode.node, if_pos hd]
  · intro n x hx
    rw [hsb]
    by_cases hnn : n = (s.icache i).inum
    · rw [hnn, Function.update_self] at hx
      cases hx
    · rw [Function.update_of_ne hnn] at hx
      exact h.dirs n x hx
  · intro j hj
    obtain ⟨hji, hj⟩ := hpos hj
    rw [hne hji, hsb]
    exact h.inum j hj
  · intro j hj hv
    obtain ⟨hji, hj⟩ := hpos hj
    have hnum : (s.icache j).inum ≠ (s.icache i).inum := fun he => hji (h.unique j i hj hr he)
    rw [hne hji] at hv ⊢
    rw [hdinode, Function.update_of_ne hnum]
    exact h.same j hj hv
  · intro j k hj hk
    obtain ⟨hji, hj⟩ := hpos hj
    obtain ⟨hki, hk⟩ := hpos hk
    rw [hne hji, hne hki]
    exact h.unique j k hj hk
  · intro j
    by_cases hj : j = i
    · rw [hj, hself, hl]
      nofun
    · rw [hne hj]
      exact h.locked j
  · intro f j hj
    rw [hfile] at hj ⊢
    have hji : j ≠ i := by
      rintro rfl
      exact hf f hj
    rw [hne hji]
    exact h.files f j hj

end Disk

/-- The last reference to an inode without links. -/
def Fs.Last (s : Fs) (i : Slot) : Prop :=
  (s.icache i).valid = true ∧ (s.icache i).d.nlink = 0 ∧ (s.icache i).ref = 1

/-- An inode without blocks is freed. -/
theorem Tidy.free (h : Clean β i s) (ha : ∀ k, (s.icache i).d.addrs k = 0) (hsize : d.size = 0)
    (hd : ∀ k, d.addrs k = 0) (hsb : s'.sb = s.sb) (hblock : s'.block = s.block)
    (hbit : s'.bit = s.bit) (hallocs : s'.allocs = s.allocs)
    (hdinode : s'.dinode = Function.update s.dinode (s.icache i).inum d) :
    Tidy (Function.update β (s.icache i).inum fun _ => 0) s' where
  sb := hsb ▸ h.sb
  blocks := by
    have hcounts : (fun n => blocksOf (s'.dinode n).size) =
        Function.update (fun n => blocksOf (s.dinode n).size) (s.icache i).inum 0 := by
      funext n
      rw [hdinode]
      by_cases hn : n = (s.icache i).inum
      · rw [hn, Function.update_self, Function.update_self, hsize]
        rfl
      · rw [Function.update_of_ne hn, Function.update_of_ne hn]
    have hold : ∀ p, place s.sb.ninodes s.dinode s.block ((s.icache i).inum, p) = none := by
      intro p
      unfold place
      dsimp only
      rw [h.same, refAt_eq_none ha, ite_self]
    have hset := h.blocks.setEmpty hold hd
    rwa [hcounts, hdinode, hsb, hblock, hbit]
  allocs := by
    rw [hallocs, hsb]
    exact h.allocs

/-- The end of `iput`, after `itrunc`. -/
theorem iput_end_spec : wp (do
      setData i fun d => { d with kind := .free }
      iupdate i
      let ip ← slot i
      setSlot i { ip with valid := false }
      releasesleep i
      let ip ← slot i
      setSlot i { ip with ref := ip.ref - 1 }) (fun _ s' => s'.sb = s.sb ∧ s'.file = s.file ∧
      s'.block = s.block ∧ s'.bit = s.bit ∧ s'.allocs = s.allocs ∧
      s'.dinode = Function.update s.dinode (s.icache i).inum
        { (s.icache i).d with kind := .free } ∧
      s'.icache = Function.update s.icache i { s.icache i with
        d := { (s.icache i).d with kind := .free }, valid := false, locked := false,
        ref := (s.icache i).ref - 1 }) E s := by
  apply wp_bind
  apply wp_setData
  apply wp_bind
  apply wp_iupdate
  apply wp_bind
  apply wp_slot
  apply wp_bind
  apply wp_setSlot
  apply wp_bind
  apply wp_bind
  apply wp_slot
  apply wp_setSlot
  apply wp_bind
  apply wp_slot
  apply wp_setSlot
  refine ⟨rfl, rfl, rfl, rfl, rfl, ?_, ?_⟩
  · simp only [Fs.setD, Fs.flush, Function.update_self]
  · simp only [Fs.setD, Fs.flush, Function.update_self, Function.update_idem]

namespace Disk

theorem iput_last_spec (h : Disk A s) (hr : Refs T L ((i, n) ::ₘ R) s) (hlast : s.Last i)
    (hl : (s.icache i).locked = false) :
    wp (iput i) (fun _ s' => Disk (Function.update A (s.icache i).inum none) s') E s := by
  obtain ⟨hv, hk, href⟩ := hlast
  have hpos : 0 < (s.icache i).ref := by omega
  obtain ⟨β, hc, hA⟩ := h.clean hpos hv
  have hfree : ∀ f, ¬ (s.file f).Uses i := by
    intro f hf
    have hheld := hr.held_of_uses hf
    have hsum := hr.ref i
    rw [Refs.count_cons_self] at hsum
    omega
  apply wp_bind
  apply wp_bind
  apply wp_slot
  rw [if_neg (by rw [hl]; nofun)]
  apply wp_setSlot
  have hc₁ : Clean β i (s.setEntry i { s.icache i with locked := true }) := by
    have hself : (s.setEntry i { s.icache i with locked := true }).icache i =
        { s.icache i with locked := true } := Function.update_self ..
    refine ⟨⟨hc.sb, hc.blocks, hc.allocs⟩, ?_, ?_, ?_⟩
    · rw [hself]
      exact hc.inum
    · rw [hself]
      exact hc.kind
    · rw [hself]
      exact hc.same
  apply wp_bind
  apply wp_slot
  simp only [Function.update_self]
  rw [if_pos ⟨hv, hk⟩, if_pos href]
  change wp _ _ _ (s.setEntry i { s.icache i with locked := true })
  apply wp_call (itrunc_spec hc₁)
  rintro _ s₂ ⟨hst, hc₂⟩
  have hself₁ : (s.setEntry i { s.icache i with locked := true }).icache i =
      { s.icache i with locked := true } := Function.update_self ..
  have hself₂ : s₂.icache i = { s.icache i with
      locked := true, d := (s.icache i).d.cleared } := by
    rw [hst.icache, Function.update_self, hself₁]
  apply wp_mono iput_end_spec _ fun _ => id
  rintro _ s' ⟨hsb, hfile, hblock, hbit, hallocs, hdinode, hcache⟩
  have hzero : ∀ k, (s₂.icache i).d.addrs k = 0 := by
    rw [hself₂]
    exact fun _ => rfl
  have hsize : { (s₂.icache i).d with kind := .free }.size = 0 := by
    rw [hself₂]
    rfl
  have ht := Tidy.free hc₂ hzero hsize hzero hsb hblock hbit hallocs hdinode
  have hn₂ : (s₂.icache i).inum = (s.icache i).inum := by rw [hself₂]
  rw [hn₂, hst.dinode, hself₁, Function.update_idem] at hdinode
  have hidem : ∀ ip, Function.update s₂.icache i ip = Function.update s.icache i ip := by
    intro ip
    rw [hst.icache, Function.update_idem]
    exact Function.update_idem ..
  rw [hidem] at hcache
  refine h.freed hpos hA hc.inum (hsb.trans hst.sb) (hfile.trans hst.file) hdinode hcache ht ?_
    rfl ?_ rfl hfree
  · intro m hm
    rw [hn₂, Function.update_of_ne hm, hself₁, Function.update_of_ne hm]
  · show (s₂.icache i).ref - 1 = 0
    rw [hself₂]
    show (s.icache i).ref - 1 = 0
    omega

theorem iput_spec (h : Disk A s) (hr : Refs T L ((i, n) ::ₘ R) s) :
    wp (iput i) (fun _ s' => ¬ s.Last i ∧ Disk A s' ∨
      s.Last i ∧ Disk (Function.update A (s.icache i).inum none) s')
      (fun e => e = .deadlock) s := by
  cases hl : (s.icache i).locked with
  | true =>
      apply wp_bind
      apply wp_bind
      apply wp_slot
      rw [if_pos hl]
      exact wp_throw rfl
  | false =>
      by_cases hlast : s.Last i
      · exact wp_mono (h.iput_last_spec hr hlast hl) (fun _ _ h' => .inr ⟨hlast, h'⟩) fun _ => id
      · refine wp_mono (iput_keep_spec hl hlast) ?_ fun _ => id
        rintro _ s' rfl
        refine .inl ⟨hlast, h.setEntry_same rfl (fun _ => ?_) rfl rfl .inl⟩
        exact hr.pos_of_mem (Multiset.mem_cons_self ..)

/-- A free inode gets a type. -/
theorem alloc {k : Kind} (h : Disk A s) (hk : k ≠ .free) (hn : n < s.sb.ninodes)
    (hfree : (s.dinode n).kind = .free) : Disk (Function.update A n (some ⟨k, 0, []⟩))
      { s with dinode := Function.update s.dinode n (.new k) } := by
  obtain ⟨β, ht, hA⟩ := h.nodes
  have hnode : (Dinode.new k).node (Function.update β n (fun _ => 0) n) = some ⟨k, 0, []⟩ :=
    if_neg hk
  have hcounts : (fun m => blocksOf (Function.update s.dinode n (.new k) m).size) =
      Function.update (fun m => blocksOf (s.dinode m).size) n 0 := by
    funext m
    by_cases hm : m = n
    · rw [hm, Function.update_self, Function.update_self]
      show blocksOf 0 = 0
      decide
    · rw [Function.update_of_ne hm, Function.update_of_ne hm]
  have hold : ∀ p, place s.sb.ninodes s.dinode s.block (n, p) = none :=
    fun p => if_neg fun hp => hp.2 hfree
  have ha : ∀ i, (Dinode.new k).addrs i = 0 := fun _ => rfl
  have hblocks := ht.blocks.setEmpty hold ha
  rw [← hcounts] at hblocks
  refine ⟨⟨_, ⟨ht.sb, hblocks, ht.allocs⟩, ?_⟩, ?_, h.inum, ?_, h.unique, h.locked, h.files⟩
  · rw [nodesOf_update hn fun m hm => Function.update_of_ne hm .., hnode, hA]
  · intro m x hx
    by_cases hm : m = n
    · rw [hm, Function.update_self] at hx
      obtain rfl := Option.some.inj hx
      intro _
      refine ⟨⟨0, rfl⟩, fun e => ?_⟩
      show inumAt [] e < _
      rw [inumAt_of_le (Nat.zero_le e) ⟨0, rfl⟩]
      exact Nat.lt_of_le_of_lt (Nat.zero_le n) hn
    · rw [Function.update_of_ne hm] at hx
      exact h.dirs m x hx
  · intro i hr hv
    obtain ⟨hd, hkind⟩ := h.same i hr hv
    have hne : (s.icache i).inum ≠ n := by
      intro he
      rw [hd, he] at hkind
      exact hkind hfree
    exact ⟨hd.trans (Function.update_of_ne hne ..).symm, hkind⟩

theorem ialloc_spec {k : Kind} (h : Disk A s) (hr : Refs T L R s) (hk : k ≠ .free) :
    wp (ialloc k) (fun i s' => (s'.icache i).inum ≠ 0 ∧
        A (s'.icache i).inum = none ∧
        Disk (Function.update A (s'.icache i).inum (some ⟨k, 0, []⟩)) s' ∧
        (∀ j, 0 < (s.icache j).ref → (s'.icache j).inum = (s.icache j).inum) ∧
        ∀ j, 0 < (s'.icache j).ref →
          0 < (s.icache j).ref ∨ (s'.icache j).inum = (s'.icache i).inum)
      (fun e => e = .igetNoInodes ∨ e = .iallocNoInodes) s := by
  apply wp_bind
  apply wp_get
  split
  · rename_i n hfind
    have hp := List.find?_some hfind
    obtain ⟨hn0, hfree⟩ := of_decide_eq_true hp
    have hn : n < s.sb.ninodes := List.mem_range.mp (List.mem_of_find?_eq_some hfind)
    have hnone : A n = none := by
      obtain ⟨β, _, hA⟩ := h.nodes
      rw [hA, nodesOf, Dinode.node, if_pos hfree, ite_self]
    apply wp_bind
    apply wp_set
    have h₁ := h.alloc hk hn hfree
    have hr₁ : Refs T L R { s with dinode := Function.update s.dinode n (.new k) } :=
      hr.quiet ⟨rfl, rfl, rfl, rfl, fun _ => rfl, fun _ => rfl, fun _ => rfl⟩
    refine wp_mono (wp_and (h₁.iget_spec hr₁ hn) iget_frame) ?_ fun _ he => .inl he.1
    rintro i s' ⟨⟨h', hi⟩, hnum, hnew⟩
    rw [hi]
    exact ⟨by omega, hnone, h', hnum, hnew⟩
  · exact wp_throw (.inr rfl)

end Disk

/-! ## §4  Directories -/

/-- An entry of directory `n` for a name. -/
structure Entry (A : ℕ → Option Node) (n : ℕ) (name : List UInt8) (x : Node) (e : ℕ) : Prop where
  node : A n = some x
  dir : x.kind = .dir
  lt : e < entries x.data
  found : Matches x.data name e

/-- Directory `n` has no entry for a name. -/
structure NoEntry (A : ℕ → Option Node) (n : ℕ) (name : List UInt8) (x : Node) : Prop where
  node : A n = some x
  dir : x.kind = .dir
  none : ∀ e, ¬ Matches x.data name e

theorem Node.DirOk.setEntry {x : Node} {e : ℕ} {de : List UInt8} {ninodes : ℕ}
    (h : x.DirOk ninodes) (hde : de.length = direntSize) (he : e ≤ entries x.data)
    (hlt : direntInum de < ninodes) :
    (x.setData (Inodes.setEntry x.data e de)).DirOk ninodes := by
  intro hk
  obtain ⟨hw, hin⟩ := h hk
  refine ⟨(entries_setEntry hde he hw).2, fun e' => ?_⟩
  show inumAt (Inodes.setEntry x.data e de) e' < ninodes
  by_cases hee : e' = e
  · rw [hee, inumAt, entryAt_setEntry_self hde he]
    exact hlt
  · rw [inumAt, entryAt_setEntry_ne hde he hee]
    exact hin e'

namespace Disk

variable {dp : Slot} {name : List UInt8}

theorem isDir (h : Disk A s) (hr : 0 < (s.icache i).ref) (hv : (s.icache i).valid = true)
    (hk : (s.icache i).d.kind = .dir) : IsDir i (contents (s.icache i).d s.block) s := by
  obtain ⟨β, hc, _⟩ := h.clean hr hv
  exact ⟨⟨β, hc⟩, hk, rfl, (h.dirs _ _ (h.node hr hv) hk).1⟩

theorem dirlookup_spec (h : Disk A s) (hrefs : Refs T L R s) (hr : 0 < (s.icache dp).ref)
    (hv : (s.icache dp).valid = true) :
    wp (dirlookup dp name) (fun r s' => match r with
        | none => s' = s ∧ ∃ x, NoEntry A (s.icache dp).inum name x
        | some (i, off) => Disk A s' ∧ ∃ x e, Entry A (s.icache dp).inum name x e ∧
            off = direntSize * e ∧ (s'.icache i).inum = inumAt x.data e ∧
            (∀ j, 0 < (s.icache j).ref → (s'.icache j).inum = (s.icache j).inum) ∧
            ∀ j, 0 < (s'.icache j).ref →
              0 < (s.icache j).ref ∨ (s'.icache j).inum = inumAt x.data e)
      (fun e => e = .dirlookupNotDir ∨ e = .igetNoInodes) s := by
  by_cases hk : (s.icache dp).d.kind = .dir
  · have hnode := h.node hr hv
    have hdir := h.isDir hr hv hk
    apply hdir.listing.dirlookup_rule
    · intro hno
      refine ⟨rfl, _, hnode, hk, fun e hm => ?_⟩
      by_cases he : e < entries (contents (s.icache dp).d s.block)
      · exact hno e he hm
      · exact hm.1 (inumAt_of_le (Nat.le_of_not_lt he) hdir.whole)
    · intro e he hm _
      have hlt := (h.dirs _ _ hnode hk).2 e
      refine wp_mono (wp_and (h.iget_spec hrefs hlt) iget_frame) ?_ fun _ he => .inr he.1
      rintro i s' ⟨⟨hd, hi⟩, hnum, hnew⟩
      exact ⟨hd, _, e, ⟨hnode, hk, he, hm⟩, rfl, hi, hnum, hnew⟩
  · apply wp_bind
    apply wp_slot
    rw [if_pos hk]
    exact wp_bind (wp_throw (.inl rfl))

/-- `dirlink` finds an entry that is free. -/
theorem dirlinkLoop_spec {E : Panic → Prop} (h : Disk A s) (hr : 0 < (s.icache dp).ref)
    (hv : (s.icache dp).valid = true) (hk : (s.icache dp).d.kind = .dir) :
    wp (dirlinkLoop dp ((s.icache dp).d.size + 1) 0) (fun off s' => s' = s ∧ ∃ e,
      off = direntSize * e ∧ e ≤ entries (contents (s.icache dp).d s.block) ∧
      inumAt (contents (s.icache dp).d s.block) e = 0) E s := by
  have hdir := h.isDir hr hv hk
  refine hdir.listing.dirlinkLoop_rule (e := 0) ?_ (Nat.zero_le _) ?_
  · rw [hdir.length, entries]
    have := Nat.div_le_self (contents (s.icache dp).d s.block).length direntSize
    omega
  · intro e he h0
    exact ⟨rfl, e, rfl, he, h0⟩

/-- `isdirempty` looks at all entries but the first two. -/
theorem isFullDir_spec {E : Panic → Prop} (h : Disk A s) (hr : 0 < (s.icache i).ref)
    (hv : (s.icache i).valid = true) :
    wp (isFullDir i) (fun b s' => s' = s ∧ (b = false → (s.icache i).d.kind = .dir →
      ∀ e, 2 ≤ e → inumAt (contents (s.icache i).d s.block) e = 0)) E s := by
  apply wp_bind
  apply wp_slot
  apply wp_ite
  · intro hk
    have hdir := h.isDir hr hv hk
    apply wp_bind
    apply wp_bind
    apply wp_slot
    refine hdir.listing.isdiremptyLoop_rule (e := 2) ?_ (fun e' h2 hlt => absurd hlt (Nat.not_lt.mpr h2))
      ?_ ?_ (Nat.le_refl 2)
    · rw [hdir.length, entries]
      have := Nat.div_le_self (contents (s.icache i).d s.block).length direntSize
      omega
    · intro hempty
      refine wp_pure ⟨rfl, fun _ _ e h2 => ?_⟩
      by_cases he : e < entries (contents (s.icache i).d s.block)
      · exact hempty e h2 he
      · exact inumAt_of_le (Nat.le_of_not_lt he) hdir.whole
    · intro _
      exact wp_pure ⟨rfl, by simp⟩
  · intro hk
    exact wp_pure ⟨rfl, fun _ hdir => absurd hdir hk⟩

end Disk

end Xv6.Inodes
