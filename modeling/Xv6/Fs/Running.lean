import Xv6.Fs.Nodes

/-!
# What is known while a call is running

The references and locks that the call has in hand, and, as far as one cares, the inodes
of the disk. One care is that the disk is consistent; the other, which is stronger, is
that the names in the directories are in order.
-/

namespace Xv6.Inodes

open Xv6.Lib PanicM

variable {s s' : Fs} {i j : Slot} {n m : ℕ} {T : Tables} {L L' : Multiset Slot}
  {R R' : Multiset (Slot × ℕ)} {A A' : ℕ → Option Node}

/-- What one cares about, besides the counts. -/
structure Care where
  disk : Prop
  links : Prop
  disk_of_links : links → disk

variable {c : Care}

/-- The panics that a call may end in. -/
def Care.Allows (c : Care) (e : Panic) : Prop :=
  (c.disk → e ≠ .freeingFreeBlock) ∧ (c.links → e ≠ .ilockNoType)

theorem Care.allows {e : Panic} (h : e ≠ .freeingFreeBlock) (h' : e ≠ .ilockNoType) :
    c.Allows e :=
  ⟨fun _ => h, fun _ => h'⟩

/-- The inodes are `A`. Where the names are in order, those of the entries in use are not
free, and current directories are directories. -/
structure Running (c : Care) (T : Tables) (L : Multiset Slot) (R : Multiset (Slot × ℕ))
    (A : ℕ → Option Node) (s : Fs) : Prop extends Refs T L R s where
  disk : c.disk → Disk A s
  alive : c.links → ∀ i, 0 < (s.icache i).ref → ∃ x, A (s.icache i).inum = some x
  cwds : c.links → ∀ q i, T.cwd q = some i →
    ∃ x, A (s.icache i).inum = some x ∧ x.kind = .dir

/-- A current directory has a reference. -/
theorem Refs.pos_of_cwd {q : Pid} (h : Refs T L R s) (hc : T.cwd q = some i) :
    0 < (s.icache i).ref := by
  have hle : 1 ≤ T.cwds i := by
    refine Nat.le_trans ?_ (Finset.single_le_sum (f := fun q =>
      if T.cwd q = some i then 1 else 0) (fun _ _ => Nat.zero_le _) (Finset.mem_univ q))
    rw [if_pos hc]
  rw [h.ref, Tables.held]
  omega

/-- One node of a map changes. -/
def modify (A : ℕ → Option Node) (n : ℕ) (f : Node → Node) : ℕ → Option Node :=
  Function.update A n ((A n).map f)

theorem modify_self {x : Node} (h : A n = some x) (f : Node → Node) :
    modify A n f n = some (f x) := by
  rw [modify, Function.update_self, h, Option.map_some]

theorem modify_ne (h : m ≠ n) (f : Node → Node) : modify A n f m = A m :=
  Function.update_of_ne h ..

theorem modify_eq {x : Node} (h : A n = some x) (f : Node → Node) :
    modify A n f = Function.update A n (some (f x)) := by
  rw [modify, h, Option.map_some]

theorem kind_modify {f : Node → Node} (hf : ∀ x, (f x).kind = x.kind) (m : ℕ) :
    (modify A n f m).map Node.kind = (A m).map Node.kind := by
  by_cases hm : m = n
  · rw [hm, modify, Function.update_self, Option.map_map]
    exact congrArg (fun g => (A n).map g) (funext hf)
  · rw [modify_ne hm]

/-- Entry `e` of directory `n` is written. -/
def writeEntry (A : ℕ → Option Node) (n e : ℕ) (de : List UInt8) : ℕ → Option Node :=
  modify A n fun x => x.setData (setEntry x.data e de)

/-- The names in directory `n` are those of inodes with links. -/
def NamesIn (A : ℕ → Option Node) (n : ℕ) : Prop :=
  ∀ x e, A n = some x → x.kind = .dir → inumAt x.data e ≠ 0 →
    ∃ y, A (inumAt x.data e) = some y ∧ y.nlink ≠ 0

/-- The names in directory `n` are those of inodes. -/
def TargetsIn (A : ℕ → Option Node) (n : ℕ) : Prop :=
  ∀ x e, A n = some x → x.kind = .dir → inumAt x.data e ≠ 0 → ∃ y, A (inumAt x.data e) = some y

theorem NamesIn.targets (h : NamesIn A n) : TargetsIn A n := by
  intro x e hx hk h0
  obtain ⟨y, hy, _⟩ := h x e hx hk h0
  exact ⟨y, hy⟩

namespace Running

/-- The entries in use stay with their inodes, and these keep their types. -/
theorem step (h : Running c T L R A s) (hr : Refs T L' R' s') (hd : c.disk → Disk A' s')
    (hnum : c.links → ∀ j, 0 < (s.icache j).ref → (s'.icache j).inum = (s.icache j).inum)
    (hnew : c.links → ∀ j, 0 < (s'.icache j).ref →
      0 < (s.icache j).ref ∨ ∃ x, A' (s'.icache j).inum = some x)
    (hA : c.links → ∀ j, 0 < (s.icache j).ref → 0 < (s'.icache j).ref →
      (A' (s.icache j).inum).map Node.kind = (A (s.icache j).inum).map Node.kind) :
    Running c T L' R' A' s' := by
  refine ⟨hr, hd, ?_, ?_⟩
  · intro hl j hj
    rcases hnew hl j hj with hold | hx
    · obtain ⟨x, hx⟩ := h.alive hl j hold
      have hk := hA hl j hold hj
      rw [hx, ← hnum hl j hold] at hk
      obtain ⟨y, hy, _⟩ := Option.map_eq_some_iff.mp hk
      exact ⟨y, hy⟩
    · exact hx
  · intro hl q j hcwd
    have hold := h.toRefs.pos_of_cwd hcwd
    obtain ⟨x, hx, hdir⟩ := h.cwds hl q j hcwd
    have hk := hA hl j hold (hr.pos_of_cwd hcwd)
    rw [hx, ← hnum hl j hold] at hk
    obtain ⟨y, hy, he⟩ := Option.map_eq_some_iff.mp hk
    exact ⟨y, hy, he.trans hdir⟩

/-- The same, where no entry comes into use. -/
theorem step_quiet (h : Running c T L R A s) (hr : Refs T L' R' s') (hd : c.disk → Disk A' s')
    (hnum : ∀ j, (s'.icache j).inum = (s.icache j).inum)
    (href : ∀ j, 0 < (s'.icache j).ref → 0 < (s.icache j).ref)
    (hA : c.links → ∀ j, 0 < (s.icache j).ref → 0 < (s'.icache j).ref →
      (A' (s.icache j).inum).map Node.kind = (A (s.icache j).inum).map Node.kind) :
    Running c T L' R' A' s' :=
  h.step hr hd (fun _ j _ => hnum j) (fun _ j hj => .inl (href j hj)) hA

theorem inum_lt (h : Running c T L R A s) (hi : (i, n) ∈ R) (hc : c.disk) : n < T.sb.ninodes := by
  have hlt := (h.disk hc).inum i (h.pos_of_mem hi)
  rwa [h.inum hi, h.sb] at hlt

/-- The inode of an entry that is locked. -/
theorem node (h : Running c T L R A s) (hl : i ∈ L) (hi : (s.icache i).inum = n) (hc : c.disk) :
    A n = some ((s.icache i).node s.block) := by
  rw [← hi]
  exact (h.disk hc).node (h.pos i hl) ((h.disk hc).locked i ((h.locked i).mpr hl))

theorem iget_spec (h : Running c T L R A s) (hn : c.disk → n < T.sb.ninodes)
    (hl : c.links → ∃ x, A n = some x) :
    wp (iget n) (fun i s' => Running c T L ((i, n) ::ₘ R) A s') c.Allows s := by
  refine wp_mono (wp_and h.toRefs.iget_spec (wp_and iget_frame (wp_imp fun hc =>
    (h.disk hc).iget_spec h.toRefs (h.sb ▸ hn hc)))) ?_ ?_
  · rintro i s' ⟨hr, ⟨hnum, hnew⟩, hd⟩
    refine h.step hr (fun hc => (hd hc).1) (fun _ => hnum) ?_ fun _ _ _ _ => rfl
    intro hlinks j hj
    rcases hnew j hj with hold | hjn
    · exact .inl hold
    · exact .inr (hjn ▸ hl hlinks)
  · rintro e ⟨_, _, he⟩
    refine ⟨fun hc => ?_, fun hl => ?_⟩
    · rw [he hc]
      nofun
    · rw [he (c.disk_of_links hl)]
      nofun

theorem idup_spec (h : Running c T L R A s) (hi : 0 < (s.icache i).ref) :
    wp (idup i) (fun j s' => j = i ∧ Running c T L ((i, (s.icache i).inum) ::ₘ R) A s')
      c.Allows s := by
  refine wp_mono (wp_and (h.toRefs.idup_spec (E := fun _ => False) hi)
    (wp_and (Inodes.idup_spec (E := fun _ => False)) (wp_imp fun hc =>
      (h.disk hc).idup_spec (E := fun _ => False) hi))) ?_ fun _ he => he.1.elim
  rintro j s' ⟨⟨rfl, hr⟩, ⟨_, rfl⟩, hd⟩
  refine ⟨rfl, h.step_quiet hr hd (s.inum_setRef j _) ?_ fun _ _ _ _ => rfl⟩
  intro k hk
  by_cases hkj : k = j
  · rw [hkj]
    exact hi
  · rwa [Fs.setRef_ne hkj] at hk

/-- A function that does not change the references in hand. -/
theorem of_fixed {α : Type} {x : M α} {Q : α → Fs → Prop} {E : Panic → Prop}
    (h : Running c T L R A s) (hr : wp x (fun _ s' => Refs T L' R s') (fun _ => True) s)
    (hf : Fixed x) (hd : c.disk → wp x (fun a s' => Disk A s' ∧ Q a s') E s)
    (hE : ∀ e, (c.disk → E e) → c.Allows e) :
    wp x (fun a s' => Running c T L' R A s' ∧ (c.disk → Q a s')) c.Allows s := by
  refine wp_mono (wp_and hr (wp_and (hf s) (wp_imp hd))) ?_ fun e he => hE e he.2.2
  rintro a s' ⟨hr', hnum, hd'⟩
  refine ⟨h.step_quiet hr' (fun hc => (hd' hc).1) hnum ?_ fun _ _ _ _ => rfl,
    fun hc => (hd' hc).2⟩
  intro j hj
  rw [hr'.ref] at hj
  rwa [h.ref]

theorem ilock_spec (h : Running c T L R A s) (hi : 0 < (s.icache i).ref) :
    wp (ilock i) (fun _ s' => Running c T (i ::ₘ L) R A s') c.Allows s := by
  refine wp_mono (h.of_fixed h.toRefs.ilock_spec (fixed_ilock i)
    (fun hc => wp_mono (h.disk hc).ilock_spec (fun _ _ hd => ⟨hd, trivial⟩) fun _ => id) ?_)
    (fun _ _ h' => h'.1) fun _ => id
  intro e he
  refine ⟨fun hc => ?_, fun hl => ?_⟩
  · rcases he hc with rfl | rfl | ⟨rfl, _⟩ <;> nofun
  · rcases he (c.disk_of_links hl) with rfl | rfl | ⟨_, hnone⟩
    · nofun
    · nofun
    · obtain ⟨x, hx⟩ := h.alive hl i hi
      rw [hnone] at hx
      cases hx

theorem iunlock_spec (h : Running c T (i ::ₘ L) R A s) :
    wp (iunlock i) (fun _ s' => Running c T L R A s') c.Allows s := by
  refine wp_mono (h.of_fixed h.toRefs.iunlock_spec (fixed_iunlock i)
    (fun hc => wp_mono (h.disk hc).iunlock_spec (fun _ _ hd => ⟨hd, trivial⟩) fun _ => id) ?_)
    (fun _ _ h' => h'.1) fun _ => id
  intro e he
  refine ⟨fun hc => ?_, fun hl => ?_⟩
  · rw [he hc]
    nofun
  · rw [he (c.disk_of_links hl)]
    nofun

/-- What has been read of the inode stays. -/
theorem iunlock_frame_spec (h : Running c T (i ::ₘ L) R A s) :
    wp (iunlock i) (fun _ s' => Running c T L R A s' ∧
      (s'.icache i).valid = (s.icache i).valid ∧ (s'.icache i).d = (s.icache i).d) c.Allows s := by
  refine wp_mono (wp_and h.iunlock_spec (Inodes.iunlock_spec (E := fun _ => True)
    fun _ => trivial)) ?_ fun _ he => he.1
  rintro _ s' ⟨h', _, _, rfl⟩
  rw [Fs.setEntry_self]
  exact ⟨h', rfl, rfl⟩

/-- The last reference is in hand. -/
theorem held_of_last (h : Running c T L ((i, n) ::ₘ R) A s) (hlast : s.Last i) :
    T.held i = 0 ∧ ∀ m, (i, m) ∉ R := by
  have hsum := h.ref i
  rw [hlast.2.2, Refs.count_cons_self] at hsum
  refine ⟨by omega, fun m hm => ?_⟩
  have hpos : 0 < (R.map Prod.fst).count i :=
    Multiset.count_pos.mpr (Multiset.mem_map_of_mem Prod.fst hm)
  omega

theorem iput_spec (h : Running c T L ((i, n) ::ₘ R) A s) :
    wp (iput i) (fun _ s' => ¬ s.Last i ∧ Running c T L R A s' ∨
      s.Last i ∧ Running c T L R (Function.update A n none) s') c.Allows s := by
  have hi := h.inum (Multiset.mem_cons_self (i, n) R)
  refine wp_mono (wp_and h.toRefs.iput_spec (wp_and (fixed_iput i s) (wp_imp fun hc =>
    (h.disk hc).iput_spec h.toRefs))) ?_ ?_
  · rintro _ s' ⟨hr', hnum, hd⟩
    have href : ∀ j, 0 < (s'.icache j).ref → 0 < (s.icache j).ref := by
      intro j hj
      rw [hr'.ref] at hj
      rw [h.ref, Multiset.map_cons, Multiset.count_cons]
      omega
    by_cases hlast : s.Last i
    · refine .inr ⟨hlast, h.step_quiet hr' (fun hc => ?_) hnum href ?_⟩
      · rcases hd hc with ⟨hno, _⟩ | ⟨_, hd⟩
        · exact absurd hlast hno
        · rwa [hi] at hd
      · intro hl j hj hj'
        obtain ⟨hheld, hR⟩ := h.held_of_last hlast
        -- the entry `i` is not in use any more, and no other is for inode `n`
        have hji : j ≠ i := by
          rintro rfl
          rw [hr'.ref, hheld, Multiset.count_eq_zero_of_notMem] at hj'
          · exact absurd hj' (by decide)
          · intro hm
            obtain ⟨p, hp, rfl⟩ := Multiset.mem_map.mp hm
            exact hR p.2 hp
        have hne : (s.icache j).inum ≠ n := by
          rw [← hi]
          intro he
          exact hji ((h.disk (c.disk_of_links hl)).unique j i hj
            (h.pos_of_mem (Multiset.mem_cons_self ..)) he)
        rw [Function.update_of_ne hne]
    · refine .inl ⟨hlast, h.step_quiet hr' (fun hc => ?_) hnum href fun _ _ _ _ => rfl⟩
      rcases hd hc with ⟨_, hd⟩ | ⟨hyes, _⟩
      · exact hd
      · exact absurd hyes hlast
  · rintro e ⟨_, _, he⟩
    refine ⟨fun hc => ?_, fun hl => ?_⟩
    · rw [he hc]
      nofun
    · rw [he (c.disk_of_links hl)]
      nofun

/-- A function that changes nothing if the disk is consistent. -/
theorem of_hushed {α : Type} {x : M α} {Q : α → Prop} (h : Running c T L R A s) (hx : Hushed x)
    (hd : c.disk → wp x (fun a s' => s' = s ∧ Q a) (fun e => c.Allows e) s) :
    wp x (fun a s' => Running c T L R A s' ∧ (c.disk → s' = s ∧ Q a)) c.Allows s := by
  by_cases hc : c.disk
  · refine wp_mono (hd hc) ?_ fun _ => id
    rintro a s' ⟨rfl, hq⟩
    exact ⟨h, fun _ => ⟨rfl, hq⟩⟩
  · have hl : ¬ c.links := fun hl => hc (c.disk_of_links hl)
    refine wp_mono (h.toRefs.hushed hx) ?_ fun _ _ => ⟨fun h' => absurd h' hc, fun h' => absurd h' hl⟩
    intro a s' hr
    exact ⟨⟨hr, fun h' => absurd h' hc, fun h' => absurd h' hl, fun h' => absurd h' hl⟩,
      fun h' => absurd h' hc⟩

theorem of_refs (hc : ¬ c.disk) (hr : Refs T L R s) : Running c T L R A s :=
  have hl : ¬ c.links := fun hl => hc (c.disk_of_links hl)
  ⟨hr, fun h => absurd h hc, fun h => absurd h hl, fun h => absurd h hl⟩

theorem allows_of_not_disk (hc : ¬ c.disk) (e : Panic) : c.Allows e :=
  ⟨fun h => absurd h hc, fun h => absurd (c.disk_of_links h) hc⟩

/-- By cases on whether one cares about the disk. -/
theorem by_disk {α : Type} {x : M α} {Q : α → Fs → Prop}
    (hd : c.disk → wp x Q c.Allows s) (hr : ¬ c.disk → wp x Q (fun _ => True) s) :
    wp x Q c.Allows s := by
  by_cases hc : c.disk
  · exact hd hc
  · exact wp_mono (hr hc) (fun _ _ => id) fun e _ => allows_of_not_disk hc e

theorem ialloc_spec {k : Kind} (h : Running c T L R A s) (hk : k ≠ .free) :
    wp (ialloc k) (fun i s' => ∃ n,
      Running c T L ((i, n) ::ₘ R) (Function.update A n (some ⟨k, 0, []⟩)) s' ∧
      (c.disk → n ≠ 0 ∧ A n = none)) c.Allows s := by
  apply by_disk
  · intro hc
    refine wp_mono (wp_and h.toRefs.ialloc_spec ((h.disk hc).ialloc_spec h.toRefs hk)) ?_ ?_
    · rintro i s' ⟨hr, hn0, hnone, hd, hnum, hnew⟩
      refine ⟨_, h.step hr (fun _ => hd) (fun _ => hnum) ?_ ?_, fun _ => ⟨hn0, hnone⟩⟩
      · intro hl j hj
        rcases hnew j hj with hold | hjn
        · exact .inl hold
        · exact .inr ⟨_, by rw [hjn, Function.update_self]⟩
      · intro hl j hj _
        obtain ⟨x, hx⟩ := h.alive hl j hj
        have hne : (s.icache j).inum ≠ (s'.icache i).inum := by
          intro he
          rw [he, hnone] at hx
          cases hx
        rw [Function.update_of_ne hne]
    · rintro e ⟨_, rfl | rfl⟩
      · exact Care.allows nofun nofun
      · exact Care.allows nofun nofun
  · intro hc
    refine wp_mono h.toRefs.ialloc_spec ?_ fun _ => id
    intro i s' hr
    exact ⟨_, of_refs hc hr, fun h' => absurd h' hc⟩

/-- The entry is locked, so that its inode has been read. -/
theorem valid (h : Running c T L R A s) (hl : i ∈ L) (hc : c.disk) :
    (s.icache i).valid = true :=
  (h.disk hc).locked i ((h.locked i).mpr hl)

theorem readi_spec {off k : ℕ} (h : Running c T L R A s) (hl : i ∈ L) (hk : k < uintSize) :
    wp (readi i off k) (fun _ s' => Running c T L R A s') c.Allows s := by
  refine wp_mono (h.of_hushed (Q := fun _ => True) (hushed_readi i off k) fun hc => ?_)
    (fun _ _ h' => h'.1) fun _ => id
  exact wp_mono ((h.disk hc).readi_spec (h.pos i hl) (h.valid hl hc) hk)
    (fun _ _ hs => ⟨hs, trivial⟩) fun _ => id

/-- The inode in an entry that is locked changes, but not its type. -/
theorem stored {f : Node → Node} (h : Running c T L R A s) (hr : Refs T L R s')
    (hq : ∀ j, (s'.icache j).inum = (s.icache j).inum)
    (hd : c.disk → Disk (modify A n f) s') (hf : ∀ x, (f x).kind = x.kind) :
    Running c T L R (modify A n f) s' := by
  refine h.step_quiet hr hd hq ?_ fun _ j _ _ => kind_modify hf _
  intro j hj
  rw [hr.ref] at hj
  rwa [h.ref]

theorem writei_spec {src : List UInt8} {off : ℕ} (h : Running c T L R A s) (hl : i ∈ L)
    (hi : (s.icache i).inum = n) (hsrc : src.length < uintSize)
    (hdir : c.disk → ∀ x, A n = some x → off ≤ x.data.length →
      (x.setData (patch x.data off src)).DirOk T.sb.ninodes) :
    wp (writei i src off) (fun r s' =>
      Running c T L R A s' ∧ (c.disk → (∃ x, A n = some x ∧ x.kind = .dev) ∨ r = -1) ∨
      Running c T L R (modify A n fun x => x.setData (patch x.data off src)) s' ∧
        (c.disk → r = src.length ∧ ∃ x, A n = some x ∧ off ≤ x.data.length)) c.Allows s := by
  apply by_disk
  · intro hc
    have hnode := h.node hl hi hc
    have hlen : (contents (s.icache i).d s.block).length = (s.icache i).d.size := by
      rw [contents, List.length_map, List.length_range]
    refine wp_mono (wp_and (h.toRefs.hushed (hushed_writei i src off))
      (wp_and (Fixed.of_hushed (hushed_writei i src off) s)
        ((h.disk hc).writei_spec (h.pos i hl) (h.valid hl hc) hsrc fun hoff => ?_))) ?_ ?_
    · rw [h.sb]
      exact hdir hc _ hnode (hlen ▸ hoff)
    · rintro r s' ⟨hr, hnum, ⟨rfl, hdev⟩ | ⟨_, hlen', hoff, hd⟩⟩
      · refine .inl ⟨h, fun _ => ?_⟩
        rcases hdev with hdev | hneg
        · exact .inl ⟨_, hnode, hdev⟩
        · exact .inr hneg
      · refine .inr ⟨h.stored hr hnum (fun _ => ?_) fun _ => rfl, fun _ => ⟨hlen', _, hnode, ?_⟩⟩
        · rw [modify_eq hnode, ← hi]
          exact hd
        · exact hlen ▸ hoff
    · rintro e ⟨_, _, rfl⟩
      exact Care.allows (by simp) (by simp)
  · intro hc
    refine wp_mono (h.toRefs.hushed (hushed_writei i src off)) ?_ fun _ => id
    intro r s' hr
    exact .inl ⟨of_refs hc hr, fun h' => absurd h' hc⟩

theorem store_spec {f : Dinode → Dinode} {g : ℤ → ℤ} (h : Running c T L R A s) (hl : i ∈ L)
    (hi : (i, n) ∈ R) (hf : ∀ d, (f d).kind = d.kind ∧ (f d).size = d.size ∧
      (f d).addrs = d.addrs ∧ (f d).nlink = g d.nlink) :
    wp (store i f) (fun _ s' =>
      Running c T L R (modify A n fun x => x.setLinks (g x.nlink)) s') c.Allows s := by
  apply by_disk
  · intro hc
    have hnode := h.node hl (h.inum hi) hc
    obtain ⟨hk, hs, ha, hn⟩ := hf (s.icache i).d
    refine wp_mono (wp_and (h.toRefs.hushed (hushed_store i f))
      (wp_and (Fixed.of_hushed (hushed_store i f) s) ((h.disk hc).store_spec
        (E := fun _ => False) (h.pos i hl) (h.valid hl hc) hk hs ha))) ?_ fun _ he => he.2.2.elim
    rintro _ s' ⟨hr, hnum, hd⟩
    refine h.stored hr hnum (fun _ => ?_) fun _ => rfl
    rw [modify_eq hnode, ← h.inum hi]
    rw [hn] at hd
    exact hd
  · intro hc
    exact wp_mono (h.toRefs.hushed (hushed_store i f)) (fun _ _ hr => of_refs hc hr) fun _ => id

theorem addLink_spec {v : ℤ} (h : Running c T L R A s) (hl : i ∈ L) (hi : (i, n) ∈ R) :
    wp (addLink i v) (fun _ s' =>
      Running c T L R (modify A n fun x => x.setLinks (toShort (x.nlink + v))) s') c.Allows s :=
  h.store_spec (g := fun k => toShort (k + v)) hl hi fun _ => ⟨rfl, rfl, rfl, rfl⟩

/-- `iunlockput` gives the inode up, and frees it if it has no links and nobody else refers
to it. -/
theorem iunlockput_spec (h : Running c T (i ::ₘ L) ((i, n) ::ₘ R) A s) :
    wp (iunlockput i) (fun _ s' =>
      Running c T L R A s' ∧ (c.disk → ∀ x, A n = some x → x.nlink = 0 →
        0 < T.held i ∨ ∃ m, (i, m) ∈ R) ∨
      Running c T L R (Function.update A n none) s' ∧ T.held i = 0 ∧ (∀ m, (i, m) ∉ R) ∧
        (c.disk → ∃ x, A n = some x ∧ x.nlink = 0)) c.Allows s := by
  have hmem := Multiset.mem_cons_self (i, n) R
  have hlock := Multiset.mem_cons_self i L
  apply wp_call (wp_mono (wp_and h.iunlock_spec (Inodes.iunlock_spec (E := fun _ => True)
    fun _ => trivial)) (fun _ _ => id) fun _ he => he.1)
  rintro _ s₁ ⟨h₁, _, _, rfl⟩
  have hself := s.setEntry_self i { s.icache i with locked := false }
  refine wp_mono h₁.iput_spec ?_ fun _ => id
  rintro _ s' (⟨hno, h'⟩ | ⟨hlast, h'⟩)
  · refine .inl ⟨h', fun hc x hx h0 => ?_⟩
    obtain rfl := Option.some.inj (hx.symm.trans (h.node hlock (h.inum hmem) hc))
    have hsum := h₁.ref i
    rw [Refs.count_cons_self] at hsum
    have href : ((s.setEntry i { s.icache i with locked := false }).icache i).ref ≠ 1 := by
      intro href
      refine hno ⟨?_, ?_, href⟩
      · rw [hself]
        exact h.valid hlock hc
      · rw [hself]
        exact h0
    by_cases hheld : T.held i = 0
    · right
      have hpos : 0 < (R.map Prod.fst).count i := by omega
      obtain ⟨p, hp, rfl⟩ := Multiset.mem_map.mp (Multiset.count_pos.mp hpos)
      exact ⟨p.2, hp⟩
    · exact .inl (Nat.pos_of_ne_zero hheld)
  · obtain ⟨hheld, hR⟩ := h₁.held_of_last hlast
    refine .inr ⟨h', hheld, hR, fun hc => ⟨_, h.node hlock (h.inum hmem) hc, ?_⟩⟩
    have h0 := hlast.2.1
    rw [hself] at h0
    exact h0

/-- `iunlockput` of an inode with links changes nothing, and no other inode in any case. -/
theorem iunlockput_frame_spec (h : Running c T (i ::ₘ L) ((i, n) ::ₘ R) A s)
    (hlinked : c.links → ∀ x, A n = some x → x.nlink ≠ 0) :
    wp (iunlockput i) (fun _ s' => ∃ A', Running c T L R A' s' ∧ (c.links → A' = A) ∧
      ∀ k, k ≠ n → A' k = A k) c.Allows s := by
  refine wp_mono h.iunlockput_spec ?_ fun _ => id
  rintro _ s' (⟨h', _⟩ | ⟨h', _, _, h0⟩)
  · exact ⟨A, h', fun _ => rfl, fun _ _ => rfl⟩
  · refine ⟨_, h', fun hlinks => ?_, fun k hk => Function.update_of_ne hk ..⟩
    obtain ⟨x, hx, h0⟩ := h0 (c.disk_of_links hlinks)
    exact absurd h0 (hlinked hlinks x hx)

theorem iunlockput_linked_spec (h : Running c T (i ::ₘ L) ((i, n) ::ₘ R) A s)
    (hlinked : c.links → ∀ x, A n = some x → x.nlink ≠ 0) :
    wp (iunlockput i) (fun _ s' => ∃ A', Running c T L R A' s' ∧ (c.links → A' = A))
      c.Allows s :=
  wp_mono (h.iunlockput_frame_spec hlinked) (fun _ _ ⟨A', h', hA, _⟩ => ⟨A', h', hA⟩) fun _ => id

/-! ## §2  Directories -/

section Directories

variable {dp : Slot} {name : List UInt8}

theorem dirlookup_spec (h : Running c T L R A s) (hl : dp ∈ L) (hi : (dp, n) ∈ R)
    (hnames : c.links → TargetsIn A n) :
    wp (dirlookup dp name) (fun r s' => match r with
        | none => Running c T L R A s' ∧ (c.disk → s' = s ∧ ∃ x, NoEntry A n name x)
        | some (i, off) => ∃ m, Running c T L ((i, m) ::ₘ R) A s' ∧
            (c.disk → ∃ x e, Entry A n name x e ∧ off = direntSize * e ∧ m = inumAt x.data e))
      c.Allows s := by
  apply by_disk
  · intro hc
    have hinum := h.inum hi
    refine wp_mono (wp_and h.toRefs.dirlookup_spec ((h.disk hc).dirlookup_spec h.toRefs
      (h.pos dp hl) (h.valid hl hc))) ?_ ?_
    · rintro (_ | ⟨i, off⟩) s' ⟨hr, hd⟩
      · obtain ⟨rfl, hno⟩ := hd
        rw [hinum] at hno
        exact ⟨h, fun _ => ⟨rfl, hno⟩⟩
      · obtain ⟨hd, x, e, he, hoff, hm, hnum, hnew⟩ := hd
        rw [hinum] at he
        dsimp only at hr ⊢
        rw [hm] at hr
        refine ⟨_, h.step hr (fun _ => hd) (fun _ => hnum) ?_ fun _ _ _ _ => rfl,
          fun _ => ⟨x, e, he, hoff, rfl⟩⟩
        intro hlinks j hj
        rcases hnew j hj with hold | hjn
        · exact .inl hold
        · exact .inr (hjn ▸ hnames hlinks x e he.node he.dir he.found.1)
    · rintro e ⟨_, rfl | rfl⟩
      · exact Care.allows nofun nofun
      · exact Care.allows nofun nofun
  · intro hc
    refine wp_mono h.toRefs.dirlookup_spec ?_ fun _ => id
    rintro (_ | ⟨i, off⟩) s' hr
    · exact ⟨of_refs hc hr, fun h' => absurd h' hc⟩
    · exact ⟨_, of_refs hc hr, fun h' => absurd h' hc⟩

/-- A reference to an inode with links is given up. -/
theorem iput_linked_spec (h : Running c T L ((i, n) ::ₘ R) A s)
    (hlinked : c.links → ∃ x, A n = some x ∧ x.nlink ≠ 0) :
    wp (iput i) (fun _ s' => ∃ A', Running c T L R A' s' ∧ (c.links → A' = A)) c.Allows s := by
  refine wp_mono h.iput_spec ?_ fun _ => id
  rintro _ s' (⟨_, h'⟩ | ⟨hlast, h'⟩)
  · exact ⟨A, h', fun _ => rfl⟩
  · refine ⟨_, h', fun hlinks => ?_⟩
    have hmem := Multiset.mem_cons_self (i, n) R
    have hnode := (h.disk (c.disk_of_links hlinks)).node (h.pos_of_mem hmem) hlast.1
    obtain ⟨x, hx, hne⟩ := hlinked hlinks
    rw [h.inum hmem, hx] at hnode
    rw [Option.some.inj hnode] at hne
    exact absurd hlast.2.1 hne

/-- `writei` of a whole entry. -/
theorem writei_entry {e : ℕ} {de : List UInt8} {x : Node} (h : Running c T L R A s) (hl : dp ∈ L)
    (hi : (dp, n) ∈ R) (hc : c.disk) (hx : A n = some x) (hk : x.kind = .dir)
    (hde : de.length = direntSize) (he : e ≤ entries x.data)
    (hnum : direntInum de < T.sb.ninodes) :
    wp (writei dp de (direntSize * e)) (fun r s' => r = -1 ∧ Running c T L R A s' ∨
      r = direntSize ∧ Running c T L R (writeEntry A n e de) s') c.Allows s := by
  refine wp_mono (h.writei_spec hl (h.inum hi) (hde ▸ by decide) fun _ y hy _ => ?_) ?_ fun _ => id
  · obtain rfl := Option.some.inj (hx.symm.trans hy)
    have hok := (h.disk hc).dirs n x hx
    rw [h.sb] at hok
    exact hok.setEntry hde he hnum
  · rintro r s' (⟨h', hr⟩ | ⟨h', hr⟩)
    · rcases hr hc with ⟨y, hy, hdev⟩ | hr
      · obtain rfl := Option.some.inj (hx.symm.trans hy)
        rw [hk] at hdev
        cases hdev
      · exact .inl ⟨hr, h'⟩
    · exact .inr ⟨(hr hc).1.trans (by rw [hde]), h'⟩

theorem dirlink_spec (h : Running c T L R A s) (hl : dp ∈ L) (hi : (dp, n) ∈ R)
    (hnames : c.links → NamesIn A n) (hm : c.disk → m < T.sb.ninodes) :
    wp (dirlink dp name m) (fun r s' =>
      r = -1 ∧ (∃ A', Running c T L R A' s' ∧ (c.links → A' = A)) ∨
      r = 0 ∧ ∃ e, Running c T L R (writeEntry A n e (dirent m name)) s' ∧ (c.disk → ∃ x,
        NoEntry A n name x ∧ e ≤ entries x.data ∧ inumAt x.data e = 0)) c.Allows s := by
  apply wp_call (h.dirlookup_spec hl hi fun hlinks => (hnames hlinks).targets)
  rintro (_ | ⟨i, off⟩) s₁ hr
  · obtain ⟨h₁, hno⟩ := hr
    apply by_disk
    · intro hc
      obtain ⟨rfl, x, hx⟩ := hno hc
      have hnode := h.node hl (h.inum hi) hc
      obtain rfl := Option.some.inj (hx.node.symm.trans hnode)
      apply wp_bind
      apply wp_slot
      apply wp_call ((h.disk hc).dirlinkLoop_spec (h.pos dp hl) (h.valid hl hc) hx.dir)
      rintro off s₂ ⟨rfl, e, rfl, he, h0⟩
      have hlt : direntInum (dirent m name) < T.sb.ninodes := by
        rw [direntInum_dirent_mod]
        exact Nat.lt_of_le_of_lt (Nat.mod_le ..) (hm hc)
      apply wp_call (h.writei_entry hl hi hc hnode hx.dir (length_dirent m name) he hlt)
      rintro r s₃ (⟨rfl, _⟩ | ⟨rfl, h₃⟩)
      · exact wp_throw (Care.allows nofun nofun)
      · exact wp_pure (.inr ⟨rfl, e, h₃, fun _ => ⟨_, hx, he, h0⟩⟩)
    · intro hc
      apply wp_bind
      apply wp_slot
      apply wp_call (h₁.toRefs.hushed (hushed_dirlinkLoop dp _ 0))
      intro off s₂ h₂
      apply wp_call (h₂.hushed (hushed_writei dp _ off))
      intro r s₃ h₃
      apply wp_ite
      · intro _
        exact wp_throw trivial
      · intro _
        exact wp_pure (.inr ⟨rfl, 0, of_refs hc h₃, fun h' => absurd h' hc⟩)
  · obtain ⟨k, h₁, he⟩ := hr
    apply wp_call (h₁.iput_linked_spec fun hlinks => ?_)
    · rintro _ s₂ h₂
      exact wp_pure (.inl ⟨rfl, h₂⟩)
    · obtain ⟨x, e, hx, _, rfl⟩ := he (c.disk_of_links hlinks)
      exact hnames hlinks x e hx.node hx.dir hx.found.1

/-- Entry `e` is cleared. -/
theorem clearEntry_spec {e off : ℕ} (h : Running c T L R A s) (hl : dp ∈ L) (hi : (dp, n) ∈ R)
    (he : c.disk → ∃ x, A n = some x ∧ x.kind = .dir ∧ e < entries x.data ∧ off = direntSize * e) :
    wp (clearEntry dp off) (fun _ s' =>
      Running c T L R (writeEntry A n e (List.replicate direntSize 0)) s') c.Allows s := by
  apply by_disk
  · intro hc
    obtain ⟨x, hx, hk, hlt, rfl⟩ := he hc
    have hpos : direntInum (List.replicate direntSize 0) < T.sb.ninodes := by
      obtain ⟨β, ht, _⟩ := (h.disk hc).nodes
      rw [direntInum_zero, ← h.sb]
      exact Nat.lt_trans Nat.one_pos ht.sb.ninodes
    apply wp_call (h.writei_entry hl hi hc hx hk List.length_replicate (Nat.le_of_lt hlt) hpos)
    rintro r s₁ (⟨rfl, _⟩ | ⟨rfl, h₁⟩)
    · exact wp_throw (Care.allows nofun nofun)
    · exact wp_pure h₁
  · intro hc
    exact wp_mono (h.toRefs.hushed (hushed_clearEntry dp off)) (fun _ _ hr => of_refs hc hr)
      fun _ => id

theorem isFullDir_spec (h : Running c T L R A s) (hl : i ∈ L) (hi : (i, n) ∈ R) :
    wp (isFullDir i) (fun b s' => Running c T L R A s' ∧ (c.disk → b = false → ∀ x, A n = some x →
      x.kind = .dir → ∀ e, 2 ≤ e → inumAt x.data e = 0)) c.Allows s := by
  refine wp_mono (h.of_hushed (hushed_isFullDir i) fun hc =>
    (h.disk hc).isFullDir_spec (h.pos i hl) (h.valid hl hc)) ?_ fun _ => id
  rintro b s' ⟨h', hb⟩
  refine ⟨h', fun hc hf x hx hk => ?_⟩
  obtain rfl := Option.some.inj (hx.symm.trans (h.node hl (h.inum hi) hc))
  exact (hb hc).2 hf hk

end Directories

/-! ## §3  Tables -/

section Tables

variable {f : FileId} {p : Pid} {v : File} {w : Proc}

theorem addOp (h : Running c T L R A s) (k : ℤ) :
    Running c (T.addOp k) L R A { s with outstanding := s.outstanding + k } where
  toRefs := by
    refine h.toRefs.retable rfl rfl rfl h.file h.proc ?_ (fun _ => rfl) h.label
    show s.outstanding + k = T.outstanding + k
    rw [h.outstanding]
  disk hc := (h.disk hc).retable rfl rfl rfl rfl rfl rfl (h.disk hc).files
  alive := h.alive
  cwds := h.cwds

theorem beginOp_spec (h : Running c T L R A s) :
    wp beginOp (fun _ s' => Running c (T.addOp 1) L R A s') c.Allows s :=
  wp_modify (h.addOp 1)

theorem endOp_frame_spec (h : Running c T L R A s) :
    wp endOp (fun _ s' => Running c (T.addOp (-1)) L R A s' ∧ s'.icache = s.icache) c.Allows s :=
  wp_modify ⟨h.addOp (-1), rfl⟩

theorem endOp_spec (h : Running c T L R A s) :
    wp endOp (fun _ s' => Running c (T.addOp (-1)) L R A s') c.Allows s :=
  wp_mono h.endOp_frame_spec (fun _ _ h' => h'.1) fun _ => id

/-- An entry of the file table changes, and the references in hand with it. -/
theorem setFile_spec (h : Running c T L R A s) (R' : Multiset (Slot × ℕ))
    (hheld : ∀ i, (T.setFile f v).held i + (R'.map Prod.fst).count i =
      T.held i + (R.map Prod.fst).count i)
    (hlabel : ∀ p ∈ R', (s.icache p.1).inum = p.2)
    (hv : c.disk → ∀ i, v.Uses i → (s.icache i).valid = true ∧
      (v.writable = true → (s.icache i).d.kind ≠ .dir)) :
    wp (setFile f v) (fun _ s' => Running c (T.setFile f v) L R' A s' ∧ s'.icache = s.icache)
      c.Allows s := by
  apply wp_modify
  refine ⟨⟨?_, fun hc => ?_, h.alive, h.cwds⟩, rfl⟩
  · refine h.toRefs.retable rfl rfl rfl ?_ h.proc h.outstanding hheld hlabel
    show Function.update s.file f v = Function.update T.file f v
    rw [h.file]
  · refine (h.disk hc).retable rfl rfl rfl rfl rfl rfl fun f' i hf => ?_
    by_cases hff : f' = f
    · rw [hff] at hf ⊢
      change (Function.update s.file f v f).Uses i at hf
      show _ ∧ ((Function.update s.file f v f).writable = true → _)
      rw [Function.update_self] at hf ⊢
      exact hv hc i hf
    · change (Function.update s.file f v f').Uses i at hf
      show _ ∧ ((Function.update s.file f v f').writable = true → _)
      rw [Function.update_of_ne hff] at hf ⊢
      exact (h.disk hc).files f' i hf

/-- The file refers to what it referred to. -/
theorem setFile_same_spec (h : Running c T L R A s)
    (hv : ∀ i, v.Uses i ↔ (T.file f).Uses i) (hw : v.writable = (T.file f).writable) :
    wp (setFile f v) (fun _ s' => Running c (T.setFile f v) L R A s') c.Allows s := by
  refine wp_mono (h.setFile_spec R (fun i => ?_) h.label fun hc i hi => ?_) (fun _ _ h' => h'.1)
    fun _ => id
  · have hsum := T.held_setFile i f v
    rw [if_congr (hv i) rfl rfl] at hsum
    omega
  · have hi' := (hv i).mp hi
    rw [← h.file] at hi' hw
    rw [hw]
    exact (h.disk hc).files f i hi'

/-- A file that was not open is not open. -/
theorem setFile_closed_spec (h : Running c T L R A s) (hold : ∀ i, ¬ (T.file f).Uses i)
    (hv : ∀ i, ¬ v.Uses i) :
    wp (setFile f v) (fun _ s' => Running c (T.setFile f v) L R A s') c.Allows s := by
  refine wp_mono (h.setFile_spec R (fun i => ?_) h.label fun _ i hi => absurd hi (hv i))
    (fun _ _ h' => h'.1) fun _ => id
  have hsum := T.held_setFile i f v
  rw [if_neg (hold i), if_neg (hv i)] at hsum
  omega

/-- The reference of an open file comes into hand. -/
theorem setFile_close_spec (h : Running c T L R A s) (hold : (T.file f).Uses i)
    (hv : ∀ j, ¬ v.Uses j) :
    wp (setFile f v)
      (fun _ s' => Running c (T.setFile f v) L ((i, (s.icache i).inum) ::ₘ R) A s') c.Allows s := by
  refine wp_mono (h.setFile_spec ((i, (s.icache i).inum) ::ₘ R) (fun j => ?_) ?_
    fun _ j hj => absurd hj (hv j)) (fun _ _ h' => h'.1) fun _ => id
  · have hsum := T.held_setFile j f v
    rw [if_neg (hv j)] at hsum
    by_cases hj : j = i
    · rw [hj] at hsum ⊢
      rw [if_pos hold] at hsum
      rw [Refs.count_cons_self]
      omega
    · have hne : ¬ (T.file f).Uses j := fun hu => hj (hu.2.2.symm.trans hold.2.2)
      rw [if_neg hne] at hsum
      rw [Refs.count_cons_ne hj]
      omega
  · intro p hp
    rcases Multiset.mem_cons.mp hp with rfl | hp
    · rfl
    · exact h.label p hp

/-- A reference in hand goes to a file. -/
theorem setFile_open_spec (h : Running c T L ((i, n) ::ₘ R) A s)
    (hold : ∀ j, ¬ (T.file f).Uses j) (hv : v.Uses i)
    (hd : c.disk → (s.icache i).valid = true ∧
      (v.writable = true → (s.icache i).d.kind ≠ .dir)) :
    wp (setFile f v) (fun _ s' => Running c (T.setFile f v) L R A s') c.Allows s := by
  refine wp_mono (h.setFile_spec R (fun j => ?_) ?_ fun hc j hj => ?_)
    (fun _ _ h' => h'.1) fun _ => id
  · have hsum := T.held_setFile j f v
    rw [if_neg (hold j)] at hsum
    by_cases hj : j = i
    · rw [hj] at hsum ⊢
      rw [if_pos hv] at hsum
      rw [Refs.count_cons_self]
      omega
    · have hne : ¬ v.Uses j := fun hu => hj (hu.2.2.symm.trans hv.2.2)
      rw [if_neg hne] at hsum
      rw [Refs.count_cons_ne hj]
      omega
  · intro p hp
    exact h.label p (Multiset.mem_cons_of_mem hp)
  · obtain rfl : j = i := hj.2.2.symm.trans hv.2.2
    exact hd hc

/-- An entry of the process table changes. -/
theorem setProc_spec (h : Running c T L R A s) :
    wp (setProc p w) (fun _ s' => Running c (T.setProc p w) L R A s') c.Allows s := by
  apply wp_modify
  refine ⟨?_, fun hc => (h.disk hc).retable rfl rfl rfl rfl rfl rfl (h.disk hc).files, h.alive,
    h.cwds⟩
  refine h.toRefs.retable rfl rfl rfl h.file ?_ h.outstanding (fun _ => rfl) h.label
  show Function.update s.proc p w = Function.update T.proc p w
  rw [h.proc]

/-- The reference of a current directory comes into hand. -/
theorem takeCwd (h : Running c T L R A s) (hp : T.cwd p = some i) :
    Running c (T.setCwd p none) L ((i, (s.icache i).inum) ::ₘ R) A s where
  toRefs := by
    refine h.toRefs.retable rfl rfl rfl h.file h.proc h.outstanding (fun j => ?_) ?_
    · have hsum := T.held_setCwd j p none
      rw [hp, if_neg (Option.some_ne_none j).symm] at hsum
      by_cases hj : j = i
      · rw [hj, if_pos rfl] at hsum
        rw [hj, Refs.count_cons_self]
        omega
      · rw [if_neg fun he => hj (Option.some.inj he).symm] at hsum
        rw [Refs.count_cons_ne hj]
        omega
    · intro q hq
      rcases Multiset.mem_cons.mp hq with rfl | hq
      · rfl
      · exact h.label q hq
  disk := h.disk
  alive := h.alive
  cwds hl q j hq := by
    by_cases hqp : q = p
    · rw [hqp, Tables.setCwd_self] at hq
      cases hq
    · rw [Tables.setCwd_ne hqp] at hq
      exact h.cwds hl q j hq

/-- A reference in hand becomes that of a current directory. -/
theorem giveCwd (h : Running c T L ((i, n) ::ₘ R) A s) (hp : T.cwd p = none)
    (hdir : c.links → ∃ x, A n = some x ∧ x.kind = .dir) :
    Running c (T.setCwd p (some i)) L R A s where
  toRefs := by
    refine h.toRefs.retable rfl rfl rfl h.file h.proc h.outstanding (fun j => ?_)
      fun q hq => h.label q (Multiset.mem_cons_of_mem hq)
    have hsum := T.held_setCwd j p (some i)
    rw [hp, if_neg (Option.some_ne_none j).symm] at hsum
    by_cases hj : j = i
    · rw [hj, if_pos rfl] at hsum
      rw [hj, Refs.count_cons_self]
      omega
    · rw [if_neg fun he => hj (Option.some.inj he).symm] at hsum
      rw [Refs.count_cons_ne hj]
      omega
  disk := h.disk
  alive := h.alive
  cwds hl q j hq := by
    by_cases hqp : q = p
    · rw [hqp, Tables.setCwd_self] at hq
      obtain rfl := Option.some.inj hq
      rw [h.inum (Multiset.mem_cons_self ..)]
      exact hdir hl
    · rw [Tables.setCwd_ne hqp] at hq
      exact h.cwds hl q j hq

end Tables

end Running

end Xv6.Inodes
