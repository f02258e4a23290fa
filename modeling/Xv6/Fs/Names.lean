import Xv6.Fs.Consistency

/-!
# Names between calls

A directory that is removed while it is somebody's current directory, or open, stays
allocated with no name of its own: what it names can be freed under it, and what is then
created in it has a link count but goes away with it. Where no directory is removed while it
is in use, names and link counts are in order after every call.
-/

namespace Xv6.Inodes

open Xv6.Lib PanicM NameTree

variable {s s' : Fs} {A : ℕ → Option Node} {p : Pid} {a : Call} {n m e : ℕ} {x y : Node}

/-! ## §1  Calls keep names in order -/

/-- The directories in use have links. -/
def DirsLinked (s : Fs) : Prop :=
  ∀ i, 0 < (s.icache i).ref → (s.dinode (s.icache i).inum).kind = .dir →
    (s.dinode (s.icache i).inum).nlink ≠ 0

/-- No directory is removed while it is in use. -/
def dirsStay (s : Fs) (a : Pid × Call) : Prop := ∀ s' ∈ step s a, DirsLinked s'

instance : DecidablePred DirsLinked := fun s => by
  unfold DirsLinked
  infer_instance

instance (s : Fs) (a : Pid × Call) : Decidable (dirsStay s a) :=
  decidable_of_iff ((step s a).all fun s' => decide (DirsLinked s')) (by
    simp only [Option.all_eq_true, decide_eq_true_eq, dirsStay, Option.mem_def])

/-- The disk is no larger than one that mkfs makes, the names on it are in order, what is in
use is there, and current directories are directories. -/
structure Ordered (s : Fs) : Prop extends Consistent s where
  size : s.sb.size ≤ 1000
  named : Named s.nodes
  alive : ∀ i, 0 < (s.icache i).ref → ∃ x, s.nodes (s.icache i).inum = some x
  cwds : ∀ q i, (s.proc q).cwd = some i → ∃ x, s.nodes (s.icache i).inum = some x ∧ x.kind = .dir

theorem DirsLinked.guarded (h : DirsLinked s) : Guarded s.nodes s := by
  intro i x hi hx hk
  obtain ⟨_, hnode⟩ := Option.ite_none_right_eq_some.mp hx
  obtain ⟨_, hsome⟩ := Option.ite_none_left_eq_some.mp hnode
  obtain rfl := Option.some.inj hsome
  exact h i hi hk

/-- The names count too. -/
def names : Care := ⟨True, True, fun _ => trivial⟩

theorem Consistent.disk_nodes (h : Consistent s) : Disk s.nodes s := by
  obtain ⟨A, hd⟩ := h.disk
  exact hd.eq_nodes ▸ hd

theorem Ordered.ready (h : Ordered s) : Ready names (tablesOf s) s.nodes s where
  toRunning := ⟨h.refs, fun _ => h.disk_nodes, fun _ => h.alive, fun _ => h.cwds⟩
  ok := h.ok
  named _ := h.named
  fits _ := h.disk_nodes.fits h.size h.named
  small _ := by
    obtain ⟨_, ht, _⟩ := h.disk_nodes.nodes
    exact ht.sb.ninodes_lt h.size

theorem Ordered.step (h : Ordered s) (hg : dirsStay s (p, a)) (hs : step s (p, a) = some s') :
    Ordered s' := by
  have hdone : Returned names (tablesOf s) s' :=
    step_of_wp (fun _ hcwd => h.ready.run_spec hcwd) hs
  obtain ⟨T', A', hT, h', hnamed⟩ := hdone
  have hd := h'.disk trivial
  obtain rfl := hd.eq_nodes
  refine ⟨h.toConsistent.step hs, ?_, hnamed trivial (hg s' hs).guarded, h'.alive trivial, ?_⟩
  · rw [h'.sb, hT.sb]
    exact h.size
  · intro q i hq
    rw [h'.proc, ← hT.cwd q] at hq
    exact h'.cwds trivial q i hq

theorem ordered_of_reach (h : (calls Ordered).Reach dirsStay s) : Ordered s :=
  h.invariant (fun _ => id) fun _ _ _ (ho : Ordered _) hg hstep => ho.step hg hstep

set_option maxRecDepth 10000 in
theorem rootDisk_named : Named rootDisk.nodes := by
  refine ⟨?_, ?_⟩
  · have hitem : Node.item ⟨.dir, 1, rootData⟩ = ⟨true, 1, dots rootino rootino⟩ := by
      refine congrArg (Item.mk true 1) (funext fun e => ?_)
      rw [if_pos rfl, inumAt_rootData]
      match e with
      | 0 => rfl
      | 1 => rfl
      | e + 2 => rw [if_neg (by omega)]; rfl
    rw [rootDisk_nodes, treeOf_update, Option.map_some, hitem]
    exact Linked.single rootino
  · intro n x hx _
    rw [rootDisk_nodes] at hx
    by_cases hn : n = rootino
    · rw [hn, Function.update_self] at hx
      obtain rfl := Option.some.inj hx
      refine ⟨by decide, by decide, fun e h2 h0 => ?_⟩
      dsimp only at h0
      rw [inumAt_rootData, if_neg (by omega)] at h0
      exact absurd rfl h0
    · rw [Function.update_of_ne hn] at hx
      cases hx

theorem rootDisk_ordered : Ordered rootDisk := by
  have hroot : ∃ x, rootDisk.nodes rootino = some x ∧ x.kind = .dir := by
    rw [rootDisk_nodes, Function.update_self]
    exact ⟨_, rfl, rfl⟩
  have hslot : ∀ i, 0 < (rootDisk.icache i).ref → (rootDisk.icache i).inum = rootino := by
    decide
  have hcwd : ∀ q i, (rootDisk.proc q).cwd = some i → (rootDisk.icache i).inum = rootino := by
    decide
  refine ⟨rootDisk_consistent, Nat.le_refl 1000, rootDisk_named, ?_, ?_⟩
  · intro i hi
    obtain ⟨x, hx, _⟩ := hroot
    rw [hslot i hi]
    exact ⟨x, hx⟩
  · intro q i hq
    rw [hcwd q i hq]
    exact hroot

theorem someCalls_reach : ∃ s : Fs, (calls Ordered).Reach dirsStay s ∧
    (∃ x ∈ s.nodes 2, x.kind = .dir) ∧ ∃ x ∈ s.nodes 3, x.kind = .file ∧ x.nlink = 1 := by
  have hrun : ((calls Ordered).exec dirsStay rootDisk someCalls).any (fun s =>
      decide ((∃ x ∈ s.nodes 2, x.kind = .dir) ∧
        ∃ x ∈ s.nodes 3, x.kind = .file ∧ x.nlink = 1)) = true := by
    decide +kernel
  exact System.exec_reach rootDisk_ordered hrun

/-! ## §2  What entries name -/

theorem names_entry (hx : A n = some x) (hk : x.kind = .dir)
    (h0 : inumAt x.data e ≠ 0) : (treeOf A).Names n e (inumAt x.data e) :=
  names_treeOf.mpr ⟨x, hx, hk, rfl, h0⟩

/-- The entry `..` is the second one. -/
theorem Dotted.eq_one {l : List UInt8} (h : Dotted l) (h0 : inumAt l e ≠ 0)
    (hname : nameAt l e = dotdot) : e = 1 := by
  by_contra h1
  by_cases h2 : 2 ≤ e
  · exact (h.others e h2 h0).2 hname
  · obtain rfl : e = 0 := by omega
    rw [h.self] at hname
    exact absurd hname (by decide)

/-- `mkdir("/a")`, `mkdir("/a/b")`, `chdir("/a/b")`, `unlink("/a/b")`, `unlink("/a")`. -/
def removeAbove : List (Pid × Call) :=
  [(0, .mkdir (some slashA)), (0, .mkdir (some slashAB)), (0, .chdir (some slashAB)),
    (0, .unlink (some slashAB)), (0, .unlink (some slashA))]

/-- The entries for an inode. -/
def entriesFor (s : Fs) (n : ℕ) : Set (ℕ × ℕ) :=
  {p | ∃ x, s.nodes p.1 = some x ∧ x.kind = .dir ∧ inumAt x.data p.2 = n ∧ n ≠ 0}

/-- The entries for a file are its links. -/
theorem Named.links_eq (h : Named s.nodes) (hx : s.nodes n = some x) (hk : x.kind ≠ .dir) :
    (treeOf s.nodes).links n = entriesFor s n := by
  ext ⟨c, e⟩
  constructor
  · rintro ⟨_, hname⟩
    exact names_treeOf.mp hname
  · intro hc
    have hname := names_treeOf.mpr hc
    have h2 := h.linked.two_le (Named.not_isDir hx hk) hname
    exact ⟨Nat.one_le_of_lt h2, hname⟩

/-- What has links has a name. -/
theorem Named.exists_name (h : Named A) (hx : A n = some x) (h0 : 0 < x.nlink)
    (hroot : n ≠ rootino) : ∃ c e, 2 ≤ e ∧ (treeOf A).Names c e n := by
  by_cases hk : x.kind = .dir
  · obtain ⟨c, _, _, hname⟩ := h.linked.up (Named.isDir hx hk)
    obtain ⟨e, he⟩ := hname hroot
    exact ⟨c, e, he⟩
  · have hc := h.linked.count (treeOf_eq_some hx)
    change x.nlink = _ at hc
    have hne : ((treeOf A).links n).ncard ≠ 0 := by omega
    obtain ⟨⟨c, e⟩, _, hname⟩ := Set.nonempty_of_ncard_ne_zero hne
    exact ⟨c, e, h.linked.two_le (Named.not_isDir hx hk) hname, hname⟩

/-- Where no directory is removed while it is in use, a directory other than the root has one name,
in the directory that its `..` leads to. -/
theorem directories_named_once (h : (calls Ordered).Reach dirsStay s) (hx : s.nodes n = some x)
    (hk : x.kind = .dir) (hroot : n ≠ rootino) :
    nameAt x.data 1 = dotdot ∧ ∃ y e, s.nodes (inumAt x.data 1) = some y ∧ y.kind = .dir ∧ 2 ≤ e ∧
      inumAt y.data e = n ∧ ∀ c z e', s.nodes c = some z → z.kind = .dir → 2 ≤ e' →
        inumAt z.data e' = n → c = inumAt x.data 1 ∧ e' = e := by
  have ho := ordered_of_reach h
  have hdir := Named.isDir hx hk
  obtain ⟨c, _, hup, hname⟩ := ho.named.linked.up hdir
  obtain ⟨x', hx', _, rfl, _⟩ := names_treeOf.mp hup
  obtain rfl := Option.some.inj (hx.symm.trans hx')
  obtain ⟨e, h2, he⟩ := hname hroot
  obtain ⟨y, hy, hyk, hm, hn0⟩ := names_treeOf.mp he
  refine ⟨(ho.named.dotted n x hx hk).above, y, e, hy, hyk, h2, hm, fun c z e' hz hzk h2' hm' => ?_⟩
  exact ho.named.linked.once hdir h2' h2 (names_treeOf.mpr ⟨z, hz, hzk, hm', hn0⟩) he

theorem directories_named_once_some : ∃ (s : Fs) (x : Node), s.nodes 2 = some x ∧ x.kind = .dir ∧
    nameAt x.data 1 = dotdot := by
  obtain ⟨s, hs, ⟨x, hx, hk⟩, _⟩ := someCalls_reach
  exact ⟨s, x, hx, hk, (directories_named_once hs hx hk (by decide)).1⟩

/-- `mkdir("/a")`, `chdir("/a")`, `unlink("/a")`, `open("f", O_CREATE)`, `close`,
`chdir("/")`. -/
def createInRemoved : List (Pid × Call) :=
  [(0, .mkdir (some slashA)), (0, .chdir (some slashA)), (0, .unlink (some slashA)),
    (0, .open (some ⟨[102], by decide⟩) 512), (0, .close (some 0)),
    (0, .chdir (some ⟨[47], by decide⟩))]

end Xv6.Inodes
