import Xv6.Fs.PathCalls
import Xv6.Lib.Transition

/-!
# What holds between calls

The states that processes reach by calls, one after the other. The references of the inode
cache are those of open files and current directories; where the disk is consistent to begin
with, every block has one owner.
-/

namespace Xv6.Inodes

open Xv6.Lib PanicM

variable {s s' : Fs} {A : ℕ → Option Node} {T : Tables} {c : Care} {p : Pid} {a : Call}

/-- Calls from the states that meet `init`. -/
def calls (init : Fs → Prop) : System Fs (Pid × Call) := ⟨init, step⟩

/-! ## §1  A disk with a root directory -/

/-- The root directory has the entries `.` and `..`, in one block. -/
def rootInode : Dinode where
  kind := .dir
  major := 0
  minor := 0
  nlink := 1
  size := 512
  addrs k := if k = 0 then 59 else 0

/-- What mkfs writes if there are no files, and a first process in the root directory. -/
def rootDisk : Fs where
  sb := ⟨1000, 941, 200, 30, 2, 32, 58⟩
  bit b := b < 60
  dinode n := if n = rootino then rootInode else .new .free
  block b := if b = 59 then fun i => (dirent rootino dot ++ dirent rootino dotdot).getD i.val 0
    else .zero
  icache i := {
    inum := if i = 0 then rootino else 0
    ref := if i = 0 then 1 else 0
    locked := false
    valid := false
    d := .new .free }
  devsw _ := none
  file _ := { type := .none, ref := 0, readable := false, writable := false, ip := 0, off := 0 }
  proc p := { cwd := if p = initproc then some 0 else none, ofile := fun _ => none }
  outstanding := 0
  allocs := []

theorem refAt_rootInode (block : ℕ → Block) (p : Pos) :
    refAt rootInode block p = if p = .addr 0 then some 59 else none := by
  cases p with
  | addr k =>
      by_cases hk : k = 0
      · rw [hk, if_pos rfl]
        rfl
      · have h0 : rootInode.addrs k = 0 := if_neg hk
        rw [refAt, if_pos h0, if_neg fun h => hk (Pos.addr.inj h)]
  | word j => rfl

/-- A disk of the same layout, where no inode but the root has blocks. -/
structure RootOnly (s : Fs) : Prop where
  sb : s.sb = rootDisk.sb
  bit : s.bit = rootDisk.bit
  root : s.dinode rootino = rootInode
  others : ∀ n, n ≠ rootino → (s.dinode n).size = 0 ∧ ∀ k, (s.dinode n).addrs k = 0
  allocs : s.allocs = []

theorem RootOnly.place (h : RootOnly s) {r : ℕ × Pos} {b : ℕ} :
    place s.sb.ninodes s.dinode s.block r = some b ↔ r = (rootino, .addr 0) ∧ b = 59 := by
  obtain ⟨n, p⟩ := r
  rw [place_eq_some]
  constructor
  · rintro ⟨_, hp⟩
    have hn : n = rootino := by
      by_contra hn
      rw [refAt_eq_none (h.others n hn).2] at hp
      cases hp
    rw [hn, h.root, refAt_rootInode] at hp
    split_ifs at hp with hp0
    exact ⟨Prod.ext hn hp0, (Option.some.inj hp).symm⟩
  · rintro ⟨hr, rfl⟩
    obtain ⟨rfl, rfl⟩ := Prod.mk.inj hr
    rw [h.sb, h.root]
    exact ⟨⟨by decide, nofun⟩, rfl⟩

theorem RootOnly.tidy (h : RootOnly s) : Tidy (fun n => byteAt (s.dinode n) s.block) s where
  sb := by
    rw [h.sb]
    refine ⟨?_, by decide, by decide⟩
    rintro b (rfl | rfl | ⟨_, hlt⟩ | ⟨n, hn, rfl⟩ | ⟨c, hc, rfl⟩)
    · decide
    · decide
    · exact Nat.lt_trans hlt (by decide)
    · change n < 200 at hn
      show n / 8 + 32 < 1000 - 941
      omega
    · change c < 1000 at hc
      show c / 4096 + 58 < 1000 - 941
      omega
  blocks := by
    refine ⟨⟨?_, fun _ h => absurd h (Set.notMem_empty _), ?_⟩, ?_, ?_, fun _ _ _ => rfl⟩
    · intro r r' b hr hr'
      rw [(h.place.mp hr).1, (h.place.mp hr').1]
    · intro b
      rw [or_iff_right (Set.notMem_empty b), h.bit]
      constructor
      · rintro ⟨hbit, hle, _⟩
        have hlt : b < 60 := of_decide_eq_true hbit
        rw [h.sb] at hle
        change 59 ≤ b at hle
        exact ⟨_, h.place.mpr ⟨rfl, by omega⟩⟩
      · rintro ⟨r, hr⟩
        obtain ⟨_, rfl⟩ := h.place.mp hr
        rw [h.sb]
        exact ⟨rfl, Nat.le_refl 59, by decide⟩
    · rw [h.sb, h.bit]
      intro b hb
      exact decide_eq_true (Nat.lt_trans hb (by decide))
    · intro n _ _
      by_cases hn : n = rootino
      · rw [hn, h.root]
        refine ⟨by decide, fun bn _ => ?_⟩
        rw [refAt_rootInode]
        have hpos : filePos bn = .addr 0 ↔ bn = 0 := by
          constructor
          · intro h
            exact filePos_inj (h.trans (by decide : filePos 0 = .addr 0).symm)
          · rintro rfl
            decide
        rw [if_congr hpos rfl rfl]
        show _ ↔ bn < 1
        split_ifs with h0
        · exact iff_of_true nofun (by omega)
        · exact iff_of_false (fun h => h rfl) (by omega)
      · obtain ⟨hsize, haddrs⟩ := h.others n hn
        rw [hsize]
        exact .empty haddrs
  allocs := by
    rw [h.allocs]
    nofun

theorem rootDisk_rootOnly : RootOnly rootDisk where
  sb := rfl
  bit := rfl
  root := rfl
  others n hn := by
    rw [show rootDisk.dinode n = .new .free from if_neg hn]
    exact ⟨rfl, fun _ => rfl⟩
  allocs := rfl

/-- The inodes of a disk. -/
def Fs.nodes (s : Fs) : ℕ → Option Node :=
  nodesOf s.sb.ninodes s.dinode fun n => byteAt (s.dinode n) s.block

theorem Disk.eq_nodes (h : Disk A s) : A = s.nodes := by
  obtain ⟨β, ht, rfl⟩ := h.nodes
  funext n
  unfold Fs.nodes nodesOf
  split_ifs with hn
  · unfold Dinode.node
    split_ifs with hk
    · rfl
    · exact congrArg (fun g => some (Node.mk _ _ ((List.range _).map g)))
        (ht.blocks.bytes n hn hk).symm
  · rfl

/-- The bytes of the root directory. -/
def rootData : List UInt8 := contents rootInode rootDisk.block

theorem entries_rootData : entries rootData = 32 ∧ direntSize ∣ rootData.length := by
  rw [entries, rootData, contents, List.length_map, List.length_range]
  decide

theorem rootDisk_nodes : rootDisk.nodes =
    Function.update (fun _ => none) rootino (some ⟨.dir, 1, rootData⟩) := by
  funext n
  by_cases hn : n = rootino
  · rw [hn, Function.update_self]
    rfl
  · rw [Function.update_of_ne hn, Fs.nodes, nodesOf,
      show rootDisk.dinode n = .new .free from if_neg hn]
    exact ite_self _

set_option maxRecDepth 10000 in
theorem inumAt_rootData (e : ℕ) : inumAt rootData e = if e < 2 then rootino else 0 := by
  have hlt : ∀ e < 32, inumAt rootData e = if e < 2 then rootino else 0 := by
    decide
  by_cases he : e < 32
  · exact hlt e he
  · obtain ⟨h32, hwhole⟩ := entries_rootData
    rw [inumAt_of_le (h32.le.trans (Nat.le_of_not_lt he)) hwhole, if_neg (by omega)]

theorem rootDisk_disk : Disk rootDisk.nodes rootDisk where
  nodes := ⟨_, rootDisk_rootOnly.tidy, rfl⟩
  dirs n x hx _ := by
    rw [rootDisk_nodes] at hx
    by_cases hn : n = rootino
    · rw [hn, Function.update_self] at hx
      obtain rfl := Option.some.inj hx
      refine ⟨?_, fun e => ?_⟩
      · dsimp only
        exact entries_rootData.2
      dsimp only
      rw [inumAt_rootData]
      split_ifs
      · decide
      · decide
    · rw [Function.update_of_ne hn] at hx
      cases hx
  inum := by
    decide
  same i _ := nofun
  unique := by
    decide
  locked _ := nofun
  files _ _ h := absurd h.1 (Int.lt_irrefl 0)

/-! ## §2  References -/

/-- Every reference is that of an open file or of a current directory, no lock is held, and no
operation is under way. -/
structure Balanced (s : Fs) : Prop where
  ref : ∀ i, (s.icache i).ref = (Finset.univ.filter fun f => (s.file f).Uses i).card +
    (Finset.univ.filter fun q => (s.proc q).cwd = some i).card
  locked : ∀ i, (s.icache i).locked = false
  outstanding : s.outstanding = 0
  free : ∀ f, (s.file f).ref ≤ 0 → (s.file f).type = .none

/-- The tables between calls. -/
def tablesOf (s : Fs) : Tables where
  sb := s.sb
  file := s.file
  proc := s.proc
  outstanding := s.outstanding
  cwd q := (s.proc q).cwd

theorem Tables.Ok.held (h : T.Ok) (i : Slot) : T.held i =
    (Finset.univ.filter fun f => (T.file f).Uses i).card +
      (Finset.univ.filter fun q => (T.proc q).cwd = some i).card := by
  rw [Tables.held, Tables.files, Tables.cwds, Finset.card_filter, Finset.card_filter]
  refine congrArg _ (Finset.sum_congr rfl fun q _ => ?_)
  rw [h.cwd q]

theorem Balanced.ok (h : Balanced s) : (tablesOf s).Ok := ⟨h.free, fun _ => rfl⟩

theorem Balanced.refs (h : Balanced s) : Refs (tablesOf s) 0 0 s where
  sb := rfl
  file := rfl
  proc := rfl
  outstanding := rfl
  ref i := by
    rw [h.ref, h.ok.held, Multiset.map_zero, Multiset.count_zero]
    exact (Int.add_zero _).symm
  locked i := iff_of_false (by rw [h.locked i]; nofun) (Multiset.notMem_zero i)
  nodup := Multiset.nodup_zero
  pos i hi := absurd hi (Multiset.notMem_zero i)
  label q hq := absurd hq (Multiset.notMem_zero q)

theorem Refs.balanced (h : Refs T 0 0 s) (hT : T.Ok) (h0 : T.outstanding = 0) : Balanced s where
  ref i := by
    rw [h.ref, hT.held, h.file, h.proc, Multiset.map_zero, Multiset.count_zero]
    exact Int.add_zero _
  locked i := by
    rw [← Bool.not_eq_true, h.locked i]
    exact Multiset.notMem_zero i
  outstanding := h.outstanding.trans h0
  free := by
    rw [h.file]
    exact hT.free

/-- A call that returns, and one that panics. -/
theorem step_of_wp {Q : Fs → Prop} {E : Panic → Prop}
    (h : ∀ cwd, (s.proc p).cwd = some cwd → wp (a.run p cwd) (fun _ => Q) E s)
    (hs : step s (p, a) = some s') : Q s' := by
  unfold step at hs
  dsimp only at hs
  split at hs
  · cases hs
  · rename_i cwd hcwd
    split at hs
    · rename_i r s₁ hrun
      obtain rfl := Option.some.inj hs
      exact wp_ok (h cwd hcwd) hrun
    · cases hs

/-- Nothing but the counts. -/
def counts : Care := ⟨False, False, id⟩

theorem Balanced.ready (h : Balanced s) : Ready counts (tablesOf s) (fun _ => none) s :=
  ⟨Running.of_refs id h.refs, h.ok, False.elim, False.elim, False.elim⟩

theorem Returned.balanced (h : Returned c (tablesOf s) s') (h0 : s.outstanding = 0) : Balanced s' := by
  obtain ⟨T', A', hT, h', _⟩ := h
  exact h'.toRefs.balanced hT.toOk (hT.outstanding.trans ((Int.add_zero _).trans h0))

theorem Balanced.step (h : Balanced s) (hs : step s (p, a) = some s') : Balanced s' :=
  step_of_wp (fun _ hcwd => wp_mono (h.ready.run_spec hcwd)
    (fun _ _ hd => hd.balanced h.outstanding) fun _ => id) hs

/-- References are balanced after every call and after every `fileclose`. -/
theorem inode_references_balanced (h : (calls Balanced).Reach System.anyStep s) :
    Balanced s ∧ ∀ f, wp (fileclose f) (fun _ s' => Balanced s') (fun _ => True) s := by
  have hs : Balanced s :=
    h.invariant (fun _ => id) fun _ _ _ (hb : Balanced _) _ hstep => hb.step hstep
  refine ⟨hs, fun f => ?_⟩
  have hclose := hs.ready.toRunning.fileclose_spec (f := f) hs.ok.after
  refine wp_mono hclose ?_ fun _ _ => trivial
  rintro _ s' ⟨T', A', hT, _, _, h', _⟩
  exact h'.toRefs.balanced hT.toOk (hT.outstanding.trans ((Int.add_zero _).trans hs.outstanding))

theorem rootDisk_balanced : Balanced rootDisk where
  ref := by decide
  locked _ := rfl
  outstanding := rfl
  free _ _ := rfl

/-- The paths `/a` and `/a/b`. -/
def slashA : Str := ⟨[47, 97], by decide⟩

def slashAB : Str := ⟨[47, 97, 47, 98], by decide⟩

/-- `mkdir("/a")`, `open("/a/b", O_CREATE | O_WRONLY)`, a `write`, and a link to a name that
is there. -/
def someCalls : List (Pid × Call) :=
  [(0, .mkdir (some slashA)), (0, .open (some slashAB) 513), (0, .write (some 0) (some [1, 2, 3])),
    (0, .link (some slashAB) (some ⟨[97], by decide⟩))]

theorem inode_references_balanced_some : ∃ s, Balanced s ∧ (s.icache 0).ref = 1 ∧
    (s.icache 2).ref = 1 ∧ (s.file 0).Uses 2 := by
  have hrun : ((calls Balanced).exec System.anyStep rootDisk someCalls).any (fun s =>
      decide ((s.icache 0).ref = 1 ∧ (s.icache 2).ref = 1 ∧ (s.file 0).Uses 2)) = true := by
    decide +kernel
  obtain ⟨s, hreach, hrefs⟩ := System.exec_reach rootDisk_balanced hrun
  exact ⟨s, (inode_references_balanced hreach).1, hrefs⟩

/-! ## §3  Blocks -/

/-- The disk is consistent and the cache agrees with it. -/
structure Consistent (s : Fs) : Prop extends Balanced s where
  disk : ∃ A, Disk A s

/-- Every block has one owner. -/
structure OneOwner (s : Fs) : Prop where
  bitmap : ∀ b, s.sb.Data b →
    (s.bit b = true ↔ ∃! r, place s.sb.ninodes s.dinode s.block r = some b)
  free : ∀ b, s.sb.Data b → s.bit b = false →
    ∀ r, place s.sb.ninodes s.dinode s.block r ≠ some b
  data : ∀ r b, place s.sb.ninodes s.dinode s.block r = some b → s.sb.Data b
  allocs : ∀ b ∈ s.allocs, ¬ s.sb.Area b
  freeing : ∀ p cwd (a : Call), (s.proc p).cwd = some cwd →
    a.run p cwd s ≠ .error .freeingFreeBlock

def blocks : Care := ⟨True, False, False.elim⟩

theorem Balanced.ready_blocks (h : Balanced s) (hd : Disk A s) :
    Ready blocks (tablesOf s) A s :=
  ⟨⟨h.refs, fun _ => hd, False.elim, False.elim⟩, h.ok, False.elim, False.elim, False.elim⟩

theorem Consistent.step (h : Consistent s) (hs : step s (p, a) = some s') : Consistent s' := by
  obtain ⟨A, hd⟩ := h.disk
  refine step_of_wp (fun _ hcwd => wp_mono ((h.ready_blocks hd).run_spec hcwd) ?_ fun _ => id) hs
  rintro _ s₁ hdone
  refine ⟨hdone.balanced h.outstanding, ?_⟩
  obtain ⟨T', A', _, h', _⟩ := hdone
  exact ⟨A', h'.disk trivial⟩

theorem Tidy.oneOwner {β : ℕ → ℕ → UInt8} (h : Tidy β s) (hpanic : ∀ p cwd (a : Call),
    (s.proc p).cwd = some cwd → a.run p cwd s ≠ .error .freeingFreeBlock) : OneOwner s := by
  have hmarks : ∀ b, (s.bit b = true ∧ s.sb.Data b) ↔
      ∃ r, place s.sb.ninodes s.dinode s.block r = some b := by
    intro b
    rw [h.blocks.ledger.marks b, or_iff_right (Set.notMem_empty b)]
  refine ⟨?_, ?_, ?_, ?_, hpanic⟩
  · intro b hb
    constructor
    · intro hbit
      obtain ⟨r, hr⟩ := (hmarks b).mp ⟨hbit, hb⟩
      exact ⟨r, hr, fun r' hr' => h.blocks.ledger.unique hr' hr⟩
    · rintro ⟨r, hr, _⟩
      exact ((hmarks b).mpr ⟨r, hr⟩).1
  · intro b _ hbit r hr
    rw [((hmarks b).mpr ⟨r, hr⟩).1] at hbit
    cases hbit
  · intro r b hr
    exact ((hmarks b).mpr ⟨r, hr⟩).2
  · intro b hb harea
    have hlt := h.sb.areas b harea
    exact absurd (h.allocs b hb).1 (Nat.not_le_of_lt hlt)

/-- Every disk block has one owner after every sequence of calls. -/
theorem blocks_have_one_owner (h : (calls Consistent).Reach System.anyStep s) : OneOwner s := by
  have hs : Consistent s :=
    h.invariant (fun _ => id) fun _ _ _ (hc : Consistent _) _ hstep => hc.step hstep
  obtain ⟨A, hd⟩ := hs.disk
  obtain ⟨β, ht, _⟩ := hd.nodes
  refine ht.oneOwner fun p cwd a hcwd hrun => ?_
  exact (wp_error ((hs.ready_blocks hd).run_spec hcwd) hrun).1 trivial rfl

theorem rootDisk_consistent : Consistent rootDisk := ⟨rootDisk_balanced, _, rootDisk_disk⟩

theorem blocks_have_one_owner_some : ∃ s, OneOwner s ∧ s.bit 60 = true ∧ s.bit 61 = true ∧
    s.bit 62 = false := by
  have hrun : ((calls Consistent).exec System.anyStep rootDisk someCalls).any (fun s =>
      decide (s.bit 60 = true ∧ s.bit 61 = true ∧ s.bit 62 = false)) = true := by
    decide +kernel
  obtain ⟨s, hreach, hbits⟩ := System.exec_reach rootDisk_consistent hrun
  exact ⟨s, blocks_have_one_owner hreach, hbits⟩

end Xv6.Inodes
