import Mathlib.Data.List.GetD
import Mathlib.Data.List.Nodup
import Xv6.Fs.Log
import Xv6.Lib.DiskProg
import Xv6.Lib.Transition

/-!
# The log on the disk

`write_log`, `write_head`, `install_trans`, `commit` and `recover_from_log` of
`log.c` as programs over the disk, and the machine that runs them: operations
between `begin_op` and `end_op`, commits, crashes at any access to the disk, and
recovery, which may crash too.

`Represents S d` says that the disk `d` stands for the file system contents `S`:
the blocks that its log header lists have their contents in the log, all others at
home. Writing the log, installing and erasing it do not change what a disk stands
for; the write of the header does, all at once.
-/

namespace Xv6.Fs

open Xv6.Lib.Disk

/-! ## §1  Blocks and the log header -/

/-- `BSIZE / sizeof(int)`. -/
def blockWords : ℕ := 128

/-- The data of a block, as words. -/
abbrev Block : Type := Fin blockWords → ℕ

namespace Block

def word (v : Block) (i : ℕ) : ℕ := if h : i < blockWords then v ⟨i, h⟩ else 0

/-- `struct logheader` in a block: `n`, and behind it `block[0]` to `block[n - 1]`. -/
def header (v : Block) : List ℕ :=
  (List.range (v.word 0)).map fun i => v.word (i + 1)

/-- The stores of `write_head`. The words behind `block[n - 1]` stay as they are. -/
def setHeader (v : Block) (lh : List ℕ) : Block := fun w =>
  if w.val = 0 then lh.length else lh.getD (w.val - 1) (v w)

theorem word_of_lt (v : Block) {i : ℕ} (h : i < blockWords) : v.word i = v ⟨i, h⟩ :=
  dif_pos h

theorem header_setHeader (v : Block) {lh : List ℕ} (h : lh.length < blockWords) :
    (v.setHeader lh).header = lh := by
  have hn : (v.setHeader lh).word 0 = lh.length := by
    rw [word_of_lt _ (by decide)]
    rfl
  unfold header
  rw [hn]
  apply List.ext_getElem
  · rw [List.length_map, List.length_range]
  · intro i hi hi'
    rw [List.getElem_map, List.getElem_range, word_of_lt _ (by omega)]
    show lh.getD (i + 1 - 1) _ = lh[i]
    rw [Nat.add_sub_cancel]
    exact List.getD_eq_getElem _ _ hi'

end Block

/-! ## §2  The programs of `log.c` -/

/-- `log.start` and `log.size`: the header block and the log blocks behind it. -/
structure Layout where
  start : ℕ
  size : ℕ
  size_pos : 0 < size

/-- A block outside of the log. -/
def Layout.Home (L : Layout) (b : ℕ) : Prop := b < L.start ∨ L.start + L.size ≤ b

instance (L : Layout) (b : ℕ) : Decidable (L.Home b) :=
  inferInstanceAs (Decidable (_ ∨ _))

/-- What a crash loses: `log`, and the buffers with `B_DIRTY`. Other buffers hold
what the disk holds. -/
structure Mem where
  log : Log
  dirty : ℕ → Option Block

/-- The memory when the machine starts. -/
def Mem.boot : Mem := { log := .empty, dirty := fun _ => none }

/-- Programs that access the disk. -/
abbrev Io : Type → Type := Prog ℕ Block

def bread (m : Mem) (blockno : ℕ) : Io Block :=
  match m.dirty blockno with
  | some v => .ret v
  | none => .read blockno .ret

def bwrite (m : Mem) (blockno : ℕ) (v : Block) : Io Mem :=
  .write blockno v (.ret { m with dirty := Function.update m.dirty blockno none })

/-- `log.lh` is set, by the loop of `read_head` or by `log.lh.n = 0`. -/
def Mem.setLh (m : Mem) (lh : List ℕ) : Mem := { m with log := { m.log with lh := lh } }

section Programs

variable (L : Layout)

def installTrans (m : Mem) : Io Mem :=
  Prog.forEach (fun tail b m => do
    let lbuf ← bread m (L.start + tail + 1)
    let _ ← bread m b
    bwrite m b lbuf) 0 m.log.lh m

def readHead (m : Mem) : Io Mem := do
  let buf ← bread m L.start
  return m.setLh buf.header

def writeHead (m : Mem) : Io Mem := do
  let buf ← bread m L.start
  bwrite m L.start (buf.setHeader m.log.lh)

def recoverFromLog (m : Mem) : Io Mem := do
  let m ← readHead L m
  let m ← installTrans L m
  writeHead L (m.setLh [])

def writeLog (m : Mem) : Io Mem :=
  Prog.forEach (fun tail b m => do
    let _ ← bread m (L.start + tail + 1)
    let src ← bread m b
    bwrite m (L.start + tail + 1) src) 0 m.log.lh m

def commit (m : Mem) : Io Mem :=
  if 0 < m.log.lh.length then do
    let m ← writeLog L m
    let m ← writeHead L m
    let m ← installTrans L m
    writeHead L (m.setLh [])
  else return m

end Programs

/-! ## §3  What a disk stands for -/

variable {L : Layout} {lh : List ℕ} {S S' : ℕ → Block} {d : ℕ → Block} {m : Mem}
  {b : ℕ}

/-- A list of blocks that fits into the log. -/
structure Layout.ValidLog (L : Layout) (lh : List ℕ) : Prop where
  nodup : lh.Nodup
  home : ∀ b ∈ lh, L.Home b
  length : lh.length ≤ logSize
  size : lh.length < L.size

/-- The disk has the contents `S`, with the blocks `lh` in the log. -/
structure Logged (L : Layout) (lh : List ℕ) (S d : ℕ → Block) : Prop where
  header : (d L.start).header = lh
  log : ∀ {i} (h : i < lh.length), d (L.start + i + 1) = S lh[i]
  home : ∀ {b}, L.Home b → b ∉ lh → d b = S b

/-- The disk stands for the contents `S`. -/
def Represents (L : Layout) (S d : ℕ → Block) : Prop :=
  ∃ lh, L.ValidLog lh ∧ Logged L lh S d

theorem Layout.validLog_nil (L : Layout) : L.ValidLog [] :=
  ⟨List.nodup_nil, nofun, Nat.zero_le _, L.size_pos⟩

theorem Layout.Home.ne_start (h : L.Home b) : b ≠ L.start := by
  have := L.size_pos
  unfold Layout.Home at h
  omega

theorem Layout.Home.ne_log (h : L.Home b) {i : ℕ} (hi : i + 1 < L.size) :
    b ≠ L.start + i + 1 := by
  unfold Layout.Home at h
  omega

namespace Logged

theorem self (h : (d L.start).header = []) : Logged L [] d d :=
  ⟨h, nofun, fun _ _ => rfl⟩

/-- A log block is written while the log is empty. -/
theorem write_log (h : Logged L [] S d) {i : ℕ} (hi : i + 1 < L.size) (v : Block) :
    Logged L [] S (Function.update d (L.start + i + 1) v) := by
  refine ⟨?_, nofun, fun {b} hb hn => ?_⟩
  · rw [Function.update_of_ne (by omega)]
    exact h.header
  · rw [Function.update_of_ne (hb.ne_log hi)]
    exact h.home hb hn

/-- The header is written: the commit. -/
theorem write_head (h : Logged L [] S d) (hv : L.ValidLog lh)
    (hlog : ∀ {i} (hi : i < lh.length), d (L.start + i + 1) = S' lh[i])
    (hS : ∀ {b}, L.Home b → b ∉ lh → S' b = S b) :
    Logged L lh S' (Function.update d L.start ((d L.start).setHeader lh)) := by
  refine ⟨?_, fun {i} hi => ?_, fun {b} hb hn => ?_⟩
  · rw [Function.update_self]
    apply Block.header_setHeader
    exact Nat.lt_of_le_of_lt hv.length (by decide)
  · rw [Function.update_of_ne (by omega)]
    exact hlog hi
  · rw [Function.update_of_ne hb.ne_start, hS hb hn]
    exact h.home hb List.not_mem_nil

/-- A logged block is written to its home. -/
theorem install (h : Logged L lh S d) (hv : L.ValidLog lh) {i : ℕ}
    (hi : i < lh.length) : Logged L lh S (Function.update d lh[i] (S lh[i])) := by
  have hhome := hv.home _ (List.getElem_mem hi)
  have hsize := hv.size
  refine ⟨?_, fun {j} hj => ?_, fun {b} hb hn => ?_⟩
  · rw [Function.update_of_ne hhome.ne_start.symm]
    exact h.header
  · rw [Function.update_of_ne (hhome.ne_log (by omega)).symm]
    exact h.log hj
  · rw [Function.update_of_ne]
    · exact h.home hb hn
    · rintro rfl
      exact hn (List.getElem_mem hi)

/-- The header is erased when all logged blocks are installed. -/
theorem erase (h : Logged L lh S d) (hall : ∀ b ∈ lh, d b = S b) :
    Logged L [] S (Function.update d L.start ((d L.start).setHeader [])) := by
  refine ⟨?_, nofun, fun {b} hb _ => ?_⟩
  · rw [Function.update_self]
    exact Block.header_setHeader _ (by decide)
  · rw [Function.update_of_ne hb.ne_start]
    by_cases hm : b ∈ lh
    · exact hall b hm
    · exact h.home hb hm

end Logged

/-! ## §4  What the programs do -/

section Spec

variable {C : (ℕ → Block) → Prop}

theorem bread_wpc {Q : Block → (ℕ → Block) → Prop} (hC : C d)
    (hQ : Q ((m.dirty b).getD (d b)) d) : (bread m b).wpc Q C d := by
  unfold bread
  cases h : m.dirty b with
  | some v =>
      rw [h] at hQ
      exact ⟨hC, hQ⟩
  | none =>
      rw [h] at hQ
      exact ⟨hC, hQ⟩

theorem bwrite_wpc {Q : Mem → (ℕ → Block) → Prop} {v : Block} (hC : C d)
    (hC' : C (Function.update d b v))
    (hQ : Q { m with dirty := Function.update m.dirty b none }
      (Function.update d b v)) : (bwrite m b v).wpc Q C d :=
  ⟨hC, hC', hQ⟩

/-- A buffer that is not dirty is written. -/
theorem bwrite_clean_wpc {Q : Mem → (ℕ → Block) → Prop} {v : Block}
    (hb : m.dirty b = none) (hC : C d) (hC' : C (Function.update d b v))
    (hQ : Q m (Function.update d b v)) : (bwrite m b v).wpc Q C d := by
  refine bwrite_wpc hC hC' ?_
  have : Function.update m.dirty b none = m.dirty := by
    rw [← hb]
    exact Function.update_eq_self b m.dirty
  rwa [this]

theorem writeHead_wpc {Q : Mem → (ℕ → Block) → Prop} (hb : m.dirty L.start = none)
    (hC : C d)
    (hC' : C (Function.update d L.start ((d L.start).setHeader m.log.lh)))
    (hQ : Q m (Function.update d L.start ((d L.start).setHeader m.log.lh))) :
    (writeHead L m).wpc Q C d := by
  refine Prog.wpc_bind (bread_wpc hC ?_)
  rw [hb]
  exact bwrite_clean_wpc hb hC hC' hQ

/-- Before round `i` of `install_trans`, which was called with the memory `m`: the
first `i` blocks are at home and no longer dirty. -/
structure Installing (L : Layout) (m : Mem) (S : ℕ → Block) (i : ℕ) (m' : Mem)
    (d : ℕ → Block) : Prop where
  log : m'.log = m.log
  dirty : ∀ b, b ∉ m.log.lh.drop i → m'.dirty b = none
  logged : Logged L m.log.lh S d
  home : ∀ b ∈ m.log.lh.take i, d b = S b

theorem Installing.next {m' : Mem} {i : ℕ} (h : Installing L m S i m' d)
    (hv : L.ValidLog m.log.lh) (hi : i < m.log.lh.length) :
    Installing L m S (i + 1)
      { m' with dirty := Function.update m'.dirty m.log.lh[i] none }
      (Function.update d m.log.lh[i] (S m.log.lh[i])) := by
  refine ⟨h.log, fun b hb => ?_, h.logged.install hv hi, fun b hb => ?_⟩
  · by_cases hbi : b = m.log.lh[i]
    · subst hbi
      exact Function.update_self ..
    · refine (Function.update_of_ne hbi ..).trans (h.dirty b ?_)
      rw [List.drop_eq_getElem_cons hi, List.mem_cons]
      exact fun hm => hm.elim hbi hb
  · by_cases hbi : b = m.log.lh[i]
    · subst hbi
      exact Function.update_self ..
    · rw [Function.update_of_ne hbi]
      rw [List.take_succ_eq_append_getElem hi] at hb
      rcases List.mem_append.mp hb with hb | hb
      · exact h.home b hb
      · exact absurd (List.mem_singleton.mp hb) hbi

/-- `install_trans` writes the logged blocks to their homes; nothing is dirty then. -/
theorem installTrans_wpc (hv : L.ValidLog m.log.lh) (h : Logged L m.log.lh S d)
    (hdirty : ∀ b, b ∉ m.log.lh → m.dirty b = none)
    (hC : ∀ d, Logged L m.log.lh S d → C d) :
    (installTrans L m).wpc (Installing L m S m.log.lh.length) C d := by
  refine Prog.wpc_forEach (Installing L m S) (fun hI => hC _ hI.logged) ?_
    ⟨rfl, hdirty, h, nofun⟩
  intro i m' d' hi hI
  have hCd := hC _ hI.logged
  refine Prog.wpc_bind (bread_wpc hCd (Prog.wpc_bind (bread_wpc hCd ?_)))
  -- the log blocks are never dirty
  have hclean : m'.dirty (L.start + i + 1) = none := by
    apply hI.dirty
    intro hm
    have := hv.size
    exact (hv.home _ (List.mem_of_mem_drop hm)).ne_log (by omega) rfl
  rw [hclean]
  show (bwrite m' _ (d' (L.start + i + 1))).wpc _ _ _
  rw [hI.logged.log hi]
  exact bwrite_wpc hCd (hC _ (hI.next hv hi).logged) (hI.next hv hi)

/-- The log is empty again and no buffer is dirty. -/
structure Erased (L : Layout) (m : Mem) (S : ℕ → Block) (m' : Mem) (d : ℕ → Block) :
    Prop where
  log : m'.log = { m.log with lh := [] }
  dirty : ∀ b, m'.dirty b = none
  logged : Logged L [] S d

/-- The end of a commit and of a recovery: install, and erase the header. -/
theorem installErase_wpc (hv : L.ValidLog m.log.lh) (h : Logged L m.log.lh S d)
    (hdirty : ∀ b, b ∉ m.log.lh → m.dirty b = none)
    (hC : ∀ d, Represents L S d → C d) :
    (installTrans L m >>= fun m => writeHead L (m.setLh [])).wpc (Erased L m S) C d := by
  refine Prog.wpc_bind (Prog.wpc_mono
    (installTrans_wpc hv h hdirty fun d hd => hC d ⟨_, hv, hd⟩) ?_)
  intro m' d' hI
  have hall : ∀ b, m'.dirty b = none := by
    intro b
    apply hI.dirty
    rw [List.drop_length]
    exact List.not_mem_nil
  have hhome : ∀ b ∈ m.log.lh, d' b = S b := by
    intro b hb
    apply hI.home
    rwa [List.take_length]
  have hd := hI.logged.erase hhome
  refine writeHead_wpc (hall _) (hC _ ⟨_, hv, hI.logged⟩)
    (hC _ ⟨[], L.validLog_nil, hd⟩) ⟨?_, hall, hd⟩
  show { m'.log with lh := [] } = { m.log with lh := [] }
  rw [hI.log]

/-- `recover_from_log` brings the contents home that the disk stands for. -/
theorem recoverFromLog_wpc (h : Represents L S d) :
    (recoverFromLog L Mem.boot).wpc (Erased L Mem.boot S) (Represents L S) d := by
  have hC := h
  obtain ⟨lh, hv, hd⟩ := h
  refine Prog.wpc_bind (Prog.wpc_bind (bread_wpc hC ⟨hC, ?_⟩))
  show Prog.wpc _ _ (installTrans L (Mem.boot.setLh (d L.start).header) >>= _) d
  rw [hd.header]
  refine Prog.wpc_mono (installErase_wpc hv hd (fun _ _ => rfl) fun _ => id) ?_
  exact fun m' d' he => ⟨he.log, he.dirty, he.logged⟩

/-- Before round `i` of `write_log`: the first `i` log blocks are written. -/
structure Logging (L : Layout) (m : Mem) (S S' : ℕ → Block) (i : ℕ) (m' : Mem)
    (d : ℕ → Block) : Prop where
  mem : m' = m
  logged : Logged L [] S d
  log : ∀ {j} (hj : j < m.log.lh.length), j < i → d (L.start + j + 1) = S' m.log.lh[j]

theorem Logging.next {m' : Mem} {i : ℕ} (h : Logging L m S S' i m' d)
    (hv : L.ValidLog m.log.lh) (hi : i < m.log.lh.length) :
    Logging L m S S' (i + 1) m'
      (Function.update d (L.start + i + 1) (S' m.log.lh[i])) := by
  have hsize := hv.size
  refine ⟨h.mem, h.logged.write_log (by omega) _, fun {j} hj hji => ?_⟩
  by_cases e : j = i
  · subst e
    exact Function.update_self ..
  · rw [Function.update_of_ne (by omega)]
    exact h.log hj (by omega)

/-- The memory of a commit: the logged blocks are dirty, with the new contents. -/
structure Dirty (m : Mem) (S S' : ℕ → Block) : Prop where
  mem_iff : ∀ b, (m.dirty b).isSome = true ↔ b ∈ m.log.lh
  getD : ∀ b, (m.dirty b).getD (S b) = S' b

theorem Dirty.of_mem (h : Dirty m S S') (hb : b ∈ m.log.lh) :
    m.dirty b = some (S' b) := by
  obtain ⟨v, hv⟩ := Option.isSome_iff_exists.mp ((h.mem_iff b).mpr hb)
  have := h.getD b
  rw [hv] at this ⊢
  exact congrArg some this

theorem Dirty.of_not_mem (h : Dirty m S S') (hb : b ∉ m.log.lh) : m.dirty b = none := by
  rw [← Option.not_isSome_iff_eq_none]
  exact fun hs => hb ((h.mem_iff b).mp hs)

theorem Dirty.eq_of_not_mem (h : Dirty m S S') (hb : b ∉ m.log.lh) : S' b = S b := by
  have := h.getD b
  rw [h.of_not_mem hb] at this
  exact this.symm

/-- `write_log` copies the dirty buffers into the log. -/
theorem writeLog_wpc (hv : L.ValidLog m.log.lh) (h : Logged L [] S d)
    (hm : Dirty m S S') (hC : ∀ d, Logged L [] S d → C d) :
    (writeLog L m).wpc (Logging L m S S' m.log.lh.length) C d := by
  refine Prog.wpc_forEach (Logging L m S S') (fun hI => hC _ hI.logged) ?_
    ⟨rfl, h, nofun⟩
  intro i m' d' hi hI
  have hCd := hC _ hI.logged
  obtain rfl := hI.mem
  refine Prog.wpc_bind (bread_wpc hCd (Prog.wpc_bind (bread_wpc hCd ?_)))
  have hnot : L.start + i + 1 ∉ m'.log.lh := by
    intro hmem
    have := hv.size
    exact (hv.home _ hmem).ne_log (by omega) rfl
  rw [hm.of_mem (List.getElem_mem hi)]
  exact bwrite_clean_wpc (hm.of_not_mem hnot) hCd (hC _ (hI.next hv hi).logged)
    (hI.next hv hi)

/-- `commit` takes the disk from the contents `S` to `S'`; at every point in between
the disk stands for one of the two. -/
theorem commit_wpc (hv : L.ValidLog m.log.lh) (h : Logged L [] S d)
    (hm : Dirty m S S') :
    (commit L m).wpc (Erased L m S') (fun d => Represents L S d ∨ Represents L S' d)
      d := by
  have hold : ∀ d, Logged L [] S d → Represents L S d ∨ Represents L S' d :=
    fun d hd => .inl ⟨[], L.validLog_nil, hd⟩
  unfold commit
  by_cases hn : 0 < m.log.lh.length
  · rw [if_pos hn]
    refine Prog.wpc_bind (Prog.wpc_mono (writeLog_wpc hv h hm hold) ?_)
    intro m' d' hI
    obtain rfl := hI.mem
    -- the header write switches from `S` to `S'`
    have hd := hI.logged.write_head hv (fun hi => hI.log hi hi)
      (fun _ hb => hm.eq_of_not_mem hb)
    have hstart : L.start ∉ m'.log.lh := fun hmem => (hv.home _ hmem).ne_start rfl
    refine Prog.wpc_bind (writeHead_wpc (hm.of_not_mem hstart) (hold _ hI.logged)
      (.inr ⟨_, hv, hd⟩) ?_)
    exact installErase_wpc hv hd (fun _ => hm.of_not_mem) fun _ => .inr
  · -- nothing was logged
    have hnil : m.log.lh = [] := List.length_eq_zero_iff.mp (by omega)
    rw [if_neg hn]
    refine ⟨hold d h, ?_, fun b => hm.of_not_mem ?_, h.header, nofun, fun {b} hb _ => ?_⟩
    · rw [← hnil]
    · rw [hnil]
      exact List.not_mem_nil
    · have hnot : b ∉ m.log.lh := hnil ▸ List.not_mem_nil
      rw [hm.eq_of_not_mem hnot]
      exact h.home hb List.not_mem_nil

end Spec

end Xv6.Fs
