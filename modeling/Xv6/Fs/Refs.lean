import Mathlib.Data.Multiset.Count
import Xv6.Fs.Icache
import Xv6.Fs.Path
import Xv6.Lib.Count

/-!
# References to inodes

The count of an entry of the inode cache, while a call is running: the open files and
the current directories that refer to it, and the references that the call has in hand.
The functions of the content layer leave the counts alone, whatever is on the disk.
-/

namespace Xv6.Inodes

open Xv6.Lib PanicM

variable {α β : Type}

/-! ## §1  Functions that leave the counts alone -/

/-- The tables, and all of the cache but the inodes themselves, are as before. -/
structure Quiet (s s' : Fs) : Prop where
  sb : s'.sb = s.sb
  file : s'.file = s.file
  proc : s'.proc = s.proc
  outstanding : s'.outstanding = s.outstanding
  inum : ∀ i, (s'.icache i).inum = (s.icache i).inum
  ref : ∀ i, (s'.icache i).ref = (s.icache i).ref
  locked : ∀ i, (s'.icache i).locked = (s.icache i).locked

namespace Quiet

variable {s s' s'' : Fs}

theorem refl (s : Fs) : Quiet s s :=
  ⟨rfl, rfl, rfl, rfl, fun _ => rfl, fun _ => rfl, fun _ => rfl⟩

theorem trans (h : Quiet s s') (h' : Quiet s' s'') : Quiet s s'' :=
  ⟨h'.sb.trans h.sb, h'.file.trans h.file, h'.proc.trans h.proc,
    h'.outstanding.trans h.outstanding, fun i => (h'.inum i).trans (h.inum i),
    fun i => (h'.ref i).trans (h.ref i), fun i => (h'.locked i).trans (h.locked i)⟩

/-- An entry is replaced by one for the same inode. -/
theorem setEntry {i : Slot} {ip : Inode} (hn : ip.inum = (s.icache i).inum)
    (hr : ip.ref = (s.icache i).ref) (hl : ip.locked = (s.icache i).locked) :
    Quiet s (s.setEntry i ip) := by
  have hself : (s.setEntry i ip).icache i = ip := Function.update_self ..
  have hne : ∀ {j}, j ≠ i → (s.setEntry i ip).icache j = s.icache j :=
    fun hj => Function.update_of_ne hj ..
  refine ⟨rfl, rfl, rfl, rfl, ?_, ?_, ?_⟩ <;> intro j <;> by_cases hj : j = i
  · rw [hj, hself, hn]
  · rw [hne hj]
  · rw [hj, hself, hr]
  · rw [hne hj]
  · rw [hj, hself, hl]
  · rw [hne hj]

end Quiet

/-- The function leaves the counts alone. -/
def Hushed (x : M α) : Prop := ∀ s, wp x (fun _ s' => Quiet s s') (fun _ => True) s

namespace Hushed

theorem pure (a : α) : Hushed (pure a) := fun s => wp_pure (.refl s)

theorem throw (e : Panic) : Hushed (throw e : M α) := fun _ => wp_throw trivial

theorem bind {x : M α} {f : α → M β} (hx : Hushed x) (hf : ∀ a, Hushed (f a)) :
    Hushed (x >>= f) := by
  intro s
  apply wp_call (hx s)
  intro a s₁ h₁
  exact wp_mono (hf a s₁) (fun _ _ h₂ => h₁.trans h₂) fun _ => id

theorem ite {p : Prop} [Decidable p] {x y : M α} (hx : Hushed x) (hy : Hushed y) :
    Hushed (if p then x else y) := fun s => wp_ite (fun _ => hx s) fun _ => hy s

theorem get : Hushed (MonadState.get : M Fs) := fun s => wp_get (.refl s)

theorem slot (i : Slot) : Hushed (slot i) := fun s => wp_slot (.refl s)

theorem setData (i : Slot) (f : Dinode → Dinode) : Hushed (setData i f) :=
  fun _ => wp_setData (Quiet.setEntry rfl rfl rfl)

theorem modifyDisk {g : Fs → Fs} (hg : ∀ s, Quiet s (g s)) : Hushed (modify g : M Unit) :=
  fun s => wp_modify (hg s)

end Hushed

theorem hushed_iupdate (i : Slot) : Hushed (iupdate i) :=
  .bind (.slot i) fun _ => .modifyDisk fun _ =>
    ⟨rfl, rfl, rfl, rfl, fun _ => rfl, fun _ => rfl, fun _ => rfl⟩

theorem hushed_balloc : Hushed balloc := by
  intro s
  apply wp_bind
  apply wp_get
  split
  · apply wp_bind
    apply wp_set
    exact wp_pure ⟨rfl, rfl, rfl, rfl, fun _ => rfl, fun _ => rfl, fun _ => rfl⟩
  · exact wp_throw trivial

theorem hushed_bfree (b : ℕ) : Hushed (bfree b) := by
  intro s
  apply wp_bind
  apply wp_get
  apply wp_ite
  · intro _
    exact wp_throw trivial
  · intro _
    exact wp_set ⟨rfl, rfl, rfl, rfl, fun _ => rfl, fun _ => rfl, fun _ => rfl⟩

theorem hushed_bmapAddr (i : Slot) (k : Fin (ndirect + 1)) : Hushed (bmapAddr i k) := by
  refine .bind (.slot i) fun ip => .ite ?_ (.pure _)
  exact .bind hushed_balloc fun b => .bind (.setData i _) fun _ => .pure _

theorem hushed_bmapWord (a j : ℕ) : Hushed (bmapWord a j) := by
  refine .bind .get fun s => .ite ?_ (.pure _)
  exact .bind hushed_balloc fun b => .bind (.modifyDisk fun _ =>
    ⟨rfl, rfl, rfl, rfl, fun _ => rfl, fun _ => rfl, fun _ => rfl⟩) fun _ => .pure _

theorem hushed_bmap (i : Slot) (bn : ℕ) : Hushed (bmap i bn) := by
  unfold bmap
  split
  · exact hushed_bmapAddr i _
  · exact .ite (.bind (hushed_bmapAddr i _) fun a => hushed_bmapWord a _) (.throw _)

theorem hushed_readLoop (i : Slot) (fuel off n : ℕ) : Hushed (readLoop i fuel off n) := by
  induction fuel generalizing off n with
  | zero => exact .pure _
  | succ fuel ih =>
      refine .ite (.pure _) (.bind (hushed_bmap i _) fun b => .bind .get fun s => ?_)
      exact .bind (ih _ _) fun rest => .pure _

theorem hushed_readi (i : Slot) (off n : ℕ) : Hushed (readi i off n) := by
  refine .bind (.slot i) fun ip => .ite (.ite (.pure _) (.bind .get fun s => ?_)) ?_
  · split
    · exact .pure _
    · exact .pure _
  · exact .ite (.pure _) (.bind (hushed_readLoop i _ _ _) fun r => .pure _)

theorem hushed_writeLoop (i : Slot) (fuel off : ℕ) (src : List UInt8) :
    Hushed (writeLoop i fuel off src) := by
  induction fuel generalizing off src with
  | zero => exact .pure _
  | succ fuel ih =>
      refine .ite (.pure _) (.bind (hushed_bmap i _) fun b => .bind (.modifyDisk fun _ => ?_)
        fun _ => ih _ _)
      exact ⟨rfl, rfl, rfl, rfl, fun _ => rfl, fun _ => rfl, fun _ => rfl⟩

theorem hushed_writei (i : Slot) (src : List UInt8) (off : ℕ) : Hushed (writei i src off) := by
  refine .bind (.slot i) fun ip => .ite (.ite (.pure _) (.bind .get fun s => ?_)) ?_
  · split
    · exact .pure _
    · exact .pure _
  · refine .ite (.pure _) (.ite (.pure _) (.bind (hushed_writeLoop i _ _ _) fun _ => ?_))
    exact .ite (.bind (.setData i _) fun _ => .bind (hushed_iupdate i) fun _ => .pure _) (.pure _)

theorem hushed_truncDirect (i : Slot) (ks : List (Fin (ndirect + 1))) :
    Hushed (truncDirect i ks) := by
  induction ks with
  | nil => exact .pure _
  | cons k ks ih =>
      refine .bind (.slot i) fun ip => .ite ?_ ih
      exact .bind (hushed_bfree _) fun _ => .bind (.setData i _) fun _ => ih

theorem hushed_truncIndirect (v : Block) (js : List ℕ) : Hushed (truncIndirect v js) := by
  induction js with
  | nil => exact .pure _
  | cons j js ih => exact .ite (.bind (hushed_bfree _) fun _ => ih) ih

theorem hushed_itrunc (i : Slot) : Hushed (itrunc i) := by
  have hend : Hushed (do setData i fun d => { d with size := 0 }; iupdate i) :=
    .bind (.setData i _) fun _ => hushed_iupdate i
  refine .bind (hushed_truncDirect i _) fun _ => .bind (.slot i) fun ip => .ite ?_ hend
  exact .bind .get fun s => .bind (hushed_truncIndirect _ _) fun _ =>
    .bind (hushed_bfree _) fun _ => .bind (.setData i _) fun _ => hend

theorem hushed_store (i : Slot) (f : Dinode → Dinode) : Hushed (store i f) :=
  .bind (.setData i f) fun _ => hushed_iupdate i

theorem hushed_dirlinkLoop (dp : Slot) (fuel off : ℕ) : Hushed (dirlinkLoop dp fuel off) := by
  induction fuel generalizing off with
  | zero => exact .pure _
  | succ fuel ih =>
      refine .bind (.slot dp) fun ip => .ite (.pure _) (.bind (hushed_readi dp _ _) fun r => ?_)
      cases r with
      | none => exact .throw _
      | some de => exact .ite (.bind (.throw _) fun _ => .ite (.pure _) (ih _)) (.ite (.pure _) (ih _))

theorem hushed_isdiremptyLoop (dp : Slot) (fuel off : ℕ) :
    Hushed (isdiremptyLoop dp fuel off) := by
  induction fuel generalizing off with
  | zero => exact .pure _
  | succ fuel ih =>
      refine .bind (.slot dp) fun ip => .ite (.pure _) (.bind (hushed_readi dp _ _) fun r => ?_)
      cases r with
      | none => exact .throw _
      | some de => exact .ite (.bind (.throw _) fun _ => .ite (.pure _) (ih _)) (.ite (.pure _) (ih _))

theorem hushed_isFullDir (ip : Slot) : Hushed (isFullDir ip) := by
  refine .bind (.slot ip) fun x => .ite (.bind ?_ fun b => .pure _) (.pure _)
  exact .bind (.slot ip) fun x => hushed_isdiremptyLoop ip _ _

theorem hushed_clearEntry (dp : Slot) (off : ℕ) : Hushed (clearEntry dp off) :=
  .bind (hushed_writei dp _ _) fun _ => .ite (.throw _) (.pure _)

/-! ## §2  Functions that leave the entries to their inodes -/

/-- The function does not change the inode numbers of entries of the cache. -/
def Fixed (x : M α) : Prop :=
  ∀ s, wp x (fun _ s' => ∀ j, (s'.icache j).inum = (s.icache j).inum) (fun _ => True) s

namespace Fixed

theorem of_hushed {x : M α} (h : Hushed x) : Fixed x :=
  fun s => wp_mono (h s) (fun _ _ hq => hq.inum) fun _ => id

theorem bind {x : M α} {f : α → M β} (hx : Fixed x) (hf : ∀ a, Fixed (f a)) :
    Fixed (x >>= f) := by
  intro s
  apply wp_call (hx s)
  intro a s₁ h₁
  exact wp_mono (hf a s₁) (fun _ _ h₂ j => (h₂ j).trans (h₁ j)) fun _ => id

theorem ite {p : Prop} [Decidable p] {x y : M α} (hx : Fixed x) (hy : Fixed y) :
    Fixed (if p then x else y) := fun s => wp_ite (fun _ => hx s) fun _ => hy s

end Fixed

theorem fixed_edit (i : Slot) {g : Inode → Inode} (hg : ∀ ip, (g ip).inum = ip.inum) :
    Fixed (do let ip ← slot i; setSlot i (g ip)) := by
  intro s
  apply wp_bind
  apply wp_slot
  apply wp_setSlot
  exact Fs.inum_setEntry (hg _)

theorem fixed_acquiresleep (i : Slot) : Fixed (acquiresleep i) := by
  intro s
  apply wp_bind
  apply wp_slot
  apply wp_ite
  · intro _
    exact wp_throw trivial
  · intro _
    apply wp_setSlot
    exact Fs.inum_setEntry rfl

theorem fixed_iput (i : Slot) : Fixed (iput i) := by
  have hend : Fixed (do releasesleep i; let ip ← slot i; setSlot i { ip with ref := ip.ref - 1 }) :=
    .bind (fixed_edit i fun _ => rfl) fun _ => fixed_edit i fun _ => rfl
  have hvalid : ∀ ip : Inode, Fixed (do
      let ip ← slot i
      setSlot i { ip with valid := false }
      releasesleep i
      let ip ← slot i
      setSlot i { ip with ref := ip.ref - 1 }) := by
    intro _ s
    apply wp_bind
    apply wp_slot
    apply wp_bind
    apply wp_setSlot
    have hset : ∀ j, ((s.setEntry i { s.icache i with valid := false }).icache j).inum =
        (s.icache j).inum := Fs.inum_setEntry rfl
    exact wp_mono (hend _) (fun _ _ h j => (h j).trans (hset j)) fun _ => id
  refine .bind (fixed_acquiresleep i) fun _ => .bind (.of_hushed (.slot i)) fun ip =>
    .ite (.ite ?_ hend) hend
  exact .bind (.of_hushed (hushed_itrunc i)) fun _ => .bind (.of_hushed (.setData i _)) fun _ =>
    .bind (.of_hushed (hushed_iupdate i)) fun _ => hvalid ip

theorem fixed_ilock (i : Slot) : Fixed (ilock i) := by
  intro s
  refine wp_mono (ilock_spec (fun _ => trivial) (fun _ => trivial) fun _ _ => trivial) ?_ fun _ => id
  rintro _ s' ⟨_, _, ⟨_, rfl⟩ | ⟨_, _, rfl⟩⟩
  · exact Fs.inum_setEntry rfl
  · exact Fs.inum_setEntry rfl

theorem fixed_iunlock (i : Slot) : Fixed (iunlock i) := by
  intro s
  refine wp_mono (iunlock_spec fun _ => trivial) ?_ fun _ => id
  rintro _ s' ⟨_, _, rfl⟩
  exact Fs.inum_setEntry rfl

/-! ## §3  References -/

/-- The file is open, and refers to entry `i`. -/
def File.Uses (v : File) (i : Slot) : Prop := 0 < v.ref ∧ v.type = .inode ∧ v.ip = i

instance (v : File) (i : Slot) : Decidable (v.Uses i) := inferInstanceAs (Decidable (_ ∧ _))

/-- The superblock and the tables; `cwd` are the current directories that count, which is all
of them but for one that a call is about to change. -/
structure Tables where
  sb : Superblock
  file : FileId → File
  proc : Pid → Proc
  outstanding : ℤ
  cwd : Pid → Option Slot

namespace Tables

variable (T : Tables) (i : Slot)

/-- The open files on entry `i`. -/
def files : ℕ := ∑ f, if (T.file f).Uses i then 1 else 0

/-- The processes whose current directory is entry `i`. -/
def cwds : ℕ := ∑ q, if T.cwd q = some i then 1 else 0

/-- The references to entry `i` that are not in hand. -/
def held : ℕ := T.files i + T.cwds i

def setFile (f : FileId) (v : File) : Tables :=
  { T with file := Function.update T.file f v }

def setProc (p : Pid) (v : Proc) : Tables :=
  { T with proc := Function.update T.proc p v }

def setCwd (p : Pid) (d : Option Slot) : Tables :=
  { T with cwd := Function.update T.cwd p d }

/-- `begin_op` and `end_op` -/
def addOp (k : ℤ) : Tables := { T with outstanding := T.outstanding + k }

variable {T i} in
theorem setCwd_self (T : Tables) (p : Pid) (d : Option Slot) : (T.setCwd p d).cwd p = d :=
  Function.update_self ..

variable {T i} in
theorem setCwd_ne {p q : Pid} (h : q ≠ p) (d : Option Slot) : (T.setCwd p d).cwd q = T.cwd q :=
  Function.update_of_ne h ..

theorem held_setFile (f : FileId) (v : File) :
    (T.setFile f v).held i + (if (T.file f).Uses i then 1 else 0) =
      T.held i + if v.Uses i then 1 else 0 := by
  have hsum : (T.setFile f v).files i + (if (T.file f).Uses i then 1 else 0) =
      T.files i + if v.Uses i then 1 else 0 :=
    sum_update (fun v : File => if v.Uses i then 1 else 0) T.file f v
  have hcwds : (T.setFile f v).cwds i = T.cwds i := rfl
  unfold held
  omega

theorem held_setCwd (p : Pid) (d : Option Slot) :
    (T.setCwd p d).held i + (if T.cwd p = some i then 1 else 0) =
      T.held i + if d = some i then 1 else 0 := by
  have hsum : (T.setCwd p d).cwds i + (if T.cwd p = some i then 1 else 0) =
      T.cwds i + if d = some i then 1 else 0 :=
    sum_update (fun d : Option Slot => if d = some i then 1 else 0) T.cwd p d
  have hfiles : (T.setCwd p d).files i = T.files i := rfl
  unfold held
  omega

end Tables

/-- The entries in `R`, with their inode numbers, are in hand, and those in `L` are locked. -/
structure Refs (T : Tables) (L : Multiset Slot) (R : Multiset (Slot × ℕ)) (s : Fs) : Prop where
  sb : s.sb = T.sb
  file : s.file = T.file
  proc : s.proc = T.proc
  outstanding : s.outstanding = T.outstanding
  ref : ∀ i, (s.icache i).ref = T.held i + (R.map Prod.fst).count i
  locked : ∀ i, (s.icache i).locked = true ↔ i ∈ L
  nodup : L.Nodup
  pos : ∀ i ∈ L, 0 < (s.icache i).ref
  label : ∀ p ∈ R, (s.icache p.1).inum = p.2

namespace Refs

variable {T : Tables} {L : Multiset Slot} {R : Multiset (Slot × ℕ)} {s s' : Fs} {i j : Slot}
  {n : ℕ} {E : Panic → Prop}

theorem quiet (h : Refs T L R s) (hq : Quiet s s') : Refs T L R s' where
  sb := hq.sb.trans h.sb
  file := hq.file.trans h.file
  proc := hq.proc.trans h.proc
  outstanding := hq.outstanding.trans h.outstanding
  ref i := (hq.ref i).trans (h.ref i)
  locked i := by
    rw [hq.locked]
    exact h.locked i
  nodup := h.nodup
  pos i hi := by
    rw [hq.ref]
    exact h.pos i hi
  label p hp := (hq.inum p.1).trans (h.label p hp)

theorem hushed {x : M α} (h : Refs T L R s) (hx : Hushed x) :
    wp x (fun _ s' => Refs T L R s') (fun _ => True) s :=
  wp_mono (hx s) (fun _ _ => h.quiet) fun _ => id

theorem inum (h : Refs T L R s) (hi : (i, n) ∈ R) : (s.icache i).inum = n := h.label _ hi

/-- An entry that is in hand is in use. -/
theorem pos_of_mem (h : Refs T L R s) (hi : (i, n) ∈ R) : 0 < (s.icache i).ref := by
  have hmem : i ∈ R.map Prod.fst := Multiset.mem_map_of_mem Prod.fst hi
  have hpos := Multiset.count_pos.mpr hmem
  rw [h.ref]
  omega

/-- One entry of the cache changes, and the references in hand with it. -/
theorem setEntry {ip : Inode} {L' : Multiset Slot} {R' : Multiset (Slot × ℕ)}
    (h : Refs T L R s) (hr : ip.ref = T.held i + (R'.map Prod.fst).count i)
    (hR : ∀ j, j ≠ i → (R'.map Prod.fst).count j = (R.map Prod.fst).count j)
    (hl : ip.locked = true ↔ i ∈ L') (hL : ∀ j, j ≠ i → (j ∈ L' ↔ j ∈ L)) (hnd : L'.Nodup)
    (hp : i ∈ L' → 0 < ip.ref)
    (hlabel : ∀ p ∈ R', if p.1 = i then ip.inum = p.2 else p ∈ R) :
    Refs T L' R' (s.setEntry i ip) := by
  have hself : (s.setEntry i ip).icache i = ip := Function.update_self ..
  have hne : ∀ {j}, j ≠ i → (s.setEntry i ip).icache j = s.icache j :=
    fun hj => Function.update_of_ne hj ..
  refine ⟨h.sb, h.file, h.proc, h.outstanding, ?_, ?_, hnd, ?_, ?_⟩
  · intro j
    by_cases hj : j = i
    · rw [hj, hself, hr]
    · rw [hne hj, h.ref, hR j hj]
  · intro j
    by_cases hj : j = i
    · rw [hj, hself]
      exact hl
    · rw [hne hj, hL j hj]
      exact h.locked j
  · intro j hm
    by_cases hj : j = i
    · rw [hj] at hm
      rw [hj, hself]
      exact hp hm
    · rw [hne hj]
      exact h.pos j ((hL j hj).mp hm)
  · intro p hp
    have hl := hlabel p hp
    split_ifs at hl with hpi
    · rw [hpi, hself]
      exact hl
    · rw [hne hpi]
      exact h.label p hl

theorem count_cons_self (i : Slot) (n : ℕ) (R : Multiset (Slot × ℕ)) :
    (((i, n) ::ₘ R).map Prod.fst).count i = (R.map Prod.fst).count i + 1 := by
  rw [Multiset.map_cons, Multiset.count_cons_self]

theorem count_cons_ne (hj : j ≠ i) (n : ℕ) (R : Multiset (Slot × ℕ)) :
    (((i, n) ::ₘ R).map Prod.fst).count j = (R.map Prod.fst).count j := by
  rw [Multiset.map_cons, Multiset.count_cons_of_ne hj]

/-- One more reference to an entry that is in use. -/
theorem addRef (h : Refs T L R s) (hn : (s.icache i).inum = n) (hpos : 0 < (s.icache i).ref) :
    Refs T L ((i, n) ::ₘ R) (s.setRef i ((s.icache i).ref + 1)) := by
  refine h.setEntry ?_ (fun j hj => count_cons_ne hj n R) (h.locked i) (fun _ _ => Iff.rfl)
    h.nodup (fun _ => ?_) ?_
  · show (s.icache i).ref + 1 = _
    rw [h.ref, count_cons_self]
    omega
  · show 0 < (s.icache i).ref + 1
    omega
  · intro p hp
    split_ifs with hpi
    · rcases Multiset.mem_cons.mp hp with rfl | hp
      · exact hn
      · rw [← hpi]
        exact h.label p hp
    · rcases Multiset.mem_cons.mp hp with rfl | hp
      · exact absurd rfl hpi
      · exact hp

/-- An entry that is not in use is taken. -/
theorem takeEntry (h : Refs T L R s) (h0 : (s.icache i).ref = 0) :
    Refs T L ((i, n) ::ₘ R) (s.takeEntry i n) := by
  have hsum := h.ref i
  rw [h0] at hsum
  refine h.setEntry ?_ (fun j hj => count_cons_ne hj n R) (h.locked i) (fun _ _ => Iff.rfl)
    h.nodup (fun _ => Int.one_pos) ?_
  · show (1 : ℤ) = _
    rw [count_cons_self]
    omega
  · intro p hp
    rcases Multiset.mem_cons.mp hp with rfl | hp
    · rw [if_pos rfl]
    · have hpi : p.1 ≠ i := by
        intro hpi
        have hpos := h.pos_of_mem (i := p.1) (n := p.2) hp
        rw [hpi] at hpos
        omega
      rw [if_neg hpi]
      exact hp

theorem iget_spec (h : Refs T L R s) :
    wp (iget n) (fun i s' => Refs T L ((i, n) ::ₘ R) s') (fun _ => True) s := by
  refine wp_mono Inodes.iget_spec ?_ fun _ _ => trivial
  rintro i s' (⟨hpos, hn, rfl⟩ | ⟨h0, _, rfl⟩)
  · exact h.addRef hn hpos
  · exact h.takeEntry h0

theorem idup_spec (h : Refs T L R s) (hi : 0 < (s.icache i).ref) :
    wp (idup i) (fun j s' => j = i ∧ Refs T L ((i, (s.icache i).inum) ::ₘ R) s') E s := by
  refine wp_mono Inodes.idup_spec ?_ fun _ => id
  rintro j s' ⟨rfl, rfl⟩
  exact ⟨rfl, h.addRef rfl hi⟩

/-- The entry is locked, and its inode may have been read. -/
theorem lock {ip : Inode} (h : Refs T L R s) (hl : (s.icache i).locked = false)
    (hpos : 0 < (s.icache i).ref) (hn : ip.inum = (s.icache i).inum)
    (hr : ip.ref = (s.icache i).ref) (hb : ip.locked = true) :
    Refs T (i ::ₘ L) R (s.setEntry i ip) := by
  have hi : i ∉ L := by
    intro hi
    rw [(h.locked i).mpr hi] at hl
    cases hl
  refine h.setEntry (hr.trans (h.ref i)) (fun _ _ => rfl) ?_ ?_ ?_ ?_ ?_
  · rw [hb]
    exact iff_of_true rfl (Multiset.mem_cons_self i L)
  · intro j hj
    rw [Multiset.mem_cons, or_iff_right hj]
  · exact Multiset.nodup_cons.mpr ⟨hi, h.nodup⟩
  · intro _
    rw [hr]
    exact hpos
  · intro p hp
    split_ifs with hpi
    · rw [hn, ← hpi]
      exact h.label p hp
    · exact hp

theorem ilock_spec (h : Refs T L R s) :
    wp (ilock i) (fun _ s' => Refs T (i ::ₘ L) R s') (fun _ => True) s := by
  refine wp_mono (Inodes.ilock_spec (fun _ => trivial) (fun _ => trivial) fun _ _ => trivial) ?_
    fun _ => id
  rintro _ s' ⟨hr, hl, ⟨_, rfl⟩ | ⟨_, _, rfl⟩⟩
  · exact h.lock hl (by omega) rfl rfl rfl
  · exact h.lock hl (by omega) rfl rfl rfl

theorem unlock (h : Refs T (i ::ₘ L) R s) :
    Refs T L R (s.setEntry i { s.icache i with locked := false }) := by
  have hi := (Multiset.nodup_cons.mp h.nodup).1
  refine h.setEntry (h.ref i) (fun _ _ => rfl) ?_ ?_ (Multiset.nodup_cons.mp h.nodup).2
    (fun hm => absurd hm hi) ?_
  · exact iff_of_false nofun hi
  · intro j hj
    rw [Multiset.mem_cons, or_iff_right hj]
  · intro p hp
    split_ifs with hpi
    · rw [← hpi]
      exact h.label p hp
    · exact hp

theorem iunlock_spec (h : Refs T (i ::ₘ L) R s) :
    wp (iunlock i) (fun _ s' => Refs T L R s') (fun _ => True) s := by
  refine wp_mono (Inodes.iunlock_spec fun _ => trivial) ?_ fun _ => id
  rintro _ s' ⟨_, _, rfl⟩
  exact h.unlock

/-- The end of `iput`. -/
theorem drop_spec (h : Refs T (i ::ₘ L) ((i, n) ::ₘ R) s) :
    wp (do releasesleep i; let ip ← slot i; setSlot i { ip with ref := ip.ref - 1 })
      (fun _ s' => Refs T L R s') E s := by
  have hi := (Multiset.nodup_cons.mp h.nodup).1
  apply wp_bind
  apply wp_bind
  apply wp_slot
  apply wp_setSlot
  apply wp_bind
  apply wp_slot
  apply wp_setSlot
  simp only [Function.update_self, Function.update_idem]
  refine h.setEntry ?_ (fun j hj => (count_cons_ne hj n R).symm) ?_ ?_
    (Multiset.nodup_cons.mp h.nodup).2 (fun hm => absurd hm hi) ?_
  · show (s.icache i).ref - 1 = _
    rw [h.ref, count_cons_self]
    omega
  · exact iff_of_false nofun hi
  · intro j hj
    rw [Multiset.mem_cons, or_iff_right hj]
  · intro p hp
    split_ifs with hpi
    · rw [← hpi]
      exact h.label p (Multiset.mem_cons_of_mem hp)
    · exact Multiset.mem_cons_of_mem hp

theorem iput_spec (h : Refs T L ((i, n) ::ₘ R) s) :
    wp (iput i) (fun _ s' => Refs T L R s') (fun _ => True) s := by
  apply wp_bind
  apply wp_bind
  apply wp_slot
  apply wp_ite
  · intro _
    exact wp_throw trivial
  · intro hl
    rw [Bool.not_eq_true] at hl
    apply wp_setSlot
    have h₁ : Refs T (i ::ₘ L) ((i, n) ::ₘ R)
        (s.setEntry i { s.icache i with locked := true }) :=
      h.lock hl (h.pos_of_mem (Multiset.mem_cons_self ..)) rfl rfl rfl
    change wp _ _ _ (s.setEntry i { s.icache i with locked := true })
    generalize s.setEntry i { s.icache i with locked := true } = s₁ at h₁ ⊢
    apply wp_bind
    apply wp_slot
    apply wp_ite
    · intro _
      apply wp_ite
      · intro _
        apply wp_call (h₁.hushed (hushed_itrunc i))
        intro _ s₂ h₂
        apply wp_call (h₂.hushed (.setData i _))
        intro _ s₃ h₃
        apply wp_call (h₃.hushed (hushed_iupdate i))
        intro _ s₄ h₄
        apply wp_bind
        apply wp_slot
        apply wp_bind
        apply wp_setSlot
        have h₅ : Refs T (i ::ₘ L) ((i, n) ::ₘ R)
            (s₄.setEntry i { s₄.icache i with valid := false }) :=
          h₄.quiet (Quiet.setEntry rfl rfl rfl)
        exact h₅.drop_spec
      · intro _
        exact h₁.drop_spec
    · intro _
      exact h₁.drop_spec

theorem ialloc_spec {k : Kind} (h : Refs T L R s) :
    wp (ialloc k) (fun i s' => Refs T L ((i, (s'.icache i).inum) ::ₘ R) s') (fun _ => True) s := by
  apply wp_bind
  apply wp_get
  split
  · rename_i n _
    apply wp_bind
    apply wp_set
    have h₁ : Refs T L R { s with dinode := Function.update s.dinode n (.new k) } :=
      h.quiet ⟨rfl, rfl, rfl, rfl, fun _ => rfl, fun _ => rfl, fun _ => rfl⟩
    refine wp_mono h₁.iget_spec ?_ fun _ => id
    intro i s' h'
    rwa [h'.label _ (Multiset.mem_cons_self ..)]
  · exact wp_throw trivial

theorem dirlookupLoop_spec {dp : Slot} {name : List UInt8} {fuel off : ℕ} (h : Refs T L R s) :
    wp (dirlookupLoop dp name fuel off) (fun r s' =>
      Refs T L (match r with | none => R | some (i, _) => (i, (s'.icache i).inum) ::ₘ R) s')
      (fun _ => True) s := by
  induction fuel generalizing off s with
  | zero => exact wp_pure h
  | succ fuel ih =>
      apply wp_bind
      apply wp_slot
      apply wp_ite
      · intro _
        exact wp_pure h
      · intro _
        apply wp_call (h.hushed (hushed_readi dp off direntSize))
        intro r s₁ h₁
        cases r with
        | none => exact wp_throw trivial
        | some de =>
            apply wp_ite
            · intro _
              exact wp_bind (wp_throw trivial)
            · intro _
              apply wp_ite
              · intro _
                apply wp_call h₁.iget_spec
                intro i s₂ h₂
                apply wp_pure
                dsimp only
                rwa [h₂.label _ (Multiset.mem_cons_self ..)]
              · intro _
                exact ih h₁

theorem dirlookup_spec {dp : Slot} {name : List UInt8} (h : Refs T L R s) :
    wp (dirlookup dp name) (fun r s' =>
      Refs T L (match r with | none => R | some (i, _) => (i, (s'.icache i).inum) ::ₘ R) s')
      (fun _ => True) s := by
  apply wp_bind
  apply wp_slot
  apply wp_ite
  · intro _
    exact wp_bind (wp_throw trivial)
  · intro _
    exact h.dirlookupLoop_spec

/-- The tables change, and the references in hand with them. -/
theorem retable {T' : Tables} {R' : Multiset (Slot × ℕ)} (h : Refs T L R s)
    (hsb : T'.sb = T.sb) (hcache : s'.icache = s.icache) (hs : s'.sb = s.sb)
    (hfile : s'.file = T'.file) (hproc : s'.proc = T'.proc)
    (hout : s'.outstanding = T'.outstanding)
    (hheld : ∀ i, T'.held i + (R'.map Prod.fst).count i = T.held i + (R.map Prod.fst).count i)
    (hlabel : ∀ p ∈ R', (s.icache p.1).inum = p.2) : Refs T' L R' s' where
  sb := by
    rw [hs, hsb]
    exact h.sb
  file := hfile
  proc := hproc
  outstanding := hout
  ref i := by
    have hi := hheld i
    rw [hcache, h.ref]
    omega
  locked i := by
    rw [hcache]
    exact h.locked i
  nodup := h.nodup
  pos i hi := by
    rw [hcache]
    exact h.pos i hi
  label p hp := by
    rw [hcache]
    exact hlabel p hp

end Refs

end Xv6.Inodes
