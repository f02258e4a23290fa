import Xv6.Fs.Links

/-!
# Paths and files while a call is running

`namex` gives up every reference but the one it returns, and the file functions keep the
references of open files and current directories.
-/

namespace Xv6.Inodes

open Xv6.Lib PanicM

variable {s s' : Fs} {i j : Slot} {n m : ℕ} {T T' : Tables} {L : Multiset Slot}
  {R : Multiset (Slot × ℕ)} {A A' : ℕ → Option Node} {c : Care}

/-! ## §1  Paths -/

def HasLinks (A : ℕ → Option Node) (n : ℕ) : Prop := ∃ x, A n = some x ∧ x.nlink ≠ 0

/-- A change of the bytes of an inode. -/
theorem HasLinks.writeEntry {e : ℕ} {de : List UInt8} (h : HasLinks A m) :
    HasLinks (writeEntry A n e de) m := by
  obtain ⟨x, hx, h0⟩ := h
  by_cases hm : m = n
  · rw [hm] at hx ⊢
    exact ⟨_, modify_self hx _, h0⟩
  · exact ⟨x, (modify_ne hm _).trans hx, h0⟩

/-- Every path can be followed. -/
structure Passable (A : ℕ → Option Node) : Prop where
  root : ∃ x, A rootino = some x ∧ x.kind = .dir
  names : ∀ n, NamesIn A n
  dirs : ∀ n x, A n = some x → x.kind = .dir → x.nlink ≠ 0

theorem Named.passable (h : Named A) : Passable A :=
  ⟨h.root, h.namesIn, fun _ _ hx hk => (h.nlink_dir hx hk).ne'⟩

theorem skipelem_subset {path name rest : List UInt8} (h : skipelem path = some (name, rest)) :
    name ⊆ path ∧ rest ⊆ path := by
  unfold skipelem at h
  have hp : path.dropWhile (· == slash) ⊆ path := List.dropWhile_subset _
  generalize path.dropWhile (· == slash) = q at h hp
  cases q with
  | nil => cases h
  | cons b q =>
      obtain ⟨hname, hrest⟩ := Prod.mk.inj (Option.some.inj h)
      rw [← hname, ← hrest]
      refine ⟨List.Subset.trans ?_ hp, List.Subset.trans ?_ hp⟩
      · exact List.Subset.trans (List.take_subset ..) (List.takeWhile_subset _)
      · exact List.Subset.trans (List.dropWhile_subset _) (List.dropWhile_subset _)

namespace Running

/-- What `namex` returns. -/
def Found (c : Care) (T : Tables) (L : Multiset Slot) (R : Multiset (Slot × ℕ))
    (A : ℕ → Option Node) (path : List UInt8) (r : Option (Slot × List UInt8)) (s : Fs) : Prop :=
  ∃ A', (c.links → A' = A) ∧ match r with
    | none => Running c T L R A' s
    | some (i, name) => ∃ n, Running c T L ((i, n) ::ₘ R) A' s ∧ (c.links → HasLinks A n) ∧
        name ⊆ path

theorem namexEnd_spec {parent : Bool} {path : List UInt8}
    (h : Running c T L ((i, n) ::ₘ R) A s) (hn : c.links → HasLinks A n) :
    wp (namexEnd parent i) (Found c T L R A path) c.Allows s := by
  unfold namexEnd
  cases parent with
  | true =>
      apply wp_call (h.iput_linked_spec hn)
      rintro _ s₁ ⟨A', h₁, hA⟩
      exact wp_pure ⟨A', hA, h₁⟩
  | false => exact wp_pure ⟨A, fun _ => rfl, n, h, hn, List.nil_subset path⟩

/-- The node of the path that has been reached has links, so that `namex` frees nothing. -/
theorem namexLoop_spec {parent : Bool} {fuel : ℕ} {path : List UInt8}
    (h : Running c T L ((i, n) ::ₘ R) A s) (hn : c.links → HasLinks A n)
    (hnames : c.links → ∀ m, NamesIn A m) :
    wp (namexLoop parent fuel i path) (Found c T L R A path) c.Allows s := by
  induction fuel generalizing i n path A s with
  | zero => exact h.namexEnd_spec hn
  | succ fuel ih =>
      unfold namexLoop
      cases hs : skipelem path with
      | none => exact h.namexEnd_spec hn
      | some p =>
          obtain ⟨name, rest⟩ := p
          obtain ⟨hname, hrest⟩ := skipelem_subset hs
          have hlinked : c.links → ∀ x, A n = some x → x.nlink ≠ 0 := by
            intro hl x hx
            obtain ⟨y, hy, h0⟩ := hn hl
            rwa [Option.some.inj (hx.symm.trans hy)]
          apply wp_call (h.ilock_spec (h.pos_of_mem (Multiset.mem_cons_self ..)))
          intro _ s₁ h₁
          apply wp_bind
          apply wp_slot
          apply wp_ite
          · intro _
            apply wp_call (h₁.iunlockput_linked_spec hlinked)
            rintro _ s₂ ⟨A', h₂, hA⟩
            exact wp_pure ⟨A', hA, h₂⟩
          · intro _
            apply wp_ite
            · intro _
              apply wp_call h₁.iunlock_spec
              intro _ s₂ h₂
              exact wp_pure ⟨A, fun _ => rfl, n, h₂, hn, hname⟩
            · intro _
              apply wp_call (h₁.dirlookup_spec (Multiset.mem_cons_self ..)
                (Multiset.mem_cons_self ..) fun hl => (hnames hl n).targets)
              rintro (_ | ⟨next, off⟩) s₂ hr
              · apply wp_call (hr.1.iunlockput_linked_spec hlinked)
                rintro _ s₃ ⟨A', h₃, hA⟩
                exact wp_pure ⟨A', hA, h₃⟩
              · obtain ⟨m, h₂, he⟩ := hr
                rw [Multiset.cons_swap] at h₂
                apply wp_call (h₂.iunlockput_linked_spec hlinked)
                rintro _ s₃ ⟨A', h₃, hA⟩
                have hm : c.links → HasLinks A m := by
                  intro hl
                  obtain ⟨x, e, hx, _, rfl⟩ := he (c.disk_of_links hl)
                  exact hnames hl n x e hx.node hx.dir hx.found.1
                refine wp_mono (ih h₃ ?_ ?_) ?_ fun _ => id
                · intro hl
                  rw [hA hl]
                  exact hm hl
                · intro hl
                  rw [hA hl]
                  exact hnames hl
                · rintro r s₄ ⟨A'', hA', hr⟩
                  refine ⟨A'', fun hl => (hA' hl).trans (hA hl), ?_⟩
                  cases r with
                  | none => exact hr
                  | some q =>
                      obtain ⟨k, h₄, hk, hsub⟩ := hr
                      refine ⟨k, h₄, fun hl => ?_, List.Subset.trans hsub hrest⟩
                      rw [← hA hl]
                      exact hk hl

theorem namex_spec {p : Pid} {cwd : Slot} {path : List UInt8} {parent : Bool}
    (h : Running c T L R A s) (hp : T.cwd p = some cwd) (hA : c.links → Passable A) :
    wp (namex cwd path parent) (Found c T L R A path) c.Allows s := by
  have hlinks : c.links → ∀ {m}, (∃ x, A m = some x ∧ x.kind = .dir) → HasLinks A m := by
    rintro hl m ⟨x, hx, hk⟩
    exact ⟨x, hx, (hA hl).dirs m x hx hk⟩
  unfold namex
  apply wp_ite
  · intro _
    apply wp_call (h.iget_spec ?_ ?_)
    · intro i s₁ h₁
      exact h₁.namexLoop_spec (fun hl => hlinks hl (hA hl).root) fun hl => (hA hl).names
    · intro hc
      obtain ⟨β, ht, _⟩ := (h.disk hc).nodes
      rw [← h.sb]
      exact ht.sb.ninodes
    · intro hl
      obtain ⟨x, hx, _⟩ := (hA hl).root
      exact ⟨x, hx⟩
  · intro _
    apply wp_call (h.idup_spec (h.toRefs.pos_of_cwd hp))
    rintro j s₁ ⟨rfl, h₁⟩
    exact h₁.namexLoop_spec (fun hl => hlinks hl (h.cwds hl p j hp)) fun hl => (hA hl).names

end Running

/-! ## §2  Tables -/

/-- Files that are not open have no type, and every current directory counts. -/
structure Tables.Ok (T : Tables) : Prop where
  free : ∀ f, (T.file f).ref ≤ 0 → (T.file f).type = .none
  cwd : ∀ q, T.cwd q = (T.proc q).cwd

/-- The tables later on in a call, within `k` operations. -/
structure Tables.After (T : Tables) (k : ℤ) (T' : Tables) : Prop extends T'.Ok where
  sb : T'.sb = T.sb
  outstanding : T'.outstanding = T.outstanding + k

namespace Tables

variable {T₀ : Tables} {k : ℤ} {f : FileId} {v : File} {p : Pid}

theorem Ok.after (h : T.Ok) : After T 0 T := ⟨h, rfl, (Int.add_zero _).symm⟩

/-- A file with a type is open. -/
theorem Ok.uses (h : T.Ok) (hf : (T.file f).type = .inode) : (T.file f).Uses (T.file f).ip := by
  refine ⟨?_, hf, rfl⟩
  by_contra hle
  rw [h.free f (Int.not_lt.mp hle)] at hf
  cases hf

theorem not_uses (hf : (T.file f).ref ≤ 0) (i : Slot) : ¬ (T.file f).Uses i :=
  fun hu => absurd hu.1 (Int.not_lt.mpr hf)

theorem setFile_self (T : Tables) (f : FileId) (v : File) : (T.setFile f v).file f = v :=
  Function.update_self ..

theorem After.addOp (h : After T₀ k T) (j : ℤ) : After T₀ (k + j) (T.addOp j) where
  toOk := ⟨h.free, h.cwd⟩
  sb := h.sb
  outstanding := by
    show T.outstanding + j = _
    rw [h.outstanding, Int.add_assoc]

theorem After.endOp (h : After T₀ (k + 1) T) : After T₀ k (T.addOp (-1)) := by
  have h' := h.addOp (-1)
  rwa [Int.add_neg_cancel_right] at h'

/-- An operation that is over. -/
theorem After.operation (h : After T₀ k T) : After T₀ k ((T.addOp 1).addOp (-1)) :=
  (h.addOp 1).endOp

theorem After.setFile (h : After T₀ k T) (hv : v.ref ≤ 0 → v.type = .none) :
    After T₀ k (T.setFile f v) where
  free f' hf := by
    by_cases hff : f' = f
    · rw [hff, setFile_self] at hf ⊢
      exact hv hf
    · have hne : (T.setFile f v).file f' = T.file f' := Function.update_of_ne hff ..
      rw [hne] at hf ⊢
      exact h.free f' hf
  cwd := h.cwd
  sb := h.sb
  outstanding := h.outstanding

/-- A process and its current directory that counts change together. -/
theorem After.setProc {w : Proc} (h : After T₀ k T) (hcwd : T'.cwd = Function.update T.cwd p w.cwd)
    (hproc : T'.proc = Function.update T.proc p w) (hfile : T'.file = T.file) (hsb : T'.sb = T.sb)
    (hout : T'.outstanding = T.outstanding) : After T₀ k T' where
  free := by
    rw [hfile]
    exact h.free
  cwd q := by
    rw [hcwd, hproc]
    by_cases hq : q = p
    · rw [hq, Function.update_self, Function.update_self]
    · rw [Function.update_of_ne hq, Function.update_of_ne hq]
      exact h.cwd q
  sb := hsb.trans h.sb
  outstanding := hout.trans h.outstanding

theorem After.setOfile (h : After T₀ k T) (g : Fd → Option FileId) :
    After T₀ k (T.setProc p { T.proc p with ofile := g }) := by
  refine h.setProc ?_ rfl rfl rfl rfl
  show T.cwd = _
  rw [← h.cwd p, Function.update_eq_self]

end Tables

/-! ## §3  Files -/

namespace Running

variable {T₀ : Tables} {k : ℤ} {f : FileId} {p : Pid}

/-- A reference is given up. What has no links and is freed was no directory. -/
theorem iput_named_spec (h : Running c T L ((i, n) ::ₘ R) A s) :
    wp (iput i) (fun _ s' => ∃ A', Running c T L R A' s' ∧ (c.links → Named A → Named A'))
      c.Allows s := by
  refine wp_mono h.iput_spec ?_ fun _ => id
  rintro _ s' (⟨_, h'⟩ | ⟨hlast, h'⟩)
  · exact ⟨A, h', fun _ => id⟩
  · refine ⟨_, h', fun hl hA => ?_⟩
    have hmem := Multiset.mem_cons_self (i, n) R
    have hnode := (h.disk (c.disk_of_links hl)).node (h.pos_of_mem hmem) hlast.1
    rw [h.inum hmem] at hnode
    refine hA.free hnode (fun hk => ?_) hlast.2.1
    have hpos := hA.nlink_dir hnode hk
    rw [show ((s.icache i).node s.block).nlink = 0 from hlast.2.1] at hpos
    exact absurd hpos (by decide)

theorem setOfile_spec (h : Running c T L R A s) (hT : T₀.After k T) (fd : Fd) (o : Option FileId) :
    wp (setOfile p fd o) (fun _ s' => ∃ T', T₀.After k T' ∧ T'.file = T.file ∧ T'.cwd = T.cwd ∧
      Running c T' L R A s') c.Allows s := by
  apply wp_bind
  apply wp_get
  refine wp_mono h.setProc_spec ?_ fun _ => id
  intro _ s' h'
  rw [h.proc] at h'
  exact ⟨_, hT.setOfile _, rfl, rfl, h'⟩

theorem fdalloc_spec (h : Running c T L R A s) (hT : T₀.After k T) :
    wp (fdalloc p f) (fun _ s' => ∃ T', T₀.After k T' ∧ T'.file = T.file ∧ T'.cwd = T.cwd ∧
      Running c T' L R A s') c.Allows s := by
  apply wp_bind
  apply wp_get
  dsimp only
  split
  · apply wp_call (h.setOfile_spec hT _ _)
    intro _ s' h'
    exact wp_pure h'
  · exact wp_pure ⟨T, hT, rfl, rfl, h⟩

theorem filealloc_spec (h : Running c T L R A s) (hT : T₀.After k T) :
    wp filealloc (fun r s' => match r with
        | none => Running c T L R A s'
        | some f => ∃ v : File, v.ref = 1 ∧ v.type = .none ∧
            Running c (T.setFile f v) L R A s')
      c.Allows s := by
  apply wp_bind
  apply wp_get
  split
  · rename_i f hfind
    have hp := List.find?_some hfind
    have h0 : (s.file f).ref = 0 := of_decide_eq_true hp
    rw [h.file] at h0 ⊢
    have htype := hT.free f h0.le
    apply wp_call (h.setFile_closed_spec (Tables.not_uses h0.le) ?_)
    · intro _ s' h'
      exact wp_pure ⟨{ T.file f with ref := 1 }, rfl, htype, h'⟩
    · intro i hu
      have hu : (T.file f).type = .inode := hu.2.1
      rw [htype] at hu
      cases hu
  · exact wp_pure h

/-- The count of an open file changes, and the file stays open. -/
theorem setCount_spec {r : ℤ} (h : Running c T L R A s) (hT : T₀.After k T)
    (hold : 0 < (T.file f).ref) (hr : 0 < r) :
    wp (setFile f { T.file f with ref := r }) (fun _ s' => ∃ T', T₀.After k T' ∧ T'.cwd = T.cwd ∧
      T'.proc = T.proc ∧ Running c T' L R A s') c.Allows s := by
  have hT' : T₀.After k (T.setFile f { T.file f with ref := r }) :=
    hT.setFile fun hle => absurd hr (Int.not_lt.mpr hle)
  refine wp_mono (h.setFile_same_spec (fun i => ?_) rfl) ?_ fun _ => id
  · exact and_congr (iff_of_true hr hold) Iff.rfl
  · intro _ s' h'
    exact ⟨_, hT', rfl, rfl, h'⟩

theorem filedup_spec (h : Running c T L R A s) (hT : T₀.After k T) :
    wp (filedup f) (fun _ s' => ∃ T', T₀.After k T' ∧ T'.cwd = T.cwd ∧ T'.proc = T.proc ∧
      Running c T' L R A s') c.Allows s := by
  apply wp_bind
  apply wp_get
  rw [h.file]
  apply wp_ite
  · intro _
    exact wp_bind (wp_throw (Care.allows nofun nofun))
  · intro hpos
    exact h.setCount_spec hT (by omega) (by omega)

/-- `fileclose` of a file that is not one of an inode. -/
theorem fileclose_other_spec (h : Running c T L R A s) (hT : T₀.After k T)
    (htype : (T.file f).type ≠ .inode) :
    wp (fileclose f) (fun _ s' => ∃ T', T₀.After k T' ∧ T'.cwd = T.cwd ∧ T'.proc = T.proc ∧
      Running c T' L R A s') c.Allows s := by
  apply wp_bind
  apply wp_get
  rw [h.file]
  apply wp_ite
  · intro _
    exact wp_bind (wp_throw (Care.allows nofun nofun))
  · intro hpos
    apply wp_ite
    · intro hmore
      exact h.setCount_spec hT (by omega) hmore
    · intro _
      have hT' : T₀.After k (T.setFile f { T.file f with ref := 0, type := .none }) :=
        hT.setFile fun _ => rfl
      apply wp_call (h.setFile_closed_spec (fun i hu => htype hu.2.1)
        fun j hu => absurd hu.1 (Int.lt_irrefl 0))
      intro _ s₁ h₁
      rw [if_neg htype]
      exact wp_pure ⟨_, hT', rfl, rfl, h₁⟩

theorem fileclose_spec (h : Running c T L R A s) (hT : T₀.After k T) :
    wp (fileclose f) (fun _ s' => ∃ T' A', T₀.After k T' ∧ T'.cwd = T.cwd ∧ T'.proc = T.proc ∧
      Running c T' L R A' s' ∧ (c.links → Named A → Named A')) c.Allows s := by
  by_cases htype : (T.file f).type = .inode
  · apply wp_bind
    apply wp_get
    rw [h.file]
    apply wp_ite
    · intro _
      exact wp_bind (wp_throw (Care.allows nofun nofun))
    · intro hpos
      apply wp_ite
      · intro hmore
        refine wp_mono (h.setCount_spec hT (by omega) hmore) ?_ fun _ => id
        rintro _ s' ⟨T', hT', hcwd, hproc, h'⟩
        exact ⟨T', A, hT', hcwd, hproc, h', fun _ => id⟩
      · intro _
        apply wp_call (h.setFile_close_spec (hT.uses htype)
          fun j hu => absurd hu.1 (Int.lt_irrefl 0))
        intro _ s₁ h₁
        rw [if_pos htype]
        apply wp_call h₁.beginOp_spec
        intro _ s₂ h₂
        apply wp_call h₂.iput_named_spec
        rintro _ s₃ ⟨A', h₃, hA⟩
        refine wp_mono h₃.endOp_spec ?_ fun _ => id
        intro _ s₄ h₄
        refine ⟨((T.setFile f { T.file f with ref := 0, type := .none }).addOp 1).addOp (-1), A',
          ?_, rfl, rfl, h₄, hA⟩
        exact (hT.setFile fun _ => rfl).operation
  · refine wp_mono (h.fileclose_other_spec hT htype) ?_ fun _ => id
    rintro _ s' ⟨T', hT', hcwd, hproc, h'⟩
    exact ⟨T', A, hT', hcwd, hproc, h', fun _ => id⟩

theorem filestat_spec (h : Running c T L R A s) (hT : T.Ok) :
    wp (filestat f) (fun _ s' => Running c T L R A s') c.Allows s := by
  apply wp_bind
  apply wp_get
  rw [h.file]
  apply wp_ite
  · intro htype
    have hf : (s.file f).Uses (T.file f).ip := h.file ▸ hT.uses htype
    apply wp_call (h.ilock_spec (h.toRefs.pos_of_uses hf))
    intro _ s₁ h₁
    apply wp_bind
    apply wp_slot
    apply wp_call h₁.iunlock_spec
    intro _ s₂ h₂
    exact wp_pure h₂
  · intro _
    exact wp_pure h

/-- The offset of a file changes. -/
theorem setOff_spec (h : Running c T L R A s) (hT : T₀.After k T) (off : ℕ) :
    wp (setFile f { T.file f with off := off }) (fun _ s' => ∃ T', T₀.After k T' ∧ T'.cwd = T.cwd ∧
      (T'.file f).type = (T.file f).type ∧ (T'.file f).ip = (T.file f).ip ∧
      (T'.file f).writable = (T.file f).writable ∧ Running c T' L R A s') c.Allows s := by
  refine wp_mono (h.setFile_same_spec (fun _ => Iff.rfl) rfl) ?_ fun _ => id
  intro _ s' h'
  refine ⟨T.setFile f { T.file f with off := off }, hT.setFile (hT.free f), rfl, ?_, ?_, ?_, h'⟩ <;>
    rw [Tables.setFile_self]

theorem fileread_spec (h : Running c T L R A s) (hT : T₀.After k T) (hn : n < uintSize) :
    wp (fileread f n) (fun _ s' => ∃ T', T₀.After k T' ∧ T'.cwd = T.cwd ∧ Running c T' L R A s')
      c.Allows s := by
  apply wp_bind
  apply wp_get
  rw [h.file]
  apply wp_ite
  · intro _
    exact wp_pure ⟨T, hT, rfl, h⟩
  · intro _
    dsimp only
    split
    · exact wp_pure ⟨T, hT, rfl, h⟩
    · rename_i htype
      have hf : (s.file f).Uses (T.file f).ip := h.file ▸ hT.uses htype
      apply wp_call (h.ilock_spec (h.toRefs.pos_of_uses hf))
      intro _ s₁ h₁
      apply wp_call (h₁.readi_spec (Multiset.mem_cons_self ..) hn)
      intro r s₂ h₂
      apply wp_ite
      · intro _
        apply wp_call (h₂.setOff_spec hT _)
        rintro _ s₃ ⟨T', hT', hcwd, _, _, _, h₃⟩
        apply wp_call h₃.iunlock_spec
        intro _ s₄ h₄
        exact wp_pure ⟨T', hT', hcwd, h₄⟩
      · intro _
        apply wp_call h₂.iunlock_spec
        intro _ s₃ h₃
        exact wp_pure ⟨T, hT, rfl, h₃⟩
    · exact wp_throw (Care.allows nofun nofun)

/-- One round of `filewrite`, with its operation. -/
theorem filewriteLoop_spec {fuel : ℕ} {src : List UInt8} (h : Running c T L R A s)
    (hT : T₀.After k T) (htype : (T.file f).type = .inode) (hw : (T.file f).writable = true) :
    wp (filewriteLoop f fuel src) (fun _ s' => ∃ T' A', T₀.After k T' ∧ T'.cwd = T.cwd ∧
      Running c T' L R A' s' ∧ (c.links → Named A → Named A')) c.Allows s := by
  induction fuel generalizing src A s T with
  | zero => exact wp_pure ⟨T, A, hT, rfl, h, fun _ => id⟩
  | succ fuel ih =>
      unfold filewriteLoop
      apply wp_ite
      · intro _
        exact wp_pure ⟨T, A, hT, rfl, h, fun _ => id⟩
      · intro _
        apply wp_call h.beginOp_spec
        intro _ s₁ h₁
        apply wp_bind
        apply wp_get
        rw [h₁.file]
        have hf : (s₁.file f).Uses (T.file f).ip := h₁.file ▸ hT.uses htype
        apply wp_call (h₁.ilock_spec (h₁.toRefs.pos_of_uses hf))
        intro _ s₂ h₂
        have hf₂ : (s₂.file f).Uses (T.file f).ip := h₂.file ▸ hT.uses htype
        have hw₂ : (s₂.file f).writable = true := h₂.file ▸ hw
        have hnot : ∀ hc : c.disk, ∀ x, A (s₂.icache (T.file f).ip).inum = some x → x.kind ≠ .dir := by
          intro hc x hx
          rw [h₂.node (Multiset.mem_cons_self ..) rfl hc] at hx
          rw [← Option.some.inj hx]
          exact ((h₂.disk hc).files f _ hf₂).2 hw₂
        have hlen : (src.take (min src.length maxWrite)).length < uintSize := by
          rw [List.length_take]
          exact Nat.lt_of_le_of_lt (Nat.min_le_left ..)
            (Nat.lt_of_le_of_lt (Nat.min_le_right ..) (by decide))
        apply wp_call (h₂.writei_spec (Multiset.mem_cons_self ..) rfl hlen fun hc x hx _ hk =>
          absurd hk (hnot hc x hx))
        intro r s₃ h₃
        obtain ⟨A₃, h₃, hA₃⟩ : ∃ A₃, Running c (T.addOp 1) ((T.file f).ip ::ₘ L) R A₃ s₃ ∧
            (c.links → Named A → Named A₃) := by
          rcases h₃ with ⟨h₃, _⟩ | ⟨h₃, hx⟩
          · exact ⟨A, h₃, fun _ => id⟩
          · refine ⟨_, h₃, fun hl hA => ?_⟩
            have hc := c.disk_of_links hl
            obtain ⟨_, x, hx, _⟩ := hx hc
            rw [modify_eq hx]
            exact hA.write hx (hnot hc x hx) _
        have hrest : ∀ {s' T'}, T₀.After k (T'.addOp (-1)) → T'.cwd = T.cwd →
            (T'.file f).type = .inode → (T'.file f).writable = true →
            Running c T' ((T.file f).ip ::ₘ L) R A₃ s' → wp (do
              iunlock (T.file f).ip
              endOp
              if r < 0 then return false
              if r ≠ ↑(min src.length maxWrite) then throw .shortFilewrite
              filewriteLoop f fuel (src.drop (min src.length maxWrite)))
              (fun _ s' => ∃ T' A', T₀.After k T' ∧ T'.cwd = T.cwd ∧
                Running c T' L R A' s' ∧ (c.links → Named A → Named A')) c.Allows s' := by
          intro s' T' hT' hcwd htype' hw' h'
          apply wp_call h'.iunlock_spec
          intro _ s₄ h₄
          apply wp_call h₄.endOp_spec
          intro _ s₅ h₅
          apply wp_ite
          · intro _
            exact wp_pure ⟨_, A₃, hT', hcwd, h₅, hA₃⟩
          · intro _
            apply wp_ite
            · intro _
              exact wp_bind (wp_throw (Care.allows nofun nofun))
            · intro _
              refine wp_mono (ih h₅ hT' htype' hw') ?_ fun _ => id
              rintro _ s₆ ⟨T₆, A₆, hT₆, hcwd₆, h₆, hA₆⟩
              exact ⟨T₆, A₆, hT₆, hcwd₆.trans hcwd, h₆, fun hl hA => hA₆ hl (hA₃ hl hA)⟩
        apply wp_ite
        · intro _
          apply wp_call (h₃.setOff_spec (hT.addOp 1) _)
          rintro _ s₄ ⟨T₄, hT₄, hcwd, ht₄, _, hw₄, h₄⟩
          exact hrest hT₄.endOp hcwd (ht₄.trans htype) (hw₄.trans hw) h₄
        · intro _
          exact hrest hT.operation rfl htype hw h₃

theorem filewrite_spec {src : List UInt8} (h : Running c T L R A s) (hT : T₀.After k T) :
    wp (filewrite f src) (fun _ s' => ∃ T' A', T₀.After k T' ∧ T'.cwd = T.cwd ∧
      Running c T' L R A' s' ∧ (c.links → Named A → Named A')) c.Allows s := by
  apply wp_bind
  apply wp_get
  rw [h.file]
  apply wp_ite
  · intro _
    exact wp_pure ⟨T, A, hT, rfl, h, fun _ => id⟩
  · intro hw
    rw [Bool.not_eq_false] at hw
    split
    · exact wp_pure ⟨T, A, hT, rfl, h, fun _ => id⟩
    · rename_i htype
      apply wp_call (h.filewriteLoop_spec hT htype hw)
      intro b s' h'
      apply wp_ite
      · intro _
        exact wp_pure h'
      · intro _
        exact wp_pure h'
    · exact wp_throw (Care.allows nofun nofun)

end Running

end Xv6.Inodes
