import Xv6.Fs.Walk

/-!
# System calls

A call that returns leaves no reference in hand and no lock taken, in every branch, and,
as far as one cares, the disk consistent and the names in order.
-/

namespace Xv6.Inodes

open Xv6.Lib PanicM

variable {s s' : Fs} {i j : Slot} {n m : ℕ} {T T' T₀ : Tables} {L : Multiset Slot}
  {R : Multiset (Slot × ℕ)} {A A' : ℕ → Option Node} {c : Care} {p : Pid} {cwd : Slot}

/-- Directories in use have links. -/
def Guarded (A : ℕ → Option Node) (s : Fs) : Prop :=
  ∀ i x, 0 < (s.icache i).ref → A (s.icache i).inum = some x → x.kind = .dir → x.nlink ≠ 0

/-- A state in which a process makes a call. -/
structure Ready (c : Care) (T : Tables) (A : ℕ → Option Node) (s : Fs) : Prop extends
    Running c T 0 0 A s where
  ok : T.Ok
  named : c.links → Named A
  fits : c.links → Fits A
  small : c.links → T.sb.ninodes < 65536

/-- A state in which a call has returned. -/
def Returned (c : Care) (T : Tables) (s : Fs) : Prop :=
  ∃ T' A', T.After 0 T' ∧ Running c T' 0 0 A' s ∧ (c.links → Guarded A' s → Named A')

namespace Ready

variable {fd : Option Fd}

theorem returned (h : Ready c T A s) : Returned c T s :=
  ⟨T, A, h.ok.after, h.toRunning, fun hl _ => h.named hl⟩

/-! ## §1  Calls on descriptors -/

theorem argfd_spec {E : Panic → Prop} : wp (argfd p fd) (fun _ s' => s' = s) E s := by
  apply wp_bind
  apply wp_get
  exact wp_pure rfl

theorem sysDup_spec (h : Ready c T A s) : wp (sysDup p fd) (fun _ => Returned c T) c.Allows s := by
  apply wp_call argfd_spec
  rintro (_ | ⟨_, f⟩) s₀ rfl
  · exact wp_pure h.returned
  · apply wp_call (h.toRunning.fdalloc_spec h.ok.after)
    rintro (_ | fd) s₁ ⟨T₁, hT₁, _, _, h₁⟩
    · exact wp_pure ⟨T₁, A, hT₁, h₁, fun hl _ => h.named hl⟩
    · apply wp_call (h₁.filedup_spec hT₁)
      rintro _ s₂ ⟨T₂, hT₂, _, _, h₂⟩
      exact wp_pure ⟨T₂, A, hT₂, h₂, fun hl _ => h.named hl⟩

theorem sysRead_spec {k : Option (Fin 2147483648)} (h : Ready c T A s) :
    wp (sysRead p fd k) (fun _ => Returned c T) c.Allows s := by
  apply wp_call argfd_spec
  rintro (_ | ⟨_, f⟩) s₀ rfl
  · exact wp_pure h.returned
  · cases k with
    | none => exact wp_pure h.returned
    | some k =>
        have hk : k.val < uintSize := Nat.lt_trans k.isLt (by decide)
        apply wp_call (h.toRunning.fileread_spec h.ok.after hk)
        rintro (_ | bs) s₁ ⟨T₁, hT₁, _, h₁⟩
        · exact wp_pure ⟨T₁, A, hT₁, h₁, fun hl _ => h.named hl⟩
        · exact wp_pure ⟨T₁, A, hT₁, h₁, fun hl _ => h.named hl⟩

theorem sysWrite_spec {src : Option (List UInt8)} (h : Ready c T A s) :
    wp (sysWrite p fd src) (fun _ => Returned c T) c.Allows s := by
  apply wp_call argfd_spec
  rintro (_ | ⟨_, f⟩) s₀ rfl
  · exact wp_pure h.returned
  · cases src with
    | none => exact wp_pure h.returned
    | some src =>
        refine wp_mono (h.toRunning.filewrite_spec h.ok.after) ?_ fun _ => id
        rintro _ s₁ ⟨T₁, A₁, hT₁, _, h₁, hA₁⟩
        exact ⟨T₁, A₁, hT₁, h₁, fun hl _ => hA₁ hl (h.named hl)⟩

theorem sysClose_spec (h : Ready c T A s) : wp (sysClose p fd) (fun _ => Returned c T) c.Allows s := by
  apply wp_call argfd_spec
  rintro (_ | ⟨fd, f⟩) s₀ rfl
  · exact wp_pure h.returned
  · apply wp_call (h.toRunning.setOfile_spec h.ok.after fd none)
    rintro _ s₁ ⟨T₁, hT₁, _, _, h₁⟩
    apply wp_call (h₁.fileclose_spec hT₁)
    rintro _ s₂ ⟨T₂, A₂, hT₂, _, _, h₂, hA₂⟩
    exact wp_pure ⟨T₂, A₂, hT₂, h₂, fun hl _ => hA₂ hl (h.named hl)⟩

theorem sysFstat_spec {st : Bool} (h : Ready c T A s) :
    wp (sysFstat p fd st) (fun _ => Returned c T) c.Allows s := by
  apply wp_call argfd_spec
  rintro (_ | ⟨_, f⟩) s₀ rfl
  · exact wp_pure h.returned
  · apply wp_ite
    · intro _
      exact wp_pure h.returned
    · intro _
      apply wp_call (h.toRunning.filestat_spec h.ok)
      rintro (_ | _) s₁ h₁
      · exact wp_pure ⟨T, A, h.ok.after, h₁, fun hl _ => h.named hl⟩
      · exact wp_pure ⟨T, A, h.ok.after, h₁, fun hl _ => h.named hl⟩

end Ready

/-! ## §2  Pipes -/

namespace Running

variable {k : ℤ} {f : FileId}

/-- A file that is not one of an inode becomes the end of a pipe. -/
theorem setPipe_spec (h : Running c T L R A s) (hT : T₀.After k T) (readable writable : Bool)
    (hold : (T.file f).type ≠ .inode) (hr : 0 < (T.file f).ref) :
    wp (setFile f { T.file f with type := .pipe, readable := readable, writable := writable })
      (fun _ s' => ∃ T', T₀.After k T' ∧ Running c T' L R A s' ∧
        ∀ f', (T.file f').type ≠ .inode → 0 < (T.file f').ref →
          (T'.file f').type ≠ .inode ∧ 0 < (T'.file f').ref) c.Allows s := by
  refine wp_mono (h.setFile_closed_spec (fun i hu => hold hu.2.1) fun i hu => by cases hu.2.1) ?_
    fun _ => id
  intro _ s' h'
  have hT' : T₀.After k (T.setFile f
      { T.file f with type := .pipe, readable := readable, writable := writable }) :=
    hT.setFile fun hle => absurd hr (Int.not_lt.mpr hle)
  refine ⟨_, hT', h', fun f' ht hpos => ?_⟩
  by_cases hf : f' = f
  · rw [hf, Tables.setFile_self]
    exact ⟨nofun, hr⟩
  · rw [show ((T.setFile f _).file f') = _ from Function.update_of_ne hf ..]
    exact ⟨ht, hpos⟩

/-- `filealloc`, and what is known of the other files. -/
theorem filealloc_open_spec (h : Running c T L R A s) (hT : T₀.After k T) :
    wp filealloc (fun r s' => match r with
        | none => Running c T L R A s'
        | some f => ∃ T', T₀.After k T' ∧ Running c T' L R A s' ∧
            ((T'.file f).type ≠ .inode ∧ 0 < (T'.file f).ref) ∧
            ∀ f', (T.file f').type ≠ .inode → 0 < (T.file f').ref →
              (T'.file f').type ≠ .inode ∧ 0 < (T'.file f').ref) c.Allows s := by
  refine wp_mono (h.filealloc_spec hT) ?_ fun _ => id
  rintro (_ | f) s' h'
  · exact h'
  · obtain ⟨v, hr, ht, h'⟩ := h'
    have hnew : v.type ≠ .inode ∧ 0 < v.ref := by
      rw [ht, hr]
      exact ⟨nofun, Int.one_pos⟩
    refine ⟨_, hT.setFile fun hle => ht, h', ?_, fun f' ht' hpos => ?_⟩
    · rw [Tables.setFile_self]
      exact hnew
    · by_cases hf : f' = f
      · rw [hf, Tables.setFile_self]
        exact hnew
      · rw [show ((T.setFile f v).file f') = _ from Function.update_of_ne hf ..]
        exact ⟨ht', hpos⟩

theorem pipealloc_spec {page : Bool} (h : Running c T L R A s) (hT : T₀.After k T) :
    wp (pipealloc page) (fun _ s' => ∃ T' A', T₀.After k T' ∧ Running c T' L R A' s' ∧
      (c.links → Named A → Named A')) c.Allows s := by
  apply wp_call (h.filealloc_open_spec hT)
  rintro (_ | f₀) s₁ h₁
  · exact wp_pure ⟨T, A, hT, h₁, fun _ => id⟩
  obtain ⟨T₁, hT₁, h₁, h₀, _⟩ := h₁
  apply wp_call (h₁.filealloc_open_spec hT₁)
  rintro (_ | f₁) s₂ h₂
  · apply wp_call (h₂.fileclose_spec hT₁)
    rintro _ s₃ ⟨T₃, A₃, hT₃, _, _, h₃, hA₃⟩
    exact wp_pure ⟨T₃, A₃, hT₃, h₃, hA₃⟩
  obtain ⟨T₂, hT₂, h₂, hf₁, hother⟩ := h₂
  apply wp_ite
  · intro _
    apply wp_call (h₂.fileclose_spec hT₂)
    rintro _ s₃ ⟨T₃, A₃, hT₃, _, _, h₃, hA₃⟩
    apply wp_call (h₃.fileclose_spec hT₃)
    rintro _ s₄ ⟨T₄, A₄, hT₄, _, _, h₄, hA₄⟩
    exact wp_pure ⟨T₄, A₄, hT₄, h₄, fun hl hA => hA₄ hl (hA₃ hl hA)⟩
  · intro _
    obtain ⟨ht₀, hr₀⟩ := hother f₀ h₀.1 h₀.2
    apply wp_bind
    apply wp_get
    rw [h₂.file]
    apply wp_call (h₂.setPipe_spec hT₂ true false ht₀ hr₀)
    rintro _ s₃ ⟨T₃, hT₃, h₃, hkeep⟩
    obtain ⟨ht₁, hr₁⟩ := hkeep f₁ hf₁.1 hf₁.2
    apply wp_bind
    apply wp_get
    rw [h₃.file]
    apply wp_call (h₃.setPipe_spec hT₃ false true ht₁ hr₁)
    rintro _ s₄ ⟨T₄, hT₄, h₄, _⟩
    exact wp_pure ⟨T₄, A, hT₄, h₄, fun _ => id⟩

/-- The end of `sys_pipe` when there is no descriptor. -/
theorem fileclose_two_spec {f' : FileId} (h : Running c T L R A s) (hT : T₀.After k T) :
    wp (do fileclose f; fileclose f'; return (-1 : ℤ)) (fun _ s' => ∃ T' A', T₀.After k T' ∧
      Running c T' L R A' s' ∧ (c.links → Named A → Named A')) c.Allows s := by
  apply wp_call (h.fileclose_spec hT)
  rintro _ s₁ ⟨T₁, A₁, hT₁, _, _, h₁, hA₁⟩
  apply wp_call (h₁.fileclose_spec hT₁)
  rintro _ s₂ ⟨T₂, A₂, hT₂, _, _, h₂, hA₂⟩
  exact wp_pure ⟨T₂, A₂, hT₂, h₂, fun hl hA => hA₂ hl (hA₁ hl hA)⟩

end Running

theorem Ready.sysPipe_spec {fds page : Bool} (h : Ready c T A s) :
    wp (sysPipe p fds page) (fun _ => Returned c T) c.Allows s := by
  apply wp_ite
  · intro _
    exact wp_pure h.returned
  · intro _
    apply wp_call (h.toRunning.pipealloc_spec h.ok.after)
    rintro (_ | ⟨rf, wf⟩) s₁ ⟨T₁, A₁, hT₁, h₁, hA₁⟩
    · exact wp_pure ⟨T₁, A₁, hT₁, h₁, fun hl _ => hA₁ hl (h.named hl)⟩
    · apply wp_call (h₁.fdalloc_spec hT₁)
      rintro (_ | fd₀) s₂ ⟨T₂, hT₂, _, _, h₂⟩
      · refine wp_mono (h₂.fileclose_two_spec hT₂) ?_ fun _ => id
        rintro _ s₃ ⟨T₃, A₃, hT₃, h₃, hA₃⟩
        exact ⟨T₃, A₃, hT₃, h₃, fun hl _ => hA₃ hl (hA₁ hl (h.named hl))⟩
      · apply wp_call (h₂.fdalloc_spec hT₂)
        rintro (_ | fd₁) s₃ ⟨T₃, hT₃, _, _, h₃⟩
        · apply wp_call (h₃.setOfile_spec hT₃ fd₀ none)
          rintro _ s₄ ⟨T₄, hT₄, _, _, h₄⟩
          refine wp_mono (h₄.fileclose_two_spec hT₄) ?_ fun _ => id
          rintro _ s₅ ⟨T₅, A₅, hT₅, h₅, hA₅⟩
          exact ⟨T₅, A₅, hT₅, h₅, fun hl _ => hA₅ hl (hA₁ hl (h.named hl))⟩
        · exact wp_pure ⟨T₃, A₁, hT₃, h₃, fun hl _ => hA₁ hl (h.named hl)⟩

/-! ## §3  Names that come -/

theorem NamesIn.congr {B : ℕ → Option Node} {x y : Node} (h : NamesIn A n) (hx : A n = some x)
    (hy : B n = some y) (hk : y.kind = x.kind) (hd : y.data = x.data)
    (hB : ∀ m, HasLinks A m → HasLinks B m) : NamesIn B n := by
  intro z e hz hdir h0
  obtain rfl := Option.some.inj (hy.symm.trans hz)
  rw [hd] at h0 ⊢
  exact hB _ (h x e hx (hk ▸ hdir) h0)

namespace Running

variable {dp ip : Slot} {path : Str}

/-- The names in a directory that has only `.`. -/
theorem namesIn_dot (hm : m < 65536)
    (hx : A m = some ⟨.dir, 1, setEntry [] 0 (dirent m dot)⟩) : NamesIn A m := by
  intro x e hx' _ h0
  obtain rfl := Option.some.inj (hx.symm.trans hx')
  have hle := Nat.zero_le (entries [])
  have hself : inumAt (setEntry [] 0 (dirent m dot)) 0 = m := by
    rw [inumAt, entryAt_setEntry_self (length_dirent m dot) hle, direntInum_dirent hm]
  have he : e = 0 := by
    by_contra hne
    have hent := entries_setEntry (length_dirent m dot) hle ⟨0, rfl⟩
    refine h0 (inumAt_of_le ?_ hent.2)
    rw [(entries_dotEntries m 0).1]
    omega
  rw [he]
  dsimp only
  rw [hself]
  exact ⟨_, hx, Int.one_ne_zero⟩

theorem createDots_spec (h : Running c T L R A s) (hdl : dp ∈ L) (hil : ip ∈ L) (hd : (dp, n) ∈ R)
    (hi : (ip, m) ∈ R) (hnew : c.links → n ≠ m ∧ m ≠ 0 ∧ m < 65536 ∧ A m = some ⟨.dir, 1, []⟩) :
    wp (createDots dp ip) (fun _ s' => ∃ A', Running c T L R A' s' ∧ (c.links →
      A' = Function.update (modify A n fun x => x.setLinks (toShort (x.nlink + 1))) m
        (some ⟨.dir, 1, dotEntries m n⟩))) c.Allows s := by
  apply wp_call (h.addLink_spec hdl hd)
  intro _ s₁ h₁
  have hm₁ : c.links → modify A n (fun x => x.setLinks (toShort (x.nlink + 1))) m =
      some ⟨.dir, 1, []⟩ := by
    intro hl
    obtain ⟨hnm, _, _, hm⟩ := hnew hl
    rw [modify_ne hnm.symm, hm]
  generalize modify A n (fun x => x.setLinks (toShort (x.nlink + 1))) = A₁ at *
  apply wp_bind
  apply wp_slot
  rw [h₁.inum hi]
  apply wp_call (h₁.dirlink_spec hil hi ?_ fun hc => h₁.inum_lt hi hc)
  · rintro r s₂ (⟨rfl, _⟩ | ⟨rfl, e, h₂, he⟩)
    · exact wp_bind (wp_throw (Care.allows nofun nofun))
    have hm₂ : c.links → writeEntry A₁ m e (dirent m dot) =
        Function.update A₁ m (some ⟨.dir, 1, setEntry [] 0 (dirent m dot)⟩) := by
      intro hl
      obtain ⟨x, hx, hle, _⟩ := he (c.disk_of_links hl)
      obtain rfl := Option.some.inj (hx.node.symm.trans (hm₁ hl))
      have he0 : e = 0 := Nat.le_zero.mp hle
      rw [writeEntry_eq (hm₁ hl), he0]
    generalize writeEntry A₁ m e (dirent m dot) = A₂ at *
    have hdot : c.links → A₂ m = some ⟨.dir, 1, setEntry [] 0 (dirent m dot)⟩ := by
      intro hl
      rw [hm₂ hl, Function.update_self]
    apply wp_bind
    apply wp_slot
    rw [h₂.inum hd]
    apply wp_call (h₂.dirlink_spec hil hi ?_ fun hc => h₂.inum_lt hd hc)
    · rintro r s₃ (⟨rfl, _⟩ | ⟨rfl, e', h₃, he'⟩)
      · exact wp_throw (Care.allows nofun nofun)
      refine wp_pure ⟨_, h₃, fun hl => ?_⟩
      obtain ⟨_, hm0, hm, _⟩ := hnew hl
      obtain ⟨x, hx, hle, h0⟩ := he' (c.disk_of_links hl)
      obtain rfl := Option.some.inj (hx.node.symm.trans (hdot hl))
      have he1 : e' = 1 := by
        rw [(entries_dotEntries m n).1] at hle
        have hne : e' ≠ 0 := by
          rintro rfl
          rw [inumAt, entryAt_setEntry_self (length_dirent m dot) (Nat.zero_le _),
            direntInum_dirent hm] at h0
          exact hm0 h0
        omega
      rw [writeEntry_eq (hdot hl), hm₂ hl, Function.update_idem, he1]
      rfl
    · intro hl
      obtain ⟨_, _, hm, _⟩ := hnew hl
      exact namesIn_dot hm (hdot hl)
  · intro hl x e hx _ h0
    obtain rfl := Option.some.inj ((hm₁ hl).symm.trans hx)
    exact absurd (inumAt_of_le (Nat.zero_le e) ⟨0, rfl⟩) h0

theorem hasLinks_unique {x : Node} (h : HasLinks A n) (hx : A n = some x) : x.nlink ≠ 0 := by
  obtain ⟨y, hy, h0⟩ := h
  rwa [Option.some.inj (hx.symm.trans hy)]

/-- The inode that `create` has made has its link and its entries; its name is missing. -/
structure Made (A : ℕ → Option Node) (k : Kind) (n m : ℕ) (B : ℕ → Option Node) : Prop where
  free : A m = none
  pos : m ≠ 0
  ne : n ≠ m
  file : k ≠ .dir → B = Function.update A m (some ⟨k, 1, []⟩)
  dir : k = .dir → B = Function.update (modify (Function.update A m (some ⟨.dir, 1, []⟩)) n
    fun x => x.setLinks (toShort (x.nlink + 1))) m (some ⟨.dir, 1, dotEntries m n⟩)

theorem Made.hasLinks {B : ℕ → Option Node} {k : Kind} (h : Made A k n m B) (hA : Named A)
    (hf : Fits A) {a : ℕ} (ha : HasLinks A a) : HasLinks B a := by
  have ham : a ≠ m := by
    rintro rfl
    obtain ⟨x, hx, _⟩ := ha
    rw [h.free] at hx
    cases hx
  obtain ⟨x, hx, h0⟩ := ha
  have hother : Function.update A m (some ⟨.dir, 1, []⟩) a = some x :=
    (Function.update_of_ne ham ..).trans hx
  by_cases hk : k = .dir
  · rw [h.dir hk, HasLinks, Function.update_of_ne ham]
    by_cases han : a = n
    · rw [han] at hother hx ⊢
      rw [modify_self hother]
      refine ⟨_, rfl, ?_⟩
      show toShort (x.nlink + 1) ≠ 0
      rw [hf.toShort_add hA hx (by decide) (Int.le_refl 1)]
      have := hA.nlink_nonneg hx
      omega
    · rw [modify_ne han]
      exact ⟨x, hother, h0⟩
  · rw [h.file hk, HasLinks, Function.update_of_ne ham]
    exact ⟨x, hx, h0⟩

/-- The directory of the new name has its entries. -/
theorem Made.parent {B : ℕ → Option Node} {k : Kind} {x : Node} (h : Made A k n m B)
    (hx : A n = some x) : ∃ y, B n = some y ∧ y.kind = x.kind ∧ y.data = x.data := by
  have hother : Function.update A m (some ⟨.dir, 1, []⟩) n = some x :=
    (Function.update_of_ne h.ne ..).trans hx
  by_cases hk : k = .dir
  · rw [h.dir hk, Function.update_of_ne h.ne, modify_self hother]
    exact ⟨_, rfl, rfl, rfl⟩
  · rw [h.file hk, Function.update_of_ne h.ne]
    exact ⟨x, hx, rfl, rfl⟩

theorem Made.self {B : ℕ → Option Node} {k : Kind} (h : Made A k n m B) :
    ∃ x, B m = some x ∧ x.kind = k ∧ x.nlink = 1 := by
  by_cases hk : k = .dir
  · rw [h.dir hk, Function.update_self]
    exact ⟨_, rfl, hk.symm, rfl⟩
  · rw [h.file hk, Function.update_self]
    exact ⟨_, rfl, rfl, rfl⟩

/-- The end of `create`: the name of the new inode. -/
theorem createName_spec {k : Kind} {name : List UInt8} {B : ℕ → Option Node}
    (h : Running c T (ip ::ₘ dp ::ₘ L) ((ip, m) ::ₘ (dp, n) ::ₘ R) B s) (hz : 0 ∉ name)
    (hA : c.links → Named A ∧ Fits A ∧ T.sb.ninodes < 65536 ∧ HasLinks A n ∧
      ∃ x, NoEntry A n name x)
    (hmade : c.links → Made A k n m B)
    (hne : c.disk → n ≠ m) (hkind : c.disk → k = .file → ∀ x, B m = some x → x.kind = .file) :
    wp (do
      if (← dirlink dp name (← slot ip).inum) < 0 then throw .createDirlink
      iunlockput dp
      return some ip)
      (fun r s' => match r with
        | none => ∃ A', Running c T L R A' s' ∧ (c.links → A' = A)
        | some i => ∃ A' m, Running c T (i ::ₘ L) ((i, m) ::ₘ R) A' s' ∧
            (c.links → Named A' ∧ HasLinks A' m) ∧
            (c.disk → k = .file → ∀ x, A' m = some x → x.kind = .file)) c.Allows s := by
  have hdl : dp ∈ ip ::ₘ dp ::ₘ L := Multiset.mem_cons_of_mem (Multiset.mem_cons_self ..)
  have hd : (dp, n) ∈ (ip, m) ::ₘ (dp, n) ::ₘ R :=
    Multiset.mem_cons_of_mem (Multiset.mem_cons_self ..)
  have hi : (ip, m) ∈ (ip, m) ::ₘ (dp, n) ::ₘ R := Multiset.mem_cons_self ..
  apply wp_bind
  apply wp_slot
  rw [h.inum hi]
  apply wp_call (h.dirlink_spec hdl hd ?_ fun hc => h.inum_lt hi hc)
  · rintro r s₁ (⟨rfl, _⟩ | ⟨rfl, e, h₁, he⟩)
    · exact wp_bind (wp_throw (Care.allows nofun nofun))
    have hnamed : c.links → Named (writeEntry B n e (dirent m name)) := by
      intro hl
      have hc := c.disk_of_links hl
      obtain ⟨hA, hf, hsmall, _, x, hno⟩ := hA hl
      have hB := hmade hl
      obtain ⟨y, hy, hle, h0⟩ := he hc
      obtain ⟨z, hz', _, hdata⟩ := hB.parent hno.node
      obtain rfl := Option.some.inj (hy.node.symm.trans hz')
      rw [hdata] at hle h0
      have hm := Nat.lt_trans (h.inum_lt hi hc) hsmall
      have hn := Nat.lt_trans (h.inum_lt hd hc) hsmall
      by_cases hk : k = .dir
      · rw [hB.dir hk]
        exact hA.create_dir hf hno hle h0 hz hB.free hB.pos hm hn
      · rw [hB.file hk]
        exact hA.create hno hle h0 hz hB.free hB.pos hm hk
    have hself : c.disk → writeEntry B n e (dirent m name) m = B m :=
      fun hc => modify_ne (hne hc).symm _
    rw [Multiset.cons_swap, Multiset.cons_swap (ip, m)] at h₁
    apply wp_call (h₁.iunlockput_frame_spec ?_)
    · rintro _ s₂ ⟨A', h₂, hA', hframe⟩
      refine wp_pure ⟨A', m, h₂, fun hl => ?_, fun hc hk x hx => ?_⟩
      · rw [hA' hl]
        obtain ⟨x, hx, _, h1⟩ := (hmade hl).self
        refine ⟨hnamed hl, x, (hself (c.disk_of_links hl)).trans hx, ?_⟩
        rw [h1]
        exact Int.one_ne_zero
      · rw [hframe m (hne hc).symm, hself hc] at hx
        exact hkind hc hk x hx
    · intro hl x hx
      obtain ⟨hA, hf, _, hn, z, hno⟩ := hA hl
      obtain ⟨y, hy, hyk, _⟩ := (hmade hl).parent hno.node
      refine ((hnamed hl).nlink_dir hx ?_).ne'
      rw [writeEntry, modify_self hy] at hx
      rw [← Option.some.inj hx]
      exact hyk.trans hno.dir
  · intro hl
    obtain ⟨hA, hf, _, _, x, hno⟩ := hA hl
    obtain ⟨y, hy, hyk, hyd⟩ := (hmade hl).parent hno.node
    exact (hA.namesIn n).congr hno.node hy hyk hyd fun a ha => (hmade hl).hasLinks hA hf ha

theorem create_spec {k : Kind} {major minor : ℤ} (h : Running c T L R A s)
    (hp : T.cwd p = some cwd) (hk : k ≠ .free)
    (hA : c.links → Named A ∧ Fits A ∧ T.sb.ninodes < 65536) :
    wp (create cwd path k major minor) (fun r s' => match r with
        | none => ∃ A', Running c T L R A' s' ∧ (c.links → A' = A)
        | some i => ∃ A' m, Running c T (i ::ₘ L) ((i, m) ::ₘ R) A' s' ∧
            (c.links → Named A' ∧ HasLinks A' m) ∧
            (c.disk → k = .file → ∀ x, A' m = some x → x.kind = .file)) c.Allows s := by
  apply wp_call (h.namex_spec hp fun hl => (hA hl).1.passable)
  rintro (_ | ⟨dp, name⟩) s₁ ⟨A₁, hA₁, h₁⟩
  · exact wp_pure ⟨A₁, h₁, hA₁⟩
  obtain ⟨n, h₁, hn, hname⟩ := h₁
  have hz : 0 ∉ name := fun h0 => path.property (hname h0)
  have hmem := Multiset.mem_cons_self (dp, n) R
  have hlinked : c.links → ∀ x, A₁ n = some x → x.nlink ≠ 0 := by
    intro hl x hx
    rw [hA₁ hl] at hx
    exact hasLinks_unique (hn hl) hx
  apply wp_call (h₁.ilock_spec (h₁.pos_of_mem hmem))
  intro _ s₂ h₂
  apply wp_call (h₂.dirlookup_spec (Multiset.mem_cons_self ..) hmem ?_)
  · rintro (_ | ⟨ip, off⟩) s₃ h₃
    · obtain ⟨h₃, hno⟩ := h₃
      apply wp_call (h₃.ialloc_spec hk)
      rintro ip s₄ ⟨m, h₄, hm⟩
      have hi := Multiset.mem_cons_self (ip, m) ((dp, n) ::ₘ R)
      apply wp_call (h₄.ilock_spec (h₄.pos_of_mem hi))
      intro _ s₅ h₅
      have hil := Multiset.mem_cons_self ip (dp ::ₘ L)
      apply wp_call (h₅.store_spec (f := fun d =>
        { d with major := toShort major, minor := toShort minor, nlink := 1 }) (g := fun _ => 1)
        hil hi fun _ => ⟨rfl, rfl, rfl, rfl⟩)
      intro _ s₆ h₆
      have hB : modify (Function.update A₁ m (some ⟨k, 0, []⟩)) m (fun x => x.setLinks 1) =
          Function.update A₁ m (some ⟨k, 1, []⟩) := by
        rw [modify_eq (Function.update_self ..), Function.update_idem]
        rfl
      rw [hB] at h₆
      have hne : c.disk → n ≠ m := by
        rintro hc rfl
        have hnode := h₃.node (Multiset.mem_cons_self ..) (h₃.inum hmem) hc
        rw [(hm hc).2] at hnode
        cases hnode
      have hA' : c.links → Named A ∧ Fits A ∧ T.sb.ninodes < 65536 ∧ HasLinks A n ∧
          ∃ x, NoEntry A n name x := by
        intro hl
        obtain ⟨hnamed, hf, hsmall⟩ := hA hl
        obtain ⟨_, x, hx⟩ := hno (c.disk_of_links hl)
        rw [hA₁ hl] at hx
        exact ⟨hnamed, hf, hsmall, hn hl, x, hx⟩
      apply wp_ite
      · intro hdir
        apply wp_call (h₆.createDots_spec (Multiset.mem_cons_of_mem (Multiset.mem_cons_self ..)) hil
          (Multiset.mem_cons_of_mem (Multiset.mem_cons_self ..)) hi ?_)
        · rintro _ s₇ ⟨A₇, h₇, hA₇⟩
          refine h₇.createName_spec hz hA' (fun hl => ?_) hne fun _ hfile => ?_
          · have hc := c.disk_of_links hl
            refine ⟨hA₁ hl ▸ (hm hc).2, (hm hc).1, hne hc, fun hnot => absurd hdir hnot, fun _ => ?_⟩
            rw [hA₇ hl, hA₁ hl, hdir]
          · rw [hdir] at hfile
            cases hfile
        · intro hl
          have hc := c.disk_of_links hl
          refine ⟨hne hc, (hm hc).1, Nat.lt_trans (h₆.inum_lt hi hc) (hA hl).2.2, ?_⟩
          rw [Function.update_self, hdir]
      · intro hdir
        refine h₆.createName_spec hz hA' (fun hl => ?_) hne fun _ hfile x hx => ?_
        · have hc := c.disk_of_links hl
          refine ⟨hA₁ hl ▸ (hm hc).2, (hm hc).1, hne hc, fun _ => ?_, fun hk => absurd hk hdir⟩
          rw [hA₁ hl]
        · rw [Function.update_self] at hx
          rw [← Option.some.inj hx]
          exact hfile
    · obtain ⟨m, h₃, he⟩ := h₃
      have hm : c.links → HasLinks A m := by
        intro hl
        obtain ⟨x, e, hx, _, rfl⟩ := he (c.disk_of_links hl)
        rw [hA₁ hl] at hx
        exact (hA hl).1.namesIn n x e hx.node hx.dir hx.found.1
      rw [Multiset.cons_swap] at h₃
      apply wp_call (h₃.iunlockput_linked_spec hlinked)
      rintro _ s₄ ⟨A₄, h₄, hA₄⟩
      have hi := Multiset.mem_cons_self (ip, m) R
      have hil := Multiset.mem_cons_self ip L
      apply wp_call (h₄.ilock_spec (h₄.pos_of_mem hi))
      intro _ s₅ h₅
      apply wp_bind
      apply wp_slot
      have hA₅ : c.links → A₄ = A := fun hl => (hA₄ hl).trans (hA₁ hl)
      apply wp_ite
      · intro hfile
        refine wp_pure ⟨A₄, m, h₅, fun hl => ?_, fun hc _ x hx => ?_⟩
        · rw [hA₅ hl]
          exact ⟨(hA hl).1, hm hl⟩
        · rw [h₅.node hil (h₅.inum hi) hc] at hx
          rw [← Option.some.inj hx]
          exact hfile.2
      · intro _
        apply wp_call (h₅.iunlockput_linked_spec fun hl x hx => ?_)
        · rintro _ s₆ ⟨A₆, h₆, hA₆⟩
          exact wp_pure ⟨A₆, h₆, fun hl => (hA₆ hl).trans (hA₅ hl)⟩
        · rw [hA₅ hl] at hx
          exact hasLinks_unique (hm hl) hx
  · intro hl
    rw [hA₁ hl]
    exact ((hA hl).1.namesIn n).targets

end Running

end Xv6.Inodes
