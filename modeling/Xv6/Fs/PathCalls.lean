import Xv6.Fs.Calls

/-!
# System calls on paths
-/

namespace Xv6.Inodes

open Xv6.Lib PanicM

variable {s s' : Fs} {i j : Slot} {n m : ℕ} {T T' T₀ : Tables} {L : Multiset Slot}
  {R : Multiset (Slot × ℕ)} {A A' : ℕ → Option Node} {c : Care} {p : Pid} {cwd : Slot}
  {path : Option Str}

/-! ## §1  Making inodes -/

namespace Ready

theorem start (h : Ready c T A s) : wp beginOp (fun _ s' => Running c (T.addOp 1) 0 0 A s')
    c.Allows s :=
  h.toRunning.beginOp_spec

theorem all (h : Ready c T A s) (hl : c.links) :
    Named A ∧ Fits A ∧ (T.addOp 1).sb.ninodes < 65536 :=
  ⟨h.named hl, h.fits hl, h.small hl⟩

/-- The operation ends, with names that are in order. -/
theorem finish {r : ℤ} (h : Ready c T A s) (h' : Running c (T.addOp 1) 0 0 A' s')
    (hA : c.links → Named A') :
    wp (do endOp; return r) (fun _ => Returned c T) c.Allows s' := by
  apply wp_call h'.endOp_spec
  intro _ s₁ h₁
  exact wp_pure ⟨_, A', h.ok.after.operation, h₁, fun hl _ => hA hl⟩

theorem sysMake_spec {k : Kind} {major minor : ℤ} (h : Ready c T A s) (hp : T.cwd p = some cwd)
    (hk : k ≠ .free) : wp (sysMake cwd path k major minor) (fun _ => Returned c T) c.Allows s := by
  apply wp_call h.start
  intro _ s₁ h₁
  cases path with
  | none => exact h.finish h₁ h.named
  | some path =>
      apply wp_call (h₁.create_spec hp hk h.all)
      rintro (_ | ip) s₂ h₂
      · obtain ⟨A₂, h₂, hA₂⟩ := h₂
        exact h.finish h₂ fun hl => hA₂ hl ▸ h.named hl
      · obtain ⟨A₂, m, h₂, hA₂, _⟩ := h₂
        apply wp_call (h₂.iunlockput_linked_spec fun hl x hx =>
          Running.hasLinks_unique (hA₂ hl).2 hx)
        rintro _ s₃ ⟨A₃, h₃, hA₃⟩
        exact h.finish h₃ fun hl => hA₃ hl ▸ (hA₂ hl).1

end Ready

/-! ## §2  Opening files -/

namespace Running

theorem openInode_spec {path : Str} {omode : ℕ} (h : Running c T L R A s)
    (hp : T.cwd p = some cwd) (hA : c.links → Named A ∧ Fits A ∧ T.sb.ninodes < 65536) :
    wp (openInode cwd path omode) (fun r s' => match r with
        | none => ∃ A', Running c T L R A' s' ∧ (c.links → A' = A)
        | some i => ∃ A' m, Running c T (i ::ₘ L) ((i, m) ::ₘ R) A' s' ∧
            (c.links → Named A' ∧ HasLinks A' m) ∧
            (c.disk → omode ≠ 0 → ∀ x, A' m = some x → x.kind ≠ .dir)) c.Allows s := by
  apply wp_ite
  · intro _
    refine wp_mono (h.create_spec hp nofun hA) ?_ fun _ => id
    rintro (_ | i) s₁ h₁
    · exact h₁
    · obtain ⟨A₁, m, h₁, hA₁, hk⟩ := h₁
      refine ⟨A₁, m, h₁, hA₁, fun hc _ x hx hdir => ?_⟩
      rw [hk hc rfl x hx] at hdir
      cases hdir
  · intro _
    apply wp_call (h.namex_spec hp fun hl => (hA hl).1.passable)
    rintro (_ | ⟨ip, name⟩) s₁ ⟨A₁, hA₁, h₁⟩
    · exact wp_pure ⟨A₁, h₁, hA₁⟩
    obtain ⟨m, h₁, hm, _⟩ := h₁
    have hi := Multiset.mem_cons_self (ip, m) R
    have hil := Multiset.mem_cons_self ip L
    apply wp_call (h₁.ilock_spec (h₁.pos_of_mem hi))
    intro _ s₂ h₂
    apply wp_bind
    apply wp_slot
    apply wp_ite
    · intro _
      apply wp_call (h₂.iunlockput_linked_spec fun hl x hx => ?_)
      · rintro _ s₃ ⟨A₃, h₃, hA₃⟩
        exact wp_pure ⟨A₃, h₃, fun hl => (hA₃ hl).trans (hA₁ hl)⟩
      · rw [hA₁ hl] at hx
        exact hasLinks_unique (hm hl) hx
    · intro hnot
      refine wp_pure ⟨A₁, m, h₂, fun hl => ?_, fun hc hmode x hx hdir => ?_⟩
      · rw [hA₁ hl]
        exact ⟨(hA hl).1, hm hl⟩
      · rw [h₂.node hil (h₂.inum hi) hc] at hx
        rw [← Option.some.inj hx] at hdir
        exact hnot ⟨hdir, hmode⟩

end Running

theorem Ready.sysOpen_spec {omode : ℕ} (h : Ready c T A s) (hp : T.cwd p = some cwd) :
    wp (sysOpen p cwd path omode) (fun _ => Returned c T) c.Allows s := by
  cases path with
  | none => exact wp_pure h.returned
  | some path =>
      apply wp_call h.start
      intro _ s₁ h₁
      apply wp_call (h₁.openInode_spec hp h.all)
      rintro (_ | ip) s₂ h₂
      · obtain ⟨A₂, h₂, hA₂⟩ := h₂
        exact h.finish h₂ fun hl => hA₂ hl ▸ h.named hl
      obtain ⟨A₂, m, h₂, hA₂, hkind⟩ := h₂
      have hT := h.ok.after.addOp 1
      have hlinked : c.links → ∀ x, A₂ m = some x → x.nlink ≠ 0 := fun hl x hx =>
        Running.hasLinks_unique (hA₂ hl).2 hx
      apply wp_call (h₂.filealloc_spec hT)
      rintro (_ | f) s₃ h₃
      · apply wp_call (h₃.iunlockput_linked_spec hlinked)
        rintro _ s₄ ⟨A₄, h₄, hA₄⟩
        exact h.finish h₄ fun hl => hA₄ hl ▸ (hA₂ hl).1
      obtain ⟨v, hv, htype, h₃⟩ := h₃
      have hT₃ : T.After (0 + 1) ((T.addOp 1).setFile f v) := hT.setFile fun _ => htype
      apply wp_call (h₃.fdalloc_spec hT₃)
      rintro (_ | fd) s₄ ⟨T₄, hT₄, hfile, _, h₄⟩
      · have hfile₄ : (T₄.file f).type ≠ .inode := by
          rw [hfile, Tables.setFile_self, htype]
          nofun
        apply wp_call (h₄.fileclose_other_spec hT₄ hfile₄)
        rintro _ s₅ ⟨T₅, hT₅, _, _, h₅⟩
        apply wp_call (h₅.iunlockput_linked_spec hlinked)
        rintro _ s₆ ⟨A₆, h₆, hA₆⟩
        apply wp_call h₆.endOp_spec
        intro _ s₇ h₇
        exact wp_pure ⟨_, A₆, hT₅.endOp, h₇, fun hl _ => hA₆ hl ▸ (hA₂ hl).1⟩
      · have hi := Multiset.mem_cons_self (ip, m) 0
        have hil := Multiset.mem_cons_self ip 0
        apply wp_call h₄.iunlock_frame_spec
        rintro _ s₅ ⟨h₅, hvalid, hd⟩
        apply wp_call h₅.endOp_frame_spec
        rintro _ s₆ ⟨h₆, hcache⟩
        have hopen : c.disk → (s₆.icache ip).valid = true ∧
            ((omode.testBit 0 || omode.testBit 1) = true → (s₆.icache ip).d.kind ≠ .dir) := by
          intro hc
          rw [hcache, hvalid, hd]
          refine ⟨h₄.valid hil hc, fun hw hdir => ?_⟩
          refine hkind hc ?_ _ (h₄.node hil (h₄.inum hi) hc) hdir
          rintro rfl
          rw [Nat.zero_testBit, Nat.zero_testBit] at hw
          cases hw
        apply wp_bind
        apply wp_get
        rw [h₆.file]
        have hold : ∀ j, ¬ ((T₄.addOp (-1)).file f).Uses j := by
          intro j hu
          have hu : (T₄.file f).type = .inode := hu.2.1
          rw [hfile, Tables.setFile_self, htype] at hu
          cases hu
        have href : ((T₄.addOp (-1)).file f).ref = 1 := by
          show (T₄.file f).ref = 1
          rw [hfile, Tables.setFile_self, hv]
        have hpos : ((T₄.addOp (-1)).file f).ref ≤ 0 → FdType.inode = .none := by
          rw [href]
          exact fun hle => absurd hle (by decide)
        apply wp_call (h₆.setFile_open_spec (v := { (T₄.addOp (-1)).file f with
          type := .inode
          ip := ip
          off := 0
          readable := !omode.testBit 0
          writable := omode.testBit 0 || omode.testBit 1 }) hold ⟨?_, rfl, rfl⟩ hopen)
        rotate_left
        · show 0 < ((T₄.addOp (-1)).file f).ref
          rw [href]
          exact Int.one_pos
        intro _ s₇ h₇
        exact wp_pure ⟨_, A₂, hT₄.endOp.setFile hpos, h₇, fun hl _ => (hA₂ hl).1⟩

/-! ## §3  Links -/

/-- While `sys_link` has counted a link that it has not made yet. -/
structure Counted (A : ℕ → Option Node) (m : ℕ) (x : Node) : Prop where
  named : Named A
  fits : Fits A
  node : A m = some x
  file : x.kind ≠ .dir
  links : HasLinks A m

namespace Counted

variable {x : Node}

theorem nlink (h : Counted A m x) : toShort (x.nlink + 1) = x.nlink + 1 :=
  h.fits.toShort_add h.named h.node (by decide) (Int.le_refl 1)

theorem hasLinks (h : Counted A m x) (hn : HasLinks A n) :
    HasLinks (modify A m fun x => x.setLinks (toShort (x.nlink + 1))) n := by
  by_cases hnm : n = m
  · rw [hnm]
    refine ⟨_, modify_self h.node _, ?_⟩
    show toShort (x.nlink + 1) ≠ 0
    have hpos := h.named.nlink_nonneg h.node
    rw [h.nlink]
    omega
  · rw [HasLinks, modify_ne hnm]
    exact hn

/-- The directories are as before. -/
theorem dir_iff {y : Node} (h : Counted A m x) (hk : y.kind = .dir) :
    modify A m (fun x => x.setLinks (toShort (x.nlink + 1))) n = some y ↔ A n = some y := by
  by_cases hnm : n = m
  · rw [hnm, modify_self h.node, h.node]
    refine iff_of_false ?_ ?_
    · intro hy
      rw [← Option.some.inj hy] at hk
      exact h.file hk
    · intro hy
      rw [← Option.some.inj hy] at hk
      exact h.file hk
  · rw [modify_ne hnm]

theorem passable (h : Counted A m x) :
    Passable (modify A m fun x => x.setLinks (toShort (x.nlink + 1))) where
  root := by
    obtain ⟨y, hy, hk⟩ := h.named.root
    exact ⟨y, (h.dir_iff hk).mpr hy, hk⟩
  names n := by
    intro y e hy hk h0
    rw [h.dir_iff hk] at hy
    exact h.hasLinks (h.named.namesIn n y e hy hk h0)
  dirs n y hy hk := by
    rw [h.dir_iff hk] at hy
    exact (h.named.nlink_dir hy hk).ne'

/-- The link is taken back. -/
theorem undo (h : Counted A m x) :
    modify (modify A m fun x => x.setLinks (toShort (x.nlink + 1))) m
      (fun x => x.setLinks (toShort (x.nlink + -1))) = A := by
  have hx : toShort (toShort (x.nlink + 1) + -1) = x.nlink := by
    have hle := h.fits m x h.node
    have h0 := h.named.nlink_nonneg h.node
    rw [h.nlink, Int.add_neg_cancel_right]
    exact toShort_of_le (by omega) (by omega)
  rw [modify_eq h.node, modify_eq (Function.update_self ..), Function.update_idem]
  show Function.update A m (some ⟨x.kind, toShort (toShort (x.nlink + 1) + -1), x.data⟩) = A
  rw [hx]
  exact (Function.update_eq_self_iff ..).mpr h.node.symm

end Counted

namespace Running

/-- The end of `sys_link` behind the label `bad`. -/
theorem linkBad_spec {ip : Slot} (A₀ : ℕ → Option Node)
    (h : Running c (T.addOp 1) 0 ((ip, m) ::ₘ 0) A s) (hT : T.Ok)
    (hA : c.links → ∃ x, Counted A₀ m x ∧
      A = modify A₀ m fun x => x.setLinks (toShort (x.nlink + 1))) :
    wp (linkBad ip) (fun _ => Returned c T) c.Allows s := by
  have hi := Multiset.mem_cons_self (ip, m) 0
  apply wp_call (h.ilock_spec (h.pos_of_mem hi))
  intro _ s₁ h₁
  apply wp_call (h₁.addLink_spec (Multiset.mem_cons_self ..) hi)
  intro _ s₂ h₂
  have hback : c.links → modify A m (fun x => x.setLinks (toShort (x.nlink + -1))) = A₀ := by
    intro hl
    obtain ⟨x, hx, rfl⟩ := hA hl
    exact hx.undo
  apply wp_call (h₂.iunlockput_linked_spec fun hl x hx => ?_)
  · rintro _ s₃ ⟨A₃, h₃, hA₃⟩
    apply wp_call h₃.endOp_spec
    intro _ s₄ h₄
    refine wp_pure ⟨_, A₃, hT.after.operation, h₄, fun hl _ => ?_⟩
    obtain ⟨x, hx, _⟩ := hA hl
    rw [hA₃ hl, hback hl]
    exact hx.named
  · obtain ⟨y, hy, _⟩ := hA hl
    rw [hback hl] at hx
    exact hasLinks_unique hy.links hx

end Running

theorem Ready.sysLink_spec {old new : Option Str} (h : Ready c T A s) (hp : T.cwd p = some cwd) :
    wp (sysLink cwd old new) (fun _ => Returned c T) c.Allows s := by
  cases old with
  | none => exact wp_pure h.returned
  | some old =>
  cases new with
  | none => exact wp_pure h.returned
  | some new =>
  apply wp_call h.start
  intro _ s₁ h₁
  apply wp_call (h₁.namex_spec hp fun hl => (h.named hl).passable)
  rintro (_ | ⟨ip, _⟩) s₂ ⟨A₂, hA₂, h₂⟩
  · exact h.finish h₂ fun hl => hA₂ hl ▸ h.named hl
  obtain ⟨m, h₂, hm, _⟩ := h₂
  have hi := Multiset.mem_cons_self (ip, m) 0
  have hil := Multiset.mem_cons_self ip 0
  apply wp_call (h₂.ilock_spec (h₂.pos_of_mem hi))
  intro _ s₃ h₃
  apply wp_bind
  apply wp_slot
  apply wp_ite
  · intro _
    apply wp_call (h₃.iunlockput_linked_spec fun hl x hx => ?_)
    · rintro _ s₄ ⟨A₄, h₄, hA₄⟩
      exact h.finish h₄ fun hl => (hA₄ hl).trans (hA₂ hl) ▸ h.named hl
    · rw [hA₂ hl] at hx
      exact Running.hasLinks_unique (hm hl) hx
  · intro hfile
    have hcount : c.links → ∃ x, Counted A₂ m x := by
      intro hl
      have hnode := h₃.node hil (h₃.inum hi) (c.disk_of_links hl)
      rw [hA₂ hl] at hnode ⊢
      exact ⟨_, h.named hl, h.fits hl, hnode, hfile, hm hl⟩
    apply wp_call (h₃.addLink_spec hil hi)
    intro _ s₄ h₄
    apply wp_call h₄.iunlock_spec
    intro _ s₅ h₅
    apply wp_call (h₅.namex_spec hp fun hl => ?_)
    · rintro (_ | ⟨dp, name⟩) s₆ ⟨A₆, hA₆, h₆⟩
      · refine Running.linkBad_spec A₂ h₆ h.ok fun hl => ?_
        obtain ⟨x, hx⟩ := hcount hl
        exact ⟨x, hx, hA₆ hl⟩
      obtain ⟨n, h₆, hn, hname⟩ := h₆
      have hd := Multiset.mem_cons_self (dp, n) ((ip, m) ::ₘ 0)
      have hi' : (ip, m) ∈ (dp, n) ::ₘ (ip, m) ::ₘ 0 := Multiset.mem_cons_of_mem hi
      have hlinked : c.links → ∀ x, A₆ n = some x → x.nlink ≠ 0 := by
        intro hl x hx
        rw [hA₆ hl] at hx
        exact Running.hasLinks_unique (hn hl) hx
      apply wp_call (h₆.ilock_spec (h₆.pos_of_mem hd))
      intro _ s₇ h₇
      apply wp_bind
      apply wp_slot
      rw [h₇.inum hi']
      apply wp_call (h₇.dirlink_spec (Multiset.mem_cons_self ..) hd ?_ fun hc => h₇.inum_lt hi' hc)
      · rintro r s₈ (⟨rfl, A₈, h₈, hA₈⟩ | ⟨rfl, e, h₈, he⟩)
        · rw [if_pos (by decide)]
          apply wp_call (h₈.iunlockput_linked_spec fun hl x hx => ?_)
          · rintro _ s₉ ⟨A₉, h₉, hA₉⟩
            refine h₉.linkBad_spec A₂ h.ok fun hl => ?_
            obtain ⟨x, hx⟩ := hcount hl
            exact ⟨x, hx, (hA₉ hl).trans ((hA₈ hl).trans (hA₆ hl))⟩
          · rw [hA₈ hl] at hx
            exact hlinked hl x hx
        · rw [if_neg (by decide)]
          have hnamed : c.links → Named (writeEntry A₆ n e (dirent m name)) := by
            intro hl
            have hc := c.disk_of_links hl
            obtain ⟨x, hx⟩ := hcount hl
            obtain ⟨y, hy, hle, h0⟩ := he hc
            rw [hA₆ hl] at hy ⊢
            have hy' : NoEntry A₂ n name y := ⟨(hx.dir_iff hy.dir).mp hy.node, hy.dir, hy.none⟩
            have hm0 : m ≠ 0 := by
              obtain ⟨_, hz, h0⟩ := hx.links
              exact hx.named.ne_zero hz h0
            exact hx.named.sysLink hx.fits hy' hle h0 (fun h0 => new.property (hname h0)) hx.node
              hx.file hm0 (Nat.lt_trans (h₇.inum_lt hi' hc) (h.small hl))
          apply wp_call (h₈.iunlockput_linked_spec fun hl x hx => ?_)
          · rintro _ s₉ ⟨A₉, h₉, hA₉⟩
            apply wp_call (h₉.iput_linked_spec fun hl => ?_)
            · rintro _ s₁₀ ⟨A₁₀, h₁₀, hA₁₀⟩
              exact h.finish h₁₀ fun hl => (hA₁₀ hl).trans (hA₉ hl) ▸ hnamed hl
            · obtain ⟨x, hx⟩ := hcount hl
              rw [hA₉ hl, hA₆ hl]
              exact (hx.hasLinks hx.links).writeEntry
          · have hn' : HasLinks A₆ n := hA₆ hl ▸ hn hl
            exact Running.hasLinks_unique hn'.writeEntry hx
      · intro hl
        obtain ⟨x, hx⟩ := hcount hl
        rw [hA₆ hl]
        exact hx.passable.names n
    · obtain ⟨x, hx⟩ := hcount hl
      exact hx.passable

/-! ## §4  Removing names -/

theorem Ready.unlinkBad_spec {dp : Slot} {B : ℕ → Option Node} (h : Ready c T A s)
    (h' : Running c (T.addOp 1) (dp ::ₘ 0) ((dp, n) ::ₘ 0) B s') (hB : c.links → B = A)
    (hn : c.links → HasLinks A n) : wp (unlinkBad dp) (fun _ => Returned c T) c.Allows s' := by
  apply wp_call (h'.iunlockput_linked_spec fun hl x hx => ?_)
  · rintro _ s₁ ⟨A₁, h₁, hA₁⟩
    exact h.finish h₁ fun hl => (hA₁ hl).trans (hB hl) ▸ h.named hl
  · rw [hB hl] at hx
    exact Running.hasLinks_unique (hn hl) hx

/-- The entry of a name that `sys_unlink` removes. -/
structure Removed (A : ℕ → Option Node) (n m e : ℕ) (x y : Node) : Prop where
  named : Named A
  fits : Fits A
  entry : ∃ name, Entry A n name x e
  two_le : 2 ≤ e
  inum : m = inumAt x.data e
  node : A m = some y
  empty : y.kind = .dir → ∀ e', 2 ≤ e' → inumAt y.data e' = 0

namespace Removed

variable {e : ℕ} {x y : Node}

/-- The map after the entry has been cleared and the directory above has been told. -/
def cleared (A : ℕ → Option Node) (n e : ℕ) (y : Node) : ℕ → Option Node :=
  if y.kind = .dir then modify (writeEntry A n e (List.replicate direntSize 0)) n
    fun x => x.setLinks (toShort (x.nlink + -1))
  else writeEntry A n e (List.replicate direntSize 0)

theorem ne (h : Removed A n m e x y) : m ≠ n := by
  obtain ⟨name, he⟩ := h.entry
  intro hmn
  have hy := h.node
  rw [hmn, he.node] at hy
  obtain rfl := Option.some.inj hy
  exact he.found.1 (h.empty he.dir e h.two_le)

theorem node_cleared (h : Removed A n m e x y) : cleared A n e y m = some y := by
  unfold cleared
  split_ifs
  · rw [modify_ne h.ne, writeEntry, modify_ne h.ne, h.node]
  · rw [writeEntry, modify_ne h.ne, h.node]

/-- A directory is freed. -/
theorem free (h : Removed A n m e x y) (hk : y.kind = .dir) :
    Named (Function.update (cleared A n e y) m none) := by
  obtain ⟨name, he⟩ := h.entry
  have hy : A (inumAt x.data e) = some y := h.inum ▸ h.node
  rw [cleared, if_pos hk, h.inum]
  exact h.named.sysUnlink_dir h.fits he h.two_le hy hk (h.empty hk)

/-- A file loses a link. -/
theorem unlink (h : Removed A n m e x y) (hk : y.kind ≠ .dir) :
    Named (modify (cleared A n e y) m fun x => x.setLinks (toShort (x.nlink + -1))) := by
  obtain ⟨name, he⟩ := h.entry
  have hy : A (inumAt x.data e) = some y := h.inum ▸ h.node
  rw [cleared, if_neg hk, h.inum]
  exact h.named.sysUnlink h.fits he h.two_le hy hk

/-- The directory above keeps links. -/
theorem hasLinks (h : Removed A n m e x y) : HasLinks (cleared A n e y) n := by
  obtain ⟨name, he⟩ := h.entry
  by_cases hk : y.kind = .dir
  · have hcl : cleared A n e y n = some ⟨x.kind, toShort (x.nlink + -1),
        setEntry x.data e (List.replicate direntSize 0)⟩ := by
      rw [cleared, if_pos hk, writeEntry_eq he.node, modify_self (Function.update_self ..)]
      rfl
    have hpos := (h.free hk).nlink_dir ((Function.update_of_ne h.ne.symm ..).trans hcl) he.dir
    exact ⟨_, hcl, hpos.ne'⟩
  · rw [cleared, if_neg hk]
    have hpos := h.named.nlink_dir he.node he.dir
    exact HasLinks.writeEntry ⟨x, he.node, hpos.ne'⟩

theorem nlink (h : Removed A n m e x y) (hk : y.kind = .dir) :
    toShort (y.nlink + -1) = 0 := by
  obtain ⟨name, he⟩ := h.entry
  have hy : A (inumAt x.data e) = some y := h.inum ▸ h.node
  rw [h.named.nlink_empty he h.two_le hy hk (h.empty hk)]
  rfl

end Removed

/-- The end of `sys_unlink`: the inode loses a link, and may go. A directory that stays is
in use without links. -/
theorem Ready.unlinkEnd_spec {ip : Slot} {e : ℕ} {B : ℕ → Option Node} (h : Ready c T A s)
    (h' : Running c (T.addOp 1) (ip ::ₘ 0) ((ip, m) ::ₘ 0) B s')
    (hB : c.links → ∃ x y, Removed A n m e x y ∧ B = Removed.cleared A n e y) :
    wp (do addLink ip (-1); iunlockput ip; endOp; return (0 : ℤ)) (fun _ => Returned c T) c.Allows
      s' := by
  have hi := Multiset.mem_cons_self (ip, m) 0
  apply wp_call (h'.addLink_spec (Multiset.mem_cons_self ..) hi)
  intro _ s₁ h₁
  have hfixed : Fixed (iunlockput ip) := (fixed_iunlock ip).bind fun _ => fixed_iput ip
  apply wp_call (wp_mono (wp_and h₁.iunlockput_spec (hfixed s₁)) (fun _ _ => id) fun _ he => he.1)
  rintro _ s₂ ⟨⟨h₂, hkeep⟩ | ⟨h₂, _, _, h0⟩, hnum⟩
  · apply wp_call h₂.endOp_frame_spec
    rintro _ s₃ ⟨h₃, hcache⟩
    refine wp_pure ⟨_, _, h.ok.after.operation, h₃, fun hl hguard => ?_⟩
    obtain ⟨x, y, hrem, rfl⟩ := hB hl
    by_cases hk : y.kind = .dir
    · exfalso
      have hnode := modify_self hrem.node_cleared fun x => x.setLinks (toShort (x.nlink + -1))
      have hzero : (y.setLinks (toShort (y.nlink + -1))).nlink = 0 := hrem.nlink hk
      have hheld : 0 < (T.addOp 1).held ip := by
        rcases hkeep (c.disk_of_links hl) _ hnode hzero with hheld | ⟨_, hmem⟩
        · exact hheld
        · exact absurd hmem (Multiset.notMem_zero _)
      have href : 0 < (s₃.icache ip).ref := by
        rw [hcache, h₂.ref]
        omega
      have hinum : (s₃.icache ip).inum = m := by
        rw [hcache, hnum, h₁.inum hi]
      refine hguard ip (y.setLinks (toShort (y.nlink + -1))) href ?_ hk hzero
      rw [hinum]
      exact hnode
    · exact hrem.unlink hk
  · apply wp_call h₂.endOp_spec
    intro _ s₃ h₃
    refine wp_pure ⟨_, _, h.ok.after.operation, h₃, fun hl _ => ?_⟩
    obtain ⟨x, y, hrem, rfl⟩ := hB hl
    by_cases hk : y.kind = .dir
    · rw [modify, Function.update_idem]
      exact hrem.free hk
    · obtain ⟨z, hz, hz0⟩ := h0 (c.disk_of_links hl)
      have hnode := modify_self hrem.node_cleared fun x => x.setLinks (toShort (x.nlink + -1))
      refine (hrem.unlink hk).free hz (fun hdir => hk ?_) hz0
      rw [← Option.some.inj (hnode.symm.trans hz)] at hdir
      exact hdir

theorem Ready.sysUnlink_spec (h : Ready c T A s) (hp : T.cwd p = some cwd) :
    wp (sysUnlink cwd path) (fun _ => Returned c T) c.Allows s := by
  cases path with
  | none => exact wp_pure h.returned
  | some path =>
  apply wp_call h.start
  intro _ s₁ h₁
  apply wp_call (h₁.namex_spec hp fun hl => (h.named hl).passable)
  rintro (_ | ⟨dp, name⟩) s₂ ⟨A₂, hA₂, h₂⟩
  · exact h.finish h₂ fun hl => hA₂ hl ▸ h.named hl
  obtain ⟨n, h₂, hn, _⟩ := h₂
  have hd := Multiset.mem_cons_self (dp, n) 0
  have hdl := Multiset.mem_cons_self dp 0
  apply wp_call (h₂.ilock_spec (h₂.pos_of_mem hd))
  intro _ s₃ h₃
  apply wp_ite
  · intro _
    exact h.unlinkBad_spec h₃ hA₂ hn
  intro hdots
  apply wp_call (h₃.dirlookup_spec hdl hd fun hl => hA₂ hl ▸ ((h.named hl).namesIn n).targets)
  rintro (_ | ⟨ip, off⟩) s₄ h₄
  · exact h.unlinkBad_spec h₄.1 hA₂ hn
  obtain ⟨m, h₄, he⟩ := h₄
  have hi := Multiset.mem_cons_self (ip, m) ((dp, n) ::ₘ 0)
  have hil := Multiset.mem_cons_self ip (dp ::ₘ 0)
  have hd' : (dp, n) ∈ (ip, m) ::ₘ (dp, n) ::ₘ 0 := Multiset.mem_cons_of_mem hd
  have hm : c.links → HasLinks A m := by
    intro hl
    obtain ⟨x, e, hx, _, rfl⟩ := he (c.disk_of_links hl)
    rw [hA₂ hl] at hx
    exact (h.named hl).namesIn n x e hx.node hx.dir hx.found.1
  apply wp_call (h₄.ilock_spec (h₄.pos_of_mem hi))
  intro _ s₅ h₅
  apply wp_bind
  apply wp_slot
  apply wp_ite
  · intro _
    exact wp_bind (wp_throw (Care.allows nofun nofun))
  intro _
  apply wp_call (h₅.isFullDir_spec hil hi)
  rintro b s₆ ⟨h₆, hempty⟩
  cases b with
  | true =>
      apply wp_call (h₆.iunlockput_linked_spec fun hl x hx => ?_)
      · rintro _ s₇ ⟨A₇, h₇, hA₇⟩
        exact h.unlinkBad_spec h₇ (fun hl => (hA₇ hl).trans (hA₂ hl)) hn
      · rw [hA₂ hl] at hx
        exact Running.hasLinks_unique (hm hl) hx
  | false =>
      have hoff : c.disk → ∃ x, A₂ n = some x ∧ x.kind = .dir ∧ off / direntSize < entries x.data ∧
          off = direntSize * (off / direntSize) := by
        intro hc
        obtain ⟨x, e, hx, rfl, _⟩ := he hc
        have hdiv : direntSize * e / direntSize = e := Nat.mul_div_cancel_left e (by decide)
        rw [hdiv]
        exact ⟨x, hx.node, hx.dir, hx.lt, rfl⟩
      apply wp_call (h₆.clearEntry_spec (Multiset.mem_cons_of_mem hdl) hd' hoff)
      intro _ s₇ h₇
      have hrem : c.links → ∃ x y, Removed A n m (off / direntSize) x y ∧
          (y.kind = .dir ↔ (s₇.icache ip).d.kind = .dir) := by
        intro hl
        have hc := c.disk_of_links hl
        obtain ⟨x, e, hx, rfl, hme⟩ := he hc
        have hdiv : direntSize * e / direntSize = e := Nat.mul_div_cancel_left e (by decide)
        rw [hA₂ hl] at hx
        rw [Bool.not_eq_true, Bool.or_eq_false_iff] at hdots
        have h2 := (h.named hl).two_le_of_entry hx hdots.1 hdots.2
        obtain ⟨y, hy, _⟩ := hm hl
        have hrem : Removed A n m e x y := by
          refine ⟨h.named hl, h.fits hl, ⟨name, hx⟩, h2, hme, hy, fun hk => ?_⟩
          exact hempty hc rfl y (hA₂ hl ▸ hy) hk
        rw [hdiv]
        refine ⟨x, y, hrem, ?_⟩
        have hnode := h₇.node hil (h₇.inum hi) hc
        rw [hdiv, hA₂ hl, writeEntry, modify_ne hrem.ne, hy] at hnode
        rw [Option.some.inj hnode]
        rfl
      have hend : ∀ {A₈ s₈}, Running c (T.addOp 1) (ip ::ₘ dp ::ₘ 0) ((ip, m) ::ₘ (dp, n) ::ₘ 0) A₈ s₈ →
          (c.links → ∃ x y, Removed A n m (off / direntSize) x y ∧
            A₈ = Removed.cleared A n (off / direntSize) y) →
          wp (do iunlockput dp; addLink ip (-1); iunlockput ip; endOp; return (0 : ℤ))
            (fun _ => Returned c T) c.Allows s₈ := by
        intro A₈ s₈ h₈ hA₈
        rw [Multiset.cons_swap, Multiset.cons_swap (ip, m)] at h₈
        apply wp_call (h₈.iunlockput_linked_spec fun hl x hx => ?_)
        · rintro _ s₉ ⟨A₉, h₉, hA₉⟩
          refine h.unlinkEnd_spec (n := n) (e := off / direntSize) h₉ fun hl => ?_
          rw [hA₉ hl]
          exact hA₈ hl
        · obtain ⟨x', y, hrem, rfl⟩ := hA₈ hl
          exact Running.hasLinks_unique hrem.hasLinks hx
      apply wp_bind
      apply wp_slot
      apply wp_ite
      · intro hk
        apply wp_call (h₇.addLink_spec (Multiset.mem_cons_of_mem hdl) hd')
        intro _ s₈ h₈
        refine hend h₈ fun hl => ?_
        obtain ⟨x, y, hrem, hiff⟩ := hrem hl
        refine ⟨x, y, hrem, ?_⟩
        rw [Removed.cleared, if_pos (hiff.mpr hk), hA₂ hl]
      · intro hk
        refine hend h₇ fun hl => ?_
        obtain ⟨x, y, hrem, hiff⟩ := hrem hl
        refine ⟨x, y, hrem, ?_⟩
        rw [Removed.cleared, if_neg fun hdir => hk (hiff.mp hdir), hA₂ hl]

/-! ## §5  Current directories -/

theorem Ready.sysChdir_spec (h : Ready c T A s) (hp : T.cwd p = some cwd) :
    wp (sysChdir p cwd path) (fun _ => Returned c T) c.Allows s := by
  apply wp_call h.start
  intro _ s₁ h₁
  cases path with
  | none => exact h.finish h₁ h.named
  | some path =>
  apply wp_call (h₁.namex_spec hp fun hl => (h.named hl).passable)
  rintro (_ | ⟨ip, _⟩) s₂ ⟨A₂, hA₂, h₂⟩
  · exact h.finish h₂ fun hl => hA₂ hl ▸ h.named hl
  obtain ⟨m, h₂, hm, _⟩ := h₂
  have hi := Multiset.mem_cons_self (ip, m) 0
  have hil := Multiset.mem_cons_self ip 0
  apply wp_call (h₂.ilock_spec (h₂.pos_of_mem hi))
  intro _ s₃ h₃
  apply wp_bind
  apply wp_slot
  apply wp_ite
  · intro _
    apply wp_call (h₃.iunlockput_linked_spec fun hl x hx => ?_)
    · rintro _ s₄ ⟨A₄, h₄, hA₄⟩
      exact h.finish h₄ fun hl => (hA₄ hl).trans (hA₂ hl) ▸ h.named hl
    · rw [hA₂ hl] at hx
      exact Running.hasLinks_unique (hm hl) hx
  · intro hdir
    have hdir : (s₃.icache ip).d.kind = .dir := not_not.mp hdir
    have hnode : c.links → ∃ x, A m = some x ∧ x.kind = .dir := by
      intro hl
      have hnode := h₃.node hil (h₃.inum hi) (c.disk_of_links hl)
      rw [hA₂ hl] at hnode
      exact ⟨_, hnode, hdir⟩
    apply wp_call h₃.iunlock_spec
    intro _ s₄ h₄
    have h₅ := h₄.takeCwd (p := p) hp
    apply wp_call (h₅.iput_linked_spec fun hl => ?_)
    · rintro _ s₅ ⟨A₅, h₅, hA₅⟩
      apply wp_call h₅.endOp_spec
      intro _ s₆ h₆
      apply wp_bind
      apply wp_bind
      apply wp_get
      refine wp_mono (h₆.setProc_spec (p := p) (w := { s₆.proc p with cwd := some ip })) ?_ fun _ => id
      intro _ s₇ h₇
      have hnode₇ : c.links → ∃ x, A₅ m = some x ∧ x.kind = .dir := by
        intro hl
        rw [hA₅ hl, hA₂ hl]
        exact hnode hl
      have h₈ := h₇.giveCwd (p := p) (Tables.setCwd_self ..) hnode₇
      refine wp_pure ⟨_, A₅, ?_, h₈, fun hl _ => (hA₅ hl).trans (hA₂ hl) ▸ h.named hl⟩
      refine h.ok.after.operation.setProc (w := { s₆.proc p with cwd := some ip }) ?_ rfl rfl rfl rfl
      exact Function.update_idem ..
    · obtain ⟨x, hx, hk⟩ := h₄.cwds hl p cwd hp
      refine ⟨x, hx, ?_⟩
      rw [hA₂ hl] at hx
      exact ((h.named hl).nlink_dir hx hk).ne'

/-! ## §6  Processes -/

namespace Running

variable {ip : Slot} {k : ℤ} {q : Pid} {mem : ExecMem}

theorem readAll_spec {off len : ℕ} (h : Running c T L R A s) (hl : ip ∈ L) (hlen : len < uintSize) :
    wp (readAll ip off len) (fun _ s' => Running c T L R A s') c.Allows s := by
  apply wp_call (h.readi_spec hl hlen)
  intro r s₁ h₁
  exact wp_pure h₁

theorem loaduvmLoop_spec {off filesz pages b : ℕ} (h : Running c T L R A s) (hl : ip ∈ L) :
    wp (loaduvmLoop ip off filesz pages b) (fun _ s' => Running c T L R A s') c.Allows s := by
  induction pages generalizing b s with
  | zero => exact wp_pure h
  | succ pages ih =>
      have hlen : min (filesz - b) 4096 < uintSize :=
        Nat.lt_of_le_of_lt (Nat.min_le_right ..) (by decide)
      apply wp_call (h.readAll_spec hl hlen)
      intro r s₁ h₁
      apply wp_ite
      · intro _
        exact wp_pure h₁
      · intro _
        exact ih h₁

theorem execLoop_spec {phnum off : ℕ} (h : Running c T L R A s) (hl : ip ∈ L) :
    wp (execLoop ip mem phnum off) (fun _ s' => Running c T L R A s') c.Allows s := by
  induction phnum generalizing off s with
  | zero => exact wp_pure h
  | succ phnum ih =>
      apply wp_call (h.readAll_spec hl (by decide))
      rintro (_ | ph) s₁ h₁
      · exact wp_pure h₁
      dsimp only
      apply wp_ite
      · intro _
        exact ih h₁
      intro _
      apply wp_ite
      · intro _
        exact wp_pure h₁
      intro _
      apply wp_ite
      · intro _
        exact wp_pure h₁
      intro _
      apply wp_call (h₁.loaduvmLoop_spec hl)
      intro b s₂ h₂
      apply wp_ite
      · intro _
        exact ih h₂
      · intro _
        exact wp_pure h₂

theorem execLoad_spec (h : Running c T L R A s) (hl : ip ∈ L) :
    wp (execLoad ip mem) (fun _ s' => Running c T L R A s') c.Allows s := by
  apply wp_call (h.readAll_spec hl (by decide))
  rintro (_ | elf) s₁ h₁
  · exact wp_pure h₁
  apply wp_ite
  · intro _
    exact wp_pure h₁
  intro _
  apply wp_ite
  · intro _
    exact wp_pure h₁
  intro _
  exact h₁.execLoop_spec hl

theorem forkFiles_spec {fds : List Fd} (h : Running c T L R A s) (hT : T₀.After k T) :
    wp (forkFiles p q fds) (fun _ s' => ∃ T', T₀.After k T' ∧ T'.cwd = T.cwd ∧
      Running c T' L R A s') c.Allows s := by
  induction fds generalizing T s with
  | nil => exact wp_pure ⟨T, hT, rfl, h⟩
  | cons fd fds ih =>
      apply wp_bind
      apply wp_get
      split
      · apply wp_call (h.filedup_spec hT)
        rintro _ s₁ ⟨T₁, hT₁, hcwd₁, _, h₁⟩
        apply wp_call (h₁.setOfile_spec hT₁ fd _)
        rintro _ s₂ ⟨T₂, hT₂, _, hcwd₂, h₂⟩
        refine wp_mono (ih h₂ hT₂) ?_ fun _ => id
        rintro _ s₃ ⟨T₃, hT₃, hcwd₃, h₃⟩
        exact ⟨T₃, hT₃, hcwd₃.trans (hcwd₂.trans hcwd₁), h₃⟩
      · exact ih h hT

theorem exitFiles_spec {fds : List Fd} (h : Running c T L R A s) (hT : T₀.After k T) :
    wp (exitFiles p fds) (fun _ s' => ∃ T' A', T₀.After k T' ∧ T'.cwd = T.cwd ∧
      Running c T' L R A' s' ∧ (c.links → Named A → Named A')) c.Allows s := by
  induction fds generalizing T A s with
  | nil => exact wp_pure ⟨T, A, hT, rfl, h, fun _ => id⟩
  | cons fd fds ih =>
      apply wp_bind
      apply wp_get
      split
      · apply wp_call (h.fileclose_spec hT)
        rintro _ s₁ ⟨T₁, A₁, hT₁, hcwd₁, _, h₁, hA₁⟩
        apply wp_call (h₁.setOfile_spec hT₁ fd none)
        rintro _ s₂ ⟨T₂, hT₂, _, hcwd₂, h₂⟩
        refine wp_mono (ih h₂ hT₂) ?_ fun _ => id
        rintro _ s₃ ⟨T₃, A₃, hT₃, hcwd₃, h₃, hA₃⟩
        exact ⟨T₃, A₃, hT₃, hcwd₃.trans (hcwd₂.trans hcwd₁), h₃, fun hl hA => hA₃ hl (hA₁ hl hA)⟩
      · exact ih h hT

end Running

namespace Ready

theorem exec_spec {mem : ExecMem} (h : Ready c T A s) (hp : T.cwd p = some cwd) :
    wp (exec cwd path mem) (fun _ => Returned c T) c.Allows s := by
  cases path with
  | none => exact wp_pure h.returned
  | some path =>
  apply wp_call h.start
  intro _ s₁ h₁
  apply wp_call (h₁.namex_spec hp fun hl => (h.named hl).passable)
  rintro (_ | ⟨ip, _⟩) s₂ ⟨A₂, hA₂, h₂⟩
  · exact h.finish h₂ fun hl => hA₂ hl ▸ h.named hl
  obtain ⟨m, h₂, hm, _⟩ := h₂
  apply wp_call (h₂.ilock_spec (h₂.pos_of_mem (Multiset.mem_cons_self ..)))
  intro _ s₃ h₃
  apply wp_call (h₃.execLoad_spec (Multiset.mem_cons_self ..))
  intro loaded s₄ h₄
  apply wp_call (h₄.iunlockput_linked_spec fun hl x hx => ?_)
  · rintro _ s₅ ⟨A₅, h₅, hA₅⟩
    have hnamed : c.links → Named A₅ := fun hl => (hA₅ hl).trans (hA₂ hl) ▸ h.named hl
    apply wp_call h₅.endOp_spec
    intro _ s₆ h₆
    have hdone : Returned c T s₆ := ⟨_, A₅, h.ok.after.operation, h₆, fun hl _ => hnamed hl⟩
    apply wp_ite
    · intro _
      exact wp_pure hdone
    · intro _
      exact wp_pure hdone
  · rw [hA₂ hl] at hx
    exact Running.hasLinks_unique (hm hl) hx

theorem fork_spec {q : Pid} {copied : Bool} (h : Ready c T A s) (hp : T.cwd p = some cwd) :
    wp (fork p q cwd copied) (fun _ => Returned c T) c.Allows s := by
  apply wp_bind
  apply wp_get
  apply wp_ite
  · intro _
    exact wp_pure h.returned
  intro hfree
  apply wp_ite
  · intro _
    exact wp_pure h.returned
  intro _
  have hq : T.cwd q = none := by
    rw [h.proc, ← h.ok.cwd q, Option.not_isSome_iff_eq_none] at hfree
    exact hfree
  apply wp_call (h.toRunning.forkFiles_spec h.ok.after)
  rintro _ s₁ ⟨T₁, hT₁, hcwd, h₁⟩
  have hp₁ : T₁.cwd p = some cwd := hcwd ▸ hp
  apply wp_call (h₁.idup_spec (h₁.toRefs.pos_of_cwd hp₁))
  rintro d s₂ ⟨hd, h₂⟩
  rw [hd]
  apply wp_bind
  apply wp_bind
  apply wp_get
  refine wp_mono (h₂.setProc_spec (p := q) (w := { s₂.proc q with cwd := some cwd })) ?_ fun _ => id
  intro _ s₃ h₃
  have hq₃ : (T₁.setProc q { s₂.proc q with cwd := some cwd }).cwd q = none := hcwd ▸ hq
  have h₄ := h₃.giveCwd hq₃ fun hl => h₁.cwds hl p cwd hp₁
  refine wp_pure ⟨_, A, ?_, h₄, fun hl _ => h.named hl⟩
  exact hT₁.setProc (w := { s₂.proc q with cwd := some cwd }) rfl rfl rfl rfl rfl

theorem exit_spec (h : Ready c T A s) (hp : T.cwd p = some cwd) :
    wp (exit p cwd) (fun _ => Returned c T) c.Allows s := by
  apply wp_ite
  · intro _
    exact wp_bind (wp_throw (Care.allows nofun nofun))
  intro _
  apply wp_call (h.toRunning.exitFiles_spec h.ok.after)
  rintro _ s₁ ⟨T₁, A₁, hT₁, hcwd, h₁, hA₁⟩
  have hp₁ : T₁.cwd p = some cwd := hcwd ▸ hp
  apply wp_call h₁.beginOp_spec
  intro _ s₂ h₂
  have h₃ := h₂.takeCwd (p := p) hp₁
  apply wp_call h₃.iput_named_spec
  rintro _ s₄ ⟨A₄, h₄, hA₄⟩
  apply wp_call h₄.endOp_spec
  intro _ s₅ h₅
  apply wp_bind
  apply wp_bind
  apply wp_get
  refine wp_mono (h₅.setProc_spec (p := p) (w := { s₅.proc p with cwd := none })) ?_ fun _ => id
  intro _ s₆ h₆
  refine wp_pure ⟨_, A₄, ?_, h₆, fun hl _ => hA₄ hl (hA₁ hl (h.named hl))⟩
  exact hT₁.operation.setProc (w := { s₅.proc p with cwd := none }) rfl rfl rfl rfl rfl

/-- Every call, with every argument. -/
theorem run_spec {a : Call} (h : Ready c T A s) (hp : T.cwd p = some cwd) :
    wp (a.run p cwd) (fun _ => Returned c T) c.Allows s := by
  cases a with
  | dup fd => exact h.sysDup_spec
  | read fd n => exact h.sysRead_spec
  | write fd src => exact h.sysWrite_spec
  | close fd => exact h.sysClose_spec
  | fstat fd st => exact h.sysFstat_spec
  | link old new => exact h.sysLink_spec hp
  | unlink path => exact h.sysUnlink_spec hp
  | «open» path omode => exact h.sysOpen_spec hp
  | mkdir path => exact h.sysMake_spec hp nofun
  | mknod path major minor => exact h.sysMake_spec hp nofun
  | chdir path => exact h.sysChdir_spec hp
  | pipe fds page => exact h.sysPipe_spec
  | exec path mem => exact h.exec_spec hp
  | fork q copied => exact h.fork_spec hp
  | exit => exact h.exit_spec hp

end Ready

end Xv6.Inodes
