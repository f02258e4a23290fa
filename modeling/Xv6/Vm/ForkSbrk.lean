import Xv6.Vm.Accounting

/-!
# `fork` beside `sbrk`

`fork` reads `curproc->sz`, copies the pages below it one by one, and reads
`curproc->sz` again for the child. It does not take the lock of `growproc`, so a sibling
can change the size between any two of these steps. A page that is gone then is a panic
in `copyuvm`; a page that was added is missing in the child. Neither happens if no
`growproc` runs between the two reads.
-/

namespace Xv6.Vm.ForkSbrk

open Xv6.Lib PanicM System

/-- Where `fork` is. -/
inductive Pc where
  | idle
  | called (sz : ℕ)
  | copying (sz d i : ℕ)
  | fetched (sz d i w : ℕ)
  | copied (d : ℕ)
  | forked (d sz : ℕ)
  | failed
  | panicked (e : Panic)
deriving DecidableEq, Repr

def Pc.InFork : Pc → Prop
  | .called _ | .copying _ _ _ | .fetched _ _ _ _ | .copied _ => True
  | _ => False

instance (pc : Pc) : Decidable pc.InFork :=
  match pc with
  | .called _ | .copying _ _ _ | .fetched _ _ _ _ | .copied _ => isTrue trivial
  | .idle | .forked _ _ | .failed | .panicked _ => isFalse id

/-- `sizes` are those of the parent from the first read of the last `fork` on, while it
was in progress. -/
structure State where
  vm : Vm.State
  pc : Pc
  sizes : List ℕ

inductive Act where
  | fork
  | setupkvm
  | fetch
  | store
  | setSize
  | growproc (n : ℤ)
  | kalloc
  | kfree (f : ℕ)
deriving DecidableEq, Repr

/-- Run a part of `fork`. -/
def State.run {α : Type} (s : State) (x : VmM α) (k : State → α → State) : State :=
  match x s.vm.phys with
  | .ok (a, m) => k { s with vm := { s.vm with phys := m } } a
  | .error e => { s with pc := .panicked e }

def State.size (s : State) (d : ℕ) (sz : Option ℕ) (pc : Pc) : State :=
  { s with vm := s.vm.setSize d sz, pc := pc }

/-- A process with the directory `D`: one thread in `fork`, others in `growproc`. -/
def State.step (ks : List Kmap) (D : ℕ) (s : State) : Act → Option State
  | .fork =>
      match s.pc, s.vm.size D with
      | .idle, some sz | .forked _ _, some sz | .failed, some sz =>
          some { s with pc := .called sz, sizes := [sz] }
      | _, _ => none
  | .setupkvm =>
      match s.pc with
      | .called sz =>
          some (s.run (Vm.setupkvm ks) fun s r =>
            match r with
            | none => { s with pc := .failed }
            | some d => s.size d (some 0) (.copying sz d 0))
      | _ => none
  | .fetch =>
      match s.pc with
      | .copying sz d i =>
          if i * pgSize < sz then
            some (s.run (copyFetch D (i * pgSize)) fun s w => { s with pc := .fetched sz d i w })
          else some { s with pc := .copied d }
      | _ => none
  | .store =>
      match s.pc with
      | .fetched sz d i w =>
          some (s.run (copyStore d (i * pgSize) w) fun s b =>
            if b then s.size d (some ((i + 1) * pgSize)) (.copying sz d (i + 1))
            else s.run (freevm d) fun s _ => s.size d none .failed)
      | _ => none
  | .setSize =>
      -- np->sz = curproc->sz
      match s.pc, s.vm.size D with
      | .copied d, some sz => some (s.size d (some sz) (.forked d sz))
      | _, _ => none
  | .growproc n =>
      (s.vm.step ks (.growproc D n)).map fun vm =>
        { s with
          vm := vm
          sizes := if s.pc.InFork then (vm.size D).toList ++ s.sizes else s.sizes }
  | .kalloc => (s.vm.step ks .kalloc).map fun vm => { s with vm := vm }
  | .kfree f => (s.vm.step ks (.kfree f)).map fun vm => { s with vm := vm }

def forkSystem (ks : List Kmap) (D : ℕ) : System State Act where
  init s := (∃ o, Balanced s.vm o) ∧ (s.vm.size D).isSome ∧ s.pc = .idle
  step := State.step ks D

variable {ks : List Kmap} {D d i w sz n : ℕ} {s s' : State} {a : Act} {pc : Pc}

/-! ## §1  The invariant -/

/-- No `growproc` runs between the reads of `fork`, and none shrinks to nothing. -/
def apart (D : ℕ) (s : State) : Act → Prop
  | .growproc n => (s.pc.InFork → n = 0) ∧ keepsSome s.vm (.growproc D n)
  | _ => True

/-- The child being built: its pages below `i`. -/
structure Building (D sz d i : ℕ) (s : State) : Prop where
  parent : s.vm.size D = some sz
  child : s.vm.size d = some (i * pgSize)
  ne : d ≠ D
  le : i ≤ pages sz
  sizes : sz ∈ s.sizes

def PcInv (D : ℕ) (s : State) : Prop :=
  match s.pc with
  | .idle | .failed => True
  | .called sz => s.vm.size D = some sz ∧ sz ∈ s.sizes
  | .copying sz d i => Building D sz d i s
  | .fetched sz d i _ => Building D sz d i s ∧ i < pages sz
  | .copied d => ∃ sz, Building D sz d (pages sz) s
  | .forked d sz => s.vm.size d = some sz ∧ d ≠ D ∧ sz ∈ s.sizes
  | .panicked _ => False

structure Inv (D : ℕ) (s : State) : Prop where
  balanced : ∃ o, Balanced s.vm o
  live : (s.vm.size D).isSome
  pc : PcInv D s

theorem run_spec {α : Type} {x : VmM α} {k : State → α → State} {Q : α → Phys → Prop}
    (h : wp x Q noPanic s.vm.phys) :
    ∃ a m, Q a m ∧ s.run x k = k { s with vm := { s.vm with phys := m } } a := by
  obtain ⟨a, m, hx, hQ⟩ := exists_of_wp h
  refine ⟨a, m, hQ, ?_⟩
  unfold State.run
  rw [hx]

theorem run_error {α : Type} {x : VmM α} {k : State → α → State} {e : Panic}
    (h : x s.vm.phys = .error e) : s.run x k = { s with pc := .panicked e } := by
  unfold State.run
  rw [h]

theorem Building.setPc (h : Building D sz d i s) : Building D sz d i { s with pc := pc } :=
  ⟨h.parent, h.child, h.ne, h.le, h.sizes⟩

theorem pages_page : pages (i * pgSize) = i := by
  unfold pages pgSize
  omega

/-! ## §2  The steps of `fork` -/

/-- The pages of the child after one more page is copied, or not. -/
theorem sized_store {m : Phys} {o o' : ℕ → Owner} {b : Bool}
    (hs : Sized s.vm.phys d (i * pgSize))
    (h : Effect d (· = i) s.vm.phys o m o') (hp : Present (m.entry d i) ↔ b = true) :
    Sized m d (if b then (i + 1) * pgSize else i * pgSize) := by
  intro u hu
  have hpages : pages (if b then (i + 1) * pgSize else i * pgSize) = if b then i + 1 else i := by
    split <;> exact pages_page
  rw [hpages]
  by_cases hne : u = i
  · subst hne
    rw [hp]
    cases b with
    | true => exact iff_of_true rfl (Nat.lt_succ_self u)
    | false => exact iff_of_false (by simp) (lt_irrefl u)
  · rw [h.entry u (lt_of_lt_of_le hu userPages_le) hne, hs u hu, pages_page]
    split <;> omega

section Steps

variable {o : ℕ → Owner} (hb : Balanced s.vm o)
include hb

/-- A new directory is not a live one. -/
theorem fresh_ne {S : ℕ → Prop} {m : Phys} {o' : ℕ → Owner} (hf : Fresh d S s.vm.phys o m o')
    (hsz : s.vm.size D = some sz) : d ≠ D := by
  rintro rfl
  exact nomatch (hb.dir_of hsz).symm.trans hf.free

theorem inv_setupkvm {k : ℕ} (hks : Ascending userPages ks k) (hsz : s.vm.size D = some sz)
    (hsizes : sz ∈ s.sizes) :
    Inv D (s.run (Vm.setupkvm ks) fun s r =>
      match r with
      | none => { s with pc := .failed }
      | some d => s.size d (some 0) (.copying sz d 0)) := by
  obtain ⟨r, m, hr, he⟩ := run_spec (setupkvm_spec hks hb.acct hb.idle)
  rw [he]
  cases r with
  | none => exact ⟨⟨o, hb.same hr.1.1 hr.1.2⟩, by rw [hsz]; rfl, trivial⟩
  | some d =>
      obtain ⟨o', hf, _⟩ := hr
      have hne := fresh_ne hb hf hsz
      have hD : Function.update s.vm.size d (some 0) D = some sz := by
        rwa [Function.update_of_ne hne.symm]
      have hzero : ∀ u, False ↔ u < pages 0 := fun u => iff_of_false id (Nat.not_lt_zero u)
      refine ⟨⟨o', hb.fresh hf (Nat.zero_le _) hzero⟩, Option.isSome_of_eq_some hD, ?_⟩
      exact ⟨hD, by rw [Nat.zero_mul]; exact Function.update_self .., hne, Nat.zero_le _,
        hsizes⟩

theorem inv_fetch (hB : Building D sz d i s) :
    Inv D (if i * pgSize < sz then
        s.run (copyFetch D (i * pgSize)) fun s w => { s with pc := .fetched sz d i w }
      else { s with pc := .copied d }) := by
  have hlive : (s.vm.size D).isSome := Option.isSome_of_eq_some hB.parent
  split
  case isTrue hlt =>
    have hi := lt_pages_iff.mpr hlt
    have hiu := lt_of_lt_of_le hi (pages_le_userPages (hb.le hB.parent))
    obtain ⟨w, m, ⟨_, rfl⟩, he⟩ := run_spec (copyFetch_spec hb.acct (hb.dir_of hB.parent) hiu
      ((hb.sized hB.parent i hiu).mpr hi))
    rw [he]
    exact ⟨⟨o, hb⟩, hlive, hB.setPc, hi⟩
  case isFalse hlt =>
    have hi : i = pages sz := by
      have := hB.le
      rw [← lt_pages_iff] at hlt
      omega
    exact ⟨⟨o, hb⟩, hlive, sz, hi ▸ hB.setPc⟩

theorem inv_freevm (hB : Building D sz d i s) :
    Inv D (s.run (freevm d) fun s _ => s.size d none .failed) := by
  have hd := hb.dir_of hB.child
  obtain ⟨_, m, ⟨o', h, hgone⟩, he⟩ :=
    run_spec (freevm_spec hb.acct hd fun g => hb.idle g d)
  rw [he]
  refine ⟨⟨o', hb.update h (.inl hd) hgone.dir (fun g hg => hgone.none g ?_) nofun⟩, ?_,
    trivial⟩
  · rw [hg]
    exact rfl
  · show (Function.update s.vm.size d none D).isSome
    rw [Function.update_of_ne hB.ne.symm, hB.parent]
    rfl

theorem inv_store (hB : Building D sz d i s) (hi : i < pages sz) :
    Inv D (s.run (copyStore d (i * pgSize) w) fun s b =>
      if b then s.size d (some ((i + 1) * pgSize)) (.copying sz d (i + 1))
      else s.run (freevm d) fun s _ => s.size d none .failed) := by
  have hk := hb.le hB.parent
  have hiu := lt_of_lt_of_le hi (pages_le_userPages hk)
  have hd := hb.dir_of hB.child
  have hs := hb.sized hB.child
  obtain ⟨b, m, ⟨o', h, hp, _⟩, he⟩ := run_spec (k := fun s b =>
    if b then s.size d (some ((i + 1) * pgSize)) (.copying sz d (i + 1))
    else s.run (freevm d) fun s _ => s.size d none .failed)
    (copyStore_spec (w := w) hb.acct hd hiu fun hp => by
      have := (hs i hiu).mp hp
      rw [pages_page] at this
      exact lt_irrefl i this)
  have hsized := sized_store hs h hp
  rw [he]
  cases b with
  | true =>
      have hle : (i + 1) * pgSize ≤ kernBase := by
        unfold userPages kernBase pgSize at *
        omega
      have hD : Function.update s.vm.size d (some ((i + 1) * pgSize)) D = some sz := by
        rw [Function.update_of_ne hB.ne.symm]
        exact hB.parent
      refine ⟨⟨o', hb.effect hd h hle hsized⟩, Option.isSome_of_eq_some hD, ?_⟩
      exact ⟨hD, Function.update_self .., hB.ne, hi, hB.sizes⟩
  | false =>
      have hb' := hb.effect hd h (hb.le hB.child) hsized
      rw [setSize_self hB.child] at hb'
      exact inv_freevm hb' ⟨hB.parent, hB.child, hB.ne, hB.le, hB.sizes⟩

theorem inv_setSize (hB : Building D sz d (pages sz) s) :
    Inv D (s.size d (some sz) (.forked d sz)) := by
  have hd := hb.dir_of hB.child
  have hD : Function.update s.vm.size d (some sz) D = some sz := by
    rw [Function.update_of_ne hB.ne.symm]
    exact hB.parent
  refine ⟨⟨o, ?_⟩, Option.isSome_of_eq_some hD, Function.update_self .., hB.ne, ?_⟩
  · exact hb.effect hd (.refl (S := fun _ => False) hb.acct hd) (hb.le hB.parent)
      ((hb.sized hB.child).congr pages_page.symm)
  · exact hB.sizes

end Steps

/-! ## §3  The other threads -/

section Others

variable {vm : Vm.State} {l : List ℕ}

/-- The sizes of the directories are kept, and with them what is known of `fork`. -/
theorem PcInv.congr (h : PcInv D s) (hsize : ∀ d, vm.size d = s.vm.size d)
    (hl : ∀ x ∈ s.sizes, x ∈ l) : PcInv D { s with vm := vm, sizes := l } := by
  have hB {sz d i : ℕ} (h : Building D sz d i s) :
      Building D sz d i { s with vm := vm, sizes := l } :=
    ⟨(hsize D).trans h.parent, (hsize d).trans h.child, h.ne, h.le, hl _ h.sizes⟩
  unfold PcInv at h ⊢
  dsimp only
  split <;> rename_i hpc <;> rw [hpc] at h
  · trivial
  · trivial
  · exact ⟨(hsize D).trans h.1, hl _ h.2⟩
  · exact hB h
  · exact ⟨hB h.1, h.2⟩
  · obtain ⟨sz, h⟩ := h
    exact ⟨sz, hB h⟩
  · exact ⟨(hsize _).trans h.1, h.2.1, hl _ h.2.2⟩
  · exact h

/-- The size of the parent changes while no `fork` is in progress. -/
theorem PcInv.of_not_inFork (h : PcInv D s) (hn : ¬ s.pc.InFork)
    (hsize : ∀ d, d ≠ D → vm.size d = s.vm.size d) : PcInv D { s with vm := vm } := by
  unfold PcInv at h ⊢
  dsimp only
  split <;> rename_i hpc <;> rw [hpc] at h
  · trivial
  · trivial
  · exact absurd (by rw [hpc]; trivial) hn
  · exact absurd (by rw [hpc]; trivial) hn
  · exact absurd (by rw [hpc]; trivial) hn
  · exact absurd (by rw [hpc]; trivial) hn
  · exact ⟨(hsize _ h.2.1).trans h.1, h.2⟩
  · exact h

end Others

/-- `growproc` changes the size of its directory alone, and `growproc(0)` none. -/
theorem size_of_growproc {vm vm' : Vm.State} {n : ℤ}
    (h : vm.step ks (.growproc D n) = some vm') :
    (vm'.size D).isSome ∧ (∀ d, d ≠ D → vm'.size d = vm.size d) ∧
      (n = 0 → ∀ d, vm'.size d = vm.size d) := by
  obtain ⟨sz, hsz, hs⟩ := Option.bind_eq_some_iff.mp h
  change vm.size D = some sz at hsz
  simp only [State.call] at hs
  split at hs
  case isFalse => cases hs
  case isTrue =>
    unfold Vm.State.run at hs
    split at hs
    case h_2 => cases hs
    case h_1 r m hx =>
      cases hs
      cases r with
      | none => exact ⟨Option.isSome_of_eq_some hsz, fun _ _ => rfl, fun _ _ => rfl⟩
      | some new =>
          refine ⟨?_, fun d hd => Function.update_of_ne hd .., ?_⟩
          · show (Function.update vm.size D (some new) D).isSome
            rw [Function.update_self]
            rfl
          · rintro rfl d
            cases hx
            show Function.update vm.size D (some sz) d = _
            rw [← hsz, Function.update_eq_self]

theorem inv_step {k : ℕ} (hks : Ascending userPages ks k) (hi : Inv D s) (hg : apart D s a)
    (hs : s.step ks D a = some s') : Inv D s' := by
  obtain ⟨⟨o, hb⟩, hlive, hpc⟩ := hi
  cases a with
  | fork =>
      simp only [State.step] at hs
      split at hs <;> cases hs
      all_goals
        rename_i sz _ hsz
        exact ⟨⟨o, hb⟩, hlive, hsz, List.mem_singleton.mpr rfl⟩
  | setupkvm =>
      simp only [State.step] at hs
      split at hs <;> cases hs
      rename_i sz hcalled
      unfold PcInv at hpc
      rw [hcalled] at hpc
      exact inv_setupkvm hb hks hpc.1 hpc.2
  | fetch =>
      simp only [State.step] at hs
      split at hs
      case h_2 => cases hs
      case h_1 sz d i hcopy =>
        unfold PcInv at hpc
        rw [hcopy] at hpc
        have := inv_fetch hb hpc
        split at hs <;> rename_i hlt
        · rw [if_pos hlt] at this
          cases hs
          exact this
        · rw [if_neg hlt] at this
          cases hs
          exact this
  | store =>
      simp only [State.step] at hs
      split at hs <;> cases hs
      rename_i sz d i w hfetched
      unfold PcInv at hpc
      rw [hfetched] at hpc
      exact inv_store hb hpc.1 hpc.2
  | setSize =>
      simp only [State.step] at hs
      split at hs <;> cases hs
      rename_i d sz hcopied hsz
      unfold PcInv at hpc
      rw [hcopied] at hpc
      obtain ⟨sz', hB⟩ := hpc
      obtain rfl : sz' = sz := Option.some.inj (hB.parent.symm.trans hsz)
      exact inv_setSize hb hB
  | growproc n =>
      obtain ⟨vm, hvm, rfl⟩ := Option.map_eq_some_iff.mp hs
      obtain ⟨hlive', hother, hzero⟩ := size_of_growproc hvm
      refine ⟨balanced_step hks hb hg.2 hvm, hlive', ?_⟩
      by_cases hin : s.pc.InFork
      · apply hpc.congr (hzero (hg.1 hin))
        rw [if_pos hin]
        exact fun x hx => List.mem_append_right _ hx
      · rw [if_neg hin]
        exact hpc.of_not_inFork hin hother
  | kalloc =>
      obtain ⟨vm, hvm, rfl⟩ := Option.map_eq_some_iff.mp hs
      refine ⟨balanced_kalloc hb hvm, ?_, hpc.congr (fun d => size_of_kalloc hvm) fun _ => id⟩
      show (vm.size D).isSome
      rw [size_of_kalloc hvm]
      exact hlive
  | kfree f =>
      obtain ⟨vm, hvm, rfl⟩ := Option.map_eq_some_iff.mp hs
      refine ⟨balanced_kfree hb hvm, ?_, hpc.congr (fun d => size_of_kfree hvm) fun _ => id⟩
      show (vm.size D).isSome
      rw [size_of_kfree hvm]
      exact hlive

/-! ## §4  Results -/

theorem inv_of_reach {k : ℕ} (hks : Ascending userPages ks k)
    (h : (forkSystem ks D).Reach (apart D) s) : Inv D s := by
  apply h.invariant (I := Inv D)
  · rintro s ⟨hb, hlive, hpc⟩
    refine ⟨hb, hlive, ?_⟩
    unfold PcInv
    rw [hpc]
    trivial
  · intro s a s' hi hg hs
    exact inv_step hks hi hg hs

/-- If no `growproc` runs between the reads of `fork`, `copyuvm` does not panic, and a child
has the size the parent had then, with every page mapped. -/
theorem fork_copies {data : ℕ} (hdata : DataAt data)
    (h : (forkSystem (kmap data) D).Reach (apart D) s) :
    (∀ e, s.pc ≠ .panicked e) ∧
    ∀ d sz, s.pc = .forked d sz → s.vm.size d = some sz ∧ sz ∈ s.sizes ∧
      ∀ v, v * pgSize < sz → Present (s.vm.phys.entry d v) := by
  obtain ⟨k, _, hks⟩ := kmap_ascending hdata
  obtain ⟨⟨o, hb⟩, _, hpc⟩ := inv_of_reach hks h
  unfold PcInv at hpc
  refine ⟨fun e he => ?_, fun d sz he => ?_⟩
  · rw [he] at hpc
    exact hpc
  · rw [he] at hpc
    refine ⟨hpc.1, hpc.2.2, fun v hv => ?_⟩
    have hlt := lt_pages_iff.mpr hv
    exact (hb.sized hpc.1 v (lt_of_lt_of_le hlt (pages_le_userPages (hb.le hpc.1)))).mpr hlt

/-! ### A process of two pages -/

/-- Before `fork`, with two pages and 200 free ones. -/
def twoPages : State := ⟨small 2 200, .idle, []⟩

theorem twoPages_init : (forkSystem ks 1024).init twoPages :=
  ⟨⟨_, small_balanced (by decide) (by decide)⟩, rfl, rfl⟩

section Runs

variable {G : State → Act → Prop} (h : (forkSystem ks D).Reach G s)
include h

theorem reach_fetch (hg : G s .fetch) (hpc : s.pc = .copying sz d i) (hlt : i * pgSize < sz) :
    (forkSystem ks D).Reach G
      (s.run (copyFetch D (i * pgSize)) fun s w => { s with pc := .fetched sz d i w }) := by
  apply h.step hg
  show s.step ks D .fetch = _
  simp only [State.step, hpc, if_pos hlt]

theorem reach_store (hg : G s .store) (hpc : s.pc = .fetched sz d i w) :
    (forkSystem ks D).Reach G
      (s.run (copyStore d (i * pgSize) w) fun s b =>
        if b then s.size d (some ((i + 1) * pgSize)) (.copying sz d (i + 1))
        else s.run (freevm d) fun s _ => s.size d none .failed) := by
  apply h.step hg
  show s.step ks D .store = _
  simp only [State.step, hpc]

theorem reach_growproc {n : ℤ} {new : ℕ} {m : Phys} (hg : G s (.growproc n))
    (hsz : s.vm.size D = some sz) (hn : IsInt n)
    (hx : growproc D sz n s.vm.phys = .ok (some new, m)) :
    ∃ l, (forkSystem ks D).Reach G
      { s with vm := { s.vm with phys := m }.setSize D (some new), sizes := l } := by
  have hvm : s.vm.step ks (.growproc D n) =
      some ({ s.vm with phys := m }.setSize D (some new)) := by
    show ((s.vm.size D).bind fun sz => s.vm.call ks sz (.growproc D n)) = _
    simp only [hsz, Option.bind_some, Vm.State.call, if_pos hn, Vm.State.run, hx]
  refine ⟨if s.pc.InFork then (({ s.vm with phys := m }.setSize D (some new)).size D).toList ++
    s.sizes else s.sizes, h.step hg ?_⟩
  show (s.vm.step ks (.growproc D n)).map _ = _
  rw [hvm]
  rfl

end Runs

/-- `fork` has its directory, and there is memory left. -/
theorem setup_reach : ∃ s d, (forkSystem (kmap 0x80108000) 1024).Reach (apart 1024) s ∧
    s.pc = .copying 8192 d 0 ∧ 2 ≤ s.vm.phys.free.length := by
  obtain ⟨k, hk, hks⟩ := kmap_ascending dataAt_link
  have hb := small_balanced (k := 2) (n := 200) (by decide) (by decide)
  let s₁ : State := { twoPages with pc := .called 8192, sizes := [8192] }
  have hlen : s₁.vm.phys.free.length = 200 := List.length_range'
  have h₁ : (forkSystem (kmap 0x80108000) 1024).Reach (apart 1024) s₁ :=
    .step (a := .fork) (.init twoPages_init) trivial rfl
  have h₂ := h₁.step (a := Act.setupkvm) trivial rfl
  obtain ⟨r, m, hr, he⟩ := run_spec (s := s₁) (k := fun s r =>
    match r with
    | none => { s with pc := .failed }
    | some d => s.size d (some 0) (.copying 8192 d 0)) (setupkvm_spec hks hb.acct hb.idle)
  rw [he] at h₂
  cases r with
  | none =>
      have := hr.2
      omega
  | some d =>
      obtain ⟨_, _, hcost, _⟩ := hr
      have := hcost (by omega)
      exact ⟨_, d, h₂, rfl, show 2 ≤ m.free.length by omega⟩

/-- `fork` has copied the first page. -/
theorem copying_reach : ∃ s d, (forkSystem (kmap 0x80108000) 1024).Reach (apart 1024) s ∧
    s.pc = .copying 8192 d 1 := by
  obtain ⟨k, _, hks⟩ := kmap_ascending dataAt_link
  obtain ⟨s, d, h, hpc, hlen⟩ := setup_reach
  obtain ⟨⟨o, hb⟩, _, hB⟩ := inv_of_reach hks h
  unfold PcInv at hB
  rw [hpc] at hB
  have hD := hb.dir_of hB.parent
  have hp : Present (s.vm.phys.entry 1024 0) :=
    (hb.sized hB.parent 0 (by decide)).mpr (by decide)
  have h₁ := reach_fetch h trivial hpc (by decide)
  obtain ⟨w, m, ⟨_, rfl⟩, he⟩ := run_spec (k := fun s w => { s with pc := .fetched 8192 d 0 w })
    (copyFetch_spec hb.acct hD (by decide) hp)
  rw [he] at h₁
  have h₂ := reach_store h₁ trivial rfl
  have hn : ¬ Present (s.vm.phys.entry d 0) := by
    rw [hb.sized hB.child 0 (by decide), pages_page]
    exact lt_irrefl 0
  obtain ⟨b, m, ⟨_, _, _, hb', _⟩, he⟩ := run_spec (s := { s with pc := .fetched 8192 d 0 w })
    (k := fun s b =>
      if b then s.size d (some ((0 + 1) * pgSize)) (.copying 8192 d (0 + 1))
      else s.run (freevm d) fun s _ => s.size d none .failed)
    (copyStore_spec (w := w) hb.acct (hb.dir_of hB.child) (by decide) hn)
  rw [hb' hlen] at he
  exact ⟨_, d, he ▸ h₂, rfl⟩

theorem fork_copies_first : ∃ (s : State) (d : ℕ), s.pc = Pc.copying 8192 d 1 ∧
    ∀ e, s.pc ≠ .panicked e := by
  obtain ⟨s, d, h, hpc⟩ := copying_reach
  exact ⟨s, d, hpc, (fork_copies dataAt_link h).1⟩

/-- A page that is gone, in a table that is there. -/
theorem copyFetch_gone {o : ℕ → Owner} {m : Phys} {v : ℕ} (ha : Acct m o) (hD : o D = .dir)
    (hv : v < userPages) (ht : Present (m.mem D (v / nEntries)))
    (hn : ¬ Present (m.entry D v)) : copyFetch D (v * pgSize) m = .error .pageNotPresent := by
  have h : wp (copyFetch D (v * pgSize)) (fun _ _ => False) (· = .pageNotPresent) m := by
    unfold copyFetch
    apply wp_call (wp_mono (walkpgdir_find ha hD (lt_of_lt_of_le hv userPages_le))
      (fun _ _ => id) nofun)
    rintro r m₁ ⟨rfl, hr⟩
    rcases r with _ | ⟨t, j⟩
    · exact absurd ht hr
    · obtain ⟨ht, rfl⟩ := hr
      apply wp_bind
      apply wp_load
      rw [← ha.entry_eq ht, if_neg hn]
      exact wp_throw rfl
  cases hx : copyFetch D (v * pgSize) m with
  | error e => rw [wp_error h hx]
  | ok p => exact (wp_ok h hx).elim

/-- A sibling calls `sbrk(-4096)` after `fork` has copied the first of two pages. -/
theorem fork_panics : ∃ s, (forkSystem (kmap 0x80108000) 1024).Reach anyStep s ∧
    s.pc = .panicked .pageNotPresent := by
  obtain ⟨k, _, hks⟩ := kmap_ascending dataAt_link
  obtain ⟨s, d, h, hpc⟩ := copying_reach
  obtain ⟨⟨o, hb⟩, _, hB⟩ := inv_of_reach hks h
  unfold PcInv at hB
  rw [hpc] at hB
  have hD := hb.dir_of hB.parent
  -- the sibling
  obtain ⟨r, m, hx, rfl, o', h'⟩ := exists_of_wp
    (deallocuvm_spec hb.acct hD (hb.le hB.parent) : wp (deallocuvm 1024 8192 4096) _ _ _)
  have hgrow : growproc 1024 8192 (-4096) s.vm.phys = .ok (some 4096, m) := by
    show (deallocuvm 1024 8192 4096 >>= fun r => pure (if r = 0 then none else some r)) s.vm.phys
      = _
    show (deallocuvm 1024 8192 4096 s.vm.phys >>= _) = _
    rw [hx]
    rfl
  obtain ⟨l, h₁⟩ := reach_growproc (h.mono fun _ _ _ => trivial) (G := anyStep) trivial
    hB.parent (by decide) hgrow
  have hs : Sized m 1024 4096 := h'.sized (hb.sized hB.parent)
  have hp : Present (m.entry 1024 0) := (hs 0 (by decide)).mpr (by decide)
  have ht : Present (m.mem 1024 (1 / nEntries)) := by
    by_contra hn
    rw [Phys.entry_of_not_present (v := 0) hn] at hp
    exact not_present_zero hp
  have hn : ¬ Present (m.entry 1024 1) := by
    rw [hs 1 (by decide)]
    decide
  have h₂ := reach_fetch h₁ trivial hpc (by decide)
  refine ⟨_, h₂, congrArg State.pc (run_error ?_)⟩
  exact copyFetch_gone h'.acct h'.dir (by decide) ht hn

end Xv6.Vm.ForkSbrk
