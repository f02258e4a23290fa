import Xv6.Lib.Transition
import Xv6.Vm.Uvm

/-!
# The directories of all processes

The calls that the kernel makes on page directories, in any order: `setupkvm`,
`allocuvm`, `deallocuvm`, `clearpteu`, `copyuvm`, `freevm`, and `growproc`. Between
them the rest of the kernel takes pages and gives them back, so a call can run out of
memory at any of its allocations.

`Balanced`: every page has one owner, no call is in progress, and the pages present
in a live directory are those of its size.
-/

namespace Xv6.Vm

open Xv6.Lib PanicM

/-! ## §1  The system -/

/-- Memory, the size of each live directory, and the pages the rest of the kernel has
taken. -/
structure State where
  phys : Phys
  size : ℕ → Option ℕ
  taken : List ℕ

/-- `sz + n` as a `uint`. -/
def addInt (sz : ℕ) (n : ℤ) : ℕ := ((sz + n) % 2 ^ 32).toNat

/-- The locked section of `growproc`: `none` is the return value -1, `some sz` is 0 with
the new `curproc->sz`. -/
def growproc (pgdir sz : ℕ) (n : ℤ) : VmM (Option ℕ) :=
  if 0 < n then do
    let r ← allocuvm pgdir sz (addInt sz n)
    return if r = 0 then none else some r
  else if n < 0 then do
    let r ← deallocuvm pgdir sz (addInt sz n)
    return if r = 0 then none else some r
  else return some sz

/-- The values of an `int`. -/
def IsInt (n : ℤ) : Prop := -2 ^ 31 ≤ n ∧ n < 2 ^ 31

instance (n : ℤ) : Decidable (IsInt n) := inferInstanceAs (Decidable (_ ∧ _))

inductive Call where
  | setupkvm
  | allocuvm (D oldsz newsz : ℕ)
  | deallocuvm (D newsz : ℕ)
  | clearpteu (D uva : ℕ)
  | copyuvm (D : ℕ)
  | freevm (D : ℕ)
  | growproc (D : ℕ) (n : ℤ)
  | kalloc
  | kfree (f : ℕ)
deriving DecidableEq, Repr

def State.setSize (s : State) (D : ℕ) (sz : Option ℕ) : State :=
  { s with size := Function.update s.size D sz }

/-- Run a call; there is no step if it panics. -/
def State.run {α : Type} (s : State) (x : VmM α) (k : State → α → State) : Option State :=
  match x s.phys with
  | .ok (a, m) => some (k { s with phys := m } a)
  | .error _ => none

/-- A call on a directory whose size is `sz`. -/
def State.call (ks : List Kmap) (s : State) (sz : ℕ) : Call → Option State
  | .allocuvm D oldsz newsz =>
      -- `exec` rounds the size up before it adds the stack
      if oldsz = sz ∨ oldsz = pgRoundUp sz then
        s.run (Vm.allocuvm D oldsz newsz) fun s r =>
          if r = 0 then s else s.setSize D (some r)
      else none
  | .deallocuvm D newsz =>
      s.run (Vm.deallocuvm D sz newsz) fun s r => s.setSize D (some r)
  | .clearpteu D uva =>
      if uva < kernBase then s.run (Vm.clearpteu D uva) fun s _ => s else none
  | .copyuvm D =>
      s.run (Vm.copyuvm ks D sz) fun s r =>
        match r with
        | none => s
        | some d => s.setSize d (some sz)
  | .freevm D => s.run (Vm.freevm D) fun s _ => s.setSize D none
  | .growproc D n =>
      if IsInt n then
        s.run (Vm.growproc D sz n) fun s r =>
          match r with
          | none => s
          | some r => s.setSize D (some r)
      else none
  | _ => none

def Call.dir : Call → Option ℕ
  | .allocuvm D _ _ | .deallocuvm D _ | .clearpteu D _ | .copyuvm D | .freevm D
  | .growproc D _ => some D
  | _ => none

def State.step (ks : List Kmap) (s : State) : Call → Option State
  | .setupkvm =>
      s.run (Vm.setupkvm ks) fun s r =>
        match r with
        | none => s
        | some D => s.setSize D (some 0)
  | .kalloc =>
      s.run Vm.kalloc fun s r =>
        match r with
        | none => s
        | some f => { s with taken := f :: s.taken }
  | .kfree f =>
      if f ∈ s.taken then
        s.run (Vm.kfree f) fun s _ => { s with taken := s.taken.erase f }
      else none
  | c => (c.dir.bind s.size).bind fun sz => s.call ks sz c

variable {s s' : State} {ks : List Kmap} {o o' : ℕ → Owner} {m' : Phys}
  {D D' f g sz v : ℕ} {n : ℤ}

/-! ## §2  What holds between the calls -/

structure Balanced (s : State) (o : ℕ → Owner) : Prop where
  acct : Acct s.phys o
  idle : Idle o
  dir : ∀ {D}, o D = .dir ↔ (s.size D).isSome
  le : ∀ {D sz}, s.size D = some sz → sz ≤ kernBase
  sized : ∀ {D sz}, s.size D = some sz → Sized s.phys D sz
  taken : s.taken.Nodup
  other : ∀ {f}, f ∈ s.taken ↔ o f = .other

/-- The free list and the pages in use partition physical memory, and each live
directory has the pages of its size. -/
def vmSystem (ks : List Kmap) : System State Call where
  init s := ∃ o, Balanced s o
  step := State.step ks

theorem Balanced.dir_of (h : Balanced s o) (hD : s.size D = some sz) : o D = .dir :=
  h.dir.mpr (by rw [hD]; rfl)

theorem run_some {α : Type} {x : VmM α} {k : State → α → State} {Q : α → Phys → Prop}
    {P : Panic → Prop} (h : wp x Q P s.phys) (hs : s.run x k = some s') :
    ∃ a m, Q a m ∧ s' = k { s with phys := m } a := by
  unfold State.run at hs
  cases hx : x s.phys with
  | error e =>
      rw [hx] at hs
      cases hs
  | ok p =>
      rw [hx] at hs
      exact ⟨p.1, p.2, wp_ok h hx, (Option.some.inj hs).symm⟩

/-- Owners that a call on `D` does not touch are the same afterwards. -/
theorem Within.owner_iff {m : Phys} {x : Owner} (h : Within D m o m' o') (hf : f ≠ D)
    (hx : x ≠ .free) (hxD : ¬ x.Of D) : o' f = x ↔ o f = x := by
  by_cases hmine : o f = .free ∨ (o f).Of D
  · refine iff_of_false ?_ ?_
    · rintro rfl
      exact (h.mine f hf hmine).elim hx hxD
    · rintro rfl
      exact hmine.elim hx hxD
  · obtain ⟨hfree, hof⟩ := not_or.mp hmine
    rw [(h.frame f hf hfree hof).1]

/-- No call is in progress on a directory beside the new one. -/
theorem Fresh.not_held {S : ℕ → Prop} {m : Phys} {d : ℕ} (h : Fresh d S m o m' o')
    (hi : Idle o) (hne : D ≠ d) : o' g ≠ .held D := by
  intro hg
  by_cases hgd : g = d
  · rw [hgd, h.dir] at hg
    cases hg
  · exact hi g D ((h.owner_iff (x := .held D) hgd nofun hne).mp hg)

/-- A call on one directory: its new size, `none` if it is gone. -/
theorem Balanced.update {new : Option ℕ} (h : Balanced s o) (hw : Within D s.phys o m' o')
    (hD : o D = .dir ∨ o D = .free) (hD' : o' D = if new.isSome then .dir else .free)
    (hidle : ∀ g, o' g ≠ .held D)
    (hnew : ∀ sz, new = some sz → sz ≤ kernBase ∧ Sized m' D sz) :
    Balanced ({ s with phys := m' }.setSize D new) o' := by
  have hsize {D' : ℕ} (hne : D' ≠ D) :
      ({ s with phys := m' }.setSize D new).size D' = s.size D' :=
    Function.update_of_ne hne ..
  have hself : ({ s with phys := m' }.setSize D new).size D = new := Function.update_self ..
  refine ⟨hw.acct, fun g D' hg => ?_, fun {D'} => ?_, fun {D' sz} hsz => ?_,
    fun {D' sz} hsz => ?_, h.taken, fun {f} => ?_⟩
  · by_cases hDD : D' = D
    · subst hDD
      exact hidle g hg
    · by_cases hgD : g = D
      · subst hgD
        rw [hD'] at hg
        split at hg <;> cases hg
      · exact h.idle g D' ((hw.owner_iff (x := .held D') hgD nofun hDD).mp hg)
  · by_cases hDD : D' = D
    · subst hDD
      rw [hself, hD']
      cases new with
      | none => exact iff_of_false nofun nofun
      | some _ => exact iff_of_true rfl rfl
    · rw [hsize hDD, ← h.dir]
      exact hw.owner_iff hDD nofun id
  · by_cases hDD : D' = D
    · subst hDD
      exact (hnew sz (hself ▸ hsz)).1
    · exact h.le (hsize hDD ▸ hsz)
  · by_cases hDD : D' = D
    · subst hDD
      exact (hnew sz (hself ▸ hsz)).2
    · have hsz := hsize hDD ▸ hsz
      intro u hu
      show Present (m'.entry D' u) ↔ _
      rw [hw.entry_other h.acct (h.dir_of hsz) hDD hD (lt_of_lt_of_le hu userPages_le)]
      exact h.sized hsz u hu
  · show f ∈ s.taken ↔ _
    rw [h.other]
    by_cases hfD : f = D
    · subst hfD
      refine iff_of_false ?_ ?_
      · rcases hD with hD | hD <;> rw [hD] <;> nofun
      · rw [hD']
        split <;> nofun
    · exact (hw.owner_iff (x := .other) hfD nofun id).symm

/-- The owners are the same, and so are the pages that are not free. -/
theorem Balanced.same (h : Balanced s o) (ha : Acct m' o)
    (hm : ∀ g, o g ≠ .free → m'.mem g = s.phys.mem g) :
    Balanced { s with phys := m' } o := by
  refine ⟨ha, h.idle, h.dir, h.le, fun {D sz} hsz u hu => ?_, h.taken, h.other⟩
  show Present (m'.entry D u) ↔ _
  rw [h.acct.entry_congr (h.dir_of hsz) (lt_of_lt_of_le hu userPages_le)]
  · exact h.sized hsz u hu
  · intro g hg
    apply hm
    intro hfree
    rw [hfree] at hg
    cases hg

/-! ## §3  Sizes -/

theorem Unmapped.sized {m : Phys} {oldsz newsz : ℕ} (hs : Sized m D oldsz)
    (h : Unmapped D (fun u => pages newsz ≤ u ∧ u < pages oldsz) m o m' o') :
    Sized m' D (min oldsz newsz) := by
  intro u hu
  have hmin : u < pages (min oldsz newsz) ↔ u < pages oldsz ∧ u < pages newsz := by
    rw [lt_pages_iff, lt_pages_iff, lt_pages_iff, lt_min_iff]
  by_cases hS : pages newsz ≤ u ∧ u < pages oldsz
  · refine iff_of_false (h.gone u hu hS) ?_
    omega
  · rw [h.entry u (lt_of_lt_of_le hu userPages_le) hS, hs u hu]
    omega

theorem Effect.sized {m : Phys} {oldsz sz : ℕ} (h : Effect D (From (pages oldsz)) m o m' o')
    (hs : Sized m D oldsz) (hle : oldsz ≤ sz) (hadd : Added D (pages oldsz) (pages sz) m') :
    Sized m' D sz := by
  intro u hu
  have := pages_mono hle
  by_cases hlt : u < pages oldsz
  · rw [h.entry u (lt_of_lt_of_le hu userPages_le) fun h => absurd h.1 (by omega), hs u hu]
    omega
  · exact hadd.present u (by omega) hu

/-- The size that `allocuvm` returns, or the old one if it fails. -/
theorem Grown.sized {m : Phys} {oldsz newsz r : ℕ} (hr : Grown D oldsz newsz r m')
    (h : Effect D (From (pages oldsz)) m o m' o') (hs : Sized m D oldsz)
    (hle : oldsz ≤ newsz) : Sized m' D (if r = 0 then oldsz else r) := by
  rcases hr with ⟨rfl, hadd⟩ | ⟨rfl, _, hadd⟩
  · split
    case isTrue h0 =>
      have : oldsz = 0 := by omega
      subst this
      exact h.sized hs (Nat.le_refl _) (h0 ▸ hadd)
    case isFalse => exact h.sized hs hle hadd
  · rw [if_pos rfl]
    exact h.sized hs (Nat.le_refl _) hadd

theorem pages_pgRoundUp (sz : ℕ) : pages (pgRoundUp sz) = pages sz := by
  unfold pgRoundUp pages pgSize
  omega

theorem pgRoundUp_le (h : sz ≤ kernBase) : pgRoundUp sz ≤ kernBase := by
  unfold pgRoundUp pgSize kernBase at *
  omega

theorem Sized.congr {m : Phys} {sz' : ℕ} (h : Sized m D sz) (hp : pages sz' = pages sz) :
    Sized m D sz' := by
  intro u hu
  rw [hp]
  exact h u hu

/-! ## §4  `growproc` -/

/-- The process shrinks to nothing, or below. -/
def ToNothing (sz : ℕ) (n : ℤ) : Prop := n < 0 ∧ 0 < sz ∧ sz + n ≤ 0

instance (sz : ℕ) (n : ℤ) : Decidable (ToNothing sz n) := inferInstanceAs (Decidable (_ ∧ _))

theorem addInt_eq (h : 0 ≤ sz + n) (h' : sz + n < 2 ^ 32) : (addInt sz n : ℤ) = sz + n := by
  unfold addInt
  omega

/-- What `growproc(n)` leaves, from a directory of the size `sz`. -/
structure Resized (D sz : ℕ) (n : ℤ) (r : Option ℕ) (m : Phys) (o : ℕ → Owner) (m' : Phys)
    (o' : ℕ → Owner) : Prop where
  effect : ∃ S, Effect D S m o m' o' ∧ (r = none → ∀ u, S u → pages sz ≤ u)
  size : ∀ sz', r = some sz' → (sz' : ℤ) = sz + n
  le : r.getD sz ≤ kernBase
  sized : Sized m' D (r.getD sz)
  zero : ∀ u, pages sz ≤ u → u < pages (r.getD sz) →
    m'.mem (pteAddr (m'.entry D u)) = fun _ => 0

theorem Resized.of_failed {m : Phys} (hk : sz ≤ kernBase)
    (h : Effect D (From (pages sz)) m o m' o') (hs : Sized m' D sz) :
    Resized D sz n none m o m' o' :=
  ⟨⟨_, h, fun _ _ hu => hu.1⟩, nofun, hk, hs, fun _ hu hu' => absurd hu' (not_lt.mpr hu)⟩

/-- `growproc(n)` grows the process. -/
theorem Grown.resized {m : Phys} {r : ℕ} (hk : sz ≤ kernBase) (hpos : 0 < n)
    (hnew : (addInt sz n : ℤ) = sz + n) (h : Effect D (From (pages sz)) m o m' o')
    (hs : Sized m D sz) (hr : Grown D sz (addInt sz n) r m')
    (hlt : r = 0 ∨ addInt sz n < kernBase) :
    Resized D sz n (if r = 0 then none else some r) m o m' o' := by
  have hsized := hr.sized h hs (by omega)
  rcases hr with ⟨rfl, hadd⟩ | ⟨rfl, _, _⟩
  · have h0 : addInt sz n ≠ 0 := by omega
    rw [if_neg h0] at hsized ⊢
    refine ⟨⟨_, h, nofun⟩, ?_, le_of_lt (hlt.resolve_left h0), hsized, hadd.zero⟩
    rintro _ ⟨⟩
    exact hnew
  · rw [if_pos rfl] at hsized ⊢
    exact .of_failed hk h hsized

/-- `growproc(n)` shrinks the process; from the size 0 it fails. -/
theorem Unmapped.resized {m : Phys} (hk : sz ≤ kernBase) (hneg : n < 0)
    (hok : ¬ ToNothing sz n) (hs : Sized m D sz)
    (h : Unmapped D (fun u => pages (addInt sz n) ≤ u ∧ u < pages sz) m o m' o') :
    Resized D sz n (if min sz (addInt sz n) = 0 then none else some (min sz (addInt sz n)))
      m o m' o' := by
  have hsized := h.sized hs
  by_cases h0 : sz = 0
  · subst h0
    rw [Nat.zero_min] at hsized ⊢
    rw [if_pos rfl]
    exact .of_failed hk (h.toEffect.mono fun u hu => absurd hu.2 (Nat.not_lt_zero u)) hsized
  · have hpos : 0 < sz + n := by
      unfold ToNothing at hok
      omega
    have hk' := hk
    unfold kernBase at hk'
    have hnew : (addInt sz n : ℤ) = sz + n := addInt_eq (by omega) (by omega)
    have hmin : min sz (addInt sz n) = addInt sz n := min_eq_right (by omega)
    rw [hmin] at hsized ⊢
    rw [if_neg (by omega)]
    refine ⟨⟨_, h.toEffect, nofun⟩, ?_, ?_, hsized, fun u hu hu' => ?_⟩
    · rintro _ ⟨⟩
      exact hnew
    · show addInt sz n ≤ kernBase
      omega
    · have := pages_mono (show addInt sz n ≤ sz by omega)
      exact absurd (show u < pages (addInt sz n) from hu') (by omega)

theorem growproc_spec {m : Phys} (ha : Acct m o) (hD : o D = .dir) (hk : sz ≤ kernBase)
    (hs : Sized m D sz) (hn : IsInt n) (hok : ¬ ToNothing sz n) :
    wp (growproc D sz n) (fun r m' => ∃ o', Resized D sz n r m o m' o') noPanic m := by
  unfold growproc
  by_cases hpos : 0 < n
  · have hnew : (addInt sz n : ℤ) = sz + n := by
      have hk' := hk
      unfold kernBase at hk'
      exact addInt_eq (by omega) (by have := hn.2; omega)
    rw [if_pos hpos]
    apply wp_call (allocuvm_spec ha hD hs)
    rintro r m₁ ⟨o₁, h₁, hr⟩
    obtain ⟨hr, hlt⟩ : Grown D sz (addInt sz n) r m₁ ∧ (r = 0 ∨ addInt sz n < kernBase) := by
      rcases hr with ⟨h, _⟩ | ⟨h, _⟩ | ⟨_, h⟩
      · omega
      · omega
      · exact ⟨h.1, h.2.1⟩
    exact wp_pure ⟨o₁, hr.resized hk hpos hnew h₁ hs hlt⟩
  · rw [if_neg hpos]
    by_cases hneg : n < 0
    · rw [if_pos hneg]
      apply wp_call (deallocuvm_spec ha hD hk)
      rintro r m₁ ⟨rfl, o₁, h₁⟩
      exact wp_pure ⟨o₁, h₁.resized hk hneg hok hs⟩
    · obtain rfl : n = 0 := by omega
      rw [if_neg hneg]
      refine wp_pure ⟨o, ⟨fun _ => False, .refl ha hD, nofun⟩, ?_, hk, hs, ?_⟩
      · rintro sz' ⟨⟩
        omega
      · intro u hu hu'
        exact absurd hu' (not_lt.mpr hu)

/-! ## §5  The calls keep the balance -/

/-- `growproc` is not called to shrink a process to nothing. -/
def keepsSome (s : State) : Call → Prop
  | .growproc D n => ∀ sz, s.size D = some sz → ¬ ToNothing sz n
  | _ => True

theorem Balanced.effect {S : ℕ → Prop} (h : Balanced s o) (hD : o D = .dir)
    (he : Effect D S s.phys o m' o') (hk : sz ≤ kernBase) (hs : Sized m' D sz) :
    Balanced ({ s with phys := m' }.setSize D (some sz)) o' := by
  refine h.update he.toWithin (.inl hD) ?_ ?_ ?_
  · exact he.dir
  · exact fun g hg => h.idle g D (he.held g hg)
  · rintro _ ⟨⟩
    exact ⟨hk, hs⟩

/-- The size that is set is the one there was. -/
theorem setSize_self (hsz : s.size D = some sz) :
    { s with phys := m' }.setSize D (some sz) = { s with phys := m' } := by
  unfold State.setSize
  dsimp only
  rw [← hsz, Function.update_eq_self]

theorem Balanced.fresh {S : ℕ → Prop} {d : ℕ} (h : Balanced s o) (hf : Fresh d S s.phys o m' o')
    (hk : sz ≤ kernBase) (hS : ∀ u, S u ↔ u < pages sz) :
    Balanced ({ s with phys := m' }.setSize d (some sz)) o' := by
  refine h.update hf.toWithin (.inr hf.free) ?_ hf.idle ?_
  · exact hf.dir
  · rintro _ ⟨⟩
    refine ⟨hk, fun u hu => ?_⟩
    rw [hf.present u hu, hS]

section Calls

variable {k : ℕ} (hb : Balanced s o) (hks : Ascending userPages ks k)
include hb

theorem balanced_allocuvm {oldsz newsz : ℕ} (hsz : s.size D = some sz)
    (hs : s.call ks sz (.allocuvm D oldsz newsz) = some s') : ∃ o', Balanced s' o' := by
  have hD := hb.dir_of hsz
  have hk := hb.le hsz
  simp only [State.call] at hs
  split at hs
  case isFalse => cases hs
  case isTrue hold =>
    have hp : pages oldsz = pages sz := by
      rcases hold with rfl | rfl
      · rfl
      · exact pages_pgRoundUp sz
    have hkold : oldsz ≤ kernBase := by
      rcases hold with rfl | rfl
      · exact hk
      · exact pgRoundUp_le hk
    have hold := (hb.sized hsz).congr hp
    obtain ⟨r, m₁, ⟨o₁, h₁, hr⟩, rfl⟩ := run_some (allocuvm_spec hb.acct hD hold) hs
    have hback {sz'} (hk : sz' ≤ kernBase) (hs : Sized m₁ D sz') := hb.effect hD h₁ hk hs
    refine ⟨o₁, ?_⟩
    rcases hr with ⟨_, _, rfl, rfl⟩ | ⟨_, _, rfl, rfl⟩ | ⟨hle, hr, hlt, _⟩
    · split
      case isTrue =>
        rw [← setSize_self hsz]
        exact hback hk (hb.sized hsz)
      case isFalse => exact hback hkold hold
    · rw [if_pos rfl, ← setSize_self hsz]
      exact hback hk (hb.sized hsz)
    · have hsized := hr.sized h₁ hold hle
      split
      case isTrue h0 =>
        rw [if_pos h0] at hsized
        rw [← setSize_self hsz]
        exact hback hk (hsized.congr hp.symm)
      case isFalse h0 =>
        rw [if_neg h0] at hsized
        refine hback ?_ hsized
        rcases hr with ⟨rfl, _⟩ | ⟨rfl, _⟩
        · exact le_of_lt (hlt.resolve_left h0)
        · exact absurd rfl h0

theorem balanced_deallocuvm {newsz : ℕ} (hsz : s.size D = some sz)
    (hs : s.call ks sz (.deallocuvm D newsz) = some s') : ∃ o', Balanced s' o' := by
  have hD := hb.dir_of hsz
  have hk := hb.le hsz
  simp only [State.call] at hs
  obtain ⟨r, m₁, ⟨rfl, o₁, h₁⟩, rfl⟩ := run_some (deallocuvm_spec hb.acct hD hk) hs
  exact ⟨o₁, hb.effect hD h₁.toEffect (le_trans (min_le_left _ _) hk)
    (h₁.sized (hb.sized hsz))⟩

theorem balanced_clearpteu {uva : ℕ} (hsz : s.size D = some sz)
    (hs : s.call ks sz (.clearpteu D uva) = some s') : ∃ o', Balanced s' o' := by
  have hD := hb.dir_of hsz
  simp only [State.call] at hs
  split at hs
  case isFalse => cases hs
  case isTrue hu =>
    obtain ⟨_, m₁, ⟨h₁, he, _⟩, rfl⟩ := run_some
      (clearpteu_spec hb.acct hD (div_pgSize_lt (lt_trans hu (by decide)))) hs
    rw [← setSize_self hsz]
    refine ⟨o, hb.effect hD h₁ (hb.le hsz) fun u hu => ?_⟩
    by_cases hne : u = uva / pgSize
    · subst hne
      rw [he, present_clearU]
      exact hb.sized hsz _ hu
    · rw [h₁.entry u (lt_of_lt_of_le hu userPages_le) hne]
      exact hb.sized hsz u hu

theorem balanced_growproc (hsz : s.size D = some sz) (hok : ¬ ToNothing sz n)
    (hs : s.call ks sz (.growproc D n) = some s') : ∃ o', Balanced s' o' := by
  have hD := hb.dir_of hsz
  simp only [State.call] at hs
  split at hs
  case isFalse => cases hs
  case isTrue hn =>
    obtain ⟨r, m₁, ⟨o₁, h₁⟩, rfl⟩ :=
      run_some (growproc_spec hb.acct hD (hb.le hsz) (hb.sized hsz) hn hok) hs
    obtain ⟨S, he, _⟩ := h₁.effect
    refine ⟨o₁, ?_⟩
    cases r with
    | none =>
        rw [← setSize_self hsz]
        exact hb.effect hD he h₁.le h₁.sized
    | some r => exact hb.effect hD he h₁.le h₁.sized

theorem balanced_freevm (hsz : s.size D = some sz)
    (hs : s.call ks sz (.freevm D) = some s') : ∃ o', Balanced s' o' := by
  have hD := hb.dir_of hsz
  simp only [State.call] at hs
  obtain ⟨_, m₁, ⟨o₁, h₁, hgone⟩, rfl⟩ :=
    run_some (freevm_spec hb.acct hD fun g => hb.idle g D) hs
  refine ⟨o₁, hb.update h₁ (.inl hD) hgone.dir (fun g hg => hgone.none g ?_) nofun⟩
  rw [hg]
  exact rfl

include hks

theorem balanced_copyuvm (hsz : s.size D = some sz)
    (hs : s.call ks sz (.copyuvm D) = some s') : ∃ o', Balanced s' o' := by
  have hD := hb.dir_of hsz
  have hk := hb.le hsz
  have hp : ∀ u < pages sz, Present (s.phys.entry D u) := fun u hu =>
    (hb.sized hsz u (lt_of_lt_of_le hu (pages_le_userPages hk))).mpr hu
  simp only [State.call] at hs
  obtain ⟨r, m₁, hr, rfl⟩ := run_some (copyuvm_spec hks hb.acct hb.idle hD hk hp) hs
  cases r with
  | none => exact ⟨o, hb.same hr.1 hr.2⟩
  | some d =>
      obtain ⟨o₁, h₁⟩ := hr
      exact ⟨o₁, hb.fresh h₁ hk fun _ => Iff.rfl⟩

theorem balanced_setupkvm (hs : s.step ks .setupkvm = some s') : ∃ o', Balanced s' o' := by
  simp only [State.step] at hs
  obtain ⟨r, m₁, hr, rfl⟩ := run_some (setupkvm_spec hks hb.acct hb.idle) hs
  cases r with
  | none => exact ⟨o, hb.same hr.1.1 hr.1.2⟩
  | some d =>
      obtain ⟨o₁, h₁, _⟩ := hr
      refine ⟨o₁, hb.fresh h₁ (Nat.zero_le _) fun u => ?_⟩
      exact iff_of_false id (Nat.not_lt_zero u)

end Calls

/-! ### The rest of the kernel -/

theorem kalloc_spec {m : Phys} : wp kalloc (fun r m' =>
    match r with
    | none => m' = m
    | some f => ∃ fs, m.free = f :: fs ∧ m' = { m with free := fs }) noPanic m := by
  apply wp_kalloc
  · exact fun _ => rfl
  · exact fun f fs hf => ⟨fs, hf, rfl⟩

theorem balanced_kalloc (hb : Balanced s o) (hs : s.step ks .kalloc = some s') :
    ∃ o', Balanced s' o' := by
  simp only [State.step] at hs
  obtain ⟨r, m₁, hr, rfl⟩ := run_some kalloc_spec hs
  cases r with
  | none =>
      cases hr
      exact ⟨o, hb⟩
  | some f =>
      obtain ⟨fs, hf, rfl⟩ := hr
      have hfree := hb.acct.owner_of_free hf
      refine ⟨_, hb.acct.take hf (.inl rfl), fun g D hg => ?_, fun {D} => ?_, hb.le, hb.sized,
        List.nodup_cons.mpr ⟨?_, hb.taken⟩, fun {g} => ?_⟩
      · rw [update_owner_iff (x := .other) (y := .held D) (by simp) (by rw [hfree]; simp)] at hg
        exact hb.idle g D hg
      · rw [update_owner_iff (x := .other) (y := .dir) (by simp) (by rw [hfree]; simp)]
        exact hb.dir
      · rw [hb.other, hfree]
        simp
      · show g ∈ f :: s.taken ↔ _
        by_cases hgf : g = f
        · subst hgf
          rw [Function.update_self]
          exact iff_of_true List.mem_cons_self rfl
        · rw [Function.update_of_ne hgf, ← hb.other, List.mem_cons]
          exact ⟨fun h => h.resolve_left hgf, .inr⟩

theorem balanced_kfree (hb : Balanced s o) (hs : s.step ks (.kfree f) = some s') :
    ∃ o', Balanced s' o' := by
  simp only [State.step] at hs
  split at hs
  case isFalse => cases hs
  case isTrue hf =>
    have hother := hb.other.mp hf
    have hspec : wp (kfree f) (fun _ m' => m' = s.phys.freed f) noPanic s.phys :=
      wp_kfree hb.acct (by rw [hother]; nofun) rfl
    obtain ⟨_, m₁, rfl, rfl⟩ := run_some hspec hs
    have hloose : (o f).Loose := .inl hother
    refine ⟨_, hb.acct.give hloose _, fun g D hg => ?_, fun {D} => ?_, hb.le,
      fun {D sz} hsz u hu => ?_, hb.taken.erase f, fun {g} => ?_⟩
    · rw [update_owner_iff (x := .free) (y := .held D) nofun (by rw [hother]; nofun)] at hg
      exact hb.idle g D hg
    · rw [update_owner_iff (x := .free) (y := .dir) nofun (by rw [hother]; nofun)]
      exact hb.dir
    · have hD := hb.dir_of hsz
      show Present ((s.phys.freed f).entry D u) ↔ _
      rw [hb.acct.entry_congr hD (lt_of_lt_of_le hu userPages_le)]
      · exact hb.sized hsz u hu
      · intro g hg
        apply Phys.freed_ne
        rintro rfl
        rw [hother] at hg
        cases hg
    · show g ∈ s.taken.erase f ↔ _
      rw [hb.taken.mem_erase_iff]
      by_cases hgf : g = f
      · subst hgf
        rw [Function.update_self]
        exact iff_of_false (fun h => h.1 rfl) nofun
      · rw [Function.update_of_ne hgf, ← hb.other]
        exact ⟨fun h => h.2, fun h => ⟨hgf, h⟩⟩

/-- The rest of the kernel changes no size. -/
theorem size_of_kalloc (hs : s.step ks .kalloc = some s') : s'.size D = s.size D := by
  simp only [State.step] at hs
  obtain ⟨r, m₁, _, rfl⟩ := run_some kalloc_spec hs
  cases r with
  | none => rfl
  | some f => rfl

theorem size_of_kfree (hs : s.step ks (.kfree f) = some s') : s'.size D = s.size D := by
  simp only [State.step] at hs
  split at hs
  case isFalse => cases hs
  case isTrue =>
    unfold State.run at hs
    split at hs
    case h_1 =>
      cases hs
      rfl
    case h_2 => cases hs

/-! ## §6  Every run -/

theorem balanced_step {c : Call} {k : ℕ} (hks : Ascending userPages ks k) (hb : Balanced s o)
    (hg : keepsSome s c) (hs : s.step ks c = some s') : ∃ o', Balanced s' o' := by
  cases c with
  | setupkvm => exact balanced_setupkvm hb hks hs
  | kalloc => exact balanced_kalloc hb hs
  | kfree f => exact balanced_kfree hb hs
  | allocuvm D oldsz newsz =>
      obtain ⟨sz, hsz, hs⟩ := Option.bind_eq_some_iff.mp hs
      exact balanced_allocuvm hb hsz hs
  | deallocuvm D newsz =>
      obtain ⟨sz, hsz, hs⟩ := Option.bind_eq_some_iff.mp hs
      exact balanced_deallocuvm hb hsz hs
  | clearpteu D uva =>
      obtain ⟨sz, hsz, hs⟩ := Option.bind_eq_some_iff.mp hs
      exact balanced_clearpteu hb hsz hs
  | copyuvm D =>
      obtain ⟨sz, hsz, hs⟩ := Option.bind_eq_some_iff.mp hs
      exact balanced_copyuvm hb hks hsz hs
  | freevm D =>
      obtain ⟨sz, hsz, hs⟩ := Option.bind_eq_some_iff.mp hs
      exact balanced_freevm hb hsz hs
  | growproc D n =>
      obtain ⟨sz, hsz, hs⟩ := Option.bind_eq_some_iff.mp hs
      exact balanced_growproc hb hsz (hg sz hsz) hs

theorem balanced_of_reach {k : ℕ} (hks : Ascending userPages ks k)
    (h : (vmSystem ks).Reach keepsSome s) : ∃ o, Balanced s o := by
  apply h.invariant (I := fun s => ∃ o, Balanced s o)
  · exact fun _ h => h
  · rintro s c s' ⟨o, hb⟩ hg hs
    exact balanced_step hks hb hg hs

end Xv6.Vm
