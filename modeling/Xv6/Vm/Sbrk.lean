import Xv6.Vm.Accounting

/-!
# Concurrent `sbrk`

`sys_sbrk` reads `sz` for the address it returns, and `growproc` reads it again under
the lock. Threads of one process that grow it, in any interleaving of the two steps.
Two threads that read before either grows are given the same address. If the size is
still the one that was read when `growproc` runs, the regions that are handed out are
disjoint and tile the growth.
-/

namespace Xv6.Vm.Sbrk

open Xv6.Lib PanicM System

variable {T : Type} [DecidableEq T]

/-- The calls in progress, with the address read and `n`, and the regions handed out by
the calls that succeeded, the last one first. -/
structure State (T : Type) where
  vm : Vm.State
  calls : T → Option (ℕ × ℕ)
  regions : List (ℕ × ℕ)

inductive Act (T : Type) where
  | read (t : T) (n : ℕ)
  | grow (t : T)
  | kalloc
  | kfree (f : ℕ)

/-- The threads of the process with the directory `D`; the rest of the kernel takes and
frees pages. -/
def State.step (ks : List Kmap) (D : ℕ) (s : State T) : Act T → Option (State T)
  | .read t n =>
      -- addr = myproc()->sz
      match s.calls t, s.vm.size D with
      | none, some sz =>
          if 0 < n ∧ IsInt n then
            some { s with calls := Function.update s.calls t (some (sz, n)) }
          else none
      | _, _ => none
  | .grow t =>
      match s.calls t, s.vm.size D with
      | some (addr, n), some sz =>
          let s' := { s with calls := Function.update s.calls t none }
          match growproc D sz n s.vm.phys with
          | .error _ => none
          | .ok (none, m) => some { s' with vm := { s.vm with phys := m } }
          | .ok (some sz', m) =>
              some { s' with
                vm := { s.vm with phys := m }.setSize D (some sz')
                regions := (addr, n) :: s.regions }
      | _, _ => none
  | .kalloc => (s.vm.step ks .kalloc).map fun vm => { s with vm := vm }
  | .kfree f => (s.vm.step ks (.kfree f)).map fun vm => { s with vm := vm }

/-- A process of the size `sz₀` with no call in progress. -/
def sbrkSystem (T : Type) [DecidableEq T] (ks : List Kmap) (D sz₀ : ℕ) :
    System (State T) (Act T) where
  init s := (∃ o, Balanced s.vm o) ∧ s.vm.size D = some sz₀ ∧ (∀ t, s.calls t = none) ∧
    s.regions = []
  step := State.step ks D

variable {ks : List Kmap} {D sz₀ : ℕ} {s s' : State T} {a : Act T}

/-! ## §1  What a step does -/

/-- What a step can do. -/
inductive Change (ks : List Kmap) (D : ℕ) (s : State T) : Act T → State T → Prop
  | read {t : T} {sz n : ℕ} (hsz : s.vm.size D = some sz) (hn : 0 < n) (hi : IsInt n) :
      Change ks D s (.read t n)
        { s with calls := Function.update s.calls t (some (sz, n)) }
  | failed {t : T} {addr n sz : ℕ} {m : Phys} (hc : s.calls t = some (addr, n))
      (hsz : s.vm.size D = some sz) (hx : growproc D sz n s.vm.phys = .ok (none, m)) :
      Change ks D s (.grow t) { s with
        calls := Function.update s.calls t none
        vm := { s.vm with phys := m } }
  | grown {t : T} {addr n sz sz' : ℕ} {m : Phys} (hc : s.calls t = some (addr, n))
      (hsz : s.vm.size D = some sz) (hx : growproc D sz n s.vm.phys = .ok (some sz', m)) :
      Change ks D s (.grow t)
        { calls := Function.update s.calls t none
          vm := { s.vm with phys := m }.setSize D (some sz')
          regions := (addr, n) :: s.regions }
  | kalloc {vm : Vm.State} (h : s.vm.step ks .kalloc = some vm) :
      Change ks D s .kalloc { s with vm := vm }
  | kfree {f : ℕ} {vm : Vm.State} (h : s.vm.step ks (.kfree f) = some vm) :
      Change ks D s (.kfree f) { s with vm := vm }

theorem step_change (h : s.step ks D a = some s') : Change ks D s a s' := by
  cases a with
  | read t n =>
      simp only [State.step] at h
      split at h
      case h_2 => cases h
      case h_1 sz hc hsz =>
        split at h
        case isFalse => cases h
        case isTrue hn =>
          cases h
          exact .read hsz hn.1 hn.2
  | grow t =>
      simp only [State.step] at h
      split at h
      case h_2 => cases h
      case h_1 addr n sz hc hsz =>
        split at h
        case h_1 => cases h
        case h_2 m hx =>
          cases h
          exact .failed hc hsz hx
        case h_3 sz' m hx =>
          cases h
          exact .grown hc hsz hx
  | kalloc =>
      obtain ⟨vm, hvm, rfl⟩ := Option.map_eq_some_iff.mp h
      exact .kalloc hvm
  | kfree f =>
      obtain ⟨vm, hvm, rfl⟩ := Option.map_eq_some_iff.mp h
      exact .kfree hvm

/-! ## §2  Regions that tile the growth -/

/-- The regions, the last one first, go one after another from `lo` to `hi`. -/
inductive Tiles (lo : ℕ) : ℕ → List (ℕ × ℕ) → Prop
  | nil : Tiles lo lo []
  | cons {a n : ℕ} {rs : List (ℕ × ℕ)} (h : Tiles lo a rs) : Tiles lo (a + n) ((a, n) :: rs)

theorem Tiles.le {lo hi : ℕ} {rs : List (ℕ × ℕ)} (h : Tiles lo hi rs) : lo ≤ hi := by
  induction h with
  | nil => exact Nat.le_refl lo
  | cons _ ih => omega

/-- The address `x` is in the region. -/
def Covers (r : ℕ × ℕ) (x : ℕ) : Prop := r.1 ≤ x ∧ x < r.1 + r.2

theorem Tiles.covers_iff {lo hi x : ℕ} {rs : List (ℕ × ℕ)} (h : Tiles lo hi rs) :
    (∃ r ∈ rs, Covers r x) ↔ lo ≤ x ∧ x < hi := by
  induction h with
  | nil =>
      refine iff_of_false (fun ⟨r, hr, _⟩ => nomatch hr) ?_
      omega
  | @cons a n rs h ih =>
      have := h.le
      constructor
      · rintro ⟨r, hr, hx⟩
        rcases List.mem_cons.mp hr with rfl | hr
        · unfold Covers at hx
          omega
        · have := ih.mp ⟨r, hr, hx⟩
          omega
      · intro hx
        by_cases hlt : x < a
        · obtain ⟨r, hr, hc⟩ := ih.mpr ⟨hx.1, hlt⟩
          exact ⟨r, List.mem_cons_of_mem _ hr, hc⟩
        · exact ⟨(a, n), List.mem_cons_self, not_lt.mp hlt, hx.2⟩

theorem Tiles.disjoint {lo hi : ℕ} {rs : List (ℕ × ℕ)} (h : Tiles lo hi rs) :
    rs.Pairwise fun r r' => ∀ x, ¬ (Covers r x ∧ Covers r' x) := by
  induction h with
  | nil => exact .nil
  | @cons a n rs h ih =>
      refine .cons (fun r hr x hx => ?_) ih
      have := (h.covers_iff.mp ⟨r, hr, hx.2⟩).2
      have : a ≤ x := hx.1.1
      omega

/-! ## §3  Every run -/

/-- When `growproc` runs, the size is the one that the call has read. -/
def sizeAsRead (D : ℕ) (s : State T) : Act T → Prop
  | .grow t => ∀ addr n, s.calls t = some (addr, n) → s.vm.size D = some addr
  | _ => True

instance (D : ℕ) (s : State T) (a : Act T) : Decidable (sizeAsRead D s a) :=
  match a with
  | .grow t =>
      match h : s.calls t with
      | none => isTrue fun _ _ hc => nomatch h.symm.trans hc
      | some (addr, n) =>
          if hsz : s.vm.size D = some addr then
            isTrue fun addr' n' hc => by
              cases h.symm.trans hc
              exact hsz
          else isFalse fun hall => hsz (hall addr n h)
  | .read _ _ | .kalloc | .kfree _ => isTrue trivial

structure Inv (D sz₀ : ℕ) (s : State T) : Prop where
  balanced : ∃ o, Balanced s.vm o
  calls : ∀ t addr n, s.calls t = some (addr, n) → 0 < n ∧ IsInt n
  tiles : ∃ sz, s.vm.size D = some sz ∧ Tiles sz₀ sz s.regions

theorem calls_update {t t' : T} {x : Option (ℕ × ℕ)} {P : ℕ → ℕ → Prop}
    (h : ∀ t addr n, s.calls t = some (addr, n) → P addr n)
    (hx : ∀ addr n, x = some (addr, n) → P addr n) {addr n : ℕ}
    (hc : Function.update s.calls t x t' = some (addr, n)) : P addr n := by
  by_cases ht : t' = t
  · subst ht
    rw [Function.update_self] at hc
    exact hx addr n hc
  · rw [Function.update_of_ne ht] at hc
    exact h t' addr n hc

/-- Growing does not shrink to nothing. -/
theorem not_toNothing {sz n : ℕ} : ¬ ToNothing sz n := fun h => by
  have := h.1
  omega

theorem Inv.step (hi : Inv D sz₀ s) (hg : sizeAsRead D s a) (hc : Change ks D s a s') :
    Inv D sz₀ s' := by
  obtain ⟨o, hb⟩ := hi.balanced
  obtain ⟨sz, hsz, htiles⟩ := hi.tiles
  cases hc with
  | read hsz' hn hint =>
      refine ⟨hi.balanced, fun t' addr n hc => ?_, hi.tiles⟩
      refine calls_update (P := fun _ n => 0 < n ∧ IsInt n) hi.calls ?_ hc
      rintro _ _ ⟨⟩
      exact ⟨hn, hint⟩
  | kalloc h => exact ⟨balanced_kalloc hb h, hi.calls, sz, (size_of_kalloc h).trans hsz, htiles⟩
  | kfree h => exact ⟨balanced_kfree hb h, hi.calls, sz, (size_of_kfree h).trans hsz, htiles⟩
  | @failed t addr n sz' m hc hsz' hx =>
      obtain ⟨_, hint⟩ := hi.calls t addr n hc
      obtain ⟨o', h⟩ := wp_ok (growproc_spec hb.acct (hb.dir_of hsz') (hb.le hsz')
        (hb.sized hsz') hint not_toNothing) hx
      obtain ⟨S, he, _⟩ := h.effect
      have hb' := hb.effect (hb.dir_of hsz') he h.le h.sized
      rw [show (none : Option ℕ).getD sz' = sz' from rfl, setSize_self hsz'] at hb'
      exact ⟨⟨o', hb'⟩, fun t' addr n =>
        calls_update (x := none) (P := fun _ n => 0 < n ∧ IsInt n) hi.calls nofun, sz, hsz,
        htiles⟩
  | @grown t addr n sz' new m hc hsz' hx =>
      obtain ⟨_, hint⟩ := hi.calls t addr n hc
      obtain ⟨o', h⟩ := wp_ok (growproc_spec hb.acct (hb.dir_of hsz') (hb.le hsz')
        (hb.sized hsz') hint not_toNothing) hx
      obtain ⟨S, he, _⟩ := h.effect
      refine ⟨⟨o', hb.effect (hb.dir_of hsz') he h.le h.sized⟩,
        fun t' addr n =>
          calls_update (x := none) (P := fun _ n => 0 < n ∧ IsInt n) hi.calls nofun,
        new, Function.update_self .., ?_⟩
      -- the address read is the size that grows
      obtain rfl : addr = sz := Option.some.inj ((hg addr n hc).symm.trans hsz)
      obtain rfl : addr = sz' := Option.some.inj (hsz.symm.trans hsz')
      obtain rfl : new = addr + n := by
        have := h.size new rfl
        omega
      exact .cons htiles

/-- If the size has not changed since each call read it, the regions of the calls that
succeed are disjoint and cover exactly the growth of the process. -/
theorem sbrk_disjoint (h : (sbrkSystem T ks D sz₀).Reach (sizeAsRead D) s) :
    s.regions.Pairwise (fun r r' => ∀ x, ¬ (Covers r x ∧ Covers r' x)) ∧
    ∃ sz, s.vm.size D = some sz ∧ ∀ x, (∃ r ∈ s.regions, Covers r x) ↔ sz₀ ≤ x ∧ x < sz := by
  have hi : Inv D sz₀ s := by
    apply h.invariant (I := Inv D sz₀)
    · rintro s ⟨hb, hsz, hc, hr⟩
      refine ⟨hb, fun t addr n h => ?_, sz₀, hsz, hr ▸ .nil⟩
      rw [hc t] at h
      cases h
    · intro s a s' hi hg hs
      exact hi.step hg (step_change hs)
  obtain ⟨sz, hsz, htiles⟩ := hi.tiles
  exact ⟨htiles.disjoint, sz, hsz, fun x => htiles.covers_iff⟩

/-! ### Two threads -/

def twoThreads : State Bool := ⟨onePage, fun _ => none, []⟩

theorem twoThreads_init : (sbrkSystem Bool ks 1024 4096).init twoThreads :=
  ⟨⟨_, onePage_balanced⟩, rfl, fun _ => rfl, rfl⟩

theorem twoThreads_reach {G : State Bool → Act Bool → Prop} [∀ s a, Decidable (G s a)]
    (rs : List (ℕ × ℕ)) (as : List (Act Bool))
    (h : ((sbrkSystem Bool (kmap 0x80108000) 1024 4096).exec G twoThreads as).any
      (fun s => decide (s.regions = rs)) = true) :
    ∃ s, (sbrkSystem Bool (kmap 0x80108000) 1024 4096).Reach G s ∧ s.regions = rs :=
  exec_reach twoThreads_init h

theorem sbrk_disjoint_twice : ∃ s : State Bool, s.regions = [(4106, 20), (4096, 10)] ∧
    s.regions.Pairwise (fun r r' => ∀ x, ¬ (Covers r x ∧ Covers r' x)) := by
  obtain ⟨s, hs, hr⟩ := twoThreads_reach (G := sizeAsRead 1024) [(4106, 20), (4096, 10)]
    [.read false 10, .grow false, .read true 20, .grow true] (by decide +kernel)
  exact ⟨s, hr, (sbrk_disjoint hs).1⟩

/-- Both threads read the size before either grows the process: both get 4096. -/
theorem sbrk_overlaps : ∃ s, (sbrkSystem Bool (kmap 0x80108000) 1024 4096).Reach anyStep s ∧
    s.regions = [(4096, 20), (4096, 10)] :=
  twoThreads_reach _ [.read false 10, .read true 20, .grow false, .grow true]
    (by decide +kernel)

end Xv6.Vm.Sbrk
