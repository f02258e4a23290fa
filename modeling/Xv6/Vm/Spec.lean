import Xv6.Vm.Effect

/-!
# Page tables are built and taken down

One lemma for each function of `vm.c`, from any accounted memory: it does not panic, it
has an `Effect` on its directory, and what it returns tells which pages are present.
-/

namespace Xv6.Vm

open Xv6.Lib PanicM

variable {m m' m₀ : Phys} {o o' o₀ : ℕ → Owner} {f g D d i k v w perm : ℕ} {p : Page}
  {S : ℕ → Prop}

/-! ## §1  Addresses of pages -/

theorem div_pgSize_lt {va : ℕ} (h : va < 2 ^ 32) : va / pgSize < allPages := by
  unfold pgSize allPages nEntries
  omega

theorem pdx_page (hv : v < allPages) : pdx (v * pgSize) = v / nEntries := by
  unfold pdx
  rw [← Nat.div_div_eq_div_mul, Nat.mul_div_cancel _ (by decide)]
  exact Nat.mod_eq_of_lt (div_nEntries_lt hv)

theorem ptx_page : ptx (v * pgSize) = v % nEntries := by
  unfold ptx
  rw [Nat.mul_div_cancel _ (by decide)]

theorem pgRoundDown_page : pgRoundDown (v * pgSize) = v * pgSize := by
  unfold pgRoundDown
  rw [Nat.mul_div_cancel _ (by decide)]

/-- The number of pages of `[0, sz)`. -/
def pages (sz : ℕ) : ℕ := (sz + pgSize - 1) / pgSize

theorem pgRoundUp_eq (sz : ℕ) : pgRoundUp sz = pages sz * pgSize := rfl

theorem lt_pages_iff {sz : ℕ} : v < pages sz ↔ v * pgSize < sz := by
  unfold pages pgSize
  omega

theorem pages_le_userPages {sz : ℕ} (h : sz ≤ kernBase) : pages sz ≤ userPages := by
  unfold pages userPages pgSize kernBase at *
  omega

theorem pages_mono {a b : ℕ} (h : a ≤ b) : pages a ≤ pages b := by
  unfold pages pgSize
  omega

theorem pages_zero : pages 0 = 0 := rfl

theorem pages_kernBase : pages kernBase = userPages := by decide

/-! ## §2  `walkpgdir` and `mappages` -/

theorem perm_lt : pteW + pteU < pgSize := by decide

/-- A table is added where there is none. -/
theorem effect_newTable {fs : List ℕ} (ha : Acct m o) (hD : o D = .dir) (hi : i < nEntries)
    (hn : ¬ Present (m.mem D i)) (hf : m.free = f :: fs) :
    Effect D S m o (({ m with free := fs }.setPage f fun _ => 0).setWord D i
      (mkPte f (pteW + pteU))) (Function.update o f (.table D i)) := by
  have hfree := ha.owner_of_free hf
  have hDf : D ≠ f := by
    rintro rfl
    rw [hD] at hfree
    cases hfree
  have hh := ha.hold (D := D) hf fun _ => 0
  have hD' : Function.update o f (.held D) D = .dir := by rwa [Function.update_of_ne hDf]
  have hloose : (Function.update o f (.held D) f).Loose := by
    rw [Function.update_self]
    exact Owner.loose_held
  have hz : ({ m with free := fs }.setPage f fun _ => 0).mem f = fun _ => 0 :=
    Phys.setPage_self
  have hn' : ¬ Present (({ m with free := fs }.setPage f fun _ => 0).mem D i) := by
    rw [Phys.setPage_ne hDf]
    exact hn
  have hacct := hh.newTable hD' hi hloose hz hn' perm_lt
  rw [Function.update_idem] at hacct
  have hmem {g : ℕ} (hgD : g ≠ D) (hgf : g ≠ f) :
      (({ m with free := fs }.setPage f fun _ => 0).setWord D i
        (mkPte f (pteW + pteU))).mem g = m.mem g := by
    rw [Phys.setWord_ne hgD, Phys.setPage_ne hgf]
  refine ⟨.update hacct ?_ (.inl hfree) (.inr rfl), ?_, fun v hv _ => ?_, fun g v _ hg => ?_,
    fun g hg => ?_⟩
  · intro g hgD hg _
    apply hmem hgD
    rintro rfl
    exact hg hfree
  · rw [Function.update_of_ne hDf]
    exact hD
  · rw [hh.entry_newTable hD' hloose hz hn' perm_lt hD' hv, entry_hold ha hf hD hv]
  · apply hmem
    · rintro rfl
      rw [hD] at hg
      cases hg
    · rintro rfl
      rw [hfree] at hg
      cases hg
  · by_cases e : g = f
    · subst e
      rw [Function.update_self] at hg
      cases hg
    · rwa [Function.update_of_ne e] at hg

/-- The pages that a walk takes: one if there is no page table yet. -/
def missing (m : Phys) (D i : ℕ) : ℕ := if Present (m.mem D i) then 0 else 1

theorem missing_le : missing m D i ≤ 1 := by
  unfold missing
  split <;> omega

theorem walkpgdir_spec (ha : Acct m o) (hD : o D = .dir) (hv : v < allPages) :
    wp (walkpgdir D (v * pgSize) true) (fun r m' => ∃ o', Effect D (fun _ => False) m o m' o' ∧
      (∀ g, o g = .held D → o' g = .held D ∧ m'.mem g = m.mem g) ∧
      (r = none → m.free.length < missing m D (v / nEntries)) ∧
      m.free.length ≤ m'.free.length + missing m D (v / nEntries) ∧
      ∀ t j, r = some (t, j) → o' t = .table D (v / nEntries) ∧ j = v % nEntries)
      noPanic m := by
  unfold walkpgdir
  rw [pdx_page hv, ptx_page]
  apply wp_bind
  apply wp_load
  by_cases hp : Present (m.mem D (v / nEntries))
  · rw [if_pos hp]
    refine wp_pure ⟨o, .refl ha hD, fun _ hg => ⟨hg, rfl⟩, nofun, Nat.le_add_right _ _, ?_⟩
    rintro t j ⟨⟩
    exact ⟨ha.table_of hD (div_nEntries_lt hv) hp, rfl⟩
  · have hmiss : missing m D (v / nEntries) = 1 := if_neg hp
    rw [if_neg hp, if_pos rfl, hmiss]
    apply wp_bind
    apply wp_kalloc
    · intro hf
      refine wp_pure ⟨o, .refl ha hD, fun _ hg => ⟨hg, rfl⟩, fun _ => ?_,
        Nat.le_add_right _ _, nofun⟩
      rw [hf]
      exact Nat.zero_lt_one
    · intro f fs hf
      apply wp_bind
      apply wp_zeroPage
      apply wp_bind
      apply wp_store
      refine wp_pure ⟨_, effect_newTable ha hD (div_nEntries_lt hv) hp hf, ?_, nofun, ?_, ?_⟩
      · intro g hg
        have hgD : g ≠ D := by
          rintro rfl
          rw [hD] at hg
          cases hg
        have hgf : g ≠ f := by
          rintro rfl
          rw [ha.owner_of_free hf] at hg
          cases hg
        rw [Function.update_of_ne hgf, Phys.setWord_ne hgD, Phys.setPage_ne hgf]
        exact ⟨hg, rfl⟩
      · rw [hf]
        exact Nat.le_refl _
      · rintro t j ⟨⟩
        rw [Function.update_self]
        exact ⟨rfl, rfl⟩

/-- Without `alloc` nothing changes; a missing table is reported. -/
theorem walkpgdir_find (ha : Acct m o) (hD : o D = .dir) (hv : v < allPages) :
    wp (walkpgdir D (v * pgSize) false) (fun r m' => m' = m ∧
      match r with
      | none => ¬ Present (m.mem D (v / nEntries))
      | some (t, j) => o t = .table D (v / nEntries) ∧ j = v % nEntries) noPanic m := by
  unfold walkpgdir
  rw [pdx_page hv, ptx_page]
  apply wp_bind
  apply wp_load
  by_cases hp : Present (m.mem D (v / nEntries))
  · rw [if_pos hp]
    exact wp_pure ⟨rfl, ha.table_of hD (div_nEntries_lt hv) hp, rfl⟩
  · rw [if_neg hp, if_neg (by simp)]
    exact wp_pure ⟨rfl, hp⟩

/-- The entry of the kernel's half, or of a user page that `f` becomes. -/
theorem effect_kernelEntry {t : ℕ} (ha : Acct m o) (ht : o t = .table D (v / nEntries))
    (hv : userPages ≤ v) :
    Effect D (· = v) m o (m.setWord t (v % nEntries) w) o := by
  have hD := (ha.table.mp ht).1
  have hvv : v / nEntries * nEntries + v % nEntries = v := Nat.div_add_mod' v nEntries
  refine ⟨⟨ha.kernelEntry ht hv, fun g _ _ hg => ⟨rfl, ?_⟩, fun _ _ => id⟩, hD,
    fun u hu hne => ?_, fun g u _ hg => ?_, fun _ => id⟩
  · apply Phys.setWord_ne
    rintro rfl
    rw [ht] at hg
    exact hg rfl
  · exact ha.entry_setTable ht hD hu (.inr (hvv.symm ▸ hne))
  · apply Phys.setWord_ne
    rintro rfl
    rw [ht] at hg
    cases hg

theorem effect_mapUser {t : ℕ} (ha : Acct m o) (ht : o t = .table D (v / nEntries))
    (hf : o f = .held D) (hv : v < userPages) (hn : ¬ Present (m.entry D v))
    (hperm : perm < pgSize) :
    Effect D (· = v) m o (m.setWord t (v % nEntries) (mkPte f perm))
      (Function.update o f (.user D v)) := by
  have hD := (ha.table.mp ht).1
  have hvv : v / nEntries * nEntries + v % nEntries = v := Nat.div_add_mod' v nEntries
  have hloose : (o f).Loose := by
    rw [hf]
    exact Owner.loose_held
  refine ⟨.update (ha.mapUser ht hloose hv hn hperm) ?_ (.inr (by rw [hf]; exact rfl))
    (.inr rfl), ?_, fun u hu hne => ?_, fun g u _ hg => ?_, fun g hg => ?_⟩
  · intro g _ _ hg
    apply Phys.setWord_ne
    rintro rfl
    rw [ht] at hg
    exact hg rfl
  · rw [update_owner_iff (x := .user D v) (y := .dir) nofun (hloose.ne Owner.not_loose_dir)]
    exact hD
  · exact ha.entry_setTable ht hD hu (.inr (hvv.symm ▸ hne))
  · apply Phys.setWord_ne
    rintro rfl
    rw [ht] at hg
    cases hg
  · by_cases e : g = f
    · subst e
      exact hf
    · rwa [Function.update_of_ne e] at hg

/-- One page of the loop of `mappages`: the walk, the test for a remap, the entry. -/
theorem mappages_one {va : ℕ} (h : va = v * pgSize) :
    mappages D va pgSize f perm = mapLoop D perm 0 (v * pgSize) f := by
  subst h
  unfold mappages
  rw [pgRoundDown_page]
  have : pgRoundDown (v * pgSize + pgSize - 1) = v * pgSize := by
    unfold pgRoundDown pgSize
    omega
  rw [this]
  show mapLoop D perm ((v * pgSize - v * pgSize) / pgSize) (v * pgSize) f = _
  rw [Nat.sub_self]
  rfl

/-- `mappages` of one user page: mapped, or out of memory with the page still held. -/
theorem mappages_spec (ha : Acct m o) (hD : o D = .dir) (hf : o f = .held D)
    (hv : v < userPages) (hn : ¬ Present (m.entry D v)) (hperm : perm < pgSize) :
    wp (mappages D (v * pgSize) pgSize f perm) (fun b m' => ∃ o', Effect D (· = v) m o m' o' ∧
      m'.mem f = m.mem f ∧
      if b then m'.entry D v = mkPte f perm ∧ o' f = .user D v ∧
        m.free.length ≤ m'.free.length + 1
      else m'.entry D v = m.entry D v ∧ o' f = .held D ∧ m.free = []) noPanic m := by
  have hv' := lt_of_lt_of_le hv userPages_le
  rw [mappages_one rfl]
  unfold mapLoop
  apply wp_call (walkpgdir_spec ha hD hv')
  rintro r m₁ ⟨o₁, h₁, hheld, hnone, hcost, hr⟩
  have hmiss := missing_le (m := m) (D := D) (i := v / nEntries)
  have he := h₁.entry v hv' id
  obtain ⟨hf₁, hfm⟩ := hheld f hf
  rcases r with _ | ⟨t, j⟩
  · refine wp_pure ⟨o₁, h₁.mono nofun, hfm, he, hf₁, List.length_eq_zero_iff.mp ?_⟩
    have := hnone rfl
    omega
  · obtain ⟨ht, rfl⟩ := hr t j rfl
    have hn₁ : ¬ Present (m₁.entry D v) := he ▸ hn
    apply wp_bind
    apply wp_load
    rw [← h₁.acct.entry_eq ht, if_neg hn₁]
    apply wp_bind
    apply wp_store
    refine wp_pure ⟨_, (h₁.mono nofun).trans ha (effect_mapUser h₁.acct ht hf₁ hv hn₁ hperm),
      ?_, ?_, ?_, ?_⟩
    · rw [Phys.setWord_ne, hfm]
      rintro rfl
      rw [ht] at hf₁
      cases hf₁
    · exact h₁.acct.entry_setTable_self ht
    · rw [Function.update_self]
    · rw [Phys.setWord_free]
      omega

/-- A page that is present is not mapped again. -/
theorem mappages_remap (ha : Acct m o) (hD : o D = .dir) (hv : v < userPages)
    (hp : Present (m.entry D v)) :
    wp (mappages D (v * pgSize) pgSize f perm) (fun _ _ => False) (fun _ => True) m := by
  have hv' := lt_of_lt_of_le hv userPages_le
  rw [mappages_one rfl]
  unfold mapLoop
  apply wp_call (wp_mono (walkpgdir_spec ha hD hv') (fun _ _ => id) nofun)
  rintro r m₁ ⟨o₁, h₁, _, hnone, _, hr⟩
  rcases r with _ | ⟨t, j⟩
  · have htable : Present (m.mem D (v / nEntries)) := by
      by_contra hn
      rw [Phys.entry_of_not_present hn] at hp
      exact not_present_zero hp
    have := hnone rfl
    rw [missing, if_pos htable] at this
    exact absurd this (Nat.not_lt_zero _)
  · obtain ⟨ht, rfl⟩ := hr t j rfl
    apply wp_bind
    apply wp_load
    rw [← h₁.acct.entry_eq ht, h₁.entry v hv' id, if_pos hp]
    exact wp_throw trivial

/-! ## §3  The kernel's half -/

/-- The user may use the page of the entry. -/
def HasU (w : ℕ) : Prop := w / pteU % 2 = 1

instance (w : ℕ) : Decidable (HasU w) := inferInstanceAs (Decidable (_ = _))

theorem hasU_mkPte {page : ℕ} : HasU (mkPte page perm) ↔ HasU perm := by
  have hor : (perm ||| pteP) / 2 ^ 2 = perm / 2 ^ 2 := by
    rw [Nat.or_div_two_pow]
    exact Nat.or_zero _
  have : (2 : ℕ) ^ 2 = 4 := rfl
  unfold HasU mkPte pgSize pteU
  omega

theorem not_hasU_clearU {w : ℕ} : ¬ HasU (clearU w) := by
  unfold HasU clearU pteU
  omega

/-- Entries of pages in `S` are for the kernel alone. -/
def KernelOnly (m : Phys) (D : ℕ) (S : ℕ → Prop) : Prop :=
  ∀ u < allPages, S u → Present (m.entry D u) → ¬ HasU (m.entry D u)

/-- The memory after one entry of the kernel's half is written. -/
structure Entered (D v w : ℕ) (m : Phys) (o : ℕ → Owner) (m' : Phys) (o' : ℕ → Owner) :
    Prop extends Effect D (· = v) m o m' o' where
  new : m'.entry D v = w
  table : Present (m'.mem D (v / nEntries))
  cost : m.free.length ≤ m'.free.length + missing m D (v / nEntries)

/-- One round of the loop of `mappages` in the kernel's half, followed by `K`. -/
theorem mapLoop_round {K : VmM Bool} {Q : Bool → Phys → Prop} {page : ℕ} (ha : Acct m o)
    (hD : o D = .dir) (hv : userPages ≤ v) (hv' : v < allPages)
    (hn : ¬ Present (m.entry D v))
    (hfail : ∀ m₁ o₁, Effect D (fun _ => False) m o m₁ o₁ →
      m.free.length < missing m D (v / nEntries) → Q false m₁)
    (hnext : ∀ m₁ o₁, Entered D v (mkPte page perm) m o m₁ o₁ → wp K Q noPanic m₁) :
    wp (do
      match ← walkpgdir D (v * pgSize) true with
      | none => return false
      | some (pgtab, i) =>
          let w ← load pgtab i
          if Present w then throw .remap
          else
            store pgtab i (mkPte page perm)
            K) Q noPanic m := by
  apply wp_call (walkpgdir_spec ha hD hv')
  rintro r m₁ ⟨o₁, h₁, _, hnone, hcost, hr⟩
  rcases r with _ | ⟨t, j⟩
  · exact wp_pure (hfail m₁ o₁ h₁ (hnone rfl))
  · obtain ⟨ht, rfl⟩ := hr t j rfl
    apply wp_bind
    apply wp_load
    rw [← h₁.acct.entry_eq ht, if_neg (h₁.entry v hv' id ▸ hn)]
    apply wp_bind
    apply wp_store
    refine hnext _ o₁ ⟨(h₁.mono nofun).trans ha (effect_kernelEntry h₁.acct ht hv),
      h₁.acct.entry_setTable_self ht, ?_, hcost⟩
    rw [Phys.setWord_ne]
    · exact (h₁.acct.table.mp ht).2.2.1
    · rintro rfl
      rw [h₁.dir] at ht
      cases ht

/-- The page tables that the pages from `v` to `v + n` may need. -/
def tablesFor (m : Phys) (D v n : ℕ) : ℕ :=
  (v + n) / nEntries - v / nEntries + missing m D (v / nEntries)

/-- After the first page the rest needs what is left. -/
theorem tablesFor_succ {m₁ : Phys} {n : ℕ} (h : Present (m₁.mem D (v / nEntries))) :
    tablesFor m₁ D (v + 1) n + missing m D (v / nEntries) ≤ tablesFor m D v (n + 1) := by
  have hdiv : (v + 1) / nEntries = v / nEntries ∨ (v + 1) / nEntries = v / nEntries + 1 := by
    unfold nEntries
    omega
  have hle : (v + 1) / nEntries ≤ (v + 1 + n) / nEntries :=
    Nat.div_le_div_right (Nat.le_add_right _ _)
  unfold tablesFor
  rw [show v + 1 + n = v + (n + 1) by omega] at hle ⊢
  rcases hdiv with hdiv | hdiv
  · have hmiss : missing m₁ D ((v + 1) / nEntries) = 0 := if_pos (hdiv ▸ h)
    omega
  · have := missing_le (m := m₁) (D := D) (i := (v + 1) / nEntries)
    omega

/-- The loop of `mappages` over pages of the kernel's half that are not mapped yet. -/
theorem mapLoop_spec {n : ℕ} (page : ℕ) (ha : Acct m o) (hD : o D = .dir) (hv : userPages ≤ v)
    (hn : v + n < allPages) (hnot : ∀ u, v ≤ u → u ≤ v + n → ¬ Present (m.entry D u))
    (hperm : ¬ HasU perm) :
    wp (mapLoop D perm n (v * pgSize) page) (fun b m' => ∃ o',
      Effect D (fun u => v ≤ u ∧ u ≤ v + n) m o m' o' ∧
      KernelOnly m' D (fun u => v ≤ u ∧ u ≤ v + n) ∧
      (b = true → ∀ u, v ≤ u → u ≤ v + n → Present (m'.entry D u)) ∧
      (tablesFor m D v n ≤ m.free.length →
        b = true ∧ m.free.length ≤ m'.free.length + tablesFor m D v n)) noPanic m := by
  -- nothing is mapped if the walk for the first page fails
  have hfail {n : ℕ} {m : Phys} {o : ℕ → Owner} {v : ℕ} {m₁ : Phys} {o₁ : ℕ → Owner}
      (hnot : ∀ u, v ≤ u → u ≤ v + n → ¬ Present (m.entry D u))
      (h₁ : Effect D (fun _ => False) m o m₁ o₁)
      (hlt : m.free.length < missing m D (v / nEntries)) : ∃ o',
      Effect D (fun u => v ≤ u ∧ u ≤ v + n) m o m₁ o' ∧
      KernelOnly m₁ D (fun u => v ≤ u ∧ u ≤ v + n) ∧
      (false = true → ∀ u, v ≤ u → u ≤ v + n → Present (m₁.entry D u)) ∧
      (tablesFor m D v n ≤ m.free.length →
        false = true ∧ m.free.length ≤ m₁.free.length + tablesFor m D v n) := by
    refine ⟨o₁, h₁.mono nofun, fun u hu hS hp => ?_, nofun, fun hle => ?_⟩
    · rw [h₁.entry u hu id] at hp
      exact absurd hp (hnot u hS.1 hS.2)
    · unfold tablesFor at hle
      omega
  induction n generalizing m o v page with
  | zero =>
      have hsub : ∀ u, u = v → v ≤ u ∧ u ≤ v + 0 := by omega
      unfold mapLoop
      apply mapLoop_round ha hD hv hn (hnot v (by omega) (by omega))
      · exact fun m₁ o₁ => hfail hnot
      · intro m₁ o₁ h₁
        refine wp_pure ⟨o₁, h₁.toEffect.mono hsub, fun u _ hS _ => ?_, fun _ u hu hu' => ?_,
          fun _ => ⟨rfl, ?_⟩⟩
        · obtain rfl : u = v := by omega
          rwa [h₁.new, hasU_mkPte]
        · obtain rfl : u = v := by omega
          rw [h₁.new]
          exact present_mkPte
        · have := h₁.cost
          unfold tablesFor
          omega
  | succ n ih =>
      have hsub : ∀ u, u = v → v ≤ u ∧ u ≤ v + (n + 1) := by omega
      unfold mapLoop
      apply mapLoop_round ha hD hv (by omega) (hnot v (by omega) (by omega))
      · exact fun m₁ o₁ => hfail hnot
      · intro m₁ o₁ h₁
        have hnot₁ : ∀ u, v + 1 ≤ u → u ≤ v + 1 + n → ¬ Present (m₁.entry D u) := by
          intro u hu hu'
          rw [h₁.entry u (by omega) (by omega)]
          exact hnot u (by omega) (by omega)
        have hih := ih (v := v + 1) (page + 1) h₁.acct h₁.dir (by omega) (by omega) hnot₁
        rw [show v * pgSize + pgSize = (v + 1) * pgSize by rw [Nat.add_mul, Nat.one_mul]]
        apply wp_mono hih _ fun _ => id
        rintro b m₂ ⟨o₂, h₂, hker, hall, henough⟩
        refine ⟨o₂, (h₁.toEffect.mono hsub).trans ha (h₂.mono (by omega)), fun u hu hS hp => ?_,
          fun hb u hu hu' => ?_, fun hle => ?_⟩
        · by_cases hne : u = v
          · subst hne
            rwa [h₂.entry u hu (by omega), h₁.new, hasU_mkPte]
          · exact hker u hu (by omega) hp
        · by_cases hne : u = v
          · subst hne
            rw [h₂.entry u (by omega) (by omega), h₁.new]
            exact present_mkPte
          · exact hall hb u (by omega) (by omega)
        · have hcost := h₁.cost
          have hsucc := tablesFor_succ (m := m) (n := n) h₁.table
          obtain ⟨hb, hfree⟩ := henough (by omega)
          exact ⟨hb, by omega⟩

/-- The mappings of a `kmap`: the numbers of the first page and of the last. -/
structure Kmap.Spans (k : Kmap) (a b : ℕ) : Prop where
  virt : k.virt = a * pgSize
  last : pgRoundDown (k.virt + k.size - 1) = b * pgSize
  kernel : userPages ≤ a
  le : a ≤ b
  lt : b < allPages
  perm : ¬ HasU k.perm

/-- Mappings of the kernel's half in ascending order, from the page `a` on, that need at
most `n` page tables. -/
inductive Ascending : ℕ → List Kmap → ℕ → Prop
  | nil {a n : ℕ} : Ascending a [] n
  | cons {a b c n : ℕ} {k : Kmap} {ks : List Kmap} (h : k.Spans b c) (ha : a ≤ b)
      (hks : Ascending (c + 1) ks n) :
      Ascending a (k :: ks) (n + (c / nEntries - b / nEntries + 1))

theorem mappages_kernel {k : Kmap} {a b page : ℕ} (hk : k.Spans a b) (ha : Acct m o)
    (hD : o D = .dir) (hnot : ∀ u, a ≤ u → u < allPages → ¬ Present (m.entry D u)) :
    wp (mappages D k.virt k.size page k.perm) (fun r m' => ∃ o',
      Effect D (fun u => a ≤ u ∧ u ≤ b) m o m' o' ∧
      KernelOnly m' D (fun u => a ≤ u ∧ u ≤ b) ∧
      (r = true → ∀ u, a ≤ u → u ≤ b → Present (m'.entry D u)) ∧
      (b / nEntries - a / nEntries + 1 ≤ m.free.length →
        r = true ∧ m.free.length ≤ m'.free.length + (b / nEntries - a / nEntries + 1)))
      noPanic m := by
  unfold mappages
  rw [hk.last, hk.virt, pgRoundDown_page]
  show wp (mapLoop D k.perm ((b * pgSize - a * pgSize) / pgSize) (a * pgSize) page) _ _ _
  rw [← Nat.sub_mul, Nat.mul_div_cancel _ (by decide)]
  have hlt := hk.lt
  have hab : a + (b - a) = b := by
    have := hk.le
    omega
  have hspec := mapLoop_spec (n := b - a) page ha hD hk.kernel (by omega)
    (fun u hu hu' => hnot u hu (by omega)) hk.perm
  unfold tablesFor at hspec
  rw [hab] at hspec
  apply wp_mono hspec _ fun _ => id
  rintro r m₁ ⟨o₁, h₁, hker, hall, henough⟩
  refine ⟨o₁, h₁, hker, hall, fun hle => ?_⟩
  have := missing_le (m := m) (D := D) (i := a / nEntries)
  obtain ⟨hr, hfree⟩ := henough (by omega)
  exact ⟨hr, by omega⟩

/-- The pages of the rows `ks` are present. -/
def AllMapped (m : Phys) (D : ℕ) (ks : List Kmap) : Prop :=
  ∀ k ∈ ks, ∀ a b, k.Spans a b → ∀ u, a ≤ u → u ≤ b → Present (m.entry D u)

theorem Kmap.Spans.unique {k : Kmap} {a b a' b' : ℕ} (h : k.Spans a b) (h' : k.Spans a' b') :
    a' = a ∧ b' = b :=
  ⟨Nat.eq_of_mul_eq_mul_right (by decide) (h'.virt.symm.trans h.virt),
    Nat.eq_of_mul_eq_mul_right (by decide) (h'.last.symm.trans h.last)⟩

theorem mapKernel_spec {ks : List Kmap} {a n : ℕ} (hks : Ascending a ks n) (ha : Acct m o)
    (hD : o D = .dir) (hk : userPages ≤ a)
    (hnot : ∀ u, a ≤ u → u < allPages → ¬ Present (m.entry D u)) :
    wp (mapKernel D ks) (fun b m' => ∃ o', Effect D (a ≤ ·) m o m' o' ∧
      KernelOnly m' D (a ≤ ·) ∧ (b = true → AllMapped m' D ks) ∧
      (n ≤ m.free.length → b = true ∧ m.free.length ≤ m'.free.length + n)) noPanic m := by
  induction hks generalizing m o with
  | nil =>
      refine wp_pure ⟨o, .refl ha hD, fun u hu hS hp => absurd hp (hnot u hS hu),
        fun _ _ hx => (List.not_mem_nil hx).elim, fun _ => ⟨rfl, Nat.le_add_right _ _⟩⟩
  | @cons a b c n k ks hspan hab hks ih =>
      unfold mapKernel
      apply wp_call (mappages_kernel hspan ha hD fun u hu hu' => hnot u (by omega) hu')
      rintro r m₁ ⟨o₁, h₁, hker₁, hall₁, henough₁⟩
      have hsub : ∀ u, b ≤ u ∧ u ≤ c → a ≤ u := by omega
      have hle := hspan.le
      have hother {u : ℕ} (hu : u < allPages) (hS : a ≤ u) (hne : ¬ (b ≤ u ∧ u ≤ c)) :
          ¬ Present (m₁.entry D u) := by
        rw [h₁.entry u hu hne]
        exact hnot u hS hu
      cases r with
      | false =>
          refine wp_pure ⟨o₁, h₁.mono hsub, fun u hu hS hp => ?_, by simp, fun hn => ?_⟩
          · by_cases hne : b ≤ u ∧ u ≤ c
            · exact hker₁ u hu hne hp
            · exact absurd hp (hother hu hS hne)
          · cases (henough₁ (by omega)).1
      | true =>
          apply wp_mono (ih h₁.acct h₁.dir (by omega)
            fun u hu hu' => hother hu' (by omega) (by omega)) _ fun _ => id
          rintro r m₂ ⟨o₂, h₂, hker₂, hall₂, henough₂⟩
          refine ⟨o₂, (h₁.mono hsub).trans ha (h₂.mono (by omega)), fun u hu hS hp => ?_,
            fun hr => ?_, fun hn => ?_⟩
          · by_cases hlt : c + 1 ≤ u
            · exact hker₂ u hu hlt hp
            · rw [h₂.entry u hu hlt] at hp ⊢
              by_cases hne : b ≤ u ∧ u ≤ c
              · exact hker₁ u hu hne hp
              · exact absurd hp (hother hu hS hne)
          · have hlast := hspan.lt
            refine List.forall_mem_cons.mpr ⟨fun a' b' hk' u hu hu' => ?_, hall₂ hr⟩
            obtain ⟨rfl, rfl⟩ := hspan.unique hk'
            rw [h₂.entry u (by omega) (by omega)]
            exact hall₁ rfl u hu hu'
          · obtain ⟨_, hfree₁⟩ := henough₁ (by omega)
            obtain ⟨hr, hfree₂⟩ := henough₂ (by omega)
            exact ⟨hr, by omega⟩

/-- The last row of `kmap[]`. -/
def MapsDevices (ks : List Kmap) : Prop :=
  ∃ k ∈ ks, k.Spans (devSpace / pgSize) (allPages - 1)

theorem kmap_devices (data : ℕ) : MapsDevices (kmap data) :=
  ⟨⟨devSpace, devSpace, 0, pteW⟩, List.mem_of_mem_getLast? rfl,
    ⟨rfl, rfl, by decide, by decide, by decide, by decide⟩⟩

theorem AllMapped.device {ks : List Kmap} {u : ℕ} (h : AllMapped m D ks) (hks : MapsDevices ks)
    (hu : devSpace / pgSize ≤ u) (hu' : u < allPages) : Present (m.entry D u) := by
  obtain ⟨k, hk, hspan⟩ := hks
  exact h k hk _ _ hspan u hu (by omega)

/-- Where the linker puts the kernel's data. -/
structure DataAt (data : ℕ) : Prop where
  aligned : data % pgSize = 0
  above : kernBase + extMem < data
  below : data < kernBase + physTop

/-- The rows of `kmap[]` do not overlap. -/
theorem kmap_ascending {data : ℕ} (h : DataAt data) :
    ∃ n ≤ 124, Ascending userPages (kmap data) n := by
  obtain ⟨h1, h2, h3⟩ := h
  have hsize (lo hi virt perm : ℕ) (hle : lo ≤ hi) (hlt : hi < 2 ^ 32) :
      Kmap.size ⟨virt, lo, hi, perm⟩ = hi - lo := by
    unfold Kmap.size
    dsimp only
    omega
  simp only [pgSize, kernBase, extMem, physTop] at h1 h2 h3
  have hlast := Ascending.cons (a := 0x8E000) (b := 0xFE000) (c := 0xFFFFF) (n := 0)
    (k := ⟨devSpace, devSpace, 0, pteW⟩)
    ⟨rfl, rfl, by decide, by decide, by decide, by decide⟩ (by decide) .nil
  have hthird : Kmap.Spans ⟨data, data - kernBase, physTop, pteW⟩ (data / 4096) 0x8DFFF := by
    refine ⟨?_, ?_, ?_, ?_, by decide, (by decide : ¬ HasU pteW)⟩
    · simp only [pgSize]
      omega
    · rw [hsize _ _ _ _ (by simp only [physTop, kernBase]; omega) (by decide)]
      simp only [pgRoundDown, pgSize, kernBase, physTop]
      omega
    · simp only [userPages, kernBase, pgSize]
      omega
    · omega
  have hsecond : Kmap.Spans ⟨kernBase + extMem, extMem, data - kernBase, 0⟩ 0x80100
      (data / 4096 - 1) := by
    refine ⟨rfl, ?_, by decide, ?_, ?_, (by decide : ¬ HasU 0)⟩
    · rw [hsize _ _ _ _ (by simp only [extMem, kernBase]; omega)
        (by simp only [kernBase]; omega)]
      simp only [pgRoundDown, pgSize, kernBase, extMem]
      omega
    · omega
    · simp only [allPages, nEntries]
      omega
  refine ⟨_, ?_, .cons (b := 0x80000) (c := 0x800FF)
    ⟨rfl, rfl, by decide, by decide, by decide, by decide⟩ (by decide)
    (.cons hsecond (by decide) (.cons hthird (by omega) hlast))⟩
  simp only [nEntries]
  omega

end Xv6.Vm
