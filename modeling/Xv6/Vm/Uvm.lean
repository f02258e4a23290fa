import Xv6.Vm.Spec

/-!
# User memory

`deallocuvm`, `freevm`, `setupkvm`, `allocuvm`, `clearpteu` and `copyuvm`, from any
accounted memory. The loops go page by page; the invariant of each is the `Effect` of
the rounds so far together with which pages of the range are present.
-/

namespace Xv6.Vm

open Xv6.Lib PanicM

variable {m m' m'' : Phys} {o o' o'' : ℕ → Owner} {f g D d i k v w perm : ℕ} {p : Page}
  {S T : ℕ → Prop}

/-! ## §1  `deallocuvm` -/

/-- The pages in `S` are unmapped and free; no other page changes its owner. -/
structure Unmapped (D : ℕ) (S : ℕ → Prop) (m : Phys) (o : ℕ → Owner) (m' : Phys)
    (o' : ℕ → Owner) : Prop extends Effect D S m o m' o' where
  gone : ∀ u < userPages, S u → ¬ Present (m'.entry D u)
  owner : ∀ g, o' g = o g ∨ o' g = .free ∧ ∃ u, S u ∧ o g = .user D u

namespace Unmapped

theorem refl (h : Acct m o) (hD : o D = .dir)
    (hS : ∀ u < userPages, S u → ¬ Present (m.entry D u)) : Unmapped D S m o m o :=
  ⟨.refl h hD, hS, fun _ => .inl rfl⟩

theorem mono (h : Unmapped D S m o m' o') (hST : ∀ u, S u → T u)
    (hn : ∀ u < userPages, T u → ¬ S u → ¬ Present (m.entry D u)) :
    Unmapped D T m o m' o' := by
  refine ⟨h.toEffect.mono hST, fun u hu hT => ?_, fun g => ?_⟩
  · by_cases hS : S u
    · exact h.gone u hu hS
    · rw [h.entry u (lt_of_lt_of_le hu userPages_le) hS]
      exact hn u hu hT hS
  · rcases h.owner g with hg | ⟨hg, u, hu, hgu⟩
    · exact .inl hg
    · exact .inr ⟨hg, u, hST u hu, hgu⟩

theorem trans (ha : Acct m o) (h : Unmapped D S m o m' o') (h' : Unmapped D T m' o' m'' o'') :
    Unmapped D (fun u => S u ∨ T u) m o m'' o'' := by
  refine ⟨(h.toEffect.mono fun _ => .inl).trans ha (h'.toEffect.mono fun _ => .inr),
    fun u hu hST => ?_, fun g => ?_⟩
  · by_cases hT : T u
    · exact h'.gone u hu hT
    · rw [h'.entry u (lt_of_lt_of_le hu userPages_le) hT]
      exact h.gone u hu (hST.resolve_right hT)
  · rcases h'.owner g with hg | ⟨hg, u, hu, hgu⟩
    · rw [hg]
      rcases h.owner g with hg | ⟨hg, u, hu, hgu⟩
      · exact .inl hg
      · exact .inr ⟨hg, u, .inl hu, hgu⟩
    · rcases h.owner g with hg' | ⟨hg', _⟩
      · exact .inr ⟨hg, u, .inr hu, hg' ▸ hgu⟩
      · rw [hg'] at hgu
        cases hgu

end Unmapped

theorem Phys.freed_setWord {t j : ℕ} (h : t ≠ f) :
    (m.freed f).setWord t j w = (m.setWord t j w).freed f := by
  unfold Phys.setWord
  rw [Phys.freed_ne h]
  unfold Phys.freed Phys.setPage
  dsimp only
  rw [Function.update_comm h]

/-- The page of an entry is freed and the entry cleared. -/
theorem unmapped_one {t : ℕ} (ha : Acct m o) (ht : o t = .table D (v / nEntries))
    (hf : o f = .user D v) :
    Unmapped D (· = v) m o ((m.setWord t (v % nEntries) 0).freed f)
      (Function.update o f .free) := by
  have hD := (ha.table.mp ht).1
  have hvv : v / nEntries * nEntries + v % nEntries = v := Nat.div_add_mod' v nEntries
  have hne {g : ℕ} {x : Owner} (hg : o g = x) (hx : x ≠ .user D v) : g ≠ f := by
    rintro rfl
    exact hx (hg.symm.trans hf)
  have hclear := ha.unmapUser ht hf (Owner.loose_held (D := D))
  have hacct := hclear.give (f := f) (by rw [Function.update_self]; exact Owner.loose_held)
    fun _ => 0x01010101
  rw [Function.update_idem] at hacct
  have hentry {u : ℕ} (hu : u < allPages) :
      ((m.setWord t (v % nEntries) 0).freed f).entry D u =
        (m.setWord t (v % nEntries) 0).entry D u := by
    apply hclear.entry_congr _ hu
    · intro g hg
      apply Phys.freed_ne
      rintro rfl
      rw [Function.update_self] at hg
      cases hg
    · rw [Function.update_of_ne (hne hD nofun)]
      exact hD
  refine ⟨⟨.update hacct ?_ (.inr (by rw [hf]; exact rfl)) (.inl rfl), ?_,
    fun u hu hne => ?_, fun g u hu hg => ?_, fun g hg => ?_⟩, ?_, fun g => ?_⟩
  · intro g _ _ hg
    rw [Phys.freed_ne, Phys.setWord_ne]
    · rintro rfl
      rw [ht] at hg
      exact hg rfl
    · rintro rfl
      rw [hf] at hg
      exact hg rfl
  · rw [Function.update_of_ne (hne hD nofun)]
    exact hD
  · rw [hentry hu, ha.entry_setTable ht hD hu (.inr (hvv.symm ▸ hne))]
  · rw [Phys.freed_ne, Phys.setWord_ne]
    · rintro rfl
      rw [ht] at hg
      cases hg
    · apply hne hg
      intro e
      cases e
      exact hu rfl
  · by_cases e : g = f
    · subst e
      rw [Function.update_self] at hg
      cases hg
    · rwa [Function.update_of_ne e] at hg
  · rintro u hu rfl
    rw [hentry (lt_of_lt_of_le hu userPages_le), ha.entry_setTable_self ht]
    exact not_present_zero
  · by_cases e : g = f
    · subst e
      rw [Function.update_self]
      exact .inr ⟨rfl, v, rfl, hf⟩
    · rw [Function.update_of_ne e]
      exact .inl rfl

theorem freeEntry_spec {t : ℕ} (ha : Acct m o) (ht : o t = .table D (v / nEntries))
    (hv : v < userPages) :
    wp (freeEntry t (v % nEntries)) (fun _ m' => ∃ o', Unmapped D (· = v) m o m' o')
      noPanic m := by
  have hD := (ha.table.mp ht).1
  unfold freeEntry
  apply wp_bind
  apply wp_load
  rw [← ha.entry_eq ht]
  by_cases hp : Present (m.entry D v)
  · have hf := ha.user_of hD hv hp
    have hr := ha.range (f := pteAddr (m.entry D v)) (by rw [hf]; nofun)
    have hpos := ha.pos
    rw [if_pos hp, if_neg (by omega)]
    apply wp_bind
    apply wp_kfree ha (by rw [hf]; nofun)
    apply wp_store
    rw [Phys.freed_setWord]
    · exact ⟨_, unmapped_one ha ht hf⟩
    · intro e
      rw [e, hf] at ht
      cases ht
  · rw [if_neg hp]
    refine wp_pure ⟨o, .refl ha hD ?_⟩
    rintro u _ rfl
    exact hp

/-- A directory entry without a table: none of its pages is present. -/
theorem Phys.not_present_of_div {u : ℕ} (hn : ¬ Present (m.mem D (v / nEntries)))
    (h : u / nEntries = v / nEntries) : ¬ Present (m.entry D u) := by
  rw [Phys.entry_of_not_present (h ▸ hn)]
  exact not_present_zero

theorem div_eq_of_before_jump {u : ℕ} (h : v ≤ u) (h' : u < (v / nEntries + 1) * nEntries) :
    u / nEntries = v / nEntries := by
  unfold nEntries at *
  omega

theorem deallocLoop_spec {oldsz : ℕ} (ha : Acct m o) (hD : o D = .dir) (hk : oldsz ≤ kernBase) :
    wp (deallocLoop D oldsz (v * pgSize)) (fun _ m' => ∃ o',
      Unmapped D (fun u => v ≤ u ∧ u * pgSize < oldsz) m o m' o') noPanic m := by
  -- by the bytes left, which both the next page and the jump make fewer
  induction hleft : oldsz - v * pgSize using Nat.strong_induction_on generalizing v m o with
  | _ left ih =>
    rw [deallocLoop]
    by_cases hlt : v * pgSize < oldsz
    · have hv : v < userPages := by
        unfold userPages pgSize kernBase at *
        omega
      rw [if_pos hlt]
      apply wp_call (walkpgdir_find ha hD (lt_of_lt_of_le hv userPages_le))
      rintro r m₁ ⟨rfl, hr⟩
      rcases r with _ | ⟨t, j⟩
      · have hjump : (v * pgSize / (pgSize * nEntries) + 1) * (pgSize * nEntries) =
            ((v / nEntries + 1) * nEntries) * pgSize := by
          rw [Nat.mul_comm pgSize nEntries, Nat.mul_div_mul_right _ _ (by decide),
            ← Nat.mul_assoc]
        have hnext : v < (v / nEntries + 1) * nEntries := by
          unfold nEntries
          omega
        have hless : oldsz - (v / nEntries + 1) * nEntries * pgSize < left := by
          rw [← hleft]
          have := Nat.mul_lt_mul_of_pos_right hnext (show 0 < pgSize by decide)
          omega
        rw [hjump]
        apply wp_mono (ih _ hless ha hD rfl) _ fun _ => id
        rintro _ m₂ ⟨o₂, h₂⟩
        refine ⟨o₂, h₂.mono (by omega) fun u _ hu hu' => Phys.not_present_of_div hr ?_⟩
        exact div_eq_of_before_jump hu.1 (by omega)
      · obtain ⟨ht, rfl⟩ := hr
        apply wp_call (freeEntry_spec ha ht hv)
        rintro _ m₂ ⟨o₂, h₂⟩
        have hless : oldsz - (v + 1) * pgSize < left := by
          rw [← hleft, Nat.add_mul]
          have : 0 < 1 * pgSize := by decide
          omega
        rw [show v * pgSize + pgSize = (v + 1) * pgSize by rw [Nat.add_mul, Nat.one_mul]]
        apply wp_mono (ih _ hless h₂.acct h₂.dir rfl) _ fun _ => id
        rintro _ m₃ ⟨o₃, h₃⟩
        refine ⟨o₃, (h₂.trans ha h₃).mono (fun u hu => ?_) fun u _ hu hu' => ?_⟩
        · rcases hu with rfl | ⟨hu, hu'⟩
          · exact ⟨Nat.le_refl _, hlt⟩
          · exact ⟨by omega, hu'⟩
        · exact absurd (by omega) hu'
    · rw [if_neg hlt]
      refine wp_pure ⟨o, .refl ha hD ?_⟩
      rintro u _ ⟨hu, hu'⟩
      exact absurd (lt_of_le_of_lt (Nat.mul_le_mul_right pgSize hu) hu') hlt

/-- `deallocuvm` unmaps the pages of `[newsz, oldsz)`. -/
theorem deallocuvm_spec {oldsz newsz : ℕ} (ha : Acct m o) (hD : o D = .dir)
    (hk : oldsz ≤ kernBase) :
    wp (deallocuvm D oldsz newsz) (fun r m' => r = min oldsz newsz ∧ ∃ o',
      Unmapped D (fun u => pages newsz ≤ u ∧ u < pages oldsz) m o m' o') noPanic m := by
  unfold deallocuvm
  by_cases hle : oldsz ≤ newsz
  · rw [if_pos hle]
    refine wp_pure ⟨(min_eq_left hle).symm, o, .refl ha hD ?_⟩
    intro u _ hu
    have := pages_mono hle
    omega
  · rw [if_neg hle, pgRoundUp_eq]
    apply wp_call (deallocLoop_spec ha hD hk)
    rintro _ m₁ ⟨o₁, h₁⟩
    refine wp_pure ⟨(min_eq_right (by omega)).symm, o₁, ?_⟩
    simpa only [lt_pages_iff] using h₁

/-! ## §2  `freevm` -/

/-- Nothing is left of a directory. -/
structure Gone (D : ℕ) (o : ℕ → Owner) : Prop where
  dir : o D = .free
  none : ∀ g, ¬ (o g).Of D

/-- Without the directory only the calls hold pages of it. -/
theorem Acct.held_of (ha : Acct m o) (hD : o D ≠ .dir) (hg : (o g).Of D) :
    o g = .held D := by
  cases hx : o g with
  | table D' i =>
      rw [hx] at hg
      cases hg
      exact absurd (ha.table.mp hx).1 hD
  | user D' v =>
      rw [hx] at hg
      cases hg
      exact absurd (ha.user.mp hx).1 hD
  | held D' =>
      rw [hx] at hg
      cases hg
      rfl
  | _ =>
      rw [hx] at hg
      cases hg

/-- The second loop of `freevm`, once the directory and its tables are given up. -/
theorem freeTables_spec {is : List ℕ} (ha : Acct m o) (hD : o D = .held D)
    (htab : ∀ i ∈ is, Present (m.mem D i) →
      pteAddr (m.mem D i) ≠ D ∧ o (pteAddr (m.mem D i)) = .held D)
    (hinj : is.Pairwise fun i j => Present (m.mem D i) → Present (m.mem D j) →
      pteAddr (m.mem D i) ≠ pteAddr (m.mem D j)) :
    wp (freeTables D is) (fun _ m' => ∃ o', Within D m o m' o' ∧ o' D = .held D ∧
      ∀ g, o' g = .held D → o g = .held D ∧
        ∀ i ∈ is, Present (m.mem D i) → pteAddr (m.mem D i) ≠ g) noPanic m := by
  induction is generalizing m o with
  | nil => exact wp_pure ⟨o, .refl ha, hD, fun g hg => ⟨hg, nofun⟩⟩
  | cons i is ih =>
      obtain ⟨hi, hinj⟩ := List.pairwise_cons.mp hinj
      unfold freeTables
      apply wp_bind
      apply wp_load
      by_cases hp : Present (m.mem D i)
      · obtain ⟨hne, hheld⟩ := htab i List.mem_cons_self hp
        rw [if_pos hp]
        apply wp_bind
        apply wp_kfree ha (by rw [hheld]; nofun)
        have hmem : (m.freed (pteAddr (m.mem D i))).mem D = m.mem D :=
          Phys.freed_ne hne.symm
        have hw := within_freed ha hheld
        have hih := ih hw.acct (by rwa [Function.update_of_ne hne.symm]) (fun j hj hpj => ?_)
          (by rwa [hmem])
        · apply wp_mono hih _ fun _ => id
          rintro _ m₁ ⟨o₁, h₁, hD₁, hkeep⟩
          refine ⟨o₁, hw.trans h₁, hD₁, fun g hg => ?_⟩
          obtain ⟨hg₁, hrest⟩ := hkeep g hg
          rw [hmem] at hrest
          have hgi : g ≠ pteAddr (m.mem D i) := by
            rintro rfl
            rw [Function.update_self] at hg₁
            cases hg₁
          rw [Function.update_of_ne hgi] at hg₁
          refine ⟨hg₁, fun j hj => ?_⟩
          rcases List.mem_cons.mp hj with rfl | hj
          · exact fun _ => hgi.symm
          · exact hrest j hj
        · rw [hmem] at hpj ⊢
          obtain ⟨hneD, hheldj⟩ := htab j (List.mem_cons_of_mem i hj) hpj
          refine ⟨hneD, ?_⟩
          rwa [Function.update_of_ne (hi j hj hp hpj).symm]
      · rw [if_neg hp]
        apply wp_mono (ih ha hD (fun j hj => htab j (List.mem_cons_of_mem i hj)) hinj) _
          fun _ => id
        rintro _ m₁ ⟨o₁, h₁, hD₁, hkeep⟩
        refine ⟨o₁, h₁, hD₁, fun g hg => ⟨(hkeep g hg).1, fun j hj => ?_⟩⟩
        rcases List.mem_cons.mp hj with rfl | hj
        · exact fun h => absurd h hp
        · exact (hkeep g hg).2 j hj

open Classical in
/-- The owners once `D` and its page tables are given up. -/
noncomputable def dropped (D : ℕ) (o : ℕ → Owner) (g : ℕ) : Owner :=
  if g = D ∨ ∃ i, o g = .table D i then .held D else o g

theorem dropped_of (h : g = D ∨ ∃ i, o g = .table D i) : dropped D o g = .held D := if_pos h

theorem dropped_of_not (h : ¬ (g = D ∨ ∃ i, o g = .table D i)) : dropped D o g = o g :=
  if_neg h

theorem within_dropped (ha : Acct m o) (hD : o D = .dir)
    (hn : ∀ v < userPages, ¬ Present (m.entry D v)) : Within D m o m (dropped D o) := by
  refine ⟨ha.dropDir hD hn (dropped_of (.inl rfl)) (fun g i hg => dropped_of (.inr ⟨i, hg⟩))
    fun g hg ht => dropped_of_not ?_, fun g hg _ hof => ⟨dropped_of_not ?_, rfl⟩,
    fun g hg hof => ?_⟩
  · exact fun h => h.elim hg fun ⟨i, h⟩ => ht i h
  · rintro (h | ⟨i, h⟩)
    · exact hg h
    · rw [h] at hof
      exact hof rfl
  · by_cases h : g = D ∨ ∃ i, o g = .table D i
    · rw [dropped_of h]
      exact .inr rfl
    · rwa [dropped_of_not h]

/-- `freevm` frees the user pages, the page tables and the directory. -/
theorem freevm_spec (ha : Acct m o) (hD : o D = .dir) (hheld : ∀ g, o g ≠ .held D) :
    wp (freevm D) (fun _ m' => ∃ o', Within D m o m' o' ∧ Gone D o') noPanic m := by
  unfold freevm
  apply wp_call (deallocuvm_spec ha hD (Nat.le_refl kernBase))
  rintro _ m₁ ⟨_, o₁, h₁⟩
  have hn : ∀ v < userPages, ¬ Present (m₁.entry D v) := by
    intro v hv
    apply h₁.gone v hv
    rw [pages_kernBase, pages_zero]
    exact ⟨Nat.zero_le v, hv⟩
  have h₂ := within_dropped h₁.acct h₁.dir hn
  have htable {i : ℕ} (hi : i ∈ List.range nEntries) (hp : Present (m₁.mem D i)) :
      o₁ (pteAddr (m₁.mem D i)) = .table D i :=
    h₁.acct.table_of h₁.dir (List.mem_range.mp hi) hp
  apply wp_call (freeTables_spec h₂.acct (dropped_of (.inl rfl)) ?_ ?_)
  · rintro _ m₃ ⟨o₃, h₃, hD₃, hkeep⟩
    apply wp_kfree h₃.acct (by rw [hD₃]; nofun)
    refine ⟨_, h₁.toWithin.trans (h₂.trans (h₃.trans (within_freed h₃.acct hD₃))),
      Function.update_self .., fun g hg => ?_⟩
    -- a page still held was a table, which the loop has freed
    by_cases hgD : g = D
    · subst hgD
      rw [Function.update_self] at hg
      exact hg
    · rw [Function.update_of_ne hgD] at hg
      obtain ⟨hg₂, hrest⟩ := hkeep g (h₃.acct.held_of (by rw [hD₃]; nofun) hg)
      by_cases ht : g = D ∨ ∃ i, o₁ g = .table D i
      · obtain ⟨i, ht⟩ := ht.resolve_left hgD
        obtain ⟨_, hi, hp, he⟩ := h₁.acct.table.mp ht
        exact hrest i (List.mem_range.mpr hi) hp he
      · rw [dropped_of_not ht] at hg₂
        exact hheld g (h₁.held g hg₂)
  · intro i hi hp
    have ht := htable hi hp
    refine ⟨?_, dropped_of (.inr ⟨i, ht⟩)⟩
    intro e
    rw [e, h₁.dir] at ht
    cases ht
  · apply List.pairwise_lt_range.imp_of_mem
    intro i j hi hj hlt hpi hpj e
    have := htable hi hpi
    rw [e, htable hj hpj] at this
    cases this
    exact absurd hlt (lt_irrefl _)

/-- A directory built from free pages and taken down again leaves the owners as they
were. -/
theorem Within.restored (h : Within D m o m' o') (hD : o D = .free)
    (hnone : ∀ g, ¬ (o g).Of D) (hgone : Gone D o') :
    o' = o ∧ ∀ g, o g ≠ .free → m'.mem g = m.mem g := by
  have hfree {g : ℕ} (hg : o g ≠ .free) : g ≠ D := by
    rintro rfl
    exact hg hD
  refine ⟨funext fun g => ?_, fun g hg => (h.frame g (hfree hg) hg (hnone g)).2⟩
  by_cases hg : o g = .free
  · by_cases hgD : g = D
    · subst hgD
      rw [hD, hgone.dir]
    · rw [hg]
      exact (h.mine g hgD (.inl hg)).resolve_right (hgone.none g)
  · exact (h.frame g (hfree hg) hg (hnone g)).1

/-! ## §3  `setupkvm` -/

/-- No call is in progress. -/
def Idle (o : ℕ → Owner) : Prop := ∀ g D, o g ≠ .held D

theorem Idle.not_of (hi : Idle o) (ha : Acct m o) (hD : o D ≠ .dir) : ¬ (o g).Of D :=
  fun hg => hi g D (ha.held_of hD hg)

/-- A new directory whose present user pages are those in `S`. -/
structure Fresh (D : ℕ) (S : ℕ → Prop) (m : Phys) (o : ℕ → Owner) (m' : Phys)
    (o' : ℕ → Owner) : Prop extends Within D m o m' o' where
  free : o D = .free
  dir : o' D = .dir
  present : ∀ u < userPages, Present (m'.entry D u) ↔ S u
  kernel : KernelOnly m' D (userPages ≤ ·)
  idle : ∀ g, o' g ≠ .held D

/-- `setupkvm`, for a kernel map that needs at most `n` page tables. -/
theorem setupkvm_spec {ks : List Kmap} {n : ℕ} (hks : Ascending userPages ks n)
    (ha : Acct m o) (hi : Idle o) :
    wp (setupkvm ks) (fun r m' =>
      match r with
      | none => (Acct m' o ∧ ∀ g, o g ≠ .free → m'.mem g = m.mem g) ∧ m.free.length ≤ n
      | some D => ∃ o', Fresh D (fun _ => False) m o m' o' ∧
          (n < m.free.length → m.free.length ≤ m'.free.length + n + 1) ∧ AllMapped m' D ks)
      noPanic m := by
  unfold setupkvm
  apply wp_bind
  apply wp_kalloc
  · intro hf
    refine wp_pure ⟨⟨ha, fun _ _ => rfl⟩, ?_⟩
    rw [hf]
    exact Nat.zero_le n
  · intro f fs hf
    have hfree := ha.owner_of_free hf
    have hnone (g : ℕ) : ¬ (o g).Of f := hi.not_of ha (by rw [hfree]; simp)
    have hnew := (ha.hold (D := f) hf fun _ => 0).newDir
      (by rw [Function.update_self]; exact Owner.loose_held) Phys.setPage_self
    rw [Function.update_idem] at hnew
    have h₁ : Within f m o ({ m with free := fs }.setPage f fun _ => 0)
        (Function.update o f .dir) := by
      refine ⟨hnew, fun g hg _ _ => ?_, fun g hg => ?_⟩
      · rw [Function.update_of_ne hg, Phys.setPage_ne hg]
        exact ⟨rfl, rfl⟩
      · rw [Function.update_of_ne hg]
        exact id
    have hempty (u : ℕ) :
        ¬ Present (({ m with free := fs }.setPage f fun _ => 0).entry f u) := by
      have hpde (i : ℕ) :
          ¬ Present (({ m with free := fs }.setPage f fun _ => 0).mem f i) := by
        rw [Phys.setPage_self]
        exact not_present_zero
      rw [Phys.entry_of_not_present (hpde _)]
      exact not_present_zero
    apply wp_bind
    apply wp_zeroPage
    rw [if_neg (by decide)]
    apply wp_call (mapKernel_spec hks hnew (Function.update_self ..) (Nat.le_refl _)
      fun u _ _ => hempty u)
    rintro b m₂ ⟨o₂, h₂, hker, hall, henough⟩
    have hlen : m.free.length = fs.length + 1 := by rw [hf, List.length_cons]
    have hidle (g : ℕ) : o₂ g ≠ .held f := by
      intro hg
      have hg := h₂.held g hg
      by_cases e : g = f
      · subst e
        rw [Function.update_self] at hg
        cases hg
      · rw [Function.update_of_ne e] at hg
        exact hi g f hg
    cases b with
    | true =>
        refine wp_pure ⟨o₂, ⟨h₁.trans h₂.toWithin, hfree, h₂.dir, fun u hu => ?_, hker,
          hidle⟩, fun hn => ?_, hall rfl⟩
        · rw [h₂.entry u (lt_of_lt_of_le hu userPages_le) (not_le.mpr hu)]
          exact iff_of_false (hempty u) id
        · have := (henough (by show n ≤ fs.length; omega)).2
          have : fs.length ≤ m₂.free.length + n := this
          omega
    | false =>
        apply wp_call (freevm_spec h₂.acct h₂.dir hidle)
        rintro _ m₃ ⟨o₃, h₃, hgone⟩
        have h := h₁.trans (h₂.toWithin.trans h₃)
        obtain ⟨ho, hm⟩ := h.restored hfree hnone hgone
        refine wp_pure ⟨⟨ho ▸ h.acct, hm⟩, ?_⟩
        by_contra hn
        cases (henough (by show n ≤ fs.length; omega)).1

/-! ## §4  `allocuvm` -/

/-- The user pages from `k` on. -/
def From (k u : ℕ) : Prop := k ≤ u ∧ u < userPages

/-- The pages from `lo` on that are present are those below `hi`; they are the user's, and
zero. -/
structure Added (D lo hi : ℕ) (m : Phys) : Prop where
  present : ∀ u, lo ≤ u → u < userPages → (Present (m.entry D u) ↔ u < hi)
  user : ∀ u, lo ≤ u → u < hi → HasU (m.entry D u)
  zero : ∀ u, lo ≤ u → u < hi → m.mem (pteAddr (m.entry D u)) = fun _ => 0

theorem Unmapped.added {lo hi : ℕ} (h : Unmapped D (fun u => lo ≤ u ∧ u < hi) m o m' o')
    (hn : ∀ u, hi ≤ u → u < userPages → ¬ Present (m.entry D u)) : Added D lo lo m' := by
  refine ⟨fun u hu hu' => iff_of_false ?_ (not_lt.mpr hu),
    fun u hu hu' => absurd hu' (not_lt.mpr hu), fun u hu hu' => absurd hu' (not_lt.mpr hu)⟩
  · by_cases hhi : u < hi
    · exact h.gone u hu' ⟨hu, hhi⟩
    · rw [h.entry u (lt_of_lt_of_le hu' userPages_le) fun h => hhi h.2]
      exact hn u (not_lt.mp hhi) hu'

/-- A zeroed page that was free is mapped at the end. -/
theorem Added.succ (hadd : Added D k v m) (ha : Acct m o) (hD : o D = .dir)
    (hv : v < userPages) (hk : k ≤ v)
    (h : Effect D (· = v) m o m' o') (he : m'.entry D v = mkPte f (pteW + pteU))
    (hz : m'.mem f = fun _ => 0) : Added D k (v + 1) m' := by
  have hsame {u : ℕ} (hu : u < userPages) (hne : u ≠ v) : m'.entry D u = m.entry D u :=
    h.entry u (lt_of_lt_of_le hu userPages_le) hne
  refine ⟨fun u hu hu' => ?_, fun u hu hu' => ?_, fun u hu hu' => ?_⟩
  · by_cases hne : u = v
    · subst hne
      rw [he]
      exact iff_of_true present_mkPte (Nat.lt_succ_self u)
    · rw [hsame hu' hne, hadd.present u hu hu']
      omega
  · by_cases hne : u = v
    · subst hne
      rw [he, hasU_mkPte]
      decide
    · rw [hsame (by omega) hne]
      exact hadd.user u hu (by omega)
  · by_cases hne : u = v
    · subst hne
      rw [he, pteAddr_mkPte perm_lt, hz]
    · have hlt : u < v := by omega
      have hp := (hadd.present u hu (by omega)).mpr hlt
      rw [hsame (by omega) hne, h.page _ u hne (ha.user_of hD (by omega) hp)]
      exact hadd.zero u hu hlt

/-- The memory after a page was taken, not mapped and given back. -/
theorem Unmapped.giveUp {fs : List ℕ} {lo hi : ℕ} {m₁ m₂ : Phys} {o₁ o₂ : ℕ → Owner}
    (ha : Acct m o) (hD : o D = .dir) (hf : m.free = f :: fs)
    (h₁ : Effect D S ({ m with free := fs }.setPage f p)
      (Function.update o f (.held D)) m₁ o₁) (hf₁ : o₁ f = .held D)
    (h₂ : Unmapped D (fun u => lo ≤ u ∧ u < hi) m₁ o₁ m₂ o₂) (hhi : hi ≤ userPages)
    (hS : ∀ u, S u → From lo u) : o₂ f = .held D ∧
    Effect D (From lo) m o (m₂.freed f) (Function.update o₂ f .free) := by
  have hf₂ : o₂ f = .held D := by
    rcases h₂.owner f with he | ⟨_, u, _, he⟩
    · rw [he, hf₁]
    · rw [hf₁] at he
      cases he
  have hall := (h₁.mono hS).trans (ha.hold hf p) (h₂.toEffect.mono fun u hu => ⟨hu.1, lt_of_lt_of_le hu.2 hhi⟩)
  refine ⟨hf₂, Effect.of_hold ha hf hD (hall.freed hf₂ ?_) ?_⟩
  · rw [Function.update_self]
  · rw [Function.update_self]
    nofun

theorem Phys.entry_freed (ha : Acct m o) (hD : o D = .dir) (hf : o f = .held D)
    (hv : v < allPages) : (m.freed f).entry D v = m.entry D v := by
  apply ha.entry_congr hD hv
  intro g hg
  apply Phys.freed_ne
  rintro rfl
  rw [hf] at hg
  cases hg

/-- What `allocuvm`'s loop returns: the new size with the pages added, or 0 with none. -/
def Grown (D oldsz newsz r : ℕ) (m : Phys) : Prop :=
  r = newsz ∧ Added D (pages oldsz) (pages newsz) m ∨
    r = 0 ∧ newsz ≠ 0 ∧ Added D (pages oldsz) (pages oldsz) m

/-- Two free pages for each of the `n` pages that are added are enough. -/
def Ample (n newsz r : ℕ) (m m' : Phys) : Prop :=
  2 * n ≤ m.free.length → r = newsz ∧ m.free.length ≤ m'.free.length + 2 * n

theorem allocLoop_spec {oldsz newsz : ℕ} (ha : Acct m o) (hD : o D = .dir)
    (hk : newsz < kernBase) (hle : oldsz ≤ newsz) (hv : pages oldsz ≤ v)
    (hv' : v ≤ pages newsz) :
    wp (allocLoop D oldsz newsz (v * pgSize)) (fun r m' =>
      ∃ o', Effect D (From (pages oldsz)) m o m' o' ∧
        (Added D (pages oldsz) v m → Grown D oldsz newsz r m' ∧
          Ample (pages newsz - v) newsz r m m'))
      (fun _ => ¬ Added D (pages oldsz) v m) m := by
  have hhi : pages newsz ≤ userPages := pages_le_userPages (le_of_lt hk)
  induction hleft : pages newsz - v generalizing v m o with
  | zero =>
      have hend : v = pages newsz := by omega
      have hlt : ¬ v * pgSize < newsz := by
        rw [← lt_pages_iff]
        omega
      rw [allocLoop, if_neg hlt]
      exact wp_pure ⟨o, .refl ha hD, fun hadd => ⟨.inl ⟨rfl, hend ▸ hadd⟩, fun _ =>
        ⟨rfl, Nat.le_add_right _ _⟩⟩⟩
  | succ left ih =>
      have hlt : v < pages newsz := by omega
      have hvu : v < userPages := lt_of_lt_of_le hlt hhi
      have hva := lt_of_lt_of_le hvu userPages_le
      -- what is above the pages added so far is not present, also where it is rolled back
      have habove (hadd : Added D (pages oldsz) v m) (u : ℕ) (hu : pages newsz ≤ u)
          (hu' : u < userPages) : ¬ Present (m.entry D u) := fun hp =>
        absurd ((hadd.present u (by omega) hu').mp hp) (by omega)
      have hnz : newsz ≠ 0 := by
        rintro rfl
        rw [pages_zero] at hlt
        omega
      rw [allocLoop, if_pos (lt_pages_iff.mp hlt)]
      apply wp_bind
      apply wp_kalloc
      · intro hf
        apply wp_call (wp_mono (deallocuvm_spec ha hD (le_of_lt hk)) (fun _ _ => id) nofun)
        rintro _ m₁ ⟨_, o₁, h₁⟩
        refine wp_pure ⟨o₁, h₁.toEffect.mono fun u hu => ⟨hu.1, lt_of_lt_of_le hu.2 hhi⟩,
          fun hadd => ⟨.inr ⟨rfl, hnz, h₁.added (habove hadd)⟩, fun hle => ?_⟩⟩
        rw [hf, List.length_nil] at hle
        omega
      · intro f fs hf
        have hDf : D ≠ f := by
          rintro rfl
          rw [ha.owner_of_free hf] at hD
          cases hD
        have hhold := ha.hold (D := D) hf fun _ => 0
        have hD₁ : Function.update o f (.held D) D = .dir := by
          rwa [Function.update_of_ne hDf]
        apply wp_bind
        apply wp_zeroPage
        by_cases hn₁ : Present (({ m with free := fs }.setPage f fun _ => 0).entry D v)
        · refine wp_call (wp_mono (mappages_remap hhold hD₁ hvu hn₁) (fun _ _ => id) ?_) nofun
          rintro _ _ hadd
          rw [entry_hold ha hf hD hva] at hn₁
          exact lt_irrefl v ((hadd.present v hv hvu).mp hn₁)
        apply wp_call (wp_mono (mappages_spec hhold hD₁ (Function.update_self ..) hvu hn₁ perm_lt)
          (fun _ _ => id) nofun)
        rintro b m₁ ⟨o₁, h₁, hfm, hb⟩
        cases b with
        | true =>
            obtain ⟨he, hf₁, hcost⟩ := hb
            have h := Effect.of_hold ha hf hD h₁ (by rw [hf₁]; nofun)
            rw [Phys.setPage_self] at hfm
            have hsucc (hadd : Added D (pages oldsz) v m) :=
              hadd.succ ha hD hvu hv h he hfm
            rw [show v * pgSize + pgSize = (v + 1) * pgSize by rw [Nat.add_mul, Nat.one_mul]]
            apply wp_mono (ih h.acct h.dir (by omega) (by omega) (by omega)) _
              fun _ hnot hadd => hnot (hsucc hadd)
            rintro r m₂ ⟨o₂, h₂, hr⟩
            refine ⟨o₂, (h.mono fun u hu => ?_).trans ha h₂, fun hadd => ?_⟩
            · exact hu ▸ ⟨hv, hvu⟩
            · obtain ⟨hgrown, hample⟩ := hr (hsucc hadd)
              refine ⟨hgrown, fun hle => ?_⟩
              have hcost : fs.length ≤ m₁.free.length + 1 := hcost
              rw [hf, List.length_cons] at hle ⊢
              obtain ⟨hr, hfree⟩ := hample (by omega)
              exact ⟨hr, by omega⟩
        | false =>
            obtain ⟨he, hf₁, hempty⟩ := hb
            have habove₁ (hadd : Added D (pages oldsz) v m) (u : ℕ) (hu : pages newsz ≤ u)
                (hu' : u < userPages) : ¬ Present (m₁.entry D u) := by
              have hua := lt_of_lt_of_le hu' userPages_le
              rw [h₁.entry u hua (by omega), entry_hold ha hf hD hua]
              exact habove hadd u hu hu'
            apply wp_call (wp_mono (deallocuvm_spec h₁.acct h₁.dir (le_of_lt hk))
              (fun _ _ => id) nofun)
            rintro _ m₂ ⟨_, o₂, h₂⟩
            obtain ⟨hf₂, h⟩ := Unmapped.giveUp ha hD hf h₁ hf₁ h₂ hhi
              fun u hu => hu ▸ ⟨hv, hvu⟩
            have hent {u : ℕ} (hu : u < userPages) :=
              Phys.entry_freed h₂.acct h₂.dir hf₂ (lt_of_lt_of_le hu userPages_le)
            apply wp_bind
            apply wp_kfree h₂.acct (by rw [hf₂]; nofun)
            refine wp_pure ⟨_, h, fun hadd => ⟨.inr ⟨rfl, hnz, fun u hu hu' => ?_,
              fun u hu hu' => absurd hu' (not_lt.mpr hu),
              fun u hu hu' => absurd hu' (not_lt.mpr hu)⟩, fun hle => ?_⟩⟩
            · rw [hent hu']
              exact (h₂.added (habove₁ hadd)).present u hu hu'
            · rw [hf, show fs = [] from hempty, List.length_singleton] at hle
              omega

/-- The pages present in the user half are those of `[0, sz)`. -/
def Sized (m : Phys) (D sz : ℕ) : Prop :=
  ∀ u < userPages, Present (m.entry D u) ↔ u < pages sz

theorem allocuvm_spec {oldsz newsz : ℕ} (ha : Acct m o) (hD : o D = .dir)
    (hs : Sized m D oldsz) :
    wp (allocuvm D oldsz newsz) (fun r m' => ∃ o', Effect D (From (pages oldsz)) m o m' o' ∧
      (newsz < oldsz ∧ newsz < kernBase ∧ r = oldsz ∧ m' = m ∨
        newsz < oldsz ∧ kernBase ≤ newsz ∧ r = 0 ∧ m' = m ∨
        oldsz ≤ newsz ∧ Grown D oldsz newsz r m' ∧ (r = 0 ∨ newsz < kernBase) ∧
          (newsz < kernBase → Ample (pages newsz - pages oldsz) newsz r m m'))) noPanic m := by
  have hadd : Added D (pages oldsz) (pages oldsz) m :=
    ⟨fun u _ hu => hs u hu, fun u hu hu' => absurd hu' (not_lt.mpr hu),
      fun u hu hu' => absurd hu' (not_lt.mpr hu)⟩
  unfold allocuvm
  by_cases hk : kernBase ≤ newsz
  · rw [if_pos hk]
    refine wp_pure ⟨o, .refl ha hD, ?_⟩
    by_cases hlt : newsz < oldsz
    · exact .inr (.inl ⟨hlt, hk, rfl, rfl⟩)
    · have hnz : newsz ≠ 0 := by
        rintro rfl
        exact absurd hk (by decide)
      exact .inr (.inr ⟨not_lt.mp hlt, .inr ⟨rfl, hnz, hadd⟩, .inl rfl,
        fun hlt => absurd hk (not_le.mpr hlt)⟩)
  · rw [if_neg hk]
    by_cases hlt : newsz < oldsz
    · rw [if_pos hlt]
      exact wp_pure ⟨o, .refl ha hD, .inl ⟨hlt, not_le.mp hk, rfl, rfl⟩⟩
    · have hle := not_lt.mp hlt
      rw [if_neg hlt, pgRoundUp_eq]
      apply wp_mono (allocLoop_spec ha hD (not_le.mp hk) hle (Nat.le_refl _)
        (pages_mono hle)) _ fun _ hnot => hnot hadd
      rintro r m₁ ⟨o₁, h₁, hgrown⟩
      obtain ⟨hr, hample⟩ := hgrown hadd
      exact ⟨o₁, h₁, .inr (.inr ⟨hle, hr, .inr (not_le.mp hk), fun _ => hample⟩)⟩

/-- Whatever the size it is told, `allocuvm` changes pages of the user from there on only. -/
theorem allocuvm_effect {oldsz newsz : ℕ} (ha : Acct m o) (hD : o D = .dir) :
    wp (allocuvm D oldsz newsz) (fun _ m' => ∃ o', Effect D (From (pages oldsz)) m o m' o')
      (fun _ => True) m := by
  unfold allocuvm
  refine wp_ite (fun _ => wp_pure ⟨o, .refl ha hD⟩) fun hk => ?_
  refine wp_ite (fun _ => wp_pure ⟨o, .refl ha hD⟩) fun hlt => ?_
  rw [pgRoundUp_eq]
  have hle := not_lt.mp hlt
  refine wp_mono (allocLoop_spec ha hD (not_le.mp hk) hle (Nat.le_refl _) (pages_mono hle)) ?_
    fun _ _ => trivial
  rintro r m₁ ⟨o₁, h₁, _⟩
  exact ⟨o₁, h₁⟩

/-! ## §5  `clearpteu` and `copyuvm` -/

theorem walkpgdir_round {va : ℕ} {b : Bool} :
    walkpgdir D va b = walkpgdir D (va / pgSize * pgSize) b := by
  have hpdx : pdx (va / pgSize * pgSize) = pdx va := by
    unfold pdx
    rw [← Nat.div_div_eq_div_mul, ← Nat.div_div_eq_div_mul, Nat.mul_div_cancel _ (by decide)]
  have hptx : ptx (va / pgSize * pgSize) = ptx va := by
    unfold ptx
    rw [Nat.mul_div_cancel _ (by decide)]
  unfold walkpgdir
  rw [hpdx, hptx]

/-- `clearpteu` changes no mapping; it panics on a missing page table. -/
theorem clearpteu_spec {uva : ℕ} (ha : Acct m o) (hD : o D = .dir)
    (hv : uva / pgSize < allPages) :
    wp (clearpteu D uva) (fun _ m' => Effect D (· = uva / pgSize) m o m' o ∧
        m'.entry D (uva / pgSize) = clearU (m.entry D (uva / pgSize)) ∧
        ∀ g v, o g = .user D v → m'.mem g = m.mem g)
      (fun e => e = .clearpteu ∧ ¬ Present (m.mem D (uva / pgSize / nEntries))) m := by
  unfold clearpteu
  rw [walkpgdir_round]
  apply wp_call (wp_mono (walkpgdir_find ha hD hv) (fun _ _ => id) nofun)
  rintro r m₁ ⟨rfl, hr⟩
  rcases r with _ | ⟨t, j⟩
  · exact wp_throw ⟨rfl, hr⟩
  · obtain ⟨ht, rfl⟩ := hr
    apply wp_bind
    apply wp_load
    rw [← ha.entry_eq ht]
    apply wp_store
    have hvv := Nat.div_add_mod' (uva / pgSize) nEntries
    have hpage {w g u : ℕ} (hg : o g = .user D u) :
        (m₁.setWord t (uva / pgSize % nEntries) w).mem g = m₁.mem g := by
      apply Phys.setWord_ne
      rintro rfl
      rw [ht] at hg
      cases hg
    refine ⟨⟨⟨ha.sameEntry ht present_clearU (pteAddr_clearU _), fun g _ _ hg => ⟨rfl, ?_⟩,
      fun _ _ => id⟩, hD, fun u hu hne => ?_, fun g u _ => hpage, fun _ => id⟩, ?_,
      fun g u => hpage⟩
    · apply Phys.setWord_ne
      rintro rfl
      rw [ht] at hg
      exact hg rfl
    · exact ha.entry_setTable ht hD hu (.inr (hvv.symm ▸ hne))
    · exact ha.entry_setTable_self ht

theorem copyFetch_spec (ha : Acct m o) (hD : o D = .dir) (hv : v < userPages)
    (hp : Present (m.entry D v)) :
    wp (copyFetch D (v * pgSize)) (fun w m' => w = m.entry D v ∧ m' = m) noPanic m := by
  unfold copyFetch
  apply wp_call (walkpgdir_find ha hD (lt_of_lt_of_le hv userPages_le))
  rintro r m₁ ⟨rfl, hr⟩
  rcases r with _ | ⟨t, j⟩
  · exact absurd hp (Phys.not_present_of_div hr rfl)
  · obtain ⟨ht, rfl⟩ := hr
    apply wp_bind
    apply wp_load
    rw [← ha.entry_eq ht, if_pos hp]
    exact wp_pure ⟨rfl, rfl⟩

/-- A page is copied into the directory, or memory is out and nothing is mapped. -/
theorem copyStore_spec (ha : Acct m o) (hD : o D = .dir) (hv : v < userPages)
    (hn : ¬ Present (m.entry D v)) :
    wp (copyStore D (v * pgSize) w) (fun b m' => ∃ o', Effect D (· = v) m o m' o' ∧
      (Present (m'.entry D v) ↔ b = true) ∧ (2 ≤ m.free.length → b = true) ∧
      (b = true → ∃ f, m'.entry D v = mkPte f (pteFlags w) ∧ m'.mem f = m.mem (pteAddr w)))
      noPanic m := by
  have hva := lt_of_lt_of_le hv userPages_le
  unfold copyStore
  apply wp_bind
  apply wp_kalloc
  · intro hf
    refine wp_pure ⟨o, .refl ha hD, iff_of_false hn (by simp), fun hlen => ?_, by simp⟩
    rw [hf] at hlen
    exact absurd hlen (by decide)
  · intro f fs hf
    have hDf : D ≠ f := by
      rintro rfl
      rw [ha.owner_of_free hf] at hD
      cases hD
    apply wp_bind
    apply wp_copyPage
    generalize hp : ({ m with free := fs } : Phys).mem (pteAddr w) = p
    have hhold := ha.hold (D := D) hf p
    have hn₁ : ¬ Present (({ m with free := fs }.setPage f p).entry D v) := by
      rwa [entry_hold ha hf hD hva]
    apply wp_call (mappages_spec hhold (by rwa [Function.update_of_ne hDf])
      (Function.update_self ..) hv hn₁ (pteFlags_lt w))
    rintro b m₁ ⟨o₁, h₁, hmem, hb⟩
    cases b with
    | true =>
        obtain ⟨he, hf₁, _⟩ := hb
        refine wp_pure ⟨o₁, .of_hold ha hf hD h₁ (by rw [hf₁]; simp), ?_, fun _ => rfl,
          fun _ => ⟨f, he, ?_⟩⟩
        · rw [he]
          exact iff_of_true present_mkPte rfl
        · rw [hmem, Phys.setPage_self, ← hp]
    | false =>
        obtain ⟨he, hf₁, hempty⟩ := hb
        apply wp_bind
        apply wp_kfree h₁.acct (by rw [hf₁]; simp)
        refine wp_pure ⟨_, .of_hold ha hf hD (h₁.freed hf₁ (Function.update_self ..)) ?_, ?_,
          fun hlen => ?_, by simp⟩
        · rw [Function.update_self]
          simp
        · rw [Phys.entry_freed h₁.acct h₁.dir hf₁ hva, he]
          exact iff_of_false hn₁ (by simp)
        · rw [hf, show fs = [] from hempty, List.length_singleton] at hlen
          exact absurd hlen (by decide)

/-- Entries are not in user pages. -/
theorem Acct.entry_write (ha : Acct m o) (hD : o D = .dir) (hf : o f = .user d v) {u : ℕ}
    (hu : u < allPages) : (m.setPage f p).entry D u = m.entry D u := by
  apply ha.entry_congr hD hu
  intro g hg
  apply Phys.setPage_ne
  rintro rfl
  rw [hf] at hg
  cases hg

/-- A user page of the new directory is written. -/
theorem Fresh.write {m₀ : Phys} {o₀ : ℕ → Owner} (h : Fresh d S m₀ o₀ m o)
    (hf : o f = .user d v) : Fresh d S m₀ o₀ (m.setPage f p) o := by
  have hentry {u : ℕ} (hu : u < allPages) : (m.setPage f p).entry d u = m.entry d u :=
    h.acct.entry_write h.dir hf hu
  refine ⟨⟨h.acct.write (by rw [hf]; rfl) p, fun g hg hfree hof => ?_, h.mine⟩, h.free, h.dir,
    fun u hu => ?_, fun u hu => ?_, h.idle⟩
  · obtain ⟨ho, hm⟩ := h.frame g hg hfree hof
    refine ⟨ho, (Phys.setPage_ne ?_).trans hm⟩
    rintro rfl
    rw [← ho, hf] at hof
    exact hof rfl
  · rw [hentry (lt_of_lt_of_le hu userPages_le)]
    exact h.present u hu
  · rw [hentry hu]
    exact h.kernel u hu

/-- A call on the new directory leaves the kernel's half alone. -/
theorem Fresh.step {S' : ℕ → Prop} {m₀ : Phys} {o₀ : ℕ → Owner}
    (h : Fresh d S m₀ o₀ m o)
    (he : Effect d T m o m' o') (hT : ∀ u, T u → u < userPages)
    (hp : ∀ u < userPages, Present (m'.entry d u) ↔ S' u) : Fresh d S' m₀ o₀ m' o' := by
  refine ⟨h.toWithin.trans he.toWithin, h.free, he.dir, hp, fun u hu hk => ?_,
    fun g hg => h.idle g (he.held g hg)⟩
  rw [he.entry u hu fun hTu => absurd (hT u hTu) (not_lt.mpr hk)]
  exact h.kernel u hu hk

/-- One more page of a new directory. -/
theorem Fresh.page {m₁ m₂ : Phys} {o₁ o₂ : ℕ → Owner} (h : Fresh d S m o m₁ o₁)
    (he : Effect d (· = v) m₁ o₁ m₂ o₂) (hvu : v < userPages)
    (hS : ∀ u, u ≠ v → (T u ↔ S u)) (hv : Present (m₂.entry d v) ↔ T v) :
    Fresh d T m o m₂ o₂ := by
  apply h.step he (by omega)
  intro u hu
  by_cases hne : u = v
  · subst hne
    exact hv
  · rw [he.entry u (lt_of_lt_of_le hu userPages_le) hne, h.present u hu, hS u hne]

/-- A new directory is taken down: all is as before it was built. -/
theorem Fresh.freevm_spec (h : Fresh d S m o m' o') (ha : Acct m o) (hi : Idle o) :
    wp (freevm d) (fun _ m'' => Acct m'' o ∧ ∀ g, o g ≠ .free → m''.mem g = m.mem g)
      noPanic m' := by
  apply wp_mono (Vm.freevm_spec h.acct h.dir h.idle) _ fun _ => id
  rintro _ m₂ ⟨o₂, h₂, hgone⟩
  have hw := h.toWithin.trans h₂
  obtain ⟨ho, hm⟩ := hw.restored h.free
    (fun g => hi.not_of ha (by rw [h.free]; nofun)) hgone
  exact ⟨ho ▸ hw.acct, hm⟩

/-- The page `v` of `d` has the flags and the contents of that of `D` in the memory `m`. -/
structure Copied (m : Phys) (D : ℕ) (m' : Phys) (d v : ℕ) : Prop where
  flags : pteFlags (m'.entry d v) = pteFlags (m.entry D v)
  page : m'.mem (pteAddr (m'.entry d v)) = m.mem (pteAddr (m.entry D v))

theorem pteFlags_mkPte (hp : Present w) : pteFlags (mkPte f (pteFlags w)) = pteFlags w := by
  have hbit : pteFlags w ||| pteP = pteFlags w := by
    have hodd : (pteFlags w).testBit 0 = true := by
      rw [Nat.testBit_zero]
      unfold Present at hp
      unfold pteFlags pgSize
      exact decide_eq_true (by omega)
    refine Nat.eq_of_testBit_eq fun i => ?_
    rw [Nat.testBit_or]
    cases i with
    | zero => rw [hodd, Bool.true_or]
    | succ i =>
        have h1 : pteP.testBit (i + 1) = false := by
          rw [Nat.testBit_add_one]
          exact Nat.zero_testBit i
        rw [h1, Bool.or_false]
  unfold mkPte
  rw [hbit]
  unfold pteFlags
  rw [Nat.mul_comm, Nat.mul_add_mod, Nat.mod_mod]

/-- Another page of `d` is mapped: the copy is not touched. -/
theorem Copied.step {m₁ m₂ : Phys} {o₁ o₂ : ℕ → Owner} {u : ℕ} (h : Copied m D m₁ d u)
    (ha : Acct m₁ o₁) (hd : o₁ d = .dir) (hu : u < userPages) (hp : Present (m₁.entry d u))
    (he : Effect d (· = v) m₁ o₁ m₂ o₂) (hne : u ≠ v) : Copied m D m₂ d u := by
  have hentry := he.entry u (lt_of_lt_of_le hu userPages_le) hne
  refine ⟨by rw [hentry, h.flags], ?_⟩
  rw [hentry, he.page _ u hne (ha.user_of hd hu hp), h.page]

/-- The loop of `copyuvm`, with the pages below `v` copied. -/
theorem copyLoop_spec {sz : ℕ} (ha : Acct m o) (hi : Idle o) (hD : o D = .dir)
    (hk : sz ≤ kernBase) (hsz : ∀ u < pages sz, Present (m.entry D u)) (hv : v ≤ pages sz)
    (h : Fresh d (· < v) m o m' o') (hc : ∀ u < v, Copied m D m' d u) :
    wp (copyLoop D d sz (v * pgSize)) (fun r m'' =>
      match r with
      | none => Acct m'' o ∧ ∀ g, o g ≠ .free → m''.mem g = m.mem g
      | some D' => ∃ o'', Fresh D' (· < pages sz) m o m'' o'' ∧
          ∀ u < pages sz, Copied m D m'' D' u) noPanic m' := by
  induction hleft : pages sz - v generalizing v m' o' with
  | zero =>
      obtain rfl : v = pages sz := by omega
      rw [copyLoop, if_neg (by rw [← lt_pages_iff]; omega)]
      exact wp_pure ⟨o', h, hc⟩
  | succ left ih =>
      have hlt : v < pages sz := by omega
      have hvu : v < userPages := lt_of_lt_of_le hlt (pages_le_userPages hk)
      have hDd : D ≠ d := by
        rintro rfl
        cases hD.symm.trans h.free
      have hDo := (h.dir_other hD hDd).1
      have hentry : m'.entry D v = m.entry D v :=
        h.entry_other ha hD hDd (.inr h.free) (lt_of_lt_of_le hvu userPages_le)
      rw [copyLoop, if_pos (lt_pages_iff.mp hlt)]
      apply wp_call (copyFetch_spec h.acct hDo hvu (hentry ▸ hsz v hlt))
      rintro w m₁ ⟨hw, rfl⟩
      rw [hentry] at hw
      apply wp_call (copyStore_spec h.acct h.dir hvu fun hp =>
        lt_irrefl v ((h.present v hvu).mp hp))
      rintro b m₂ ⟨o₂, h₂, hb, _, hcopy⟩
      cases b with
      | true =>
          rw [show v * pgSize + pgSize = (v + 1) * pgSize by rw [Nat.add_mul, Nat.one_mul]]
          have hfresh := h.page h₂ hvu (by omega) (T := (· < v + 1))
            (iff_of_true (hb.mpr rfl) (Nat.lt_succ_self v))
          refine ih (by omega) hfresh (fun u hu => ?_) (by omega)
          rcases Nat.lt_succ_iff_lt_or_eq.mp hu with hu | rfl
          · have huu : u < userPages := hu.trans hvu
            exact (hc u hu).step h.acct h.dir huu ((h.present u huu).mpr hu) h₂ hu.ne
          · obtain ⟨f, he, hf⟩ := hcopy rfl
            have hp := hsz u hlt
            have hframe : m₁.mem (pteAddr (m.entry D u)) = m.mem (pteAddr (m.entry D u)) := by
              have hown := ha.user_of hD hvu hp
              refine (h.frame _ ?_ (by rw [hown]; simp) (by rw [hown]; exact hDd)).2
              intro e
              rw [e, h.free] at hown
              cases hown
            refine ⟨?_, ?_⟩
            · rw [he, hw, pteFlags_mkPte hp]
            · rw [he, pteAddr_mkPte (pteFlags_lt w), hf, hw, hframe]
      | false =>
          have h₃ : Fresh d (· < v) m o m₂ o₂ := by
            refine h.page h₂ hvu (fun _ _ => Iff.rfl) (iff_of_false ?_ (lt_irrefl v))
            intro hp
            cases hb.mp hp
          apply wp_call (h₃.freevm_spec ha hi)
          intro _ m₃ hm
          exact wp_pure hm

/-- `copyuvm`: a directory with copies of the pages, or nothing. -/
theorem copyuvm_copies {ks : List Kmap} {sz n : ℕ} (hks : Ascending userPages ks n)
    (ha : Acct m o) (hi : Idle o) (hD : o D = .dir) (hk : sz ≤ kernBase)
    (hsz : ∀ u < pages sz, Present (m.entry D u)) :
    wp (copyuvm ks D sz) (fun r m' =>
      match r with
      | none => Acct m' o ∧ ∀ g, o g ≠ .free → m'.mem g = m.mem g
      | some d => ∃ o', Fresh d (· < pages sz) m o m' o' ∧ ∀ u < pages sz, Copied m D m' d u)
      noPanic m := by
  unfold copyuvm
  apply wp_call (setupkvm_spec hks ha hi)
  intro r m₁ hr
  cases r with
  | none => exact wp_pure hr.1
  | some d =>
      obtain ⟨o₁, h₁, _⟩ := hr
      have h₁ : Fresh d (· < 0) m o m₁ o₁ :=
        ⟨h₁.toWithin, h₁.free, h₁.dir, fun u hu => by
          rw [h₁.present u hu]
          exact iff_of_false id (Nat.not_lt_zero u), h₁.kernel, h₁.idle⟩
      have := copyLoop_spec ha hi hD hk hsz (Nat.zero_le _) h₁ fun u hu =>
        absurd hu (Nat.not_lt_zero u)
      rwa [Nat.zero_mul] at this

/-- `copyuvm`: a directory with the same pages, or nothing. -/
theorem copyuvm_spec {ks : List Kmap} {sz n : ℕ} (hks : Ascending userPages ks n)
    (ha : Acct m o) (hi : Idle o) (hD : o D = .dir) (hk : sz ≤ kernBase)
    (hsz : ∀ u < pages sz, Present (m.entry D u)) :
    wp (copyuvm ks D sz) (fun r m' =>
      match r with
      | none => Acct m' o ∧ ∀ g, o g ≠ .free → m'.mem g = m.mem g
      | some d => ∃ o', Fresh d (· < pages sz) m o m' o') noPanic m := by
  refine wp_mono (copyuvm_copies hks ha hi hD hk hsz) (fun r m' hr => ?_) fun _ => id
  cases r with
  | none => exact hr
  | some d =>
      obtain ⟨o', h, -⟩ := hr
      exact ⟨o', h⟩

end Xv6.Vm
