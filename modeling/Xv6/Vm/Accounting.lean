import Mathlib.Data.List.Nodup
import Xv6.Vm.System

/-!
# Exact accounting, and the size of a process

`page_accounting`: over every sequence of calls no page has two uses, a call that fails
gives its pages back, and `freevm` frees every page of the directory once.
`growproc_agrees`: the size of a process and its page table agree, unless the process
shrinks to nothing. There `deallocuvm` returns 0 for the new size, which `growproc`
takes for an error after the pages are gone.
-/

namespace Xv6.Vm

open Xv6.Lib PanicM System

variable {s : State} {ks : List Kmap} {o o' : ℕ → Owner} {m m' : Phys}
  {data D D' f i i' sz v v' : ℕ} {n : ℤ}

/-! ## §1  The uses of a page -/

/-- The user page `v` of `D` is mapped to `f`. -/
def Phys.Maps (m : Phys) (D v f : ℕ) : Prop :=
  v < userPages ∧ Present (m.entry D v) ∧ pteAddr (m.entry D v) = f

/-- `f` is a page table of `D`. -/
def Phys.Table (m : Phys) (D i f : ℕ) : Prop :=
  i < nEntries ∧ Present (m.mem D i) ∧ pteAddr (m.mem D i) = f

/-- A page of the directory `D`: a user page, a page table, or `D` itself. -/
def Phys.PageOf (m : Phys) (D f : ℕ) : Prop :=
  f = D ∨ (∃ i, m.Table D i f) ∨ ∃ v, m.Maps D v f

def State.Live (s : State) (D : ℕ) : Prop := (s.size D).isSome

/-- No page has two uses. -/
structure Exact (s : State) : Prop where
  nodup : s.phys.free.Nodup
  not_free : ∀ {D f}, s.Live D → s.phys.PageOf D f → f ∉ s.phys.free
  maps_once : ∀ {D D' v v' f}, s.Live D → s.Live D' → s.phys.Maps D v f →
    s.phys.Maps D' v' f → D = D' ∧ v = v'
  table_once : ∀ {D D' i i' f}, s.Live D → s.Live D' → s.phys.Table D i f →
    s.phys.Table D' i' f → D = D' ∧ i = i'
  not_both : ∀ {D D' i v f}, s.Live D → s.Live D' → s.phys.Table D i f →
    ¬ s.phys.Maps D' v f

section Owners

variable (ha : Acct m o) (hD : o D = .dir)
include ha hD

theorem Acct.maps_iff : m.Maps D v f ↔ o f = .user D v :=
  ⟨fun h => ha.user.mpr ⟨hD, h⟩, fun h => (ha.user.mp h).2⟩

theorem Acct.tableOf_iff : m.Table D i f ↔ o f = .table D i :=
  ⟨fun h => ha.table.mpr ⟨hD, h⟩, fun h => (ha.table.mp h).2⟩

/-- A page of a directory, by its owner. -/
theorem Acct.pageOf (hp : m.PageOf D f) : f = D ∨ (o f).Of D := by
  rcases hp with rfl | ⟨i, hp⟩ | ⟨v, hp⟩
  · exact .inl rfl
  · rw [(ha.tableOf_iff hD).mp hp]
    exact .inr rfl
  · rw [(ha.maps_iff hD).mp hp]
    exact .inr rfl

end Owners

theorem Balanced.exact (h : Balanced s o) : Exact s := by
  have ha := h.acct
  refine ⟨ha.nodup, fun {D f} hD hp hf => ?_, fun {D D' v v' f} hD hD' hm hm' => ?_,
    fun {D D' i i' f} hD hD' ht ht' => ?_, fun {D D' i v f} hD hD' ht hm => ?_⟩
  · have hdir := h.dir.mpr hD
    have hfree := ha.free.mp hf
    rcases ha.pageOf hdir hp with rfl | hof
    · exact nomatch hdir.symm.trans hfree
    · rw [hfree] at hof
      exact hof
  · have h1 := (ha.maps_iff (h.dir.mpr hD)).mp hm
    cases h1.symm.trans ((ha.maps_iff (h.dir.mpr hD')).mp hm')
    exact ⟨rfl, rfl⟩
  · have h1 := (ha.tableOf_iff (h.dir.mpr hD)).mp ht
    cases h1.symm.trans ((ha.tableOf_iff (h.dir.mpr hD')).mp ht')
    exact ⟨rfl, rfl⟩
  · have h1 := (ha.tableOf_iff (h.dir.mpr hD)).mp ht
    cases h1.symm.trans ((ha.maps_iff (h.dir.mpr hD')).mp hm)

/-! ## §2  Each call -/

/-- A page taken by a call that adds no page to the size is free or a page table. -/
theorem Effect.free_or_table {oldsz : ℕ} (ha : Acct m o) (hi : Idle o) (hD : o D = .dir)
    (h : Effect D (From (pages oldsz)) m o m' o') (hs : Sized m' D oldsz) (hf : f ∈ m.free) :
    f ∈ m'.free ∨ ∃ i, m'.Table D i f := by
  have hfree := ha.free.mp hf
  have hfD : f ≠ D := by
    rintro rfl
    exact nomatch hD.symm.trans hfree
  rcases h.mine f hfD (.inl hfree) with hfree' | hof
  · exact .inl (h.acct.free.mpr hfree')
  · cases hx : o' f with
    | table D' i =>
        rw [hx] at hof
        cases hof
        exact .inr ⟨i, (h.acct.tableOf_iff h.dir).mpr hx⟩
    | user D' v =>
        rw [hx] at hof
        cases hof
        -- a page below the size is the one that was mapped there before
        obtain ⟨_, hv, hp, he⟩ := h.acct.user.mp hx
        have hlt := (hs v hv).mp hp
        rw [h.entry v (lt_of_lt_of_le hv userPages_le) fun h => absurd h.1 (not_le.mpr hlt)]
          at hp he
        have hwas := ha.user_of hD hv hp
        rw [he, hfree] at hwas
        cases hwas
    | held D' =>
        rw [hx] at hof
        cases hof
        exact absurd (h.held f hx) (hi f D)
    | _ =>
        rw [hx] at hof
        cases hof

section Calls

variable (hb : Balanced s o)
include hb

theorem allocuvm_failed {oldsz newsz : ℕ} (hsz : s.size D = some sz)
    (hold : oldsz = sz ∨ oldsz = pgRoundUp sz) :
    ∃ r m', allocuvm D oldsz newsz s.phys = .ok (r, m') ∧
      (r = 0 → ∀ f ∈ s.phys.free, f ∈ m'.free ∨ ∃ i, m'.Table D i f) := by
  have hp : pages oldsz = pages sz := by
    rcases hold with rfl | rfl
    · rfl
    · exact pages_pgRoundUp sz
  have hD := hb.dir_of hsz
  have hs := (hb.sized hsz).congr hp
  obtain ⟨r, m', hx, o', h, hr⟩ := exists_of_wp
    (allocuvm_spec hb.acct hD hs : wp (allocuvm D oldsz newsz) _ _ _)
  refine ⟨r, m', hx, fun h0 f hf => ?_⟩
  rcases hr with ⟨_, _, _, rfl⟩ | ⟨_, _, _, rfl⟩ | ⟨hle, hr, _⟩
  · exact .inl hf
  · exact .inl hf
  · have hsized := hr.sized h hs hle
    rw [if_pos h0] at hsized
    exact h.free_or_table hb.acct hb.idle hD hsized hf

theorem deallocuvm_returns {newsz : ℕ} (hsz : s.size D = some sz) :
    ∃ m', deallocuvm D sz newsz s.phys = .ok (min sz newsz, m') := by
  obtain ⟨r, m', hx, rfl, _⟩ := exists_of_wp
    (deallocuvm_spec hb.acct (hb.dir_of hsz) (hb.le hsz) : wp (deallocuvm D sz newsz) _ _ _)
  exact ⟨m', hx⟩

theorem setupkvm_failed {k : ℕ} (hks : Ascending userPages ks k) :
    ∃ r m', setupkvm ks s.phys = .ok (r, m') ∧
      (r = none → ∀ f ∈ s.phys.free, f ∈ m'.free) := by
  obtain ⟨r, m', hx, hr⟩ := exists_of_wp (setupkvm_spec hks hb.acct hb.idle)
  refine ⟨r, m', hx, ?_⟩
  rintro rfl f hf
  exact hr.1.1.free.mpr (hb.acct.free.mp hf)

theorem copyuvm_failed {k : ℕ} (hks : Ascending userPages ks k) (hsz : s.size D = some sz) :
    ∃ r m', copyuvm ks D sz s.phys = .ok (r, m') ∧
      (r = none → ∀ f ∈ s.phys.free, f ∈ m'.free) := by
  have hk := hb.le hsz
  have hp : ∀ u < pages sz, Present (s.phys.entry D u) := fun u hu =>
    (hb.sized hsz u (lt_of_lt_of_le hu (pages_le_userPages hk))).mpr hu
  obtain ⟨r, m', hx, hr⟩ :=
    exists_of_wp (copyuvm_spec hks hb.acct hb.idle (hb.dir_of hsz) hk hp)
  refine ⟨r, m', hx, ?_⟩
  rintro rfl f hf
  exact hr.1.free.mpr (hb.acct.free.mp hf)

theorem freevm_frees (hsz : s.size D = some sz) :
    ∃ m', freevm D s.phys = .ok ((), m') ∧ ∀ f, s.phys.PageOf D f → m'.free.count f = 1 := by
  have hD := hb.dir_of hsz
  obtain ⟨_, m', hx, o', h, hgone⟩ :=
    exists_of_wp (freevm_spec hb.acct hD fun g => hb.idle g D)
  refine ⟨m', hx, fun f hf => List.count_eq_one_of_mem h.acct.nodup (h.acct.free.mpr ?_)⟩
  by_cases hfD : f = D
  · rw [hfD]
    exact hgone.dir
  · have hof := (hb.acct.pageOf hD hf).resolve_left hfD
    exact (h.mine f hfD (.inr hof)).resolve_right (hgone.none f)

end Calls

/-! ## §3  Accounting -/

/-- The calls of `vm.c`, and the rest of the kernel taking and freeing pages. -/
def vmCall (_ : State) : Call → Prop
  | .growproc _ _ => False
  | _ => True

theorem keepsSome_of_vmCall {c : Call} (h : vmCall s c) : keepsSome s c := by
  cases c with
  | growproc D n => exact h.elim
  | _ => trivial

/-- Over any sequence of calls no page has two uses, no call panics (`clearpteu` of a
missing page table apart), a call that fails leaves the pages it took on the free list
or as page tables of the directory, and `freevm` puts each page of the directory on the
free list once. -/
theorem page_accounting (hdata : DataAt data)
    (hs : (vmSystem (kmap data)).Reach vmCall s) :
    Exact s ∧
    (∃ r m', setupkvm (kmap data) s.phys = .ok (r, m') ∧
      (r = none → ∀ f ∈ s.phys.free, f ∈ m'.free)) ∧
    ∀ D sz, s.size D = some sz →
      (∀ oldsz newsz, oldsz = sz ∨ oldsz = pgRoundUp sz →
        ∃ r m', allocuvm D oldsz newsz s.phys = .ok (r, m') ∧
          (r = 0 → ∀ f ∈ s.phys.free, f ∈ m'.free ∨ ∃ i, m'.Table D i f)) ∧
      (∀ newsz, ∃ m', deallocuvm D sz newsz s.phys = .ok (min sz newsz, m')) ∧
      (∃ r m', copyuvm (kmap data) D sz s.phys = .ok (r, m') ∧
        (r = none → ∀ f ∈ s.phys.free, f ∈ m'.free)) ∧
      ∃ m', freevm D s.phys = .ok ((), m') ∧
        ∀ f, s.phys.PageOf D f → m'.free.count f = 1 := by
  obtain ⟨_, _, hks⟩ := kmap_ascending hdata
  obtain ⟨o, hb⟩ := balanced_of_reach hks (hs.mono fun _ _ => keepsSome_of_vmCall)
  refine ⟨hb.exact, setupkvm_failed hb hks, fun D sz hsz => ⟨?_, ?_, ?_, ?_⟩⟩
  · exact fun oldsz newsz hold => allocuvm_failed hb hsz hold
  · exact fun newsz => deallocuvm_returns hb hsz
  · exact copyuvm_failed hb hks hsz
  · exact freevm_frees hb hsz

/-! ### A small process -/

/-- Directory 1024, its page table 1025, `k` user pages from 1026 on, and `n` free pages. -/
def small (k n : ℕ) : State where
  phys :=
    { first := 1024
      mem := fun f i =>
        if f = 1024 ∧ i = 0 then mkPte 1025 (pteW + pteU)
        else if f = 1025 ∧ i < k then mkPte (1026 + i) (pteW + pteU)
        else 0
      free := List.range' 2000 n }
  size D := if D = 1024 then some (k * pgSize) else none
  taken := []

def smallOwner (k n f : ℕ) : Owner :=
  if f = 1024 then .dir
  else if f = 1025 then .table 1024 0
  else if 1026 ≤ f ∧ f < 1026 + k then .user 1024 (f - 1026)
  else if 2000 ≤ f ∧ f < 2000 + n then .free
  else .outside

section Small

variable {k n : ℕ}

theorem small_dir : (small k n).phys.mem 1024 i = if i = 0 then mkPte 1025 6 else 0 := by
  unfold small
  simp only [true_and]
  split
  · rfl
  · rw [if_neg (by omega)]

theorem small_entry (hk : k ≤ nEntries) :
    (small k n).phys.entry 1024 v = if v < k then mkPte (1026 + v) 6 else 0 := by
  by_cases hv : v / nEntries = 0
  · rw [Phys.entry_of_present (by rw [small_dir, if_pos hv]; exact present_mkPte), small_dir,
      if_pos hv, pteAddr_mkPte (by decide)]
    unfold nEntries at *
    unfold small
    simp only [show ¬ (1025 = 1024) by decide, false_and, if_false, true_and]
    rw [Nat.mod_eq_of_lt (by omega)]
    rfl
  · rw [Phys.entry_of_not_present (by rw [small_dir, if_neg hv]; exact not_present_zero),
      if_neg]
    unfold nEntries at *
    omega

theorem small_acct (hk : k ≤ 900) (hn : n ≤ 50000) : Acct (small k n).phys (smallOwner k n) := by
  have hkn : k ≤ nEntries := by
    unfold nEntries
    omega
  have hdir (f : ℕ) : smallOwner k n f = .dir ↔ f = 1024 := by
    unfold smallOwner
    split_ifs <;> simp_all
  have hpde (i : ℕ) : Present ((small k n).phys.mem 1024 i) ↔ i = 0 := by
    rw [small_dir]
    split
    case isTrue h => exact iff_of_true present_mkPte h
    case isFalse h => exact iff_of_false not_present_zero h
  refine ⟨show 0 < 1024 by decide, fun {f} hf => ?_, List.nodup_range', fun {f} => ?_,
    fun {f D i} => ?_, fun {f D v} => ?_⟩
  · show 1024 ≤ f ∧ f < 57344
    unfold smallOwner at hf
    split_ifs at hf <;> first | omega | exact absurd rfl hf
  · show f ∈ List.range' 2000 n ↔ _
    rw [List.mem_range'_1]
    unfold smallOwner
    split_ifs <;> simp_all
    omega
  · rw [hdir]
    constructor
    · intro hf
      unfold smallOwner at hf
      split_ifs at hf
      cases hf
      rename_i hf
      exact ⟨rfl, by decide, (hpde 0).mpr rfl, by rw [small_dir, hf]; rfl⟩
    · rintro ⟨rfl, _, hp, rfl⟩
      obtain rfl := (hpde i).mp hp
      rw [small_dir, if_pos rfl, pteAddr_mkPte (by decide)]
      rfl
  · rw [hdir]
    constructor
    · intro hf
      unfold smallOwner at hf
      split_ifs at hf
      cases hf
      rename_i hf
      have hlt : f - 1026 < k := by omega
      refine ⟨rfl, ?_, ?_, ?_⟩
      · unfold userPages kernBase pgSize
        omega
      · rw [small_entry hkn, if_pos hlt]
        exact present_mkPte
      · rw [small_entry hkn, if_pos hlt, pteAddr_mkPte (by decide)]
        omega
    · rintro ⟨rfl, _, hp, rfl⟩
      rw [small_entry hkn] at hp ⊢
      split at hp
      case isFalse => exact absurd hp not_present_zero
      case isTrue hlt =>
        rw [if_pos hlt, pteAddr_mkPte (by decide)]
        unfold smallOwner
        rw [if_neg (by omega), if_neg (by omega), if_pos (by omega), Nat.add_sub_cancel_left]

theorem small_balanced (hk : k ≤ 900) (hn : n ≤ 50000) :
    Balanced (small k n) (smallOwner k n) := by
  have hsize (D : ℕ) : (small k n).size D = if D = 1024 then some (k * pgSize) else none := rfl
  refine ⟨small_acct hk hn, fun g D hg => ?_, fun {D} => ?_, fun {D sz} hsz => ?_,
    fun {D sz} hsz => ?_, List.nodup_nil, fun {f} => ?_⟩
  · unfold smallOwner at hg
    split_ifs at hg
  · rw [hsize]
    unfold smallOwner
    split
    case isTrue => exact iff_of_true rfl rfl
    case isFalse =>
      refine iff_of_false ?_ nofun
      split_ifs <;> nofun
  · rw [hsize] at hsz
    split at hsz <;> cases hsz
    unfold pgSize kernBase
    omega
  · rw [hsize] at hsz
    split at hsz <;> cases hsz
    rename_i hD
    subst hD
    intro u _
    rw [small_entry (by unfold nEntries; omega), lt_pages_iff, Nat.mul_lt_mul_right (by decide)]
    split
    case isTrue h => exact iff_of_true present_mkPte h
    case isFalse h => exact iff_of_false not_present_zero h
  · refine iff_of_false nofun ?_
    unfold smallOwner
    split_ifs <;> nofun

end Small

/-- A process of one page and three free pages. -/
def onePage : State := small 1 3

theorem onePage_balanced : Balanced onePage (smallOwner 1 3) :=
  small_balanced (by decide) (by decide)

theorem onePage_reach {G : State → Call → Prop} : (vmSystem ks).Reach G onePage :=
  .init ⟨_, onePage_balanced⟩

theorem dataAt_link : DataAt 0x80108000 := ⟨by decide, by decide, by decide⟩

theorem page_accounting_onePage : Exact onePage ∧
    ∃ m', freevm 1024 onePage.phys = .ok ((), m') ∧
      ∀ f, onePage.phys.PageOf 1024 f → m'.free.count f = 1 := by
  obtain ⟨hexact, _, h⟩ := page_accounting dataAt_link onePage_reach
  exact ⟨hexact, (h 1024 4096 rfl).2.2.2⟩

/-! ## §4  The size of a process -/

/-- `growproc(-sz)` frees every page and returns -1, and `growproc(-sz - 1)` returns 0 and
does nothing. -/
theorem growproc_to_nothing :
    ∃ s D sz, (vmSystem (kmap 0x80108000)).Reach anyStep s ∧ s.size D = some sz ∧
      (∃ m', growproc D sz (-sz) s.phys = .ok (none, m') ∧
        Present (s.phys.entry D 0) ∧ ¬ Present (m'.entry D 0)) ∧
      ∃ m', growproc D sz (-sz - 1) s.phys = .ok (some sz, m') := by
  have hfreed : check (growproc 1024 4096 (-(4096 : ℕ)))
      (fun r m' => decide (r = none ∧ ¬ Present (m'.entry 1024 0))) onePage.phys = true := by
    decide +kernel
  have hnothing : check (growproc 1024 4096 (-(4096 : ℕ) - 1))
      (fun r _ => decide (r = some 4096)) onePage.phys = true := by
    decide +kernel
  obtain ⟨r, m', hx, hr⟩ := exists_of_check hfreed
  obtain ⟨rfl, hgone⟩ := of_decide_eq_true hr
  obtain ⟨r, m'', hx', hr⟩ := exists_of_check hnothing
  obtain rfl := of_decide_eq_true hr
  exact ⟨onePage, 1024, 4096, onePage_reach, rfl, ⟨m', hx, by decide +kernel, hgone⟩, m'', hx'⟩

/-- Unless the process shrinks to nothing: if `growproc(n)` returns 0 the size grows by
`n`; if it returns -1 the size and the mappings are as before; and in both cases the
pages present are those of the size, new ones are zero, and `copyuvm` does not panic. -/
theorem growproc_agrees (hdata : DataAt data)
    (hs : (vmSystem (kmap data)).Reach keepsSome s) (hsz : s.size D = some sz)
    (hn : IsInt n) (hok : ¬ ToNothing sz n) :
    ∃ r m', growproc D sz n s.phys = .ok (r, m') ∧
      (∀ sz', r = some sz' → (sz' : ℤ) = sz + n) ∧
      (r = none → ∀ v f, m'.Maps D v f ↔ s.phys.Maps D v f) ∧
      (∀ v < userPages, Present (m'.entry D v) ↔ v * pgSize < pgRoundUp (r.getD sz)) ∧
      (∀ v, pgRoundUp sz ≤ v * pgSize → v * pgSize < pgRoundUp (r.getD sz) →
        m'.mem (pteAddr (m'.entry D v)) = fun _ => 0) ∧
      ∃ d m'', copyuvm (kmap data) D (r.getD sz) m' = .ok (d, m'') := by
  obtain ⟨_, _, hks⟩ := kmap_ascending hdata
  obtain ⟨o, hb⟩ := balanced_of_reach hks hs
  have hD := hb.dir_of hsz
  have hk := hb.le hsz
  have hround (u a : ℕ) : u * pgSize < pgRoundUp a ↔ u < pages a := by
    rw [pgRoundUp_eq]
    exact Nat.mul_lt_mul_right (by decide)
  obtain ⟨r, m', hx, o', h⟩ :=
    exists_of_wp (growproc_spec hb.acct hD hk (hb.sized hsz) hn hok)
  obtain ⟨S, he, hS⟩ := h.effect
  refine ⟨r, m', hx, h.size, ?_, fun v hv => ?_, fun v hv hv' => ?_, ?_⟩
  · rintro rfl v f
    unfold Phys.Maps
    apply and_congr_right
    intro hv
    by_cases hlt : v < pages sz
    · rw [he.entry v (lt_of_lt_of_le hv userPages_le) fun h => absurd (hS rfl v h) (not_le.mpr hlt)]
    · refine iff_of_false (fun hp => hlt ?_) (fun hp => hlt ?_)
      · exact (h.sized v hv).mp hp.1
      · exact (hb.sized hsz v hv).mp hp.1
  · rw [hround]
    exact h.sized v hv
  · rw [hround] at hv'
    rw [← not_lt, hround, not_lt] at hv
    exact h.zero v hv hv'
  · have hidle := (hb.effect hD he h.le h.sized).idle
    have hp : ∀ u < pages (r.getD sz), Present (m'.entry D u) := fun u hu =>
      (h.sized u (lt_of_lt_of_le hu (pages_le_userPages h.le))).mpr hu
    obtain ⟨d, m'', hx', _⟩ := exists_of_wp (copyuvm_spec hks he.acct hidle he.dir h.le hp)
    exact ⟨d, m'', hx'⟩

theorem growproc_agrees_onePage :
    ∃ r m', growproc 1024 4096 (-96) onePage.phys = .ok (r, m') ∧
      ∀ v < userPages, Present (m'.entry 1024 v) ↔ v * pgSize < pgRoundUp (r.getD 4096) := by
  obtain ⟨r, m', hx, _, _, hp, _⟩ := growproc_agrees (n := -96) dataAt_link onePage_reach
    (show onePage.size 1024 = some 4096 from rfl) (by decide) (by decide)
  exact ⟨r, m', hx, hp⟩

end Xv6.Vm
