import Xv6.Vm.ArgStack

/-!
# `copyout` at any address

`copyout` on a directory that `setupkvm`, `allocuvm` and `clearpteu` have built, for any
address and any number of bytes. It goes from page to page, up to the first one that is
closed to the user; the kernel's pages are, so that it does not come to the end of the
address space. If that page has no page table, `uva2ka` reads through a null pointer.
-/

namespace Xv6.Vm.Exec

open Xv6.Lib PanicM

variable {m m' m₀ : Phys} {o o' o₀ : ℕ → Owner} {d f i k n sz u v va x : ℕ} {bs : List ℕ}
  {ks : List Kmap}

/-! ## §1  Directories -/

/-- The directories that the three functions build from the memory `m₀`, each with the memory
afterwards. `allocuvm` may be told any sizes. -/
inductive Builds (ks : List Kmap) (m₀ : Phys) : ℕ → Phys → Prop
  | setupkvm {d : ℕ} {m : Phys} (h : setupkvm ks m₀ = .ok (some d, m)) : Builds ks m₀ d m
  | allocuvm {d oldsz newsz r : ℕ} {m m' : Phys} (hb : Builds ks m₀ d m)
      (h : allocuvm d oldsz newsz m = .ok (r, m')) : Builds ks m₀ d m'
  | clearpteu {d uva : ℕ} {m m' : Phys} (hb : Builds ks m₀ d m) (hu : uva < 2 ^ 32)
      (h : clearpteu d uva m = .ok ((), m')) : Builds ks m₀ d m'

/-- A directory, in which the pages of the kernel are closed to the user. -/
structure Directory (m : Phys) (o : ℕ → Owner) (d : ℕ) : Prop where
  acct : Acct m o
  dir : o d = .dir
  kernel : KernelOnly m d (userPages ≤ ·)

theorem Directory.step {T : ℕ → Prop} (h : Directory m o d) (he : Effect d T m o m' o')
    (hT : ∀ u < allPages, T u → userPages ≤ u → ¬ HasU (m'.entry d u)) :
    Directory m' o' d := by
  refine ⟨he.acct, he.dir, fun u hu hk hp => ?_⟩
  by_cases hTu : T u
  · exact hT u hu hTu hk
  · rw [he.entry u hu hTu] at hp ⊢
    exact h.kernel u hu hk hp

theorem Builds.directory {n : ℕ} (hks : Ascending userPages ks n) (ha : Acct m₀ o₀)
    (hi : Idle o₀) (h : Builds ks m₀ d m) : ∃ o, Directory m o d := by
  induction h with
  | setupkvm h =>
      obtain ⟨o₁, h₁, _⟩ := wp_ok (setupkvm_spec hks ha hi) h
      exact ⟨o₁, h₁.acct, h₁.dir, h₁.kernel⟩
  | allocuvm _ h ih =>
      obtain ⟨o₁, hd⟩ := ih
      obtain ⟨o₂, h₂⟩ := wp_ok (allocuvm_effect hd.acct hd.dir) h
      exact ⟨o₂, hd.step h₂ fun u _ hu hk => absurd hu.2 (not_lt.mpr hk)⟩
  | clearpteu _ hu h ih =>
      obtain ⟨o₁, hd⟩ := ih
      obtain ⟨h₁, he, _⟩ := wp_ok (clearpteu_spec hd.acct hd.dir (div_pgSize_lt hu)) h
      refine ⟨o₁, hd.step h₁ ?_⟩
      rintro u _ rfl _
      rw [he]
      exact not_hasU_clearU

/-! ## §2  Pages and bytes of the range -/

/-- The user may use the page. -/
def Open (m : Phys) (d u : ℕ) : Prop :=
  u < allPages ∧ Present (m.entry d u) ∧ HasU (m.entry d u)

/-- The page `u` is the first one of `[va, va + n)` that is closed. -/
structure FirstClosed (m : Phys) (d va n u : ℕ) : Prop where
  lt : u < allPages
  inside : ∃ x, va ≤ x ∧ x < va + n ∧ x / pgSize = u
  closed : ¬ Open m d u
  before : ∀ x, va ≤ x → x < va + n → x / pgSize < u → Open m d (x / pgSize)

/-- The bytes `bs` are at `va`, and no other byte is changed. -/
structure Copied (d va : ℕ) (bs : List ℕ) (m m' : Phys) : Prop where
  bytes : ∀ k < bs.length, m'.byteAt d (va + k) = byte bs k
  others : ∀ f j, (∀ k < bs.length,
      ¬ (pteAddr (m.entry d ((va + k) / pgSize)) = f ∧ (va + k) % pgSize = j)) →
    pageByte (m'.mem f) j = pageByte (m.mem f) j

/-- What `copyout` leaves alone in any case. -/
structure Untouched (d : ℕ) (m m' : Phys) : Prop where
  first : m'.first = m.first
  free : m'.free = m.free
  entry : ∀ u < allPages, m'.entry d u = m.entry d u
  mem : ∀ f, (∀ u, Open m d u → pteAddr (m.entry d u) ≠ f) → m'.mem f = m.mem f

theorem Untouched.refl (d : ℕ) (m : Phys) : Untouched d m m :=
  ⟨rfl, rfl, fun _ _ => rfl, fun _ _ => rfl⟩

/-- The bytes of the range are in the first page or behind it. -/
theorem range_cases (hx : va ≤ x) (hx' : x < va + n) : x / pgSize = va / pgSize ∨
    (va / pgSize + 1) * pgSize ≤ x ∧
      x < (va / pgSize + 1) * pgSize + (n - (pgSize - va % pgSize)) := by
  unfold pgSize
  omega

theorem range_of_rest (hx : (va / pgSize + 1) * pgSize ≤ x)
    (hx' : x < (va / pgSize + 1) * pgSize + (n - (pgSize - va % pgSize))) :
    va ≤ x ∧ x < va + n := by
  unfold pgSize at *
  omega

section Round

variable (h : Directory m o d)
include h

theorem Directory.open_lt (hu : Open m d u) : u < userPages := by
  by_contra hk
  exact h.kernel u hu.1 (not_lt.mp hk) hu.2.1 hu.2.2

theorem Directory.owner (hu : Open m d u) : o (pteAddr (m.entry d u)) = .user d u :=
  h.acct.user_of h.dir (h.open_lt hu) hu.2.1

/-- Two open pages are different pages of memory. -/
theorem Directory.frame_inj (hu : Open m d u) (hv : Open m d v)
    (he : pteAddr (m.entry d u) = pteAddr (m.entry d v)) : u = v := by
  have hou := h.owner hu
  rw [he, h.owner hv] at hou
  exact (Owner.user.inj hou).2.symm

variable {p : Page}

theorem Directory.write_entry (hv : Open m d v) (hu : u < allPages) :
    (m.setPage (pteAddr (m.entry d v)) p).entry d u = m.entry d u :=
  h.acct.entry_write h.dir (h.owner hv) hu

theorem Directory.write (hv : Open m d v) :
    Directory (m.setPage (pteAddr (m.entry d v)) p) o d := by
  refine ⟨h.acct.write ?_ p, h.dir, fun u hu => ?_⟩
  · rw [h.owner hv]
    rfl
  · rw [h.write_entry hv hu]
    exact h.kernel u hu

theorem Directory.write_open (hv : Open m d v) :
    Open (m.setPage (pteAddr (m.entry d v)) p) d u ↔ Open m d u := by
  unfold Open
  refine and_congr_right fun hu => ?_
  rw [h.write_entry hv hu]

theorem Directory.dir_ne (hv : Open m d v) : d ≠ pteAddr (m.entry d v) := by
  intro e
  have ho := h.owner hv
  rw [← e, h.dir] at ho
  cases ho

/-- A page is written. -/
theorem Directory.write_untouched (hv : Open m d v)
    (hu : Untouched d (m.setPage (pteAddr (m.entry d v)) p) m') : Untouched d m m' := by
  refine ⟨hu.first, hu.free, fun u hlt => ?_, fun f hf => ?_⟩
  · rw [hu.entry u hlt, h.write_entry hv hlt]
  · rw [hu.mem f, Phys.setPage_ne (hf v hv).symm]
    intro u hopen
    rw [h.write_open hv] at hopen
    rw [h.write_entry hv hopen.1]
    exact hf u hopen

end Round

/-! ## §3  `copyout` -/

theorem byte_take (hk : k < n) : byte (bs.take n) k = byte bs k := by
  unfold byte
  rw [List.getD_eq_getElem?_getD, List.getElem?_take_of_lt hk, List.getD_eq_getElem?_getD]

theorem byte_drop : byte (bs.drop n) k = byte bs (n + k) := by
  unfold byte
  rw [List.getD_eq_getElem?_getD, List.getElem?_drop, List.getD_eq_getElem?_getD]

/-- The bytes of the first page, and then the others. -/
theorem Copied.cons (h : Directory m o d) (hv : Open m d (va / pgSize))
    (hrest : ∀ x, (va / pgSize + 1) * pgSize ≤ x →
      x < (va / pgSize + 1) * pgSize + (bs.drop (pgSize - va % pgSize)).length →
      Open m d (x / pgSize))
    (hc : Copied d ((va / pgSize + 1) * pgSize) (bs.drop (pgSize - va % pgSize))
      (m.setPage (pteAddr (m.entry d (va / pgSize)))
        (putBytes (m.mem (pteAddr (m.entry d (va / pgSize)))) (va % pgSize)
          (bs.take (pgSize - va % pgSize)))) m')
    (he : ∀ u < allPages, m'.entry d u = m.entry d u) : Copied d va bs m m' := by
  have hlen := List.length_drop (l := bs) (i := pgSize - va % pgSize)
  have htake := List.length_take (l := bs) (i := pgSize - va % pgSize)
  have hmod : va % pgSize < pgSize := Nat.mod_lt _ (by decide)
  have hnext : va + (pgSize - va % pgSize) = (va / pgSize + 1) * pgSize := by
    unfold pgSize at *
    omega
  refine ⟨fun k hk => ?_, fun f j hf => ?_⟩
  · by_cases hfirst : k < pgSize - va % pgSize
    · have hdiv : (va + k) / pgSize = va / pgSize := by
        unfold pgSize at *
        omega
      have hat : (va + k) % pgSize = va % pgSize + k := by
        unfold pgSize at *
        omega
      -- the later bytes go to other pages
      have hother := hc.others (pteAddr (m.entry d (va / pgSize))) (va % pgSize + k) ?_
      · unfold Phys.byteAt
        rw [hdiv, hat, he _ hv.1, hother, Phys.setPage_self, pageByte_putBytes,
          if_pos (by omega), Nat.add_sub_cancel_left, byte_take hfirst]
      · rintro k' hk' ⟨hframe, _⟩
        have hopen := hrest ((va / pgSize + 1) * pgSize + k') (Nat.le_add_right ..) (by omega)
        rw [h.write_entry hv hopen.1] at hframe
        have hpage := h.frame_inj hopen hv hframe
        unfold pgSize at hpage
        omega
    · have hbyte := hc.bytes (k - (pgSize - va % pgSize)) (by omega)
      rwa [byte_drop, ← hnext, Nat.add_assoc, Nat.add_sub_cancel' (not_lt.mp hfirst)] at hbyte
  · rw [hc.others f j]
    · by_cases hF : f = pteAddr (m.entry d (va / pgSize))
      · subst hF
        rw [Phys.setPage_self, pageByte_putBytes, if_neg]
        rintro ⟨hlo, hhi⟩
        refine hf (j - va % pgSize) (by omega) ⟨?_, ?_⟩
        · congr 2
          unfold pgSize at *
          omega
        · unfold pgSize at *
          omega
      · rw [Phys.setPage_ne hF]
    · rintro k' hk' ⟨hframe, hj⟩
      have hopen := hrest ((va / pgSize + 1) * pgSize + k') (Nat.le_add_right ..) (by omega)
      rw [h.write_entry hv hopen.1] at hframe
      rw [← hnext, Nat.add_assoc] at hframe hj
      exact hf _ (by omega) ⟨hframe, hj⟩

theorem copyout_spec (h : Directory m o d) (hva : va < 2 ^ 32) :
    wp (copyout d va bs) (fun r m' => Untouched d m m' ∧
        (r = true ↔ ∀ x, va ≤ x → x < va + bs.length → Open m d (x / pgSize)) ∧
        (r = true → Copied d va bs m m'))
      (fun e => e = .nullPte ∧ ∃ u, FirstClosed m d va bs.length u ∧
        ¬ Present (m.mem d (u / nEntries))) m := by
  induction hlen : bs.length using Nat.strong_induction_on generalizing va bs m with
  | _ len ih =>
    subst hlen
    rw [copyout]
    split_ifs with hne
    · subst hne
      refine wp_pure ⟨.refl d m, iff_of_true rfl fun x hx hx' => ?_, fun _ => ⟨by simp, ?_⟩⟩
      · rw [List.length_nil] at hx'
        omega
      · exact fun _ _ _ => rfl
    have hlt := div_pgSize_lt hva
    have hpos : 0 < bs.length := List.length_pos_iff.mpr hne
    have hoff : va - pgRoundDown va = va % pgSize := by
      unfold pgRoundDown pgSize
      omega
    apply wp_call (wp_mono (uva2ka_spec h.acct h.dir hlt) (fun _ _ => id) ?_)
    · rintro r m₁ ⟨rfl, rfl⟩
      split
      case h_1 hclosed =>
        have hnot : ¬ Open m₁ d (va / pgSize) := by
          rintro ⟨_, hopen⟩
          rw [if_pos hopen] at hclosed
          cases hclosed
        refine wp_pure ⟨.refl d m₁, iff_of_false (by simp) fun hall => hnot ?_, by simp⟩
        exact hall va le_rfl (by omega)
      case h_2 f hf =>
        split at hf
        case isFalse => cases hf
        case isTrue hopen =>
        cases hf
        have hv : Open m₁ d (va / pgSize) := ⟨hlt, hopen⟩
        have huser := h.open_lt hv
        have hnext : (pgRoundDown va + pgSize) % 2 ^ 32 = (va / pgSize + 1) * pgSize := by
          unfold pgRoundDown userPages kernBase pgSize at *
          omega
        have hshort : (bs.drop (pgSize - va % pgSize)).length < bs.length := by
          rw [List.length_drop]
          unfold pgSize
          omega
        have hrange := List.length_drop (l := bs) (i := pgSize - va % pgSize)
        apply wp_bind
        apply wp_modify
        rw [hnext, hoff]
        refine wp_mono (ih _ hshort (h.write hv) ?_ rfl) ?_ ?_
        · unfold userPages kernBase pgSize at *
          omega
        · rintro r m₂ ⟨hu, hr, hc⟩
          have hiff : (∀ x, (va / pgSize + 1) * pgSize ≤ x →
              x < (va / pgSize + 1) * pgSize + (bs.drop (pgSize - va % pgSize)).length →
              Open m₁ d (x / pgSize)) ↔
              ∀ x, va ≤ x → x < va + bs.length → Open m₁ d (x / pgSize) := by
            rw [hrange]
            constructor
            · intro hall x hx hx'
              rcases range_cases hx hx' with e | ⟨hlo, hhi⟩
              · rw [e]
                exact hv
              · exact hall x hlo hhi
            · intro hall x hx hx'
              obtain ⟨hlo, hhi⟩ := range_of_rest hx hx'
              exact hall x hlo hhi
          have hu' := h.write_untouched hv hu
          simp only [h.write_open hv] at hr
          refine ⟨hu', hr.trans hiff, fun hrt => ?_⟩
          exact Copied.cons h hv (hr.mp hrt) (hc hrt) hu'.entry
        · rintro e ⟨he, u, hu, hn⟩
          refine ⟨he, u, ⟨hu.lt, ?_, ?_, ?_⟩, ?_⟩
          · obtain ⟨x, hx, hx', hxu⟩ := hu.inside
            rw [hrange] at hx'
            obtain ⟨hlo, hhi⟩ := range_of_rest hx hx'
            exact ⟨x, hlo, hhi, hxu⟩
          · exact fun hopen => hu.closed ((h.write_open hv).mpr hopen)
          · intro x hx hx' hxu
            rcases range_cases hx hx' with e | ⟨hlo, hhi⟩
            · rw [e]
              exact hv
            · exact (h.write_open hv).mp (hu.before x hlo (hrange ▸ hhi) hxu)
          · rwa [Phys.setPage_ne (h.dir_ne hv)] at hn
    · rintro e ⟨he, hn⟩
      refine ⟨he, va / pgSize, ⟨hlt, ⟨va, le_rfl, by omega, rfl⟩, ?_, ?_⟩, hn⟩
      · exact fun hopen => Phys.not_present_of_div hn rfl hopen.2.1
      · intro x hx _ hxu
        exact absurd (Nat.div_le_div_right hx) (not_le.mpr hxu)

/-- The directory is not free, and it is none of its own page tables. -/
structure Apart (D : ℕ) (m : Phys) : Prop where
  free : D ∉ m.free
  tables : ∀ i, Present (m.mem D i) → pteAddr (m.mem D i) ≠ D

section Tables

variable {D page perm : ℕ}

theorem walkpgdir_apart (h : Apart D m) (hv : v < allPages) :
    wp (walkpgdir D (v * pgSize) true) (fun r m' => Apart D m' ∧
      (∀ i, i ≠ v / nEntries → m'.mem D i = m.mem D i) ∧ ∀ t j, r = some (t, j) → t ≠ D)
      (fun _ => True) m := by
  unfold walkpgdir
  rw [pdx_page hv, ptx_page]
  apply wp_bind
  apply wp_load
  by_cases hp : Present (m.mem D (v / nEntries))
  · rw [if_pos hp]
    refine wp_pure ⟨h, fun _ _ => rfl, ?_⟩
    rintro t j ⟨⟩
    exact h.tables _ hp
  · rw [if_neg hp, if_pos rfl]
    apply wp_bind
    apply wp_kalloc
    · exact fun _ => wp_pure ⟨h, fun _ _ => rfl, nofun⟩
    · intro f fs hf
      have hnot := h.free
      rw [hf] at hnot
      obtain ⟨hne, hfs⟩ := not_or.mp (List.mem_cons.not.mp hnot)
      apply wp_bind
      apply wp_zeroPage
      apply wp_bind
      apply wp_store
      have hother : ∀ i, i ≠ v / nEntries →
          (({ m with free := fs }.setPage f fun _ => 0).setWord D (v / nEntries)
            (mkPte f (pteW + pteU))).mem D i = m.mem D i := by
        intro i hi
        rw [Phys.setWord_ne_index hi, Phys.setPage_ne hne]
      refine wp_pure ⟨⟨hfs, fun i hi => ?_⟩, hother, ?_⟩
      · by_cases e : i = v / nEntries
        · rw [e, Phys.setWord_self, pteAddr_mkPte perm_lt]
          exact Ne.symm hne
        · rw [hother i e] at hi ⊢
          exact h.tables i hi
      · rintro t j ⟨⟩
        exact Ne.symm hne

theorem Apart.setWord {t j w : ℕ} (h : Apart D m) (ht : t ≠ D) : Apart D (m.setWord t j w) := by
  refine ⟨h.free, fun i hi => ?_⟩
  rw [Phys.setWord_ne ht.symm] at hi ⊢
  exact h.tables i hi

/-- Page tables are added only from the first page on. -/
theorem mapLoop_apart {n : ℕ} (h : Apart D m) (hv : v + n < allPages) :
    wp (mapLoop D perm n (v * pgSize) page) (fun _ m' => Apart D m' ∧
      ∀ i, i < v / nEntries → m'.mem D i = m.mem D i) (fun _ => True) m := by
  induction n generalizing m v page with
  | zero =>
      unfold mapLoop
      apply wp_call (walkpgdir_apart h hv)
      rintro r m₁ ⟨h₁, hmem, hr⟩
      rcases r with _ | ⟨t, j⟩
      · exact wp_pure ⟨h₁, fun i hi => hmem i (Nat.ne_of_lt hi)⟩
      · have ht := hr t j rfl
        apply wp_bind
        apply wp_load
        refine wp_ite (fun _ => wp_throw trivial) fun _ => wp_bind (wp_store ?_)
        refine wp_pure ⟨h₁.setWord ht, fun i hi => ?_⟩
        rw [Phys.setWord_ne ht.symm, hmem i (Nat.ne_of_lt hi)]
  | succ n ih =>
      unfold mapLoop
      apply wp_call (walkpgdir_apart h (by omega))
      rintro r m₁ ⟨h₁, hmem, hr⟩
      rcases r with _ | ⟨t, j⟩
      · exact wp_pure ⟨h₁, fun i hi => hmem i (Nat.ne_of_lt hi)⟩
      · have ht := hr t j rfl
        apply wp_bind
        apply wp_load
        refine wp_ite (fun _ => wp_throw trivial) fun _ => wp_bind (wp_store ?_)
        rw [show v * pgSize + pgSize = (v + 1) * pgSize by rw [Nat.add_mul, Nat.one_mul]]
        refine wp_mono (ih (h₁.setWord ht) (by omega)) ?_ fun _ => id
        rintro b m₂ ⟨h₂, hmem₂⟩
        refine ⟨h₂, fun i hi => ?_⟩
        have hle : v / nEntries ≤ (v + 1) / nEntries := Nat.div_le_div_right (by omega)
        rw [hmem₂ i (by omega), Phys.setWord_ne ht.symm, hmem i (Nat.ne_of_lt hi)]

theorem mapKernel_apart {a n : ℕ} (hks : Ascending a ks n) (h : Apart D m) :
    wp (mapKernel D ks) (fun _ m' => ∀ i, i < a / nEntries → m'.mem D i = m.mem D i)
      (fun _ => True) m := by
  induction hks generalizing m with
  | nil => exact wp_pure fun _ _ => rfl
  | @cons a b c n k ks hspan hab hks ih =>
      unfold mapKernel
      have hle := hspan.le
      have hlt := hspan.lt
      have hmap : wp (mappages D k.virt k.size (k.physStart / pgSize) k.perm) (fun _ m' =>
          Apart D m' ∧ ∀ i, i < b / nEntries → m'.mem D i = m.mem D i) (fun _ => True) m := by
        unfold mappages
        rw [hspan.last, hspan.virt, pgRoundDown_page]
        show wp (mapLoop D k.perm ((c * pgSize - b * pgSize) / pgSize) (b * pgSize) _) _ _ _
        rw [← Nat.sub_mul, Nat.mul_div_cancel _ (by decide)]
        exact mapLoop_apart h (by omega)
      apply wp_call hmap
      rintro r m₁ ⟨h₁, hmem⟩
      have hb : a / nEntries ≤ b / nEntries := Nat.div_le_div_right hab
      have hc : b / nEntries ≤ (c + 1) / nEntries := Nat.div_le_div_right (by omega)
      cases r with
      | false => exact wp_pure fun i hi => hmem i (by omega)
      | true =>
          refine wp_mono (ih h₁) ?_ fun _ => id
          intro _ m₂ hmem₂ i hi
          rw [hmem₂ i (by omega), hmem i (by omega)]

/-- A new directory has no page tables for the user's half. -/
theorem setupkvm_tables {n : ℕ} (hks : Ascending userPages ks n) (hnodup : m.free.Nodup) :
    wp (setupkvm ks) (fun r m' => ∀ D, r = some D → ∀ i < userPages / nEntries, m'.mem D i = 0)
      (fun _ => True) m := by
  unfold setupkvm
  apply wp_bind
  apply wp_kalloc
  · exact fun _ => wp_pure nofun
  · intro f fs hf
    rw [hf] at hnodup
    have hz : ({ m with free := fs }.setPage f fun _ => 0).mem f = fun _ => 0 :=
      Phys.setPage_self
    have h : Apart f ({ m with free := fs }.setPage f fun _ => 0) := by
      refine ⟨(List.nodup_cons.mp hnodup).1, fun i hi => ?_⟩
      rw [hz] at hi
      exact absurd hi not_present_zero
    apply wp_bind
    apply wp_zeroPage
    rw [if_neg (by decide)]
    apply wp_call (mapKernel_apart hks h)
    intro b m₁ hmem
    cases b with
    | true =>
        refine wp_pure ?_
        rintro _ ⟨⟩ i hi
        rw [hmem i hi, hz]
    | false => exact wp_call wp_true fun _ _ _ => wp_pure nofun

end Tables

/-- `uva2ka` goes through the null pointer that `walkpgdir` returns. -/
theorem uva2ka_null (hv : v < allPages) (hn : ¬ Present (m.mem d (v / nEntries))) :
    uva2ka d (v * pgSize) m = .error .nullPte := by
  have hwalk : walkpgdir d (v * pgSize) false m = .ok (none, m) := by
    unfold walkpgdir
    rw [pdx_page hv]
    change (if Present (m.mem d (v / nEntries)) then _ else _ : VmM _) m = _
    rw [if_neg hn]
    rfl
  unfold uva2ka
  change (walkpgdir d (v * pgSize) false m >>= _) = _
  rw [hwalk]
  rfl

end Xv6.Vm.Exec
