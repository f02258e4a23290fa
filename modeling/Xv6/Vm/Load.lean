import Xv6.Vm.Exec

/-!
# The program in the new directory

`loaduvm` and the loop of `exec` over the program headers. The new directory has the pages
of `[0, sz)`, all of them the user's, and besides the kernel's. What is in them is a function
from addresses to bytes, zero to begin with; each segment is laid over it.
-/

namespace Xv6.Vm

open Xv6.Lib PanicM

variable {m m' m₀ : Phys} {o o' o₀ : ℕ → Owner} {d f i j k sz v va : ℕ} {p : Page}
  {S : ℕ → Prop}

/-! ## §1  Bytes -/

/-- Byte `k` of a page. -/
def pageByte (p : Page) (k : ℕ) : ℕ := p (k / 4) / 256 ^ (k % 4) % 256

/-- The byte at an address of a directory. -/
def Phys.byteAt (m : Phys) (d va : ℕ) : ℕ :=
  pageByte (m.mem (pteAddr (m.entry d (va / pgSize)))) (va % pgSize)

/-- What the user reads at an address; `none` where the user may not. -/
def Phys.userByte (m : Phys) (d va : ℕ) : Option ℕ :=
  if Present (m.entry d (va / pgSize)) ∧ HasU (m.entry d (va / pgSize)) then
    some (m.byteAt d va)
  else none

namespace Exec

theorem pageByte_setByte {b : ℕ} :
    pageByte (setByte p k b) j = if j = k then b % 256 else pageByte p j := by
  unfold pageByte setByte
  by_cases hw : j / 4 = k / 4
  · rw [hw, Function.update_self]
    generalize p (k / 4) = w
    have hj : j % 4 < 4 := Nat.mod_lt _ (by decide)
    have hk : k % 4 < 4 := Nat.mod_lt _ (by decide)
    have heq : j = k ↔ j % 4 = k % 4 := by omega
    simp only [heq]
    generalize j % 4 = a at hj ⊢
    generalize k % 4 = c at hk ⊢
    interval_cases a <;> interval_cases c <;> simp <;> omega
  · have hne : j ≠ k := by
      rintro rfl
      exact hw rfl
    rw [Function.update_of_ne hw, if_neg hne]

theorem pageByte_putBytes {bs : List ℕ} : pageByte (putBytes p k bs) j =
    if k ≤ j ∧ j < k + bs.length then byte bs (j - k) else pageByte p j := by
  induction bs generalizing p k with
  | nil =>
      rw [if_neg (by rw [List.length_nil]; omega)]
      rfl
  | cons b bs ih =>
      show pageByte (putBytes (setByte p k b) (k + 1) bs) j = _
      rw [ih, pageByte_setByte, List.length_cons]
      by_cases hj : j = k
      · subst hj
        rw [if_neg (by omega), if_pos rfl, if_pos (by omega), Nat.sub_self]
        rfl
      · by_cases hin : k + 1 ≤ j ∧ j < k + 1 + bs.length
        · rw [if_pos hin, if_pos (by omega), show j - k = j - (k + 1) + 1 by omega]
          rfl
        · rw [if_neg hin, if_neg hj, if_neg (by omega)]

/-! ## §2  The directory that is being filled -/

/-- The new directory has the pages of `[0, sz)`, for the user, and the devices. -/
structure Loaded (d sz : ℕ) (m₀ : Phys) (o₀ : ℕ → Owner) (m : Phys) (o : ℕ → Owner) : Prop
    extends Fresh d (· < pages sz) m₀ o₀ m o where
  le : sz ≤ kernBase
  user : ∀ u < pages sz, HasU (m.entry d u)
  devices : ∀ u, devSpace / pgSize ≤ u → u < allPages → Present (m.entry d u)

/-- The bytes of `[0, sz)`, and zero behind them. -/
def image (m : Phys) (d sz va : ℕ) : ℕ := if va / pgSize < pages sz then m.byteAt d va else 0

theorem Loaded.lt_userPages {u : ℕ} (h : Loaded d sz m₀ o₀ m o) (hu : u < pages sz) :
    u < userPages :=
  lt_of_lt_of_le hu (pages_le_userPages h.le)

theorem Loaded.owner {u : ℕ} (h : Loaded d sz m₀ o₀ m o) (hu : u < pages sz) :
    o (pteAddr (m.entry d u)) = .user d u :=
  h.acct.user_of h.dir (h.lt_userPages hu) ((h.present u (h.lt_userPages hu)).mpr hu)

/-- A call on the directory that keeps the pages there are. -/
theorem Loaded.step {sz' : ℕ} {T : ℕ → Prop} (h : Loaded d sz m₀ o₀ m o)
    (he : Effect d T m o m' o') (hT : ∀ u, T u → pages sz ≤ u ∧ u < userPages)
    (hle : sz' ≤ kernBase) (hp : ∀ u < userPages, Present (m'.entry d u) ↔ u < pages sz')
    (hu : ∀ u, pages sz ≤ u → u < pages sz' → HasU (m'.entry d u)) :
    Loaded d sz' m₀ o₀ m' o' := by
  refine ⟨h.toFresh.step he (fun u hu => (hT u hu).2) hp, hle, fun u hu' => ?_,
    fun u hu hu' => ?_⟩
  · by_cases hlt : u < pages sz
    · rw [he.entry u (lt_of_lt_of_le (h.lt_userPages hlt) userPages_le)
        fun hTu => absurd (hT u hTu).1 (not_le.mpr hlt)]
      exact h.user u hlt
    · exact hu u (not_lt.mp hlt) hu'
  · have hk : userPages ≤ u := le_trans (by decide) hu
    rw [he.entry u hu' fun hTu => absurd (hT u hTu).2 (not_lt.mpr hk)]
    exact h.devices u hu hu'

/-- The pages that are added are zero. -/
theorem Loaded.image_step {sz' : ℕ} {T : ℕ → Prop} (h : Loaded d sz m₀ o₀ m o)
    (he : Effect d T m o m' o') (hT : ∀ u, T u → pages sz ≤ u) (hle : pages sz ≤ pages sz')
    (hz : ∀ u, pages sz ≤ u → u < pages sz' → m'.mem (pteAddr (m'.entry d u)) = fun _ => 0) :
    image m' d sz' = image m d sz := by
  funext va
  unfold image
  by_cases hlt : va / pgSize < pages sz
  · have hnot : ¬ T (va / pgSize) := fun hTu => absurd (hT _ hTu) (not_le.mpr hlt)
    have hua := lt_of_lt_of_le (h.lt_userPages hlt) userPages_le
    rw [if_pos (lt_of_lt_of_le hlt hle), if_pos hlt]
    unfold Phys.byteAt
    rw [he.entry _ hua hnot, he.page _ _ hnot (h.owner hlt)]
  · rw [if_neg hlt]
    split
    case isFalse => rfl
    case isTrue hlt' =>
      unfold Phys.byteAt pageByte
      rw [hz _ (not_lt.mp hlt) hlt', Nat.zero_div]

theorem allocuvm_loaded {newsz : ℕ} (h : Loaded d sz m₀ o₀ m o) :
    wp (allocuvm d sz newsz) (fun r m' => (∃ o',
        if r = 0 then ∃ S, Fresh d S m₀ o₀ m' o'
        else Loaded d r m₀ o₀ m' o' ∧ r = max sz newsz ∧ newsz < kernBase ∧
          image m' d r = image m d sz) ∧
      (sz ≤ newsz → newsz < kernBase → Ample (pages newsz - pages sz) newsz r m m'))
      noPanic m := by
  have hs : Sized m d sz := h.present
  apply wp_mono (allocuvm_spec h.acct h.dir hs) _ fun _ => id
  rintro r m₁ ⟨o₁, h₁, hr⟩
  have hany : ∃ S, Fresh d S m₀ o₀ m₁ o₁ :=
    ⟨_, h.toFresh.step h₁ (fun u hu => hu.2) fun _ _ => Iff.rfl⟩
  rcases hr with ⟨hlt, hk, rfl, rfl⟩ | ⟨hlt, _, rfl, rfl⟩ | ⟨hle, hr, hlt, hample⟩
  · refine ⟨⟨o₁, ?_⟩, fun hle => absurd hlt (not_lt.mpr hle)⟩
    split
    case isTrue => exact hany
    case isFalse =>
      exact ⟨h.step h₁ (fun _ => id) h.le h.present fun u hu hu' => absurd hu' (not_lt.mpr hu),
        (max_eq_left (le_of_lt hlt)).symm, hk, rfl⟩
  · exact ⟨⟨o₁, hany⟩, fun hle => absurd hlt (not_lt.mpr hle)⟩
  · refine ⟨⟨o₁, ?_⟩, fun _ hk => hample hk⟩
    have hsized := hr.sized h₁ hs hle
    split
    case isTrue => exact hany
    case isFalse h0 =>
      rw [if_neg h0] at hsized
      rcases hr with ⟨rfl, hadd⟩ | ⟨rfl, _⟩
      · have hk := hlt.resolve_left h0
        exact ⟨h.step h₁ (fun _ => id) (le_of_lt hk) hsized hadd.user,
          (max_eq_right hle).symm, hk,
          h.image_step h₁ (fun u hu => hu.1) (pages_mono hle) hadd.zero⟩
      · exact absurd rfl h0

/-- With two free pages for each page that is added `allocuvm` has the memory. -/
theorem allocuvm_ample {newsz : ℕ} (h : Loaded d sz m₀ o₀ m o) (h0 : newsz ≠ 0)
    (hle : sz ≤ newsz) (hk : newsz < kernBase)
    (hfree : 2 * (pages newsz - pages sz) ≤ m.free.length) :
    ∃ m' o', allocuvm d sz newsz m = .ok (newsz, m') ∧ Loaded d newsz m₀ o₀ m' o' ∧
      m.free.length ≤ m'.free.length + 2 * (pages newsz - pages sz) := by
  obtain ⟨r, m', hx, ⟨o', hr⟩, hample⟩ := exists_of_wp (allocuvm_loaded h)
  obtain ⟨rfl, hcost⟩ := hample hle hk hfree
  rw [if_neg h0] at hr
  exact ⟨m', o', hx, hr.1, hcost⟩

/-! ## §3  `loaduvm` -/

/-- The bytes of a file from `off` on, over `[a, a + n)`. -/
def overlay (file : List ℕ) (off a n : ℕ) (img : ℕ → ℕ) (va : ℕ) : ℕ :=
  if a ≤ va ∧ va < a + n then byte file (off + (va - a)) else img va

theorem Loaded.write {u : ℕ} (h : Loaded d sz m₀ o₀ m o) (hu : u < pages sz) :
    Loaded d sz m₀ o₀ (m.setPage (pteAddr (m.entry d u)) p) o := by
  have hf := h.owner hu
  refine ⟨h.toFresh.write hf, h.le, fun u hu => ?_, fun u hu hu' => ?_⟩
  · rw [h.acct.entry_write h.dir hf (lt_of_lt_of_le (h.lt_userPages hu) userPages_le)]
    exact h.user u hu
  · rw [h.acct.entry_write h.dir hf hu']
    exact h.devices u hu hu'

/-- Each page of the user is mapped once. -/
theorem Loaded.byteAt_write {u : ℕ} (h : Loaded d sz m₀ o₀ m o) (hu : u < pages sz)
    (hva : va / pgSize < pages sz) :
    (m.setPage (pteAddr (m.entry d u)) p).byteAt d va =
      if va / pgSize = u then pageByte p (va % pgSize) else m.byteAt d va := by
  have hua := lt_of_lt_of_le (h.lt_userPages hva) userPages_le
  unfold Phys.byteAt
  rw [h.acct.entry_write h.dir (h.owner hu) hua]
  split
  case isTrue he => rw [he, Phys.setPage_self]
  case isFalse hne =>
    rw [Phys.setPage_ne]
    intro e
    have hown := h.owner hva
    rw [e, h.owner hu] at hown
    cases hown
    exact hne rfl

theorem fileInode_some {file bs : List ℕ} {off n : ℕ} (h : fileInode file off n = some bs)
    (hlen : bs.length = n) :
    off + n ≤ file.length ∧ off + n < 2 ^ 32 ∧ ∀ i < n, byte bs i = byte file (off + i) := by
  unfold fileInode at h
  split at h
  case isTrue => cases h
  case isFalse hok =>
    cases h
    rw [List.length_take, List.length_drop] at hlen
    refine ⟨by omega, by omega, fun i hi => ?_⟩
    unfold byte
    rw [List.getD_eq_getElem?_getD, List.getD_eq_getElem?_getD, List.getElem?_take_of_lt hi,
      List.getElem?_drop]

theorem fileInode_of_le {file : List ℕ} {off n : ℕ} (h : off + n ≤ file.length)
    (hlt : off + n < 2 ^ 32) : ∃ bs, fileInode file off n = some bs ∧ bs.length = n := by
  refine ⟨(file.drop off).take n, if_neg (by omega), ?_⟩
  rw [List.length_take, List.length_drop]
  omega

/-- One page of the loop of `loaduvm`. -/
theorem overlay_page {file bs : List ℕ} {addr offset n : ℕ} (h : Loaded d sz m₀ o₀ m o)
    (ha : (addr + i) % pgSize = 0) (hn : n ≤ pgSize) (hlen : bs.length = n)
    (hlt : (addr + i) / pgSize < pages sz)
    (hbs : ∀ j < n, byte bs j = byte file (offset + i + j)) :
    image (m.setPage (pteAddr (m.entry d ((addr + i) / pgSize)))
        (putBytes (m.mem (pteAddr (m.entry d ((addr + i) / pgSize)))) 0 bs)) d sz =
      overlay file (offset + i) (addr + i) n (image m d sz) := by
  funext va
  unfold image overlay
  dsimp only
  have hin : addr + i ≤ va ∧ va < addr + i + n ↔
      va / pgSize = (addr + i) / pgSize ∧ va % pgSize < n := by
    unfold pgSize at *
    omega
  by_cases hva : va / pgSize < pages sz
  · rw [if_pos hva, if_pos hva, h.byteAt_write hlt hva, pageByte_putBytes, hlen]
    by_cases he : va / pgSize = (addr + i) / pgSize
    · rw [if_pos he]
      by_cases hlt' : va % pgSize < n
      · rw [if_pos ⟨Nat.zero_le _, by omega⟩, if_pos (hin.mpr ⟨he, hlt'⟩), Nat.sub_zero, hbs _ hlt']
        congr 2
        unfold pgSize at *
        omega
      · rw [if_neg (by omega), if_neg fun h => hlt' (hin.mp h).2]
        unfold Phys.byteAt
        rw [he]
    · rw [if_neg he, if_neg fun h => he (hin.mp h).1]
  · rw [if_neg hva, if_neg hva, if_neg]
    intro h
    rw [(hin.mp h).1] at hva
    exact hva hlt

theorem overlay_zero {file : List ℕ} {off a : ℕ} {img : ℕ → ℕ} :
    overlay file off a 0 img = img := by
  funext va
  exact if_neg (by omega)

theorem overlay_overlay {file : List ℕ} {off a n n' : ℕ} {img : ℕ → ℕ} :
    overlay file (off + n) (a + n) n' (overlay file off a n img) =
      overlay file off a (n + n') img := by
  funext va
  unfold overlay
  by_cases h₁ : a + n ≤ va ∧ va < a + n + n'
  · rw [if_pos h₁, if_pos (by omega)]
    congr 1
    omega
  · rw [if_neg h₁]
    by_cases h₂ : a ≤ va ∧ va < a + n
    · rw [if_pos h₂, if_pos (by omega)]
    · rw [if_neg h₂, if_neg (by omega)]

/-- The loop of `loaduvm`, with `i` bytes of the segment loaded. It does not panic; it
returns 0 if the file has the bytes, and then they are in the pages. -/
theorem loadLoop_spec {ip : Inode} {addr offset len : ℕ} (h : Loaded d sz m₀ o₀ m o)
    (hle : addr + len ≤ sz) (ha : addr % pgSize = 0) (hi : i % pgSize = 0) :
    wp (loadLoop d addr ip offset len i) (fun r m' => Loaded d sz m₀ o₀ m' o ∧
      m'.free = m.free ∧
      ∀ file, ip = fileInode file → (i < len → offset + i < 2 ^ 32) →
        (r = true → image m' d sz =
          overlay file (offset + i) (addr + i) (len - i) (image m d sz)) ∧
        (offset + len ≤ file.length → offset + len < 2 ^ 32 → r = true)) noPanic m := by
  induction hleft : len - i using Nat.strong_induction_on generalizing i m with
  | _ left ih =>
    rw [loadLoop]
    by_cases hlt : i < len
    · have hin : (addr + i) / pgSize < pages sz := by
        unfold pages pgSize
        omega
      have hu := h.lt_userPages hin
      have hp := (h.present _ hu).mpr hin
      rw [if_pos hlt, walkpgdir_round]
      apply wp_call (walkpgdir_find h.acct h.dir (lt_of_lt_of_le hu userPages_le))
      rintro r m₁ ⟨rfl, hr⟩
      rcases r with _ | ⟨t, j⟩
      · exact absurd hp (Phys.not_present_of_div hr rfl)
      · obtain ⟨ht, rfl⟩ := hr
        apply wp_bind
        apply wp_load
        rw [← h.acct.entry_eq ht]
        dsimp only
        generalize hn : min (len - i) pgSize = n
        have hnlen : n ≤ pgSize := by omega
        cases hread : ip ((offset + i) % 2 ^ 32) n with
        | none =>
            refine wp_pure ⟨h, rfl, fun file hip hoff => ⟨by simp, fun hfile hwrap => ?_⟩⟩
            rw [hip, Nat.mod_eq_of_lt (hoff hlt)] at hread
            obtain ⟨bs, hbs, _⟩ := fileInode_of_le
              (show offset + i + n ≤ file.length by omega) (by omega)
            cases hbs.symm.trans hread
        | some bs =>
            apply wp_bind
            apply wp_modify
            have h' := h.write (p := putBytes
              (m₁.mem (pteAddr (m₁.entry d ((addr + i) / pgSize)))) 0 bs) hin
            split
            case isFalse hshort =>
              refine wp_pure ⟨h', rfl, fun file hip hoff => ⟨by simp, fun hfile hwrap => ?_⟩⟩
              rw [hip, Nat.mod_eq_of_lt (hoff hlt)] at hread
              obtain ⟨bs', hbs, hlen⟩ := fileInode_of_le
                (show offset + i + n ≤ file.length by omega) (by omega)
              cases hbs.symm.trans hread
              exact absurd hlen hshort
            case isTrue hlen =>
              have hmod : (i + pgSize) % pgSize = 0 := by
                rw [Nat.add_mod_right]
                exact hi
              apply wp_mono (ih _ (by unfold pgSize; omega) h' hmod rfl) _ fun _ => id
              rintro r m₂ ⟨h₂, hfree, hfile⟩
              refine ⟨h₂, hfree, fun file hip hoff => ?_⟩
              rw [hip, Nat.mod_eq_of_lt (hoff hlt)] at hread
              obtain ⟨_, hwrap, hbs⟩ := fileInode_some hread hlen
              have halign : (addr + i) % pgSize = 0 := by
                rw [Nat.add_mod, ha, hi, Nat.add_zero, Nat.zero_mod]
              obtain ⟨hdone, hok⟩ := hfile file hip (by omega)
              refine ⟨fun hr => ?_, hok⟩
              rw [hdone hr, overlay_page h halign hnlen hlen hin hbs]
              -- a page that is read in part is the last one
              by_cases hlast : len - i ≤ pgSize
              · rw [show len - (i + pgSize) = 0 by omega, overlay_zero,
                  show n = left by omega]
              · rw [show n = pgSize by omega, ← Nat.add_assoc, ← Nat.add_assoc,
                  overlay_overlay, show pgSize + (len - (i + pgSize)) = left by omega]
    · rw [if_neg hlt]
      refine wp_pure ⟨h, rfl, fun file _ _ => ⟨fun _ => ?_, fun _ _ => rfl⟩⟩
      rw [show left = 0 by omega, overlay_zero]

/-! ## §4  The program headers -/

/-- The loadable segments among the `n` headers from `off` on. -/
def segments (file : List ℕ) : ℕ → ℕ → List ProgHdr
  | 0, _ => []
  | n + 1, off =>
      match readPh (fileInode file) (off % 2 ^ 32) with
      | none => []
      | some ph =>
          if ph.type ≠ elfProgLoad then segments file n (off + 32)
          else ph :: segments file n (off + 32)

/-- The segments one over the other. -/
def layout (file : List ℕ) (segs : List ProgHdr) (img : ℕ → ℕ) : ℕ → ℕ :=
  segs.foldl (fun img ph => overlay file ph.off ph.vaddr ph.filesz img) img

theorem le32_lt (bs : List ℕ) (i : ℕ) : le32 bs i < 2 ^ 32 := by
  have hbyte (i : ℕ) : byte bs i < 256 := Nat.mod_lt _ (by decide)
  have h0 := hbyte i
  have h1 := hbyte (i + 1)
  have h2 := hbyte (i + 2)
  have h3 := hbyte (i + 2 + 1)
  unfold le32 le16
  omega

theorem readPh_lt {ip : Inode} {off : ℕ} {ph : ProgHdr} (h : readPh ip off = some ph) :
    ph.off < 2 ^ 32 ∧ ph.vaddr < 2 ^ 32 ∧ ph.memsz < 2 ^ 32 := by
  unfold readPh at h
  split at h
  case h_1 => cases h
  case h_2 bs _ =>
    split at h
    case isFalse => cases h
    case isTrue =>
      cases h
      exact ⟨le32_lt bs 4, le32_lt bs 8, le32_lt bs 20⟩

/-- The test for overflow of `ph.vaddr + ph.memsz`. -/
theorem mod_of_not_wrapped {a b : ℕ} (ha : a < 2 ^ 32) (hb : b < 2 ^ 32)
    (h : ¬ (a + b) % 2 ^ 32 < a) : (a + b) % 2 ^ 32 = a + b := by
  omega

/-- The address is one that the segment's bytes are loaded to. -/
def ProgHdr.Covers (ph : ProgHdr) (va : ℕ) : Prop := ph.vaddr ≤ va ∧ va < ph.vaddr + ph.filesz

/-- The segment has bytes in the page `u`. -/
def ProgHdr.Occupies (ph : ProgHdr) (u : ℕ) : Prop :=
  ph.vaddr < (u + 1) * pgSize ∧ u * pgSize < ph.vaddr + ph.memsz

/-- No page is occupied by two segments. -/
def PageDisjoint (segs : List ProgHdr) : Prop :=
  segs.Pairwise fun a b => ∀ u, ¬ (a.Occupies u ∧ b.Occupies u)

theorem ProgHdr.Covers.occupies {ph : ProgHdr} (h : ph.Covers va) (hle : ph.filesz ≤ ph.memsz) :
    ph.Occupies (va / pgSize) := by
  obtain ⟨h₁, h₂⟩ := h
  unfold ProgHdr.Occupies pgSize
  omega

theorem layout_other {file : List ℕ} {segs : List ProgHdr} {img : ℕ → ℕ}
    (h : ∀ ph ∈ segs, ¬ ph.Covers va) : layout file segs img va = img va := by
  induction segs generalizing img with
  | nil => rfl
  | cons ph segs ih =>
      obtain ⟨hph, hsegs⟩ := List.forall_mem_cons.mp h
      exact (ih hsegs).trans (if_neg hph)

theorem layout_covered {file : List ℕ} {segs : List ProgHdr} {img : ℕ → ℕ} {ph : ProgHdr}
    (hdis : PageDisjoint segs) (hsz : ∀ ph ∈ segs, ph.filesz ≤ ph.memsz) (hph : ph ∈ segs)
    (hva : ph.Covers va) : layout file segs img va = byte file (ph.off + (va - ph.vaddr)) := by
  induction segs generalizing img with
  | nil => cases hph
  | cons q segs ih =>
      obtain ⟨hq, hdis⟩ := List.pairwise_cons.mp hdis
      obtain ⟨hszq, hszs⟩ := List.forall_mem_cons.mp hsz
      rcases List.mem_cons.mp hph with rfl | hph
      · show layout file segs (overlay file ph.off ph.vaddr ph.filesz img) va = _
        rw [layout_other fun b hb hcov =>
          hq b hb _ ⟨hva.occupies hszq, hcov.occupies (hszs b hb)⟩]
        exact if_pos hva
      · exact ih hdis hszs hph

/-- The loop over the program headers, whatever they say: it does not panic, and if it gets
to the end the segments are in the pages, one over the other, and nothing else. -/
theorem loadSegs_spec {ip : Inode} {n off : ℕ} (h : Loaded d sz m₀ o₀ m o) :
    wp (loadSegs d ip n off sz) (fun r m' => ∃ o',
      match r with
      | none => ∃ S, Fresh d S m₀ o₀ m' o'
      | some sz' => sz ≤ sz' ∧ Loaded d sz' m₀ o₀ m' o' ∧ ∀ file, ip = fileInode file →
          (∀ ph ∈ segments file n off, ph.filesz ≤ ph.memsz ∧ ph.vaddr + ph.memsz ≤ sz') ∧
          image m' d sz' = layout file (segments file n off) (image m d sz)) noPanic m := by
  induction n generalizing off sz m o with
  | zero => exact wp_pure ⟨o, le_rfl, h, fun file _ => ⟨nofun, rfl⟩⟩
  | succ n ih =>
      have hbad : ∃ o', ∃ S, Fresh d S m₀ o₀ m o' := ⟨o, _, h.toFresh⟩
      unfold loadSegs
      split
      case h_1 => exact wp_pure hbad
      case h_2 ph hph =>
        obtain ⟨hoff, hvaddr, hmemsz⟩ := readPh_lt hph
        have hsegs {file : List ℕ} (hip : ip = fileInode file) : segments file (n + 1) off =
            if ph.type ≠ elfProgLoad then segments file n (off + 32)
            else ph :: segments file n (off + 32) := by
          rw [hip] at hph
          simp only [segments, hph]
        split
        case isTrue htype =>
          apply wp_mono (ih h) _ fun _ => id
          rintro (_ | sz') m₁ ⟨o₁, h₁⟩
          · exact ⟨o₁, h₁⟩
          · refine ⟨o₁, h₁.1, h₁.2.1, fun file hip => ?_⟩
            rw [hsegs hip, if_pos htype]
            exact h₁.2.2 file hip
        case isFalse htype =>
        split
        case isTrue => exact wp_pure hbad
        case isFalse hmem =>
        split
        case isTrue => exact wp_pure hbad
        case isFalse hwrap =>
        rw [mod_of_not_wrapped hvaddr hmemsz hwrap]
        apply wp_call (allocuvm_loaded h)
        rintro r m₁ ⟨⟨o₁, h₁⟩, _⟩
        split
        case isTrue h0 =>
          rw [if_pos h0] at h₁
          exact wp_pure ⟨o₁, h₁⟩
        case isFalse h0 =>
        rw [if_neg h0] at h₁
        obtain ⟨h₁, hr, _, himg₁⟩ := h₁
        split
        case isTrue => exact wp_pure ⟨o₁, _, h₁.toFresh⟩
        case isFalse halign =>
        -- the segment ends below the new size
        have hend : ph.vaddr + ph.filesz ≤ r := by omega
        unfold loaduvm
        rw [if_neg halign]
        rw [not_not] at halign
        apply wp_call (loadLoop_spec h₁ hend halign (Nat.zero_mod _))
        rintro b m₂ ⟨h₂, _, hfile₂⟩
        cases b with
        | false => exact wp_pure ⟨o₁, _, h₂.toFresh⟩
        | true =>
            apply wp_mono (ih h₂) _ fun _ => id
            rintro (_ | sz') m₃ ⟨o₃, h₃⟩
            · exact ⟨o₃, h₃⟩
            · obtain ⟨hle, h₃, hfile₃⟩ := h₃
              refine ⟨o₃, by omega, h₃, fun file hip => ?_⟩
              obtain ⟨hin, himg₃⟩ := hfile₃ file hip
              have himg₂ := (hfile₂ file hip fun _ => hoff).1 rfl
              rw [hsegs hip, if_neg htype]
              refine ⟨List.forall_mem_cons.mpr ⟨⟨not_lt.mp hmem, by omega⟩, hin⟩, ?_⟩
              rw [himg₃, himg₂, himg₁, Nat.sub_zero, Nat.add_zero, Nat.add_zero]
              rfl

end Exec

end Xv6.Vm
