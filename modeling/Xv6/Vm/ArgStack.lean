import Mathlib.Algebra.Order.BigOperators.Group.List
import Xv6.Vm.Load

/-!
# The stack of a new program

`exec` adds two pages behind the program. The first one is closed to the user, the second
is the stack; the arguments are copied to its end through `copyout`, each below the one
before. `sp` is a `uint` and may pass the guard page, or wrap around. What is copied then
meets a page that the user may not use, and `copyout` fails. It dereferences a null pointer
only where an argument is longer than the devices at the end of the address space.
-/

namespace Xv6.Vm.Exec

open Xv6.Lib PanicM

variable {m m' m₀ : Phys} {o o' o₀ : ℕ → Owner} {d f i k sz sp v va : ℕ} {p : Page}
  {S : ℕ → Prop} {bs : List ℕ}

/-! ## §1  The two pages -/

/-- The new directory has `k` pages of the program, the guard page and the stack. -/
structure Guarded (d k : ℕ) (m₀ : Phys) (o₀ : ℕ → Owner) (m : Phys) (o : ℕ → Owner) : Prop
    extends Fresh d (· < k + 2) m₀ o₀ m o where
  lt : k + 2 < userPages
  user : ∀ u < k + 2, HasU (m.entry d u) ↔ u ≠ k
  devices : ∀ u, devSpace / pgSize ≤ u → u < allPages → Present (m.entry d u)

namespace Guarded

variable (h : Guarded d k m₀ o₀ m o)
include h

theorem lt_allPages {u : ℕ} (hu : u < k + 2) : u < allPages :=
  lt_of_lt_of_le (lt_trans hu h.lt) userPages_le

theorem owner {u : ℕ} (hu : u < k + 2) : o (pteAddr (m.entry d u)) = .user d u :=
  have hlt := lt_trans hu h.lt
  h.acct.user_of h.dir hlt ((h.present u hlt).mpr hu)

/-- Where the user may not write. -/
theorem closed {u : ℕ} (hu : u < allPages) (hc : u = k ∨ userPages ≤ u) :
    ¬ (Present (m.entry d u) ∧ HasU (m.entry d u)) := by
  rintro ⟨hp, hU⟩
  rcases hc with rfl | hk
  · exact (h.user u (by omega)).mp hU rfl
  · exact h.kernel u hu hk hp hU

/-- Where there is a page table. -/
theorem table {u : ℕ} (hu : u < allPages) (ht : u < k + 2 ∨ devSpace / pgSize ≤ u) :
    Present (m.mem d (u / nEntries)) := by
  have hp : Present (m.entry d u) := by
    rcases ht with hlt | hdev
    · exact (h.present u (lt_trans hlt h.lt)).mpr hlt
    · exact h.devices u hdev hu
  by_contra hn
  exact Phys.not_present_of_div hn rfl hp

theorem write (hf : o f = .user d v) : Guarded d k m₀ o₀ (m.setPage f p) o := by
  refine ⟨h.toFresh.write hf, h.lt, fun u hu => ?_, fun u hu hu' => ?_⟩
  · rw [h.acct.entry_write h.dir hf (h.lt_allPages hu)]
    exact h.user u hu
  · rw [h.acct.entry_write h.dir hf hu']
    exact h.devices u hu hu'

end Guarded

/-! ## §2  `copyout` -/

theorem uva2ka_spec (ha : Acct m o) (hD : o d = .dir) (hv : v < allPages) :
    wp (uva2ka d (v * pgSize)) (fun r m' => m' = m ∧
        r = if Present (m.entry d v) ∧ HasU (m.entry d v) then some (pteAddr (m.entry d v))
          else none)
      (fun e => e = .nullPte ∧ ¬ Present (m.mem d (v / nEntries))) m := by
  unfold uva2ka
  apply wp_call (wp_mono (walkpgdir_find ha hD hv) (fun _ _ => id) nofun)
  rintro r m₁ ⟨rfl, hr⟩
  rcases r with _ | ⟨t, j⟩
  · exact wp_throw ⟨rfl, hr⟩
  · obtain ⟨ht, rfl⟩ := hr
    apply wp_bind
    apply wp_load
    rw [← ha.entry_eq ht]
    split
    case isTrue hn => exact wp_pure ⟨rfl, (if_neg fun h => hn h.1).symm⟩
    case isFalse hp =>
    split
    case isTrue hn => exact wp_pure ⟨rfl, (if_neg fun h => hn h.2).symm⟩
    case isFalse hu => exact wp_pure ⟨rfl, (if_pos ⟨not_not.mp hp, not_not.mp hu⟩).symm⟩

/-- A copy that meets a closed page `b` fails. Without a page table it dereferences the
null pointer before it gets there. -/
theorem copyout_closed {b : ℕ} (h : Guarded d k m₀ o₀ m o) (hne : bs ≠ [])
    (hb : b < allPages) (hle : va / pgSize ≤ b) (hlt : b * pgSize < va + bs.length)
    (hc : b = k ∨ userPages ≤ b) :
    wp (copyout d va bs) (fun r m' => r = false ∧ Guarded d k m₀ o₀ m' o)
      (fun e => e = .nullPte ∧ ∃ u, va / pgSize ≤ u ∧ u ≤ b ∧ ¬ Present (m.mem d (u / nEntries)))
      m := by
  induction hlen : bs.length using Nat.strong_induction_on generalizing va bs m with
  | _ len ih =>
    have hv : va / pgSize < allPages := lt_of_le_of_lt hle hb
    rw [copyout, if_neg hne]
    apply wp_call (wp_mono (uva2ka_spec h.acct h.dir hv) (fun _ _ => id) ?_)
    · rintro r m₁ ⟨rfl, rfl⟩
      split
      case h_1 => exact wp_pure ⟨rfl, h⟩
      case h_2 f hf =>
        split at hf
        case isFalse => cases hf
        case isTrue hopen =>
          cases hf
          -- an open page is the user's, and it is not `b`
          have hnot : va / pgSize ≠ b := by
            rintro rfl
            exact h.closed hb hc hopen
          have huser : va / pgSize < userPages := by
            by_contra hk
            exact h.closed hv (.inr (not_lt.mp hk)) hopen
          have hown := h.acct.user_of h.dir huser hopen.1
          have hdf : d ≠ pteAddr (m₁.entry d (va / pgSize)) := by
            intro e
            rw [← e, h.dir] at hown
            cases hown
          have hnext : (pgRoundDown va + pgSize) % 2 ^ 32 = (va / pgSize + 1) * pgSize := by
            unfold pgRoundDown pgSize allPages nEntries at *
            omega
          have hdiv : (va / pgSize + 1) * pgSize / pgSize = va / pgSize + 1 :=
            Nat.mul_div_cancel _ (by decide)
          have hroom : pgSize - (va - pgRoundDown va) < bs.length := by
            unfold pgRoundDown pgSize at *
            omega
          have hdrop : (bs.drop (pgSize - (va - pgRoundDown va))).length =
              bs.length - (pgSize - (va - pgRoundDown va)) := List.length_drop ..
          apply wp_bind
          apply wp_modify
          rw [hnext]
          refine wp_mono (ih _ ?_ (h.write hown) ?_ ?_ ?_ rfl) (fun _ _ => id) ?_
          · unfold pgRoundDown pgSize at *
            omega
          · rw [ne_eq, ← List.length_eq_zero_iff]
            omega
          · rw [hdiv]
            omega
          · unfold pgRoundDown pgSize at *
            omega
          · rintro e ⟨he, u, hu, hub, hn⟩
            rw [hdiv] at hu
            rw [Phys.setPage_ne hdf] at hn
            exact ⟨he, u, by omega, hub, hn⟩
    · rintro e ⟨he, hn⟩
      exact ⟨he, _, le_rfl, hle, hn⟩

/-- The memory after `bs` is copied to `va` in the stack. -/
def put (m : Phys) (d k va : ℕ) (bs : List ℕ) : Phys :=
  let f := pteAddr (m.entry d (k + 1))
  m.setPage f (putBytes (m.mem f) (va - (k + 1) * pgSize) bs)

/-- A copy inside of the stack. -/
theorem copyout_stack (h : Guarded d k m₀ o₀ m o) (hne : bs ≠ []) (hlo : (k + 1) * pgSize ≤ va)
    (hhi : va + bs.length ≤ (k + 2) * pgSize) :
    wp (copyout d va bs) (fun r m' => r = true ∧ m' = put m d k va bs) noPanic m := by
  have hpos : 0 < bs.length := List.length_pos_iff.mpr hne
  have hv : va / pgSize = k + 1 := by
    unfold pgSize at *
    omega
  have hround : pgRoundDown va = (k + 1) * pgSize := by
    unfold pgRoundDown
    rw [hv]
  have hroom : bs.length ≤ pgSize - (va - (k + 1) * pgSize) := by
    unfold pgSize at *
    omega
  have hopen : Present (m.entry d (k + 1)) ∧ HasU (m.entry d (k + 1)) :=
    ⟨(h.present _ (by have := h.lt; omega)).mpr (by omega), (h.user _ (by omega)).mpr (by omega)⟩
  rw [copyout, if_neg hne, hround]
  apply wp_call (wp_mono (uva2ka_spec h.acct h.dir (h.lt_allPages (by omega))) (fun _ _ => id) ?_)
  · rintro r m₁ ⟨rfl, rfl⟩
    rw [if_pos hopen]
    apply wp_bind
    apply wp_modify
    rw [List.take_of_length_le hroom, List.drop_of_length_le hroom, copyout, if_pos rfl]
    exact wp_pure ⟨rfl, rfl⟩
  · rintro e ⟨_, hn⟩
    exact hn (h.table (h.lt_allPages (by omega)) (.inl (by omega)))

/-! ## §3  Pushing -/

/-- The bytes that a push of `n` bytes takes. -/
def room (n : ℕ) : ℕ := (n + 3) / 4 * 4

/-- `sp` in the stack: 4-aligned, between the guard page and the end. -/
structure InStack (k sp : ℕ) : Prop where
  lo : (k + 1) * pgSize ≤ sp
  hi : sp ≤ (k + 2) * pgSize
  aligned : sp % 4 = 0

theorem sub32_lt (sp n : ℕ) : sub32 sp n < 2 ^ 32 := Nat.mod_lt _ (by decide)

theorem sub32_aligned {n : ℕ} (h : InStack k sp) (hn : n % 4 = 0) :
    sub32 sp n / 4 * 4 = sub32 sp n := by
  have := h.aligned
  unfold sub32
  omega

/-- A push that fits. -/
theorem sub32_fits {n : ℕ} (h : InStack k sp) (hlt : k + 2 < userPages)
    (hfit : (k + 1) * pgSize + room n ≤ sp) :
    sub32 sp n / 4 * 4 = sp - room n ∧ InStack k (sp - room n) ∧ sp - room n + n ≤ sp := by
  obtain ⟨hlo, hhi, h4⟩ := h
  have hsp : sp < 2 ^ 31 := by
    unfold userPages kernBase pgSize at *
    omega
  have hn : n ≤ room n := by
    unfold room
    omega
  refine ⟨?_, ⟨by omega, by omega, ?_⟩, by omega⟩
  · unfold sub32 room at *
    omega
  · unfold room
    omega

/-- A push that does not fit starts at or before a page that is closed and does not end
before it. -/
theorem sub32_closed {n : ℕ} (h : InStack k sp) (hlt : k + 2 < userPages) (hn : 0 < n)
    (hfit : ¬ (k + 1) * pgSize + room n ≤ sp) :
    ∃ b < allPages, (b = k ∨ userPages ≤ b) ∧ sub32 sp n / 4 * 4 / pgSize ≤ b ∧
      b * pgSize < sub32 sp n / 4 * 4 + n ∧
      (n ≤ 2 ^ 24 → ∀ u, sub32 sp n / 4 * 4 / pgSize ≤ u → u ≤ b →
        u < k + 2 ∨ devSpace / pgSize ≤ u) := by
  obtain ⟨hlo, hhi, h4⟩ := h
  have hsp : sp < 2 ^ 31 := by
    unfold userPages kernBase pgSize at *
    omega
  have hpos : 4096 ≤ sp := by
    unfold pgSize at *
    omega
  by_cases hwrap : n ≤ sp
  · -- `sp` is below the stack, and the copy ends above the guard page
    have ha : sub32 sp n = sp - n := by
      unfold sub32
      omega
    rw [ha]
    refine ⟨k, lt_of_lt_of_le (by omega) userPages_le, .inl rfl, ?_, ?_, fun _ u hu hub => ?_⟩
    · unfold room pgSize at *
      omega
    · unfold pgSize at *
      omega
    · exact .inl (by omega)
  · have hdev : devSpace / pgSize = 1040384 := by decide
    by_cases hk : kernBase ≤ sub32 sp n / 4 * 4
    · -- it has wrapped into the kernel's half
      have hlt32 := sub32_lt sp n
      refine ⟨sub32 sp n / 4 * 4 / pgSize, ?_, .inr ?_, le_rfl, ?_, fun hn u hu hub => .inr ?_⟩
      · unfold allPages nEntries pgSize
        omega
      · unfold userPages kernBase pgSize at *
        omega
      · unfold pgSize
        omega
      · have : 0xFE000000 ≤ sub32 sp n / 4 * 4 := by
          unfold sub32
          omega
        rw [hdev]
        unfold pgSize at *
        omega
    · -- it has wrapped further, and the copy comes to the kernel's half
      refine ⟨userPages, by decide, .inr le_rfl, ?_, ?_, fun hn => ?_⟩
      · unfold userPages kernBase pgSize at *
        omega
      · unfold userPages kernBase pgSize sub32 at *
        omega
      · unfold kernBase sub32 at hk
        omega

/-- A push to the stack: it succeeds if and only if there is room for it. -/
theorem push_spec (h : Guarded d k m₀ o₀ m o) (hs : InStack k sp) (hne : bs ≠ []) :
    wp (copyout d (sub32 sp bs.length / 4 * 4) bs) (fun r m' =>
        if (k + 1) * pgSize + room bs.length ≤ sp then
          r = true ∧ m' = put m d k (sp - room bs.length) bs
        else r = false ∧ Guarded d k m₀ o₀ m' o)
      (fun e => e = .nullPte ∧ 2 ^ 24 < bs.length) m := by
  by_cases hfit : (k + 1) * pgSize + room bs.length ≤ sp
  · obtain ⟨he, hin, hle⟩ := sub32_fits hs h.lt hfit
    rw [he]
    simp only [if_pos hfit]
    exact wp_mono (copyout_stack h hne hin.lo (le_trans hle hs.hi)) (fun _ _ => id) nofun
  · obtain ⟨b, hb, hc, hle, hlt, htab⟩ := sub32_closed hs h.lt (List.length_pos_iff.mpr hne) hfit
    simp only [if_neg hfit]
    refine wp_mono (copyout_closed h hne hb hle hlt hc) (fun _ _ => id) ?_
    rintro e ⟨he, u, hu, hub, hn⟩
    refine ⟨he, ?_⟩
    by_contra hlen
    exact hn (h.table (lt_of_le_of_lt hub hb) (htab (not_lt.mp hlen) u hu hub))

/-! ## §4  What is in the stack -/

/-- The user reads these bytes from `va` on. -/
def Holds (m : Phys) (d va : ℕ) (bs : List ℕ) : Prop :=
  ∀ i < bs.length, m.userByte d (va + i) = some (byte bs i)

/-- Outside of the stack the directory and its pages are as before. -/
structure Kept (d k : ℕ) (m m' : Phys) : Prop where
  entry : ∀ u < allPages, m'.entry d u = m.entry d u
  page : ∀ u < k + 1, m'.mem (pteAddr (m.entry d u)) = m.mem (pteAddr (m.entry d u))

theorem Kept.refl : Kept d k m m := ⟨fun _ _ => rfl, fun _ _ => rfl⟩

theorem Kept.trans {m'' : Phys} (hk : k + 1 ≤ allPages) (h : Kept d k m m')
    (h' : Kept d k m' m'') : Kept d k m m'' := by
  refine ⟨fun u hu => (h'.entry u hu).trans (h.entry u hu), fun u hu => ?_⟩
  have := h'.page u hu
  rw [h.entry u (by omega)] at this
  exact this.trans (h.page u hu)

namespace Guarded

variable (h : Guarded d k m₀ o₀ m o)
include h

theorem stack_owner : o (pteAddr (m.entry d (k + 1))) = .user d (k + 1) := h.owner (by omega)

theorem put : Guarded d k m₀ o₀ (put m d k va bs) o := h.write h.stack_owner

theorem put_entry {u : ℕ} (hu : u < allPages) :
    (Exec.put m d k va bs).entry d u = m.entry d u :=
  h.acct.entry_write h.dir h.stack_owner hu

theorem kept_put : Kept d k m (Exec.put m d k va bs) := by
  refine ⟨fun u hu => h.put_entry hu, fun u hu => Phys.setPage_ne fun e => ?_⟩
  have hown := h.owner (u := u) (by omega)
  rw [e, h.stack_owner] at hown
  cases hown
  omega

/-- The user reads the stack. -/
theorem userByte_stack {a : ℕ} (ha : a / pgSize = k + 1) :
    m.userByte d a = some (pageByte (m.mem (pteAddr (m.entry d (k + 1)))) (a % pgSize)) := by
  unfold Phys.userByte Phys.byteAt
  rw [ha, if_pos]
  have := h.lt
  exact ⟨(h.present _ (by omega)).mpr (by omega), (h.user _ (by omega)).mpr (by omega)⟩

theorem userByte_put {a : ℕ} (hlo : (k + 1) * pgSize ≤ va) (ha : a / pgSize = k + 1) :
    (Exec.put m d k va bs).userByte d a =
      if va ≤ a ∧ a < va + bs.length then some (byte bs (a - va)) else m.userByte d a := by
  have hk := h.lt_allPages (u := k + 1) (by omega)
  have hin : va - (k + 1) * pgSize ≤ a % pgSize ∧
      a % pgSize < va - (k + 1) * pgSize + bs.length ↔ va ≤ a ∧ a < va + bs.length := by
    unfold pgSize at *
    omega
  rw [h.put.userByte_stack ha, h.userByte_stack ha, h.put_entry hk]
  unfold Exec.put
  dsimp only
  rw [Phys.setPage_self, pageByte_putBytes]
  simp only [hin]
  split
  case isFalse => rfl
  case isTrue hle =>
    congr 2
    unfold pgSize at *
    omega

theorem holds_put (hlo : (k + 1) * pgSize ≤ va) (hhi : va + bs.length ≤ (k + 2) * pgSize) :
    Holds (Exec.put m d k va bs) d va bs := by
  intro i hi
  rw [h.userByte_put hlo (by unfold pgSize at *; omega), if_pos (by omega),
    Nat.add_sub_cancel_left]

/-- What is above the bytes that are pushed stays. -/
theorem holds_above {a : ℕ} {cs : List ℕ} (hlo : (k + 1) * pgSize ≤ va)
    (hle : va + bs.length ≤ a) (hhi : a + cs.length ≤ (k + 2) * pgSize) (hold : Holds m d a cs) :
    Holds (Exec.put m d k va bs) d a cs := by
  intro i hi
  rw [h.userByte_put hlo (by unfold pgSize at *; omega), if_neg (by omega)]
  exact hold i hi

end Guarded

/-- The strings are in the stack, from `sp` on, at these addresses. -/
def Strings (m : Phys) (d k sp : ℕ) (ss : List (List ℕ)) (ptrs : List ℕ) : Prop :=
  List.Forall₂ (fun s a => sp ≤ a ∧ a + (s.length + 1) ≤ (k + 2) * pgSize ∧
    Holds m d a (s ++ [0])) ss ptrs

theorem Strings.put {ss : List (List ℕ)} {ptrs : List ℕ} (h : Guarded d k m₀ o₀ m o)
    (hs : Strings m d k sp ss ptrs) (hlo : (k + 1) * pgSize ≤ va) (hle : va + bs.length ≤ sp) :
    Strings (put m d k va bs) d k va ss ptrs := by
  refine List.Forall₂.imp ?_ hs
  rintro s a ⟨hsp, hhi, hold⟩
  refine ⟨by omega, hhi, h.holds_above hlo (by omega) ?_ hold⟩
  rwa [List.length_append, List.length_singleton]

/-- The bytes that the strings take in the stack, each one with its end. -/
def argRoom (argv : List (List ℕ)) : ℕ := (argv.map fun s => room (s.length + 1)).sum

theorem pushArgs_spec {argv ss : List (List ℕ)} {argc : ℕ} {us : List ℕ}
    (h : Guarded d k m₀ o₀ m o) (hs : InStack k sp) (hss : Strings m d k sp ss us) :
    wp (pushArgs d argv argc sp us) (fun r m' => Guarded d k m₀ o₀ m' o ∧
        match r with
        | none => argc + argv.length ≤ maxArg → sp < (k + 1) * pgSize + argRoom argv
        | some (sp', us') => argc + argv.length ≤ max argc maxArg ∧ sp' + argRoom argv = sp ∧
            InStack k sp' ∧ Kept d k m m' ∧ Strings m' d k sp' (ss ++ argv) us')
      (fun e => e = .nullPte ∧ ∃ s ∈ argv, 2 ^ 24 ≤ s.length) m := by
  induction argv generalizing argc sp us ss m with
  | nil =>
      refine wp_pure ⟨h, le_max_left _ _, rfl, hs, .refl, ?_⟩
      rwa [List.append_nil]
  | cons s argv ih =>
      have hlen : (s ++ [0]).length = s.length + 1 := by
        rw [List.length_append, List.length_singleton]
      have hroom : argRoom (s :: argv) = room (s.length + 1) + argRoom argv := rfl
      have hne : s ++ [0] ≠ [] := List.append_ne_nil_of_right_ne_nil _ nofun
      have hpush := push_spec h hs hne
      rw [hlen] at hpush
      unfold pushArgs
      split
      case isTrue hmax =>
        refine wp_pure ⟨h, fun hle => ?_⟩
        rw [List.length_cons] at hle
        omega
      case isFalse hmax =>
      apply wp_call (wp_mono hpush (fun _ _ => id) ?_)
      · intro b m₁ hb
        split at hb
        case isFalse hfit =>
          obtain ⟨rfl, h₁⟩ := hb
          refine wp_pure ⟨h₁, fun _ => ?_⟩
          omega
        case isTrue hfit =>
          obtain ⟨rfl, rfl⟩ := hb
          obtain ⟨he, hin, hle⟩ := sub32_fits hs h.lt hfit
          have hnew : Strings (put m d k (sp - room (s.length + 1)) (s ++ [0])) d k
              (sp - room (s.length + 1)) (ss ++ [s]) (us ++ [sp - room (s.length + 1)]) := by
            refine List.rel_append (hss.put h hin.lo (by omega)) (.cons ⟨le_rfl, ?_, ?_⟩ .nil)
            · have := hs.hi
              omega
            · exact h.holds_put hin.lo (by have := hs.hi; omega)
          rw [he, if_pos rfl]
          refine wp_mono (ih h.put hin hnew) ?_ ?_
          · rintro r m₂ ⟨h₂, hr⟩
            refine ⟨h₂, ?_⟩
            rcases r with _ | ⟨sp', us'⟩
            · intro hle
              have := hr (by rw [List.length_cons] at hle; omega)
              omega
            · obtain ⟨hargc, hsp, hin', hkept, hstr⟩ := hr
              rw [List.append_assoc] at hstr
              refine ⟨?_, by omega, hin', (h.kept_put).trans ?_ hkept, hstr⟩
              · rw [List.length_cons]
                omega
              · have := h.lt_allPages (u := k) (by omega)
                omega
          · rintro e ⟨he, s', hs', hbig⟩
            exact ⟨he, s', List.mem_cons_of_mem s hs', hbig⟩
      · rintro e ⟨he, hbig⟩
        exact ⟨he, s, List.mem_cons_self, by omega⟩

/-! ## §5  `ustack` -/

/-- The frame of `main` at `sp`, in the last page below `sz`: the return address, `argc`,
`argv`, the array behind them, and the strings it points to. -/
def Frame (m : Phys) (d sz sp : ℕ) (argv : List (List ℕ)) : Prop :=
  ∃ ptrs : List ℕ,
    Holds m d sp (([fakePc, argv.length, sp + 12] ++ ptrs ++ [0]).flatMap leBytes) ∧
    sz - pgSize ≤ sp ∧ sp + 4 * (4 + argv.length) ≤ sz ∧
    List.Forall₂ (fun s a => sz - pgSize ≤ a ∧ a + (s.length + 1) ≤ sz ∧
      Holds m d a (s ++ [0])) argv ptrs

/-- The arguments and the `4 + argc` words fit in a page. -/
def Fits (argv : List (List ℕ)) : Prop := argRoom argv + 4 * (4 + argv.length) ≤ pgSize

instance (argv : List (List ℕ)) : Decidable (Fits argv) := inferInstanceAs (Decidable (_ ≤ _))

theorem length_flatMap_leBytes (ws : List ℕ) : (ws.flatMap leBytes).length = 4 * ws.length := by
  induction ws with
  | nil => rfl
  | cons w ws ih =>
      rw [List.flatMap_cons, List.length_append, ih, List.length_cons]
      show 4 + _ = _
      omega

/-- What `exec` pushes, and when it fails. -/
theorem pushStack_spec {argv : List (List ℕ)} (h : Guarded d k m₀ o₀ m o) :
    wp (pushStack d ((k + 2) * pgSize) argv) (fun r m' => Guarded d k m₀ o₀ m' o ∧
        match r with
        | none => argv.length ≤ maxArg → ¬ Fits argv
        | some sp => Fits argv ∧ Kept d k m m' ∧ Frame m' d ((k + 2) * pgSize) sp argv)
      (fun e => e = .nullPte ∧ ∃ s ∈ argv, 2 ^ 24 ≤ s.length) m := by
  have htop : (k + 2) * pgSize = (k + 1) * pgSize + pgSize := by
    rw [Nat.succ_mul]
  have hin : InStack k ((k + 2) * pgSize) := by
    refine ⟨by omega, le_rfl, ?_⟩
    unfold pgSize
    omega
  unfold pushStack
  apply wp_call (pushArgs_spec h hin .nil)
  rintro (_ | ⟨sp, us⟩) m₁ ⟨h₁, hr⟩
  · refine wp_pure ⟨h₁, fun hmax hfit => ?_⟩
    have := hr (by omega)
    unfold Fits at hfit
    omega
  · obtain ⟨hmax, hroom, hin₁, hkept, hstr⟩ := hr
    rw [List.nil_append] at hstr
    have hus : us.length = argv.length := hstr.length_eq.symm
    dsimp only
    generalize hbs : List.flatMap leBytes
      ([fakePc, argv.length, sub32 sp ((argv.length + 1) * 4)] ++ us ++ [0]) = bs
    have hlen : bs.length = (3 + argv.length + 1) * 4 := by
      rw [← hbs, length_flatMap_leBytes, List.length_append, List.length_append, hus]
      show 4 * (3 + argv.length + 1) = _
      omega
    have hne : bs ≠ [] := by
      rw [ne_eq, ← List.length_eq_zero_iff]
      omega
    have hsize : room bs.length = (3 + argv.length + 1) * 4 := by
      rw [hlen]
      unfold room
      omega
    have hpush := push_spec h₁ hin₁ hne
    rw [sub32_aligned hin₁ (by omega), hsize, hlen] at hpush
    apply wp_call (wp_mono hpush (fun _ _ => id) ?_)
    · intro b m₂ hb
      split at hb
      case isFalse hfit =>
        obtain ⟨rfl, h₂⟩ := hb
        refine wp_pure ⟨h₂, fun _ hall => ?_⟩
        unfold Fits at hall
        omega
      case isTrue hfit =>
        obtain ⟨rfl, rfl⟩ := hb
        obtain ⟨he, hin₂, hle⟩ := sub32_fits (n := bs.length) hin₁ h.lt (by omega)
        rw [hsize] at he hin₂ hle
        rw [sub32_aligned hin₁ (by omega), hlen] at he
        rw [if_pos rfl, he]
        have hk := h.lt_allPages (u := k) (by omega)
        have harg : sub32 sp ((argv.length + 1) * 4) = sp - (3 + argv.length + 1) * 4 + 12 := by
          have hsp := hin₁.hi
          have hlt := h.lt
          unfold sub32 userPages kernBase pgSize at *
          omega
        have hhi := hin₁.hi
        refine wp_pure ⟨h₁.put, ?_, hkept.trans (by omega) h₁.kept_put, us, ?_, ?_, by omega, ?_⟩
        · unfold Fits
          omega
        · rw [← harg, hbs]
          exact h₁.holds_put hin₂.lo (by omega)
        · have := hin₂.lo
          omega
        · refine List.Forall₂.imp ?_ (hstr.put h₁ hin₂.lo (by omega))
          rintro s a ⟨ha, hend, hold⟩
          have := hin₂.lo
          exact ⟨by omega, hend, hold⟩
    · rintro e ⟨_, hbig⟩
      unfold maxArg at hmax
      omega

/-! ## §6  The stack of `exec` -/

/-- The two pages are there, and the first one is closed. -/
theorem clearpteu_guarded (h : Loaded d ((k + 2) * pgSize) m₀ o₀ m o)
    (hlt : (k + 2) * pgSize < kernBase) :
    wp (clearpteu d (k * pgSize)) (fun _ m' => Guarded d k m₀ o₀ m' o ∧
      ∀ u < k + 2, pteAddr (m'.entry d u) = pteAddr (m.entry d u) ∧
        m'.mem (pteAddr (m.entry d u)) = m.mem (pteAddr (m.entry d u))) noPanic m := by
  have hpages : pages ((k + 2) * pgSize) = k + 2 := by
    unfold pages pgSize
    omega
  have hfresh := h.toFresh
  rw [hpages] at hfresh
  have huser : k + 2 < userPages := by
    unfold userPages kernBase pgSize at *
    omega
  have hk : k < userPages := by omega
  have hdiv : k * pgSize / pgSize = k := Nat.mul_div_cancel _ (by decide)
  have hspec : wp (clearpteu d (k * pgSize)) _ _ _ :=
    clearpteu_spec h.acct h.dir (hdiv.symm ▸ lt_of_lt_of_le hk userPages_le)
  rw [hdiv] at hspec
  apply wp_mono hspec
  · rintro _ m₁ ⟨h₁, he, hmem⟩
    refine ⟨⟨hfresh.page h₁ hk (fun _ _ => Iff.rfl) ?_, huser, fun u hu => ?_, fun u hu hu' => ?_⟩,
      fun u hu => ⟨?_, hmem _ u (h.owner (hpages.symm ▸ hu))⟩⟩
    · rw [he, present_clearU]
      exact hfresh.present k hk
    · by_cases hne : u = k
      · rw [hne, he]
        exact iff_of_false not_hasU_clearU fun h => h rfl
      · rw [h₁.entry u (lt_of_lt_of_le (by omega) userPages_le) hne]
        exact iff_of_true (h.user u (hpages.symm ▸ hu)) hne
    · have hku : userPages ≤ u := le_trans (by decide) hu
      rw [h₁.entry u hu' (by omega)]
      exact h.devices u hu hu'
    · by_cases hne : u = k
      · rw [hne, he, pteAddr_clearU]
      · rw [h₁.entry u (lt_of_lt_of_le (by omega) userPages_le) hne]
  · rintro e ⟨_, hn⟩
    exact absurd ((hfresh.present k hk).mpr (by omega)) (Phys.not_present_of_div hn rfl)

/-- The one fault that `exec` is not protected from. -/
def onlyNull (e : Panic) : Prop := e = .nullPte

theorem wp_onlyNull {α : Type} {x : VmM α} {Q : α → Phys → Prop} (h : wp x Q noPanic m) :
    wp x Q onlyNull m :=
  wp_mono h (fun _ _ => id) nofun

theorem Kept.byteAt (h : Kept d k m m') (hk : k + 1 ≤ allPages) (hva : va < (k + 1) * pgSize) :
    m'.byteAt d va = m.byteAt d va := by
  have hu : va / pgSize < k + 1 := by
    unfold pgSize at *
    omega
  unfold Phys.byteAt
  rw [h.entry _ (by omega), h.page _ hu]

/-- What is there once `makeStack` has its two pages: the frame of `main`, or nothing if the
arguments do not fit. -/
def StackBuilt (d k : ℕ) (argv : List (List ℕ)) (m : Phys) (r : Option (ℕ × ℕ)) (m' : Phys) :
    Prop :=
  match r with
  | none => argv.length ≤ maxArg → ¬ Fits argv
  | some (sz, sp) => sz = (k + 2) * pgSize ∧ Fits argv ∧ Frame m' d sz sp argv ∧
      ∀ va < (k + 1) * pgSize, m'.byteAt d va = m.byteAt d va

/-- `makeStack`, from where it has the two pages. -/
theorem makeStack_rest {argv : List (List ℕ)} (h : Loaded d ((k + 2) * pgSize) m₀ o₀ m o)
    (hlt : (k + 2) * pgSize < kernBase) :
    wp (do
        clearpteu d ((k + 2) * pgSize - 2 * pgSize)
        match ← pushStack d ((k + 2) * pgSize) argv with
        | none => return none
        | some sp => return some ((k + 2) * pgSize, sp))
      (fun r m' => Guarded d k m₀ o₀ m' o ∧ StackBuilt d k argv m r m')
      (fun e => e = .nullPte ∧ ∃ s ∈ argv, 2 ^ 24 ≤ s.length) m := by
  have hguard : (k + 2) * pgSize - 2 * pgSize = k * pgSize := by
    rw [← Nat.sub_mul, Nat.add_sub_cancel]
  rw [hguard]
  apply wp_call (wp_mono (clearpteu_guarded h hlt) (fun _ _ => id) nofun)
  rintro _ m₁ ⟨h₁, hsame⟩
  apply wp_call (pushStack_spec h₁)
  rintro (_ | sp) m₂ ⟨h₂, hr⟩
  · exact wp_pure ⟨h₂, hr⟩
  · obtain ⟨hfit, hkept, hframe⟩ := hr
    refine wp_pure ⟨h₂, rfl, hfit, hframe, fun va hva => ?_⟩
    have hk := h₁.lt_allPages (u := k) (by omega)
    have hu : va / pgSize < k + 2 := by
      unfold pgSize at *
      omega
    rw [hkept.byteAt (by omega) hva]
    unfold Phys.byteAt
    rw [(hsame _ hu).1, (hsame _ hu).2]

theorem Loaded.roundUp (h : Loaded d sz m₀ o₀ m o) : Loaded d (pgRoundUp sz) m₀ o₀ m o := by
  have hp := pages_pgRoundUp sz
  refine ⟨hp.symm ▸ h.toFresh, pgRoundUp_le h.le, fun u hu => ?_, h.devices⟩
  exact h.user u (hp ▸ hu)

theorem Loaded.of_setupkvm {ks : List Kmap} (h : Fresh d (fun _ => False) m₀ o₀ m o)
    (hall : AllMapped m d ks) (hks : MapsDevices ks) : Loaded d 0 m₀ o₀ m o := by
  refine ⟨⟨h.toWithin, h.free, h.dir, fun u hu => ?_, h.kernel, h.idle⟩, Nat.zero_le _, nofun,
    fun u => hall.device hks⟩
  rw [h.present u hu]
  exact iff_of_false id (Nat.not_lt_zero u)

/-- The size of the image with the two pages, if `allocuvm` has them. -/
theorem allocuvm_stack {n : ℕ} (h : Loaded d (n * pgSize) m₀ o₀ m o) :
    wp (allocuvm d (n * pgSize) (n * pgSize + 2 * pgSize)) (fun r m' => ∃ o',
      if r = 0 then ∃ S, Fresh d S m₀ o₀ m' o'
      else r = (n + 2) * pgSize ∧ r < kernBase ∧ Loaded d r m₀ o₀ m' o' ∧
        ∀ va < n * pgSize, m'.byteAt d va = m.byteAt d va) noPanic m := by
  apply wp_mono (allocuvm_loaded h) _ fun _ => id
  rintro r m₁ ⟨⟨o₁, h₁⟩, _⟩
  refine ⟨o₁, ?_⟩
  split
  case isTrue h0 => rwa [if_pos h0] at h₁
  case isFalse h0 =>
    rw [if_neg h0, max_eq_right (Nat.le_add_right _ _), ← Nat.add_mul] at h₁
    obtain ⟨hload, hr, hlt, himg⟩ := h₁
    refine ⟨hr, hr ▸ hlt, hload, fun va hva => ?_⟩
    have hn : va / pgSize < pages (n * pgSize) := by
      unfold pages pgSize at *
      omega
    have hn' : va / pgSize < pages r := lt_of_lt_of_le hn (pages_mono (by
      rw [hr]
      exact Nat.mul_le_mul_right _ (Nat.le_add_right _ _)))
    have := congrFun himg va
    unfold image at this
    rwa [if_pos hn, if_pos hn'] at this

theorem makeStack_spec {argv : List (List ℕ)} {n : ℕ} (h : Loaded d (n * pgSize) m₀ o₀ m o) :
    wp (makeStack d (n * pgSize) argv) (fun r m' => ∃ o',
      match r with
      | none => ∃ S, Fresh d S m₀ o₀ m' o'
      | some (sz, _) => sz = (n + 2) * pgSize ∧ Guarded d n m₀ o₀ m' o' ∧
          ∀ va < n * pgSize, m'.byteAt d va = m.byteAt d va) onlyNull m := by
  unfold makeStack
  apply wp_call (wp_onlyNull (allocuvm_stack h))
  rintro r m₁ ⟨o₁, h₁⟩
  split
  case isTrue h0 =>
    rw [if_pos h0] at h₁
    exact wp_pure ⟨o₁, h₁⟩
  case isFalse h0 =>
    rw [if_neg h0] at h₁
    obtain ⟨rfl, hlt, h₁, hbytes⟩ := h₁
    refine wp_mono (makeStack_rest h₁ hlt) ?_ fun e he => he.1
    rintro (_ | ⟨sz, sp⟩) m₂ ⟨h₂, hr⟩
    · exact ⟨o₁, _, h₂.toFresh⟩
    · obtain ⟨rfl, _, _, hbytes₂⟩ := hr
      refine ⟨o₁, rfl, h₂, fun va hva => ?_⟩
      rw [hbytes₂ va, hbytes va hva]
      exact lt_of_lt_of_le hva (Nat.mul_le_mul_right _ (Nat.le_add_right _ _))

theorem le_pages_mul (sz : ℕ) : sz ≤ pages sz * pgSize := by
  unfold pages pgSize
  omega

/-- Program, guard page and stack, whatever is in the file: the segments are in the program's
pages, one over the other, and nothing else. -/
theorem loadImage_spec {ip : Inode} {elf : ElfHdr} {argv : List (List ℕ)}
    (h : Loaded d 0 m₀ o₀ m o) :
    wp (loadImage d ip elf argv) (fun r m' => ∃ o',
      match r with
      | none => ∃ S, Fresh d S m₀ o₀ m' o'
      | some (sz, _) => ∃ k, sz = (k + 2) * pgSize ∧ Guarded d k m₀ o₀ m' o' ∧
          ∀ file, ip = fileInode file →
            (∀ ph ∈ segments file elf.phnum elf.phoff,
              ph.filesz ≤ ph.memsz ∧ ph.vaddr + ph.memsz ≤ k * pgSize) ∧
            ∀ va < k * pgSize, m'.byteAt d va =
              layout file (segments file elf.phnum elf.phoff) (fun _ => 0) va) onlyNull m := by
  unfold loadImage
  apply wp_call (wp_onlyNull (loadSegs_spec h))
  rintro (_ | sz) m₁ ⟨o₁, h₁⟩
  · exact wp_pure ⟨o₁, h₁⟩
  · obtain ⟨_, h₁, hfile⟩ := h₁
    apply wp_mono (makeStack_spec h₁.roundUp) _ fun _ => id
    rintro (_ | ⟨top, sp⟩) m₂ ⟨o₂, h₂⟩
    · exact ⟨o₂, h₂⟩
    · obtain ⟨htop, h₂, hbytes⟩ := h₂
      refine ⟨o₂, pages sz, htop, h₂, fun file hip => ?_⟩
      obtain ⟨hin, himg⟩ := hfile file hip
      have hle := le_pages_mul sz
      refine ⟨fun ph hph => ⟨(hin ph hph).1, le_trans (hin ph hph).2 hle⟩, fun va hva => ?_⟩
      have hlt : va / pgSize < pages sz := Nat.div_lt_of_lt_mul (Nat.mul_comm _ _ ▸ hva)
      have hva' := congrFun himg va
      rw [hbytes va hva, show m₁.byteAt d va = image m₁ d sz va from (if_pos hlt).symm, hva']
      congr 1

/-- The stack of a program that `exec` has loaded, for at most `MAXARG` arguments of less
than 16 MB together: `exec` gets to the end if and only if strings and words fit in one
page. Then the frame of `main` is in that page, and no byte below it has changed. -/
theorem argument_stack_exact {data n off top : ℕ} {ip : Inode} {argv : List (List ℕ)}
    {s : State} {m₁ m₂ m₃ : Phys} (hdata : DataAt data)
    (hs : (vmSystem (kmap data)).Reach keepsSome s)
    (hsetup : setupkvm (kmap data) s.phys = .ok (some d, m₁))
    (hload : loadSegs d ip n off 0 m₁ = .ok (some sz, m₂))
    (hpages : allocuvm d (pgRoundUp sz) (pgRoundUp sz + 2 * pgSize) m₂ = .ok (top, m₃))
    (htop : top ≠ 0) (hargc : argv.length ≤ maxArg)
    (htotal : (argv.map List.length).sum < 2 ^ 24) :
    ∃ r m', makeStack d (pgRoundUp sz) argv m₂ = .ok (r, m') ∧ (r.isSome ↔ Fits argv) ∧
      ∀ sz' sp, r = some (sz', sp) → sz' = top ∧ Frame m' d top sp argv ∧
        ∀ va < top - pgSize, m'.byteAt d va = m₃.byteAt d va := by
  obtain ⟨n', _, hks⟩ := kmap_ascending hdata
  obtain ⟨o, hb⟩ := balanced_of_reach hks hs
  obtain ⟨o₁, h₁, _, hall⟩ := wp_ok (setupkvm_spec hks hb.acct hb.idle) hsetup
  obtain ⟨o₂, _, h₂, _⟩ := wp_ok (loadSegs_spec (.of_setupkvm h₁ hall (kmap_devices data))) hload
  obtain ⟨o₃, h₃⟩ := wp_ok (allocuvm_stack h₂.roundUp) hpages
  rw [if_neg htop] at h₃
  obtain ⟨rfl, hlt, h₃, _⟩ := h₃
  have hshort : ¬ ∃ s ∈ argv, 2 ^ 24 ≤ s.length := by
    rintro ⟨s, hs, hlen⟩
    have := List.le_sum_of_mem (List.mem_map_of_mem (f := List.length) hs)
    omega
  have hrun : wp (makeStack d (pgRoundUp sz) argv)
      (fun r m' => Guarded d (pages sz) s.phys o m' o₃ ∧ StackBuilt d (pages sz) argv m₃ r m')
      noPanic m₂ := by
    unfold makeStack
    apply wp_run hpages
    rw [if_neg htop]
    exact wp_mono (makeStack_rest h₃ hlt) (fun _ _ => id) fun e he => hshort he.2
  obtain ⟨r, m', hx, _, hr⟩ := exists_of_wp hrun
  refine ⟨r, m', hx, ?_, ?_⟩
  · rcases r with _ | ⟨sz', sp⟩
    · exact iff_of_false nofun (hr hargc)
    · exact iff_of_true rfl hr.2.1
  · rintro sz' sp rfl
    obtain ⟨rfl, _, hframe, hbytes⟩ := hr
    refine ⟨rfl, hframe, fun va hva => hbytes va ?_⟩
    rwa [Nat.succ_mul, Nat.add_sub_cancel] at hva

/-! ### A process of one page, with memory for another -/

/-- A new directory beside a process of one page. -/
theorem setupkvm_small : ∃ d m₁ o₁,
    setupkvm (kmap 0x80108000) (small 1 200).phys = .ok (some d, m₁) ∧
    Loaded d 0 (small 1 200).phys (smallOwner 1 200) m₁ o₁ ∧ 75 ≤ m₁.free.length := by
  have hb := small_balanced (k := 1) (n := 200) (by decide) (by decide)
  obtain ⟨n, hn, hks⟩ := kmap_ascending dataAt_link
  obtain ⟨r, m₁, hx, hr⟩ := exists_of_wp (setupkvm_spec hks hb.acct hb.idle)
  have hlen : (small 1 200).phys.free.length = 200 := List.length_range'
  cases r with
  | none =>
      have := hr.2
      omega
  | some d =>
      obtain ⟨o₁, h₁, hcost, hall⟩ := hr
      have := hcost (by omega)
      exact ⟨d, m₁, o₁, hx, .of_setupkvm h₁ hall (kmap_devices _), by omega⟩

theorem argument_stack_exact_small : ∃ d m₁ m₂ m₃,
    setupkvm (kmap 0x80108000) (small 1 200).phys = .ok (some d, m₁) ∧
    loadSegs d (fileInode []) 0 0 0 m₁ = .ok (some 0, m₂) ∧
    allocuvm d (pgRoundUp 0) (pgRoundUp 0 + 2 * pgSize) m₂ = .ok (8192, m₃) ∧
    ∃ r m', makeStack d (pgRoundUp 0) [[101, 99, 104, 111], [104, 105]] m₂ = .ok (r, m') ∧
      r.isSome := by
  obtain ⟨d, m₁, o₁, hsetup, h₁, hfree⟩ := setupkvm_small
  obtain ⟨m₃, _, hx₃, _⟩ := allocuvm_ample h₁ (show 8192 ≠ 0 by decide) (by decide) (by decide)
    (le_trans (by decide) hfree)
  have hpages : allocuvm d (pgRoundUp 0) (pgRoundUp 0 + 2 * pgSize) m₁ = .ok (8192, m₃) := by
    rw [show pgRoundUp 0 = 0 by decide, show 0 + 2 * pgSize = 8192 by decide]
    exact hx₃
  have hload : loadSegs d (fileInode []) 0 0 0 m₁ = .ok (some 0, m₁) := rfl
  have hargs : [[101, 99, 104, 111], [104, 105]].length ≤ maxArg := by decide
  obtain ⟨r, m', hx, hiff, _⟩ := argument_stack_exact dataAt_link
    (.init ⟨_, small_balanced (by decide) (by decide)⟩) hsetup hload hpages (by decide) hargs
    (by decide)
  exact ⟨d, m₁, m₁, m₃, hsetup, hload, hpages, r, m', hx, hiff.mpr (by decide)⟩

end Xv6.Vm.Exec
