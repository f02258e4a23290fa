import Xv6.Vm.ExecFail

/-!
# What `exec` makes of a file

From any file `exec` gets to a return without a panic. If it returns 0, the user finds the
segments of the file in memory, zeros between them, and no access to the page below the
stack. The siblings that `kill_threads` waits for have kernel stacks of their own.
-/

namespace Xv6.Vm.Exec

open Xv6.Lib PanicM
open Xv6.Kernel (States Slot MutexId nthread)

variable {m m' m₀ : Phys} {o o' o₀ : ℕ → Owner} {d k sz va : ℕ} {c : Slot} {pr pr' : Proc}
  {es : List (Slot → Bool)} {own own' : ℕ → Prop}

/-! ## §1  `kill_threads` -/

/-- Each sibling of the thread `c` has its own kernel stack. -/
structure Stacks (c : Slot) (p : Proc) (own : ℕ → Prop) : Prop where
  own : ∀ t, t ≠ c → (p.threads t).state ≠ .UNUSED → own (p.threads t).kstack
  apart : ∀ t t', t ≠ c → t' ≠ c → (p.threads t).state ≠ .UNUSED →
    (p.threads t').state ≠ .UNUSED → (p.threads t).kstack = (p.threads t').kstack → t = t'

theorem Stacks.of_kept (h : Stacks c pr own)
    (hk : ∀ t, (pr'.threads t).kstack = (pr.threads t).kstack)
    (hs : ∀ t, (pr'.threads t).state ≠ .UNUSED → (pr.threads t).state ≠ .UNUSED) :
    Stacks c pr' own := by
  refine ⟨fun t ht hu => ?_, fun t t' ht ht' hu hu' he => ?_⟩
  · rw [hk]
    exact h.own t ht (hs t hu)
  · rw [hk, hk] at he
    exact h.apart t t' ht ht' (hs t hu) (hs t' hu') he

theorem Stacks.killSiblings (h : Stacks c pr own) : Stacks c (killSiblings c pr) own := by
  refine h.of_kept (fun t => ?_) fun t => ?_
  · unfold Exec.killSiblings
    dsimp only
    split_ifs <;> rfl
  · unfold Exec.killSiblings
    dsimp only
    split_ifs with h₁ h₂ h₂
    · exact fun _ => h₁.2
    · exact fun _ => h₁.2
    · intro _ hu
      rw [hu] at h₂
      cases h₂
    · exact id

theorem Stacks.exited {e : Slot → Bool} (h : Stacks c pr own) : Stacks c (exited c e pr) own := by
  refine h.of_kept (fun t => ?_) fun t => ?_
  · unfold Exec.exited
    dsimp only
    split_ifs <;> rfl
  · unfold Exec.exited
    dsimp only
    split_ifs with h₁
    · exact fun _ => h₁.2.1
    · exact id

/-- The memory and the process between two rounds. -/
structure Waiting (c : Slot) (pr : Proc) (m : Phys) (o : ℕ → Owner) : Prop where
  acct : Acct m o
  idle : Idle o
  dir : o pr.pgdir = .dir
  kstacks : Stacks c pr (o · = .other)

/-- A sibling that has exited is reaped. -/
theorem Waiting.freed {t : Slot} (h : Waiting c pr m o) (ht : t ≠ c)
    (hz : (pr.threads t).state = .ZOMBIE) :
    Waiting c { pr with threads := Function.update pr.threads t { pr.threads t with
        tid := -1, kstack := 0, blocked := false, state := .UNUSED } }
      (m.freed (pr.threads t).kstack) (Function.update o (pr.threads t).kstack .free) := by
  have hlive : (pr.threads t).state ≠ .UNUSED := by
    rw [hz]
    nofun
  have hown := h.kstacks.own t ht hlive
  have hne {t' : Slot} {x : Thread} (hx : x.state = .UNUSED)
      (hu : (Function.update pr.threads t x t').state ≠ .UNUSED) : t' ≠ t := by
    rintro rfl
    rw [Function.update_self] at hu
    exact hu hx
  refine ⟨h.acct.give (by rw [hown]; exact .inl rfl) _, fun g D hg => ?_, ?_, ?_, ?_⟩
  · by_cases he : g = (pr.threads t).kstack
    · rw [he, Function.update_self] at hg
      cases hg
    · rw [Function.update_of_ne he] at hg
      exact h.idle g D hg
  · dsimp only
    rw [Function.update_of_ne]
    · exact h.dir
    · intro he
      have hdir := h.dir
      rw [he, hown] at hdir
      cases hdir
  · intro t' ht' hu
    dsimp only at hu ⊢
    have htt := hne rfl hu
    rw [Function.update_of_ne htt] at hu ⊢
    rw [Function.update_of_ne]
    · exact h.kstacks.own t' ht' hu
    · exact fun he => htt (h.kstacks.apart t' t ht' ht hu hlive he)
  · intro t₁ t₂ ht₁ ht₂ hu₁ hu₂ he
    dsimp only at hu₁ hu₂ he
    have htt₁ := hne rfl hu₁
    have htt₂ := hne rfl hu₂
    rw [Function.update_of_ne htt₁] at hu₁ he
    rw [Function.update_of_ne htt₂] at hu₂ he
    exact h.kstacks.apart t₁ t₂ ht₁ ht₂ hu₁ hu₂ he

theorem reap_spec {ts : List Slot} (h : Waiting c pr m o) :
    wp (reap c ts pr k) (fun r m' => ∃ o', Waiting c r.1 m' o') noPanic m := by
  induction ts generalizing pr m o k with
  | nil => exact wp_pure ⟨o, h⟩
  | cons t ts ih =>
      unfold reap
      dsimp only
      split
      case isTrue hz =>
        apply wp_bind
        apply wp_kfree h.acct
        · rw [h.kstacks.own t hz.1 (by rw [hz.2]; simp)]
          simp
        · exact ih (h.freed hz.1 hz.2)
      case isFalse =>
        split
        case isTrue => exact ih h
        case isFalse => exact ih h

theorem waitSiblings_spec (h : Waiting c pr m o) :
    wp (waitSiblings c es pr) (fun r m' => ∀ pr', r = some pr' → ∃ o', Waiting c pr' m' o')
      noPanic m := by
  induction es generalizing pr m o with
  | nil => exact wp_pure nofun
  | cons e es ih =>
      have h' : Waiting c (exited c e pr) m o := ⟨h.acct, h.idle, h.dir, h.kstacks.exited⟩
      unfold waitSiblings
      apply wp_call (reap_spec h')
      rintro ⟨pr₁, k₁⟩ m₁ ⟨o₁, h₁⟩
      dsimp only
      split
      case isTrue => exact ih h₁
      case isFalse =>
        refine wp_pure ?_
        rintro _ ⟨⟩
        exact ⟨o₁, h₁⟩

theorem killThreads_spec (h : Waiting c pr m o) :
    wp (killThreads c es pr) (fun r m' => ∀ pr', r = some pr' → ∃ o', Waiting c pr' m' o')
      noPanic m := by
  have h' : Waiting c (killSiblings c pr) m o :=
    ⟨h.acct, h.idle, h.dir, h.kstacks.killSiblings⟩
  unfold killThreads
  apply wp_call (waitSiblings_spec h')
  rintro (_ | pr₁) m₁ h₁
  · exact wp_pure nofun
  · obtain ⟨o₁, h₁⟩ := h₁ pr₁ rfl
    refine wp_pure ?_
    rintro _ ⟨⟩
    exact ⟨o₁, h₁.acct, h₁.idle, h₁.dir, h₁.kstacks.of_kept (fun _ => rfl) fun _ => id⟩

/-! ## §2  The program that is started -/

/-- What the user finds in `[0, sz)`: the segments of the file, zeros between them, and no
access to the page below the stack. -/
structure Started (m : Phys) (d sz : ℕ) (file : List ℕ) (segs : List ProgHdr) : Prop where
  below : sz < kernBase
  guard : ∀ va, sz - 2 * pgSize ≤ va → va < sz - pgSize → m.userByte d va = none
  bytes : PageDisjoint segs → ∀ ph ∈ segs, ∀ i < ph.filesz,
    m.userByte d (ph.vaddr + i) = some (byte file (ph.off + i))
  zero : ∀ va < sz - 2 * pgSize, (∀ ph ∈ segs, ¬ ph.Covers va) → m.userByte d va = some 0

theorem Guarded.userByte (h : Guarded d k m₀ o₀ m o) (hva : va < k * pgSize) :
    m.userByte d va = some (m.byteAt d va) := by
  have hu : va / pgSize < k := Nat.div_lt_of_lt_mul (Nat.mul_comm _ _ ▸ hva)
  have hlt := h.lt
  exact if_pos ⟨(h.present _ (by omega)).mpr (by omega), (h.user _ (by omega)).mpr (by omega)⟩

theorem Guarded.started {file : List ℕ} {segs : List ProgHdr} (h : Guarded d k m₀ o₀ m o)
    (hsegs : ∀ ph ∈ segs, ph.filesz ≤ ph.memsz ∧ ph.vaddr + ph.memsz ≤ k * pgSize)
    (hbytes : ∀ va < k * pgSize, m.byteAt d va = layout file segs (fun _ => 0) va) :
    Started m d ((k + 2) * pgSize) file segs := by
  have hread {va : ℕ} (hva : va < k * pgSize) :
      m.userByte d va = some (layout file segs (fun _ => 0) va) := by
    rw [h.userByte hva, hbytes va hva]
  have hguard : (k + 2) * pgSize - 2 * pgSize = k * pgSize := by
    rw [← Nat.sub_mul, Nat.add_sub_cancel]
  have hstack : (k + 2) * pgSize - pgSize = (k + 1) * pgSize := by
    rw [Nat.succ_mul, Nat.add_sub_cancel]
  refine ⟨?_, fun va hlo hhi => ?_, fun hdis ph hph i hi => ?_, fun va hva hnot => ?_⟩
  · have := h.lt
    unfold userPages kernBase pgSize at *
    omega
  · rw [hguard] at hlo
    rw [hstack] at hhi
    have hk : va / pgSize = k := by
      unfold pgSize at *
      omega
    exact if_neg (hk ▸ h.closed (h.lt_allPages (by omega)) (.inl rfl))
  · obtain ⟨hle, hin⟩ := hsegs ph hph
    rw [hread (by omega), layout_covered hdis (fun ph hph => (hsegs ph hph).1) hph
      ⟨Nat.le_add_right _ _, by omega⟩, Nat.add_sub_cancel_left]
  · rw [hguard] at hva
    rw [hread hva, layout_other hnot]

theorem Started.congr {file : List ℕ} {segs : List ProgHdr} (h : Started m d sz file segs)
    (hsegs : ∀ ph ∈ segs, ph.vaddr + ph.filesz ≤ sz)
    (hm : ∀ va < sz, m'.userByte d va = m.userByte d va) : Started m' d sz file segs := by
  refine ⟨h.below, fun va hlo hhi => ?_, fun hdis ph hph i hi => ?_, fun va hva hnot => ?_⟩
  · rw [hm va (by omega)]
    exact h.guard va hlo hhi
  · have := hsegs ph hph
    rw [hm _ (by omega)]
    exact h.bytes hdis ph hph i hi
  · rw [hm va (by omega)]
    exact h.zero va hva hnot

/-- A call on another directory. -/
theorem Guarded.userByte_other {D : ℕ} (h : Guarded d k m₀ o₀ m o) (hw : Within D m o m' o')
    (hD : o D = .dir) (hne : d ≠ D) (hva : va < (k + 2) * pgSize) :
    m'.userByte d va = m.userByte d va := by
  have hu : va / pgSize < k + 2 := Nat.div_lt_of_lt_mul (Nat.mul_comm _ _ ▸ hva)
  have hown := h.owner hu
  have hpage := (hw.frame (pteAddr (m.entry d (va / pgSize)))
    (by rintro he; rw [he, hD] at hown; cases hown) (by rw [hown]; nofun)
    (by rw [hown]; exact hne)).2
  unfold Phys.userByte Phys.byteAt
  rw [hw.entry_other h.acct h.dir hne (.inl hD) (h.lt_allPages hu), hpage]

/-! ## §3  `exec` -/

/-- `exec` of any file, from any process whose siblings can be reaped. -/
theorem exec_load_spec {ks : List Kmap} {n : ℕ} {env : Env} {path : List ℕ}
    {argv : List (List ℕ)} (hks : Ascending userPages ks n) (hdev : MapsDevices ks)
    (h : Waiting c pr m o) :
    wp (exec ks env c path argv pr) (fun r m' => ∀ pr' file, r = some (true, pr') →
      env.namei path = some (fileInode file) → ∃ elf, readElf (fileInode file) = some elf ∧
        Started m' pr'.pgdir pr'.sz file (segments file elf.phnum elf.phoff)) onlyNull m := by
  unfold exec
  apply wp_call (wp_onlyNull (killThreads_spec h))
  rintro (_ | pr₁) m₁ h₁
  · exact wp_pure nofun
  · obtain ⟨o₁, h₁⟩ := h₁ pr₁ rfl
    dsimp only
    split
    case h_1 => exact wp_pure nofun
    case h_2 ip hip =>
    split
    case h_1 => exact wp_pure nofun
    case h_2 elf helf =>
    apply wp_call (wp_onlyNull (setupkvm_spec hks h₁.acct h₁.idle))
    rintro (_ | d) m₂ hr
    · exact wp_pure nofun
    · obtain ⟨o₂, hf, _, hall⟩ := hr
      apply wp_call (loadImage_spec (.of_setupkvm hf hall hdev))
      rintro (_ | ⟨sz, sp⟩) m₃ ⟨o₃, h₃⟩
      · obtain ⟨S, h₃⟩ := h₃
        apply wp_call (wp_onlyNull (h₃.freevm_spec h₁.acct h₁.idle))
        intro _ m₄ _
        exact wp_pure nofun
      · obtain ⟨k, rfl, h₃, hfile⟩ := h₃
        dsimp only
        split
        case isTrue =>
          apply wp_call (wp_onlyNull (h₃.toFresh.freevm_spec h₁.acct h₁.idle))
          intro _ m₄ _
          exact wp_pure nofun
        case isFalse =>
          have hne : pr₁.pgdir ≠ d := by
            rintro rfl
            exact nomatch h₁.dir.symm.trans h₃.free
          have hold := (h₃.dir_other h₁.dir hne).1
          apply wp_call (wp_onlyNull (freevm_spec h₃.acct hold fun _ => h₃.not_held h₁.idle hne))
          rintro _ m₄ ⟨o₄, h₄, _⟩
          refine wp_pure ?_
          rintro _ file ⟨⟩ hfl
          obtain rfl : ip = fileInode file := Option.some.inj (hip.symm.trans hfl)
          obtain ⟨hsegs, hbytes⟩ := hfile file rfl
          refine ⟨elf, helf, (h₃.started hsegs hbytes).congr (fun ph hph => ?_) fun va hva =>
            h₃.userByte_other h₄ hold hne.symm hva⟩
          obtain ⟨hle, hin⟩ := hsegs ph hph
          have := Nat.mul_le_mul_right pgSize (Nat.le_add_right k 2)
          omega

/-- `exec` of any file does not panic: all that can happen is the read through the null
pointer for an argument of 16 MB. If it returns 0 the program is in memory as its headers
say. -/
theorem exec_loads_safely {data : ℕ} {env : Env} {path : List ℕ} {argv : List (List ℕ)}
    {s : State} (hdata : DataAt data) (hs : (vmSystem (kmap data)).Reach keepsSome s)
    (hD : s.size pr.pgdir = some pr.sz) (hst : Stacks c pr (· ∈ s.taken)) :
    (∀ e, exec (kmap data) env c path argv pr s.phys = .error e → e = .nullPte) ∧
    ∀ file pr' m', env.namei path = some (fileInode file) →
      exec (kmap data) env c path argv pr s.phys = .ok (some (true, pr'), m') →
      ∃ elf, readElf (fileInode file) = some elf ∧
        Started m' pr'.pgdir pr'.sz file (segments file elf.phnum elf.phoff) := by
  obtain ⟨n, _, hks⟩ := kmap_ascending hdata
  obtain ⟨o, hb⟩ := balanced_of_reach hks hs
  have hw : Waiting c pr s.phys o :=
    ⟨hb.acct, hb.idle, hb.dir_of hD, fun t ht hu => hb.other.mp (hst.own t ht hu), hst.apart⟩
  refine ⟨fun e he => ?_, fun file pr' m' hfile hx => ?_⟩
  · exact (wp_error (exec_load_spec hks (kmap_devices data) hw) he : onlyNull e)
  · exact wp_ok (exec_load_spec hks (kmap_devices data) hw) hx pr' file rfl hfile

/-! ### A program of four bytes -/

/-- An ELF header, one program header, and four bytes that it loads to address 0. -/
def tiny : List ℕ :=
  [0x7F, 0x45, 0x4C, 0x46] ++ List.replicate 24 0 ++ [52, 0, 0, 0] ++ List.replicate 12 0 ++
    [1, 0] ++ List.replicate 6 0 ++ [1, 0, 0, 0, 84, 0, 0, 0] ++ List.replicate 8 0 ++
    [4, 0, 0, 0, 8, 0, 0, 0] ++ List.replicate 8 0 ++ [11, 12, 13, 14]

def tinyEnv : Env := ⟨fun _ => some (fileInode tiny), [fun _ => true], false⟩

theorem tiny_readElf : readElf (fileInode tiny) = some ⟨0, 52, 1⟩ := by rfl

theorem tiny_readPh : readPh (fileInode tiny) 52 = some ⟨1, 84, 0, 4, 8⟩ := by rfl

theorem tiny_loadSegs (h : Loaded d 0 m₀ o₀ m o) (hfree : 75 ≤ m.free.length) :
    ∃ m' o', loadSegs d (fileInode tiny) 1 52 0 m = .ok (some 8, m') ∧
      Loaded d 8 m₀ o₀ m' o' ∧ 73 ≤ m'.free.length := by
  obtain ⟨m₁, o₁, hx, h₁, hcost⟩ := allocuvm_ample h (show 8 ≠ 0 by decide) (by decide)
    (by decide) (le_trans (by decide) hfree)
  have hpages : pages 8 - pages 0 = 1 := by decide
  rw [hpages] at hcost
  have hrun : wp (loadSegs d (fileInode tiny) 1 52 0) (fun r m' => r = some 8 ∧
      Loaded d 8 m₀ o₀ m' o₁ ∧ 73 ≤ m'.free.length) noPanic m := by
    unfold loadSegs
    rw [show 52 % 2 ^ 32 = 52 from rfl, tiny_readPh]
    dsimp only
    rw [if_neg (by decide), if_neg (by decide), if_neg (by decide)]
    apply wp_run hx
    rw [if_neg (by decide), if_neg (by decide)]
    unfold loaduvm
    rw [if_neg (by decide)]
    apply wp_call (loadLoop_spec h₁ (by decide) (by decide) (by decide))
    rintro b m₂ ⟨h₂, hfree₂, hfile⟩
    rw [(hfile tiny rfl (by decide)).2 (by decide) (by decide), if_pos rfl]
    exact wp_pure ⟨rfl, h₂, by rw [hfree₂]; omega⟩
  obtain ⟨r, m', hx', rfl, h', hfree'⟩ := exists_of_wp hrun
  exact ⟨m', o₁, hx', h', hfree'⟩

theorem tiny_returns : wp (exec (kmap 0x80108000) tinyEnv 0 [120] [] (caller false))
    (fun r _ => ∃ pr', r = some (true, pr')) noPanic (small 1 200).phys := by
  obtain ⟨d, m₁, o₁, hsetup, h₁, hfree₁⟩ := setupkvm_small
  obtain ⟨m₂, o₂, hload, h₂, hfree₂⟩ := tiny_loadSegs h₁ hfree₁
  have hround : pgRoundUp 8 = 4096 := by decide
  have h₂ := h₂.roundUp
  rw [hround] at h₂
  obtain ⟨m₃, o₃, hpages, h₃, _⟩ := allocuvm_ample h₂ (show (1 + 2) * pgSize ≠ 0 by decide)
    (by decide) (by decide) (le_trans (by decide) hfree₂)
  have hb := small_balanced (k := 1) (n := 200) (by decide) (by decide)
  unfold exec
  apply wp_call (killThreads_alone caller_alone)
  rintro r m ⟨rfl, ⟨_, hes⟩ | rfl⟩
  · cases hes
  dsimp only
  rw [show tinyEnv.namei [120] = some (fileInode tiny) from rfl]
  dsimp only
  rw [tiny_readElf]
  apply wp_run hsetup
  dsimp only [loadImage]
  apply wp_bind
  apply wp_run hload
  dsimp only [makeStack]
  rw [hround, show 4096 + 2 * pgSize = (1 + 2) * pgSize by decide]
  apply wp_run hpages
  rw [if_neg (by decide)]
  apply wp_mono (makeStack_rest h₃ (by decide))
  · rintro (_ | ⟨sz, sp⟩) m₄ ⟨h₄, hr⟩
    · exact absurd (by decide) (hr (by decide))
    · have hdir : smallOwner 1 200 (caller false).pgdir = .dir := hb.dir_of rfl
      have hne : (caller false).pgdir ≠ d := by
        intro he
        rw [he, h₄.free] at hdir
        cases hdir
      dsimp only
      rw [if_neg (show ¬ tinyEnv.doomed = true by decide)]
      apply wp_call (freevm_spec h₄.acct (h₄.dir_other hdir hne).1 fun _ =>
        h₄.not_held hb.idle hne)
      intro _ m₅ _
      exact wp_pure ⟨_, rfl⟩
  · rintro e ⟨_, s, hs, _⟩
    cases hs

theorem exec_loads_safely_tiny : ∃ pr' m',
    exec (kmap 0x80108000) tinyEnv 0 [120] [] (caller false) (small 1 200).phys =
      .ok (some (true, pr'), m') ∧
    ∀ i < 4, m'.userByte pr'.pgdir i = some (11 + i) := by
  obtain ⟨r, m', hx, pr', rfl⟩ := exists_of_wp tiny_returns
  have hnone (t : Slot) (ht : t ≠ 0) : ¬ ((caller false).threads t).state ≠ .UNUSED :=
    fun h => h (caller_alone.unused t ht)
  obtain ⟨elf, helf, hst⟩ := (exec_loads_safely dataAt_link
    (.init ⟨_, small_balanced (by decide) (by decide)⟩) rfl
    ⟨fun t ht hu => absurd hu (hnone t ht), fun t _ ht _ hu => absurd hu (hnone t ht)⟩).2
    tiny pr' m' rfl hx
  obtain rfl : elf = ⟨0, 52, 1⟩ := Option.some.inj (helf.symm.trans tiny_readElf)
  have hsegs : segments tiny 1 52 = [⟨1, 84, 0, 4, 8⟩] := by rfl
  refine ⟨pr', m', hx, fun i hi => ?_⟩
  have hbyte := hst.bytes (hsegs ▸ List.pairwise_singleton _ _) ⟨1, 84, 0, 4, 8⟩
    (hsegs ▸ List.mem_singleton.mpr rfl) i hi
  dsimp only at hbyte
  rw [Nat.zero_add] at hbyte
  rw [hbyte]
  interval_cases i <;> rfl

end Xv6.Vm.Exec
