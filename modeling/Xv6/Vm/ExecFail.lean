import Xv6.Vm.ArgStack

/-!
# When `exec` fails

Until the commit `exec` works on a directory of its own. Whatever it builds there,
`freevm` takes down again, so a failure leaves memory as it was. It does not leave the
process as it was: `kill_threads` comes first, before anything can fail, and the name
is overwritten before the last check. `exec_failed` is for a caller without siblings,
that owns no mutex and is not killed meanwhile.
-/

namespace Xv6.Vm.Exec

open Xv6.Lib PanicM
open Xv6.Kernel (States Slot MutexId nthread)

variable {m m' : Phys} {o : ℕ → Owner} {k : ℕ}

/-! ## §1  Without siblings `kill_threads` does nothing -/

/-- The caller is the only thread of the process, and the process owns no mutex. -/
structure Alone (c : Slot) (p : Proc) : Prop where
  running : (p.threads c).state = .RUNNING
  unused : ∀ t, t ≠ c → (p.threads t).state = .UNUSED
  mid : ∀ i, p.mid i ≠ 1

variable {c : Slot} {pr : Proc} {es : List (Slot → Bool)}

theorem killSiblings_alone (h : Alone c pr) : killSiblings c pr = pr := by
  have hth (t : Slot) : (killSiblings c pr).threads t = pr.threads t := by
    have hmark : ¬ (t ≠ c ∧ (pr.threads t).state ≠ .UNUSED) := fun hu =>
      hu.2 (h.unused t hu.1)
    have hawake : (pr.threads t).state ≠ .SLEEPING := by
      by_cases ht : t = c
      · rw [ht, h.running]
        nofun
      · rw [h.unused t ht]
        nofun
    unfold killSiblings
    simp only [if_neg hmark, if_neg hawake]
  show { pr with threads := (killSiblings c pr).threads } = pr
  rw [funext hth]

theorem exited_alone {e : Slot → Bool} (h : Alone c pr) : exited c e pr = pr := by
  have hth (t : Slot) : (exited c e pr).threads t = pr.threads t :=
    if_neg fun hu => hu.2.1 (h.unused t hu.1)
  show { pr with threads := (exited c e pr).threads } = pr
  rw [funext hth]

theorem clearMid_alone (h : Alone c pr) : clearMid pr = pr := by
  have hmid (i : MutexId) : (clearMid pr).mid i = pr.mid i := if_neg (h.mid i)
  show { pr with mid := (clearMid pr).mid } = pr
  rw [funext hmid]

/-- Nobody is to be waited for: the first round counts every other slot. -/
theorem reap_alone {ts : List Slot} (h : Alone c pr) :
    reap c ts pr k = pure (pr, k + (ts.filter (· ≠ c)).length) := by
  induction ts generalizing k with
  | nil => rfl
  | cons t ts ih =>
      have hzombie : ¬ (t ≠ c ∧ (pr.threads t).state = .ZOMBIE) := by
        rintro ⟨ht, hz⟩
        exact nomatch (h.unused t ht).symm.trans hz
      unfold reap
      dsimp only
      rw [if_neg hzombie]
      by_cases ht : t = c
      · rw [if_neg fun hu => hu.1 ht, ih, List.filter_cons_of_neg (by simpa using ht)]
      · rw [if_pos ⟨ht, h.unused t ht⟩, ih, List.filter_cons_of_pos (by simpa using ht),
          List.length_cons, Nat.add_assoc, Nat.add_comm 1]

theorem count_others : ∀ c : Slot, ((List.finRange nthread).filter (· ≠ c)).length = nthread - 1 := by
  decide

theorem killThreads_alone (h : Alone c pr) :
    wp (killThreads c es pr) (fun r m' => m' = m ∧ (r = none ∧ es = [] ∨ r = some pr))
      noPanic m := by
  unfold killThreads
  rw [killSiblings_alone h]
  apply wp_bind
  cases es with
  | nil => exact wp_pure (wp_pure ⟨rfl, .inl ⟨rfl, rfl⟩⟩)
  | cons e es =>
      unfold waitSiblings
      rw [exited_alone h, reap_alone h, count_others c]
      apply wp_bind
      apply wp_pure
      dsimp only
      rw [Nat.zero_add, if_neg (lt_irrefl _)]
      refine wp_pure (wp_pure ⟨rfl, .inr ?_⟩)
      rw [Option.map_some, clearMid_alone h]

/-! ## §2  A failed `exec` -/

/-- A caller without siblings that is not killed meanwhile: if -1 is returned, nothing has
changed. -/
theorem exec_spec {ks : List Kmap} {n : ℕ} {env : Env} {path : List ℕ}
    {argv : List (List ℕ)} (hks : Ascending userPages ks n) (hdev : MapsDevices ks)
    (ha : Acct m o) (hi : Idle o)
    (hD : o pr.pgdir = .dir) (h : Alone c pr) (hlive : env.doomed = false) :
    wp (exec ks env c path argv pr) (fun r m' => ∀ pr', r = some (false, pr') →
      pr' = pr ∧ Acct m' o ∧ ∀ g, o g ≠ .free → m'.mem g = m.mem g) onlyNull m := by
  -- the return value -1 with nothing done
  have hback : ∀ pr', some (false, pr) = some (false, pr') →
      pr' = pr ∧ Acct m o ∧ ∀ g, o g ≠ .free → m.mem g = m.mem g := by
    rintro _ ⟨⟩
    exact ⟨rfl, ha, fun _ _ => rfl⟩
  unfold exec
  apply wp_call (wp_onlyNull (killThreads_alone h))
  rintro r m₁ ⟨rfl, ⟨rfl, _⟩ | rfl⟩
  · exact wp_pure (by simp)
  · dsimp only
    split
    case h_1 => exact wp_pure hback
    case h_2 ip _ =>
    split
    case h_1 => exact wp_pure hback
    case h_2 elf _ =>
    apply wp_call (wp_onlyNull (setupkvm_spec hks ha hi))
    intro r m₂ hr
    cases r with
    | none =>
        refine wp_pure ?_
        rintro _ ⟨⟩
        exact ⟨rfl, hr.1⟩
    | some d =>
        obtain ⟨o₂, hf, _, hall⟩ := hr
        apply wp_call (loadImage_spec (.of_setupkvm hf hall hdev))
        rintro r m₃ ⟨o₃, h₃⟩
        cases r with
        | none =>
            obtain ⟨S, h₃⟩ := h₃
            apply wp_call (wp_onlyNull (h₃.freevm_spec ha hi))
            intro _ m₄ h₄
            refine wp_pure ?_
            rintro _ ⟨⟩
            exact ⟨rfl, h₄⟩
        | some r =>
            obtain ⟨k, _, h₃, _⟩ := h₃
            dsimp only
            rw [hlive, if_neg (by simp)]
            have hne : pr.pgdir ≠ d := by
              rintro rfl
              cases hD.symm.trans h₃.free
            apply wp_call (wp_onlyNull
              (freevm_spec h₃.acct (h₃.dir_other hD hne).1 fun _ => h₃.not_held hi hne))
            intro _ m₄ _
            exact wp_pure (by simp)

/-- A disk without files, and siblings that exit as soon as they are killed. -/
def noFiles : Env := ⟨fun _ => none, [fun _ => true], false⟩

/-- A process of one page; the second thread, if there is one, sleeps. -/
def caller (two : Bool) : Proc where
  pgdir := 1024
  sz := 4096
  name := [105]
  eip := 0
  esp := 4096
  threads t :=
    if t = 0 then ⟨.RUNNING, false, false, 1, 0⟩
    else if t = 1 ∧ two = true then ⟨.SLEEPING, false, false, 2, 2000⟩
    else ⟨.UNUSED, false, false, 0, 0⟩
  mid i := if i = 0 ∧ two = true then 1 else 0

theorem caller_alone : Alone 0 (caller false) := by
  refine ⟨rfl, fun t ht => ?_, fun i => ?_⟩
  · show (if t = 0 then _ else if t = 1 ∧ false = true then _ else _ : Thread).state = _
    rw [if_neg ht, if_neg (by simp)]
  · show (if i = 0 ∧ false = true then 1 else 0) ≠ 1
    rw [if_neg (by simp)]
    decide

/-- Run `exec` and test the process it returns -1 to. -/
theorem exec_check (pr : Proc) (m : Phys) (q : Proc → Bool)
    (h : check (exec (kmap 0x80108000) noFiles 0 [120] [] pr)
      (fun r _ => match r with
        | some (false, pr') => q pr'
        | _ => false) m = true) :
    ∃ pr' m', exec (kmap 0x80108000) noFiles 0 [120] [] pr m = .ok (some (false, pr'), m') ∧
      q pr' = true := by
  obtain ⟨r, m', hx, hr⟩ := exists_of_check h
  rcases r with _ | ⟨_ | _, pr'⟩
  · cases hr
  · exact ⟨pr', m', hx, hr⟩
  · cases hr

end Xv6.Vm.Exec
