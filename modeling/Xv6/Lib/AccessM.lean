import Mathlib.Logic.Basic

/-!
# Programs whose memory accesses are logged

A program that may fail (return -1) and that logs each access it makes, also those
before a failure. `Safe P x Q`: all accesses that `x` logs meet `P`, and if it
returns a value, the value meets `Q`.
-/

namespace Xv6.Lib

variable {ι α β : Type}

abbrev AccessM (ι : Type) : Type → Type := OptionT (StateM (List ι))

namespace AccessM

def access (a : ι) : AccessM ι Unit := OptionT.lift (modify (a :: ·))

/-- What the program returns; `none` for -1. -/
def result (x : AccessM ι α) : Option α := (x.run.run []).1

/-- All its accesses. -/
def accesses (x : AccessM ι α) : List ι := (x.run.run []).2

def Safe (P : ι → Prop) (x : AccessM ι α) (Q : α → Prop) : Prop :=
  ∀ log, (∀ a ∈ log, P a) →
    (∀ a ∈ (x.run.run log).2, P a) ∧ ∀ v, (x.run.run log).1 = some v → Q v

variable {P : ι → Prop} {x y : AccessM ι α} {f : α → AccessM ι β} {Q Q' : α → Prop}
  {R : β → Prop} {v : α} {a : ι}

theorem Safe.of_accesses (h : Safe P x Q) : ∀ a ∈ accesses x, P a :=
  (h [] nofun).1

theorem Safe.of_result (h : Safe P x Q) (hv : result x = some v) : Q v :=
  (h [] nofun).2 v hv

theorem safe_pure (h : Q v) : Safe P (pure v : AccessM ι α) Q := by
  intro log hlog
  refine ⟨hlog, fun w hw => ?_⟩
  obtain rfl := Option.some.inj hw
  exact h

theorem safe_failure : Safe P (failure : AccessM ι α) Q := fun _ hlog => ⟨hlog, nofun⟩

theorem safe_access (h : P a) : Safe P (access a) fun _ => True := by
  intro log hlog
  refine ⟨fun b hb => ?_, fun _ _ => trivial⟩
  rcases List.mem_cons.mp hb with rfl | hb
  · exact h
  · exact hlog b hb

theorem safe_bind (hx : Safe P x Q) (hf : ∀ v, Q v → Safe P (f v) R) :
    Safe P (x >>= f) R := by
  intro log hlog
  obtain ⟨hx₁, hx₂⟩ := hx log hlog
  rcases hxl : x.run.run log with ⟨_ | v, log'⟩
  · have hrun : (x >>= f).run.run log = (none, log') := by
      simp only [OptionT.run_bind, Option.elimM, StateT.run_bind, hxl]
      rfl
    rw [hrun]
    rw [hxl] at hx₁
    exact ⟨hx₁, nofun⟩
  · have hrun : (x >>= f).run.run log = (f v).run.run log' := by
      simp only [OptionT.run_bind, Option.elimM, StateT.run_bind, hxl]
      rfl
    rw [hrun]
    rw [hxl] at hx₁ hx₂
    exact hf v (hx₂ v rfl) log' hx₁

theorem safe_failure_bind : Safe P ((failure : AccessM ι α) >>= f) R :=
  safe_bind (Q := fun _ => False) safe_failure fun _ h => h.elim

theorem safe_ite {c : Prop} [Decidable c] (ht : c → Safe P x Q) (hf : ¬ c → Safe P y Q) :
    Safe P (if c then x else y) Q := by
  by_cases h : c
  · rw [if_pos h]
    exact ht h
  · rw [if_neg h]
    exact hf h

end AccessM

end Xv6.Lib
