import Xv6.User.Tournament

/-!
# Calls of the tournament tree that fail

Threads call `trnmnt_tree_acquire` and `trnmnt_tree_release` with any `ID`, in any order. A call
that fails half-way undoes nothing: it keeps the nodes that it locked, or has given up the root,
and `trnmnt_tree_release` clears `tid` before it looks at anything. `usedWell` is the condition
under which a call that fails has done nothing.
-/

set_option linter.unusedSectionVars false

namespace Xv6.User

open Xv6.Kernel (MutexId)
open Xv6.Lib.HandOff

variable {T : Type} [DecidableEq T] [Fintype T]

/-! ## §1  The system -/

inductive Call where
  | acquire (ID : ℤ)
  | release (ID : ℤ)
deriving DecidableEq, Repr

def Call.prog (tr : TrnmntTree) : Call → Prog MutexId
  | .acquire ID => trnmntTreeAcquire tr ID
  | .release ID => trnmntTreeRelease tr ID

/-- The last call of each thread. Two history variables: what the thread held when it made the
call, and whether a step of the call has changed `tid`, or the nodes that the thread holds have
changed since. -/
structure Use (T : Type) where
  cfg : Config T MutexId
  call : T → Option Call
  held : T → MutexId → Bool
  touched : T → Bool

inductive UseAction (T : Type) where
  | call (t : T) (a : Call)
  | step (t : T) (next : Option T)

namespace Use

/-- The nodes that `u` holds are not the same in `c` and `c'`. -/
def holdsDiffer (tr : TrnmntTree) (u : T) (c c' : Config T MutexId) : Bool :=
  tr.tree.any fun m => decide (c.owner m = some u) != decide (c'.owner m = some u)

def Idle : Ctl MutexId → Prop
  | .run (.ret _) => True
  | _ => False

instance : DecidablePred Idle
  | .run (.ret _) => isTrue trivial
  | .run (.lock _ _) | .run (.unlock _ _) | .run (.store _ _) | .blocked _ _ | .granted _ _ =>
      isFalse id

/-- What the last call of a thread has returned. -/
def returned (σ : Use T) (t : T) : Option ℤ :=
  match σ.cfg.ctl t with
  | .run (.ret v) => some v
  | _ => none

theorem ctl_of_returned {σ : Use T} {t : T} {v : ℤ} (h : σ.returned t = some v) :
    σ.cfg.ctl t = .run (.ret v) := by
  unfold returned at h
  split at h
  · rename_i hc
    rw [hc, Option.some.inj h]
  · cases h

def step (tr : TrnmntTree) (σ : Use T) : UseAction T → Option (Use T)
  | .call t a =>
      if Idle (σ.cfg.ctl t) then
        some {
          cfg := σ.cfg.goto t (.run (a.prog tr))
          call := Function.update σ.call t (some a)
          held := Function.update σ.held t fun m => decide (σ.cfg.owner m = some t)
          touched := Function.update σ.touched t false }
      else none
  | .step t next =>
      (σ.cfg.step t next).map fun c => { σ with
        cfg := c
        touched := fun u => σ.touched u || (decide (u = t) && decide (c.var ≠ σ.cfg.var)) ||
          holdsDiffer tr u σ.cfg c }

end Use

/-- Threads that make calls of their choice; what they hold to begin with does not matter. -/
def useSystem (tr : TrnmntTree) : Lib.System (Use T) (UseAction T) where
  init σ := (∀ t, σ.cfg.ctl t = .run (.ret 0)) ∧ (∀ t, σ.touched t = false) ∧
    ∀ t m, σ.held t m = decide (σ.cfg.owner m = some t)
  step := Use.step tr

/-- An `ID` that the test refuses, or one of the tree. -/
def Refused (ID : ℤ) : Prop := ID < 0 ∨ 16 < ID

instance (ID : ℤ) : Decidable (Refused ID) := inferInstanceAs (Decidable (_ ∨ _))

theorem ValidID.not_refused {tr : TrnmntTree} {ID : ℤ} (h : ValidID tr ID) : ¬ Refused ID := by
  obtain ⟨h0, _, h16⟩ := h
  rintro (hr | hr)
  · omega
  · omega

section Guard

variable (tr : TrnmntTree) (σ : Use T) (t : T)

/-- Thread `t` holds node `i`. -/
def Use.Holds (i : ℕ) : Prop := σ.cfg.owner (tr.mutex i) = some t

instance (i : ℕ) : Decidable (σ.Holds tr t i) := inferInstanceAs (Decidable (_ = _))

instance (ID : ℤ) : Decidable (ValidID tr ID) := inferInstanceAs (Decidable (_ ∧ _))

/-- An acquire with an `ID` of the tree, by a thread that holds its leaf or nothing on its way. -/
def acquireOk (ID : ℤ) : Prop :=
  Refused ID ∨ ValidID tr ID ∧
    (σ.Holds tr t (tr.leaf ID) ∨ ∀ i ∈ path (tr.leaf ID), ¬ σ.Holds tr t i)

/-- A release by a thread that holds the whole way, or by one that does not hold the root when
`tid` is clear anyway. -/
def releaseOk (ID : ℤ) : Prop :=
  (ValidID tr ID ∧ ∀ i ∈ path (tr.leaf ID), σ.Holds tr t i) ∨
    σ.cfg.var = -1 ∧ (Refused ID ∨ ValidID tr ID ∧ ¬ σ.Holds tr t 0)

instance (ID : ℤ) : Decidable (acquireOk tr σ t ID) := inferInstanceAs (Decidable (_ ∨ _))

instance (ID : ℤ) : Decidable (releaseOk tr σ t ID) := inferInstanceAs (Decidable (_ ∨ _))

/-- The condition on a release is that of the moment when `tid` is cleared. -/
def storeOk : Ctl MutexId → Option Call → Prop
  | .run (.store _ _), some (.release ID) => releaseOk tr σ t ID
  | _, _ => True

instance : ∀ x a, Decidable (storeOk tr σ t x a)
  | .run (.store _ _), some (.release ID) => inferInstanceAs (Decidable (releaseOk tr σ t ID))
  | .run (.store _ _), none | .run (.store _ _), some (.acquire _) => isTrue trivial
  | .run (.ret _), _ | .run (.lock _ _), _ | .run (.unlock _ _), _ => isTrue trivial
  | .blocked _ _, _ | .granted _ _, _ => isTrue trivial

end Guard

/-- What callers have to keep to. -/
def usedWell (tr : TrnmntTree) (σ : Use T) : UseAction T → Prop
  | .call t (.acquire ID) => acquireOk tr σ t ID
  | .call _ (.release _) => True
  | .step t _ => storeOk tr σ t (σ.cfg.ctl t) (σ.call t)

instance (tr : TrnmntTree) (σ : Use T) : ∀ a, Decidable (usedWell tr σ a)
  | .call t (.acquire ID) => inferInstanceAs (Decidable (acquireOk tr σ t ID))
  | .call _ (.release _) => isTrue trivial
  | .step _ _ => inferInstanceAs (Decidable (storeOk ..))

/-! ## §2  Where a call is -/

/-- Where thread `t` is in a call, with what it holds as `own` and `touched` as the last
argument. Only the stages from which -1 is returned have to be untouched. -/
inductive Stage (tr : TrnmntTree) (own : ℕ → Prop) : Option Call → Ctl MutexId → Bool → Prop
  | idle {a : Option Call} {v : ℤ} {b : Bool} (h : v = -1 → b = false) :
      Stage tr own a (.run (.ret v)) b
  -- the leaf is the caller's own
  | again {ID : ℤ} {k : ℤ → Prog MutexId} (hID : ValidID tr ID) (hk : k (-1) = .ret (-1))
      (ho : own (tr.leaf ID)) :
      Stage tr own (some (.acquire ID)) (.run (.lock (tr.mutex (tr.leaf ID)) k)) false
  | climb {ID : ℤ} {i : ℕ} {k : ℤ → Prog MutexId} {b : Bool} (hID : ValidID tr ID)
      (hi : i ∈ path (tr.leaf ID)) (hk : k 0 = acquireAbove tr ID i)
      (ho : ∀ j ∈ path i, ¬ own j) :
      Stage tr own (some (.acquire ID)) (.run (.lock (tr.mutex i) k)) b
  | blocked {ID : ℤ} {i : ℕ} {k : ℤ → Prog MutexId} {b : Bool} (hID : ValidID tr ID)
      (hi : i ∈ path (tr.leaf ID)) (hk : k 0 = acquireAbove tr ID i)
      (ho : ∀ j ∈ path i, ¬ own j) :
      Stage tr own (some (.acquire ID)) (.blocked (tr.mutex i) k) b
  | granted {ID : ℤ} {i : ℕ} {k : ℤ → Prog MutexId} {b : Bool} (hID : ValidID tr ID)
      (hi : i ∈ path (tr.leaf ID)) (hk : k 0 = acquireAbove tr ID i)
      (ho : ∀ j ∈ path i, j ≠ i → ¬ own j) :
      Stage tr own (some (.acquire ID)) (.granted (tr.mutex i) k) b
  | top {ID : ℤ} {b : Bool} : Stage tr own (some (.acquire ID)) (.run (.store ID (.ret 0))) b
  | leave {ID : ℤ} {p : Prog MutexId}
      (hp : p = if Refused ID then .ret (-1) else unlocks tr (path (tr.leaf ID)).reverse) :
      Stage tr own (some (.release ID)) (.run (.store (-1) p)) false
  | descend {a : Option Call} {j : ℕ} {js : List ℕ} {k : ℤ → Prog MutexId} {b : Bool}
      (hk : k 0 = unlocks tr js) (hnd : (j :: js).Nodup)
      (ho : ∀ i ∈ j :: js, i < tr.size ∧ own i) :
      Stage tr own a (.run (.unlock (tr.mutex j) k)) b
  -- the root is not the caller's
  | refused {a : Option Call} {k : ℤ → Prog MutexId} (hk : k (-1) = .ret (-1)) (ho : ¬ own 0) :
      Stage tr own a (.run (.unlock (tr.mutex 0) k)) false

section Stages

variable {tr : TrnmntTree} {own own' : ℕ → Prop} {a : Option Call} {x : Ctl MutexId} {b : Bool}
  {ID : ℤ} {i j : ℕ}

theorem acquireFrom_refused (tr : TrnmntTree) (ID : ℤ) (i : ℕ) :
    ∃ k, acquireFrom tr ID i = .lock (tr.mutex i) k ∧ k 0 = acquireAbove tr ID i ∧
      k (-1) = .ret (-1) := by
  unfold acquireFrom acquireAbove
  by_cases hi : i = 0
  · subst hi
    rw [acquireHelper, if_pos rfl, if_pos rfl]
    exact ⟨_, rfl, rfl, rfl⟩
  · rw [acquireHelper, if_neg hi, if_neg hi]
    exact ⟨_, rfl, rfl, rfl⟩

theorem unlocks_refused (tr : TrnmntTree) (j : ℕ) (js : List ℕ) :
    ∃ k, unlocks tr (j :: js) = .unlock (tr.mutex j) k ∧ k 0 = unlocks tr js ∧
      k (-1) = .ret (-1) := by
  cases js with
  | nil => exact ⟨_, rfl, rfl, rfl⟩
  | cons j' js => exact ⟨_, rfl, if_neg (by decide), if_pos (by decide)⟩

theorem parent_mem_path {l : ℕ} (h : i ∈ path l) (hi : i ≠ 0) : (i - 1) / 2 ∈ path l := by
  induction l using Nat.strong_induction_on with
  | _ l ih =>
      by_cases hl : l = 0
      · rw [hl, path_zero] at h
        exact absurd (List.mem_singleton.mp h) hi
      · rw [path_of_ne hl] at h ⊢
        refine List.mem_cons_of_mem _ ?_
        rcases List.mem_cons.mp h with rfl | h
        · exact mem_path_self _
        · exact ih _ (by omega) h

/-- Node `i` has been locked. -/
theorem Stage.of_acquireAbove (hID : ValidID tr ID) (hi : i ∈ path (tr.leaf ID))
    (ho : ∀ j ∈ path i, j ≠ i → ¬ own j) :
    Stage tr own (some (.acquire ID)) (.run (acquireAbove tr ID i)) b := by
  unfold acquireAbove
  by_cases h0 : i = 0
  · rw [if_pos h0]
    exact .top
  · obtain ⟨k, he, hk, _⟩ := acquireFrom_refused tr ID ((i - 1) / 2)
    rw [if_neg h0, he]
    refine .climb hID (parent_mem_path hi h0) hk fun j hj => ?_
    have hle := le_of_mem_path hj
    refine ho j ?_ (by omega)
    rw [path_of_ne h0]
    exact List.mem_cons_of_mem _ hj

/-- The nodes `js` are still to be unlocked. -/
theorem Stage.of_unlocks {js : List ℕ} (hnd : js.Nodup) (ho : ∀ i ∈ js, i < tr.size ∧ own i) :
    Stage tr own a (.run (unlocks tr js)) b := by
  cases js with
  | nil => exact .idle nofun
  | cons j js =>
      obtain ⟨k, he, hk⟩ := unlocks_cons tr j js
      rw [he]
      exact .descend hk hnd ho

variable (hw : tr.WellFormed)
include hw

theorem lt_size_of_mem_path (hID : ValidID tr ID) (hi : i ∈ path (tr.leaf ID)) (hj : j ∈ path i) :
    j < tr.size :=
  (le_of_mem_path hj).trans_lt (hw.path_lt hID.1 hID.2.1 hi)

theorem Stage.congr (h : Stage tr own a x b) (ho : ∀ i < tr.size, own' i ↔ own i) :
    Stage tr own' a x b := by
  have hnot : ∀ {ID i j}, ValidID tr ID → i ∈ path (tr.leaf ID) → j ∈ path i → ¬ own j →
      ¬ own' j := by
    intro ID i j hID hi hj
    rw [ho j (lt_size_of_mem_path hw hID hi hj)]
    exact id
  cases h with
  | idle h => exact .idle h
  | again hID hk hown =>
      refine .again hID hk ((ho _ ?_).mpr hown)
      exact lt_size_of_mem_path hw hID (mem_path_self _) (mem_path_self _)
  | climb hID hi hk hown => exact .climb hID hi hk fun j hj => hnot hID hi hj (hown j hj)
  | blocked hID hi hk hown => exact .blocked hID hi hk fun j hj => hnot hID hi hj (hown j hj)
  | granted hID hi hk hown =>
      exact .granted hID hi hk fun j hj hne => hnot hID hi hj (hown j hj hne)
  | top => exact .top
  | leave hp => exact .leave hp
  | descend hk hnd hown =>
      refine .descend hk hnd fun i hi => ?_
      obtain ⟨hlt, hi⟩ := hown i hi
      exact ⟨hlt, (ho i hlt).mpr hi⟩
  | refused hk hown =>
      refine .refused hk ?_
      have hpos : 0 < tr.size := by
        have h1 := hw.depth
        have hpow : 1 < 2 ^ tr.depth.toNat := Nat.one_lt_two_pow (by omega)
        have hsize := hw.size
        omega
      rw [ho 0 hpos]
      exact hown

end Stages

/-! ## §3  The invariant -/

/-- Every thread is at some stage of its call. -/
def UseInv (tr : TrnmntTree) (σ : Use T) : Prop :=
  ∀ t, Stage tr (σ.Holds tr t) (σ.call t) (σ.cfg.ctl t) (σ.touched t)

section Step

variable {tr : TrnmntTree} {σ σ' : Use T} {c c' : Config T MutexId} {t u : T} {i : ℕ}

theorem Use.holdsDiffer_eq_false (h : ∀ m, c'.owner m = some u ↔ c.owner m = some u) :
    Use.holdsDiffer tr u c c' = false := by
  refine List.any_eq_false.mpr fun m _ => ?_
  rw [decide_eq_decide.mpr (h m), bne_self_eq_false]
  simp

variable (hw : tr.WellFormed)
include hw

theorem owner_own_ne {o : Option T} {j : ℕ} (hi : i < tr.size) (hj : j < tr.size) (hji : j ≠ i) :
    (c.own (tr.mutex i) o).owner (tr.mutex j) = c.owner (tr.mutex j) :=
  Config.own_ne _ _ fun e => hji (hw.mutex_inj hj hi e)

/-- A call begins. -/
theorem UseInv.call {a : Call} (h : UseInv tr σ) (hg : usedWell tr σ (.call t a))
    (hs : σ.step tr (.call t a) = some σ') : UseInv tr σ' := by
  obtain ⟨_, he⟩ := Option.ite_none_right_eq_some.mp hs
  obtain rfl := Option.some.inj he
  intro u
  dsimp only
  by_cases hut : u = t
  · subst hut
    rw [Function.update_self, Function.update_self, Config.goto_self]
    cases a with
    | acquire ID =>
        rcases hg with hr | ⟨hID, hown⟩
        · have hprog : Call.prog tr (.acquire ID) = .ret (-1) := if_pos hr
          rw [hprog]
          exact .idle fun _ => rfl
        · obtain ⟨k, he, hk, hk'⟩ := acquireFrom_refused tr ID (tr.leaf ID)
          have hprog : Call.prog tr (.acquire ID) = .lock (tr.mutex (tr.leaf ID)) k :=
            (trnmntTreeAcquire_eq hID.1 hID.2.2).trans he
          rw [hprog]
          rcases hown with hown | hown
          · exact .again hID hk' hown
          · exact .climb hID (mem_path_self _) hk hown
    | release ID =>
        refine .leave ?_
        rw [releaseHelper_eq]
        rfl
  · rw [Function.update_of_ne hut, Function.update_of_ne hut, Config.goto_ne _ _ hut]
    exact h u

/-- A release has cleared `tid`. -/
theorem Stage.of_leave {ID : ℤ} {b : Bool} (hg : releaseOk tr σ t ID)
    (hb : σ.cfg.var = -1 → b = false) :
    Stage tr (σ.Holds tr t) (some (.release ID))
      (.run (if Refused ID then .ret (-1) else unlocks tr (path (tr.leaf ID)).reverse)) b := by
  rcases hg with ⟨hID, hown⟩ | ⟨hvar, hr | ⟨hID, hroot⟩⟩
  · rw [if_neg hID.not_refused]
    refine .of_unlocks (List.nodup_reverse.mpr (path_nodup _)) fun i hi => ?_
    have hi := List.mem_reverse.mp hi
    exact ⟨hw.path_lt hID.1 hID.2.1 hi, hown i hi⟩
  · rw [if_pos hr]
    exact .idle fun _ => hb hvar
  · -- the root is the first node on the way down
    obtain ⟨js, hjs⟩ : ∃ js, (path (tr.leaf ID)).reverse = 0 :: js := by
      refine List.head?_eq_some_iff.mp ?_
      rw [List.head?_reverse, getLast?_path]
    obtain ⟨k, he, _, hk⟩ := unlocks_refused tr 0 js
    rw [if_neg hID.not_refused, hjs, he, hb hvar]
    exact .refused hk hroot

/-- Node `j` has been given away. -/
theorem Stage.of_unlocked {a : Option Call} {b : Bool} {o : Option T} {j : ℕ} {js : List ℕ}
    {k : ℤ → Prog MutexId} (hk : k 0 = unlocks tr js) (hnd : (j :: js).Nodup)
    (ho : ∀ i ∈ j :: js, i < tr.size ∧ c.owner (tr.mutex i) = some t) :
    Stage tr (fun i => (c.own (tr.mutex j) o).owner (tr.mutex i) = some t) a (.run (k 0)) b := by
  obtain ⟨hj, hnd⟩ := List.nodup_cons.mp hnd
  rw [hk]
  refine .of_unlocks hnd fun i hi => ?_
  obtain ⟨hlt, hi'⟩ := ho i (List.mem_cons_of_mem _ hi)
  refine ⟨hlt, ?_⟩
  rw [owner_own_ne hw (ho j List.mem_cons_self).1 hlt fun e => hj (e ▸ hi)]
  exact hi'

/-- The thread that acts. -/
theorem UseInv.own_step {b : Bool} (h : UseInv tr σ) (hm : Config.Move σ.cfg t c')
    (hg : storeOk tr σ t (σ.cfg.ctl t) (σ.call t))
    (hb : c'.var = σ.cfg.var → c'.owner = σ.cfg.owner → b = σ.touched t) :
    Stage tr (fun i => c'.owner (tr.mutex i) = some t) (σ.call t) (c'.ctl t) b := by
  have hst := h t
  generalize σ.call t = a at hst hg ⊢
  generalize σ.touched t = b₀ at hst hb
  cases hm with
  | resume hx =>
      rw [hx] at hst
      rw [Config.goto_self]
      cases hst with
      | granted hID hi hk ho =>
          rw [hk]
          exact .of_acquireAbove hID hi ho
  | @store v p hx =>
      rw [hx] at hst hg
      show Stage tr _ a ((σ.cfg.goto t (.run p)).ctl t) _
      rw [Config.goto_self]
      cases hst with
      | top => exact .idle nofun
      | leave hp =>
          rw [hp]
          exact .of_leave hw hg fun hvar => hb hvar.symm rfl
  | take hx ho =>
      rw [hx] at hst
      rw [Config.goto_self]
      cases hst with
      | again hID hk hown =>
          rw [Use.Holds, ho] at hown
          cases hown
      | @climb ID i _ _ hID hi hk hown =>
          rw [hk]
          refine .of_acquireAbove hID hi fun j hj hji => ?_
          have hlt := lt_size_of_mem_path hw hID hi (j := j) hj
          have hlt' := lt_size_of_mem_path hw hID hi (mem_path_self i)
          rw [Config.goto_owner, owner_own_ne hw hlt' hlt hji]
          exact hown j hj
  | refuse hx ho =>
      rw [hx] at hst
      rw [Config.goto_self]
      cases hst with
      | again hID hk hown =>
          rw [hk]
          exact .idle fun _ => hb rfl rfl
      | climb hID hi hk hown => exact absurd ho (hown _ (mem_path_self _))
  | block hx ho hne =>
      rw [hx] at hst
      rw [Config.goto_self]
      cases hst with
      | again hID hk hown =>
          rw [Use.Holds, ho] at hown
          exact absurd (Option.some.inj hown) hne
      | climb hID hi hk hown => exact .blocked hID hi hk hown
  | free hx ho =>
      rw [hx] at hst
      rw [Config.goto_self]
      cases hst with
      | descend hk hnd hown => exact .of_unlocked hw hk hnd hown
      | refused hk hroot => exact absurd ho hroot
  | handOff hx ho hu =>
      rw [hx] at hst
      rw [Config.goto_self]
      cases hst with
      | descend hk hnd hown => exact .of_unlocked hw hk hnd hown
      | refused hk hroot => exact absurd ho hroot
  | reject hx ho =>
      rw [hx] at hst
      rw [Config.goto_self]
      cases hst with
      | descend hk hnd hown => exact absurd (hown _ List.mem_cons_self).2 ho
      | refused hk hroot =>
          rw [hk]
          exact .idle fun _ => hb rfl rfl

/-- The other threads. -/
theorem UseInv.other_step {b : Bool} (h : UseInv tr σ) (hm : Config.Move σ.cfg t c') (hut : u ≠ t)
    (hb : (∀ m, c'.owner m = some u ↔ σ.cfg.owner m = some u) → b = σ.touched u) :
    Stage tr (fun i => c'.owner (tr.mutex i) = some u) (σ.call u) (c'.ctl u) b := by
  have hst := h u
  rcases hm.other hut with ⟨hctl, ho⟩ | ⟨m, k, hctl, hctl', ho⟩
  · rw [hctl, hb ho]
    exact hst.congr hw fun i _ => ho _
  · -- the node that `u` waits for is handed to it
    rw [hctl] at hst
    rw [hctl']
    generalize σ.call u = a at hst ⊢
    cases hst with
    | @blocked ID i _ _ hID hi hk hown =>
        refine .granted hID hi hk fun j hj hji => ?_
        have hlt := lt_size_of_mem_path hw hID hi hj
        have hlt' := lt_size_of_mem_path hw hID hi (mem_path_self i)
        rw [ho, owner_own_ne hw hlt' hlt hji]
        exact hown j hj

theorem UseInv.step {a : UseAction T} (h : UseInv tr σ) (hg : usedWell tr σ a)
    (hs : σ.step tr a = some σ') : UseInv tr σ' := by
  cases a with
  | call t a => exact h.call hw hg hs
  | step t next =>
      obtain ⟨c', hc, rfl⟩ := Option.map_eq_some_iff.mp hs
      have hm := Config.step_move hc
      intro u
      by_cases hut : u = t
      · subst hut
        refine h.own_step hw hm hg fun hvar howner => ?_
        have hsame : decide (c'.var ≠ σ.cfg.var) = false := decide_eq_false fun hne => hne hvar
        dsimp only at howner ⊢
        rw [Use.holdsDiffer_eq_false fun m => by rw [howner], hsame, Bool.and_false,
          Bool.or_false, Bool.or_false]
      · refine h.other_step hw hm hut fun howner => ?_
        dsimp only
        rw [Use.holdsDiffer_eq_false howner, decide_eq_false hut, Bool.false_and, Bool.or_false,
          Bool.or_false]

end Step

/-! ## §4  Calls that fail -/

section Reach

variable {tr : TrnmntTree} {σ : Use T} {t : T} {depth : ℤ} {a : MutexFlags}

/-- What an untouched thread holds. -/
theorem held_of_reach {G : Use T → UseAction T → Prop} (h : (useSystem tr).Reach G σ)
    (ht : σ.touched t = false) : ∀ m ∈ tr.tree, σ.held t m = decide (σ.cfg.owner m = some t) := by
  refine h.invariant (I := fun σ => ∀ t, σ.touched t = false →
    ∀ m ∈ tr.tree, σ.held t m = decide (σ.cfg.owner m = some t)) ?_ ?_ t ht
  · rintro σ ⟨_, _, hheld⟩ t _ m _
    exact hheld t m
  · intro σ a σ' hI _ hs u hu m hm
    cases a with
    | call t a =>
        obtain ⟨_, he⟩ := Option.ite_none_right_eq_some.mp hs
        obtain rfl := Option.some.inj he
        dsimp only at hu ⊢
        by_cases hut : u = t
        · rw [hut, Function.update_self]
          rfl
        · rw [Function.update_of_ne hut] at hu ⊢
          exact hI u hu m hm
    | step t next =>
        obtain ⟨c', _, rfl⟩ := Option.map_eq_some_iff.mp hs
        obtain ⟨hu, hsame⟩ := Bool.or_eq_false_iff.mp hu
        rw [hI u (Bool.or_eq_false_iff.mp hu).1 m hm]
        have hm := List.any_eq_false.mp hsame m hm
        simpa using hm

end Reach

/-- Nobody holds a node of the tree. -/
def useStart : Use (Fin 2) where
  cfg := { owner := fun _ => none, var := -1, ctl := fun _ => .run (.ret 0) }
  call _ := none
  held _ _ := false
  touched _ := false

/-- Thread 0 acquires the tree with ID 0. -/
def acquireRun : List (UseAction (Fin 2)) :=
  [.call 0 (.acquire 0), .step 0 none, .step 0 none, .step 0 none]

theorem useRun_reach (l : List (UseAction (Fin 2))) (P : Use (Fin 2) → Prop) [DecidablePred P]
    (h : ((useSystem smallTree).exec Lib.System.anyStep useStart l).any
      (fun σ => decide (P σ)) = true) :
    ∃ σ, (useSystem smallTree).Reach Lib.System.anyStep σ ∧ P σ :=
  Lib.System.exec_reach ⟨fun _ => rfl, fun _ => rfl, fun _ _ => rfl⟩ h

end Xv6.User
