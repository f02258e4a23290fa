import Xv6.Lib.Transition
import Xv6.User.TrnmntTree

/-!
# Threads that use a tournament tree

Each thread calls `trnmnt_tree_acquire` when it is outside and
`trnmnt_tree_release` when it is inside; the operations on the mutexes interleave.
`Status` says which nodes of its path a thread owns at each point of the two
calls: a lower part of the path while it climbs, and also while it releases, as
the nodes are unlocked from the root down.
-/

set_option linter.unusedSectionVars false

namespace Xv6.User

open Xv6.Kernel (MutexId)
open Xv6.Lib.HandOff

variable {T : Type} [DecidableEq T] [Fintype T]

/-! ## §1  The system -/

inductive Phase where
  | outside | acquiring | inside | releasing
deriving DecidableEq, Repr

structure State (T : Type) where
  cfg : Config T MutexId
  phase : T → Phase

/-- `step t next` is one operation of thread `t`, and `finish t` the return from
the call. -/
inductive Action (T : Type) where
  | acquire (t : T)
  | release (t : T)
  | step (t : T) (next : Option T)
  | finish (t : T)

namespace State

def enter (σ : State T) (t : T) (ph : Phase) : State T :=
  { σ with phase := Function.update σ.phase t ph }

def call (σ : State T) (t : T) (ph : Phase) (p : Prog MutexId) : State T :=
  { cfg := σ.cfg.goto t (.run p), phase := Function.update σ.phase t ph }

def step (tr : TrnmntTree) (ID : T → ℤ) (σ : State T) : Action T → Option (State T)
  | .acquire t =>
      if σ.phase t = .outside then
        some (σ.call t .acquiring (trnmntTreeAcquire tr (ID t)))
      else none
  | .release t =>
      if σ.phase t = .inside then
        some (σ.call t .releasing (trnmntTreeRelease tr (ID t)))
      else none
  | .step t next => (σ.cfg.step t next).map fun c => { σ with cfg := c }
  | .finish t =>
      match σ.phase t, σ.cfg.ctl t with
      | .acquiring, .run (.ret v) =>
          some (σ.enter t (if 0 ≤ v then .inside else .outside))
      | .releasing, .run (.ret _) => some (σ.enter t .outside)
      | _, _ => none

/-- One operation of thread `t`. -/
def StepOf (tr : TrnmntTree) (ID : T → ℤ) (t : T) (σ σ' : State T) : Prop :=
  ∃ next, σ.step tr ID (.step t next) = some σ'

/-- `trnmnt_tree_tid`. -/
def trnmntTreeTid (σ : State T) : ℤ := σ.cfg.var

/-- Nobody uses the tree yet; `malloc` leaves `tid` as it is. -/
structure Initial (tr : TrnmntTree) (σ : State T) : Prop where
  phase : ∀ t, σ.phase t = .outside
  ctl : ∀ t, σ.cfg.ctl t = .run (.ret 0)
  owner : ∀ i, i < tr.size → σ.cfg.owner (tr.mutex i) = none

end State

/-- The threads `T`, with their IDs, on the tree `tr`. -/
def treeSystem (tr : TrnmntTree) (ID : T → ℤ) : Lib.System (State T) (Action T) where
  init := State.Initial tr
  step := State.step tr ID

/-! ## §2  What a thread owns -/

/-- The nodes that a thread owns, from where it is in its call. -/
inductive Status (tr : TrnmntTree) (ID : ℤ) : Phase → Ctl MutexId → List ℕ → Prop
  | outside (v : ℤ) : Status tr ID .outside (.run (.ret v)) []
  -- `i` is the next node on the way up
  | climb {pre : List ℕ} {i : ℕ} {k : ℤ → Prog MutexId}
      (h : path (tr.leaf ID) = pre ++ path i) (hk : k 0 = acquireAbove tr ID i) :
      Status tr ID .acquiring (.run (.lock (tr.mutex i) k)) pre
  | blocked {pre : List ℕ} {i : ℕ} {k : ℤ → Prog MutexId}
      (h : path (tr.leaf ID) = pre ++ path i) (hk : k 0 = acquireAbove tr ID i) :
      Status tr ID .acquiring (.blocked (tr.mutex i) k) pre
  | granted {pre : List ℕ} {i : ℕ} {k : ℤ → Prog MutexId}
      (h : path (tr.leaf ID) = pre ++ path i) (hk : k 0 = acquireAbove tr ID i) :
      Status tr ID .acquiring (.granted (tr.mutex i) k) (pre ++ [i])
  | top : Status tr ID .acquiring (.run (.store ID (.ret 0))) (path (tr.leaf ID))
  | won : Status tr ID .acquiring (.run (.ret 0)) (path (tr.leaf ID))
  | inside (v : ℤ) : Status tr ID .inside (.run (.ret v)) (path (tr.leaf ID))
  | leave {p : Prog MutexId} (hp : p = unlocks tr (path (tr.leaf ID)).reverse) :
      Status tr ID .releasing (.run (.store (-1) p)) (path (tr.leaf ID))
  -- `j` is the next node on the way down
  | descend {done js : List ℕ} {j : ℕ} {k : ℤ → Prog MutexId}
      (h : (path (tr.leaf ID)).reverse = done ++ j :: js)
      (hk : k 0 = unlocks tr js) :
      Status tr ID .releasing (.run (.unlock (tr.mutex j) k)) (j :: js)
  | done : Status tr ID .releasing (.run (.ret 0)) []

variable {tr : TrnmntTree} {ID : ℤ}

theorem Status.of_acquireFrom {pre : List ℕ} {i : ℕ}
    (h : path (tr.leaf ID) = pre ++ path i) :
    Status tr ID .acquiring (.run (acquireFrom tr ID i)) pre := by
  obtain ⟨k, e, hk⟩ := acquireFrom_eq tr ID i
  rw [e]
  exact .climb h hk

/-- Node `i` has been locked. -/
theorem Status.of_acquireAbove {pre : List ℕ} {i : ℕ}
    (h : path (tr.leaf ID) = pre ++ path i) :
    Status tr ID .acquiring (.run (acquireAbove tr ID i)) (pre ++ [i]) := by
  unfold acquireAbove
  by_cases hi : i = 0
  · subst hi
    rw [if_pos rfl, ← path_zero, ← h]
    exact .top
  · rw [if_neg hi]
    apply Status.of_acquireFrom
    rw [h, path_of_ne hi, List.append_assoc]
    rfl

/-- The nodes `js` are still to be unlocked. -/
theorem Status.of_unlocks {js : List ℕ} (before : List ℕ)
    (h : (path (tr.leaf ID)).reverse = before ++ js) :
    Status tr ID .releasing (.run (unlocks tr js)) js := by
  cases js with
  | nil => exact .done
  | cons j js =>
      obtain ⟨k, e, hk⟩ := unlocks_cons tr j js
      rw [e]
      exact .descend h hk

/-! ## §3  The invariant -/

/-- The IDs that the tree has room for and that `trnmnt_tree_acquire` accepts. -/
def ValidID (tr : TrnmntTree) (ID : ℤ) : Prop :=
  0 ≤ ID ∧ ID < 2 ^ tr.depth.toNat ∧ ID ≤ 16

/-- The nodes that thread `t` owns are those of the list. -/
def Config.Holds (c : Config T MutexId) (tr : TrnmntTree) (t : T) (L : List ℕ) :
    Prop :=
  ∀ i, i < tr.size → (c.owner (tr.mutex i) = some t ↔ i ∈ L)

/-- A thread that has stored its ID: it is inside, or about to return from
`trnmnt_tree_acquire`. -/
def Entered (ph : Phase) (x : Ctl MutexId) : Prop :=
  ph = .inside ∨ ph = .acquiring ∧ x = .run (.ret 0)

theorem Status.eq_path {ph : Phase} {x : Ctl MutexId} {L : List ℕ}
    (h : Status tr ID ph x L) (he : Entered ph x) : L = path (tr.leaf ID) := by
  rcases he with rfl | ⟨rfl, rfl⟩
  · cases h
    rfl
  · cases h
    rfl

/-- A thread that stores to `tid` owns its whole path. -/
theorem Status.store_eq_path {ph : Phase} {v : ℤ} {p : Prog MutexId} {L : List ℕ}
    (h : Status tr ID ph (.run (.store v p)) L) : L = path (tr.leaf ID) := by
  cases h <;> rfl

/-- A thread that has locked a node still has to store its ID. -/
theorem not_entered_above {i : ℕ} :
    ¬ Entered .acquiring (.run (acquireAbove tr ID i)) := by
  rintro (h | ⟨_, h⟩)
  · cases h
  · unfold acquireAbove at h
    by_cases hi : i = 0
    · rw [if_pos hi] at h
      cases h
    · obtain ⟨k, e, _⟩ := acquireFrom_eq tr ID ((i - 1) / 2)
      rw [if_neg hi, e] at h
      cases h

structure TreeInv (tr : TrnmntTree) (ID : T → ℤ) (σ : State T) : Prop where
  sound : σ.cfg.Sound
  status : ∀ t, ∃ L, Status tr (ID t) (σ.phase t) (σ.cfg.ctl t) L ∧
    Config.Holds σ.cfg tr t L
  tid : ∀ t, Entered (σ.phase t) (σ.cfg.ctl t) → σ.cfg.var = ID t

section Step

variable {c c' : Config T MutexId} {t u : T} {L : List ℕ} {i : ℕ}

theorem Config.Holds.congr (h : Config.Holds c tr t L) {L' : List ℕ}
    (ho : ∀ m, c'.owner m = some t ↔ c.owner m = some t)
    (hL : ∀ i, i ∈ L' ↔ i ∈ L) : Config.Holds c' tr t L' := by
  intro i hi
  rw [ho, hL]
  exact h i hi

variable (hw : tr.WellFormed)
include hw

/-- Thread `t` gets node `i`. -/
theorem Config.Holds.insert (h : Config.Holds c tr t L) (hi : i < tr.size) :
    Config.Holds (c.own (tr.mutex i) (some t)) tr t (L ++ [i]) := by
  intro j hj
  rw [List.mem_append, List.mem_singleton]
  by_cases hji : j = i
  · subst hji
    rw [Config.own_self]
    exact iff_of_true rfl (.inr rfl)
  · rw [Config.own_ne _ _ fun e => hji (hw.mutex_inj hj hi e), h j hj]
    exact ⟨.inl, fun h => h.resolve_right hji⟩

/-- Thread `t` gives node `i` away. -/
theorem Config.Holds.remove {o : Option T} (h : Config.Holds c tr t (i :: L))
    (hi : i < tr.size) (hL : i ∉ L) (ho : o ≠ some t) :
    Config.Holds (c.own (tr.mutex i) o) tr t L := by
  intro j hj
  by_cases hji : j = i
  · subst hji
    rw [Config.own_self]
    exact iff_of_false ho hL
  · rw [Config.own_ne _ _ fun e => hji (hw.mutex_inj hj hi e), h j hj, List.mem_cons]
    exact ⟨fun h => h.resolve_left hji, .inr⟩

variable {ID : T → ℤ} {σ : State T} (hID : ∀ t, ValidID tr (ID t))
include hID

omit [Fintype T] in
theorem path_lt_size (h : i ∈ path (tr.leaf (ID t))) : i < tr.size :=
  hw.path_lt (hID t).1 (hID t).2.1 h

/-- A thread with its whole path owns the root. -/
theorem Config.Holds.root (h : Config.Holds c tr t (path (tr.leaf (ID t)))) :
    c.owner (tr.mutex 0) = some t :=
  (h 0 (path_lt_size (t := t) hw hID (zero_mem_path _))).mpr (zero_mem_path _)

/-- The thread that acts. -/
theorem TreeInv.own_step (hI : TreeInv tr ID σ) (hm : Config.Move σ.cfg t c') :
    ∃ L, Status tr (ID t) (σ.phase t) (c'.ctl t) L ∧ Config.Holds c' tr t L ∧
      (Entered (σ.phase t) (c'.ctl t) → c'.var = ID t) := by
  obtain ⟨L, hst, hL⟩ := hI.status t
  generalize σ.phase t = ph at hst ⊢
  cases hm with
  | resume h =>
      rw [h] at hst
      rw [Config.goto_self]
      cases hst with
      | granted hp hk =>
          rw [hk]
          exact ⟨_, .of_acquireAbove hp, hL, fun he => absurd he not_entered_above⟩
  | store h =>
      rw [h] at hst
      show ∃ L, Status tr (ID t) ph ((σ.cfg.goto t _).ctl t) L ∧ _
      rw [Config.goto_self]
      cases hst with
      | top => exact ⟨_, .won, hL, fun _ => rfl⟩
      | leave hp =>
          rw [hp]
          refine ⟨_, .of_unlocks [] rfl, ?_, nofun⟩
          exact hL.congr (fun _ => Iff.rfl) fun i => List.mem_reverse
  | take h ho =>
      rw [h] at hst
      rw [Config.goto_self]
      cases hst with
      | @climb _ i _ hp hk =>
          have hi := path_lt_size hw hID (mem_of_climb hp)
          rw [hk]
          exact ⟨_, .of_acquireAbove hp, hL.insert hw hi, fun he =>
            absurd he not_entered_above⟩
  | refuse h ho =>
      -- the nodes that the thread owns are below this one
      rw [h] at hst
      cases hst with
      | @climb _ i _ hp hk =>
          have hmem := (hL i (path_lt_size hw hID (mem_of_climb hp))).mp ho
          exact absurd (lt_of_mem_before hp hmem) (lt_irrefl _)
  | block h =>
      rw [h] at hst
      rw [Config.goto_self]
      cases hst with
      | climb hp hk => exact ⟨_, .blocked hp hk, hL, nofun⟩
  | free h ho =>
      rw [h] at hst
      rw [Config.goto_self]
      cases hst with
      | @descend before js j _ hp hk =>
          obtain ⟨hj, hjs⟩ := mem_of_descend hp
          exact ⟨js, hk ▸ .of_unlocks (before ++ [j]) (by rw [hp]; simp),
            hL.remove hw (path_lt_size hw hID hj) hjs nofun, nofun⟩
  | @handOff _ _ _ u h ho hu =>
      have hut : u ≠ t := by
        rintro rfl
        rw [h] at hu
        cases hu
      rw [h] at hst
      rw [Config.goto_self]
      cases hst with
      | @descend before js j _ hp hk =>
          obtain ⟨hj, hjs⟩ := mem_of_descend hp
          exact ⟨js, hk ▸ .of_unlocks (before ++ [j]) (by rw [hp]; simp),
            hL.remove hw (path_lt_size hw hID hj) hjs fun e =>
              hut (Option.some.inj e), nofun⟩
  | reject h ho =>
      rw [h] at hst
      cases hst with
      | @descend before js j _ hp hk =>
          have hj := path_lt_size hw hID (mem_of_descend hp).1
          exact absurd ((hL j hj).mpr List.mem_cons_self) ho

/-- The other threads. -/
theorem TreeInv.other_step (hI : TreeInv tr ID σ) (hm : Config.Move σ.cfg t c')
    (hut : u ≠ t) :
    ∃ L, Status tr (ID u) (σ.phase u) (c'.ctl u) L ∧ Config.Holds c' tr u L := by
  obtain ⟨L, hst, hL⟩ := hI.status u
  rcases hm.other hut with ⟨hctl, ho⟩ | ⟨m, k, hctl, hctl', ho⟩
  · exact ⟨L, hctl ▸ hst, hL.congr ho fun _ => Iff.rfl⟩
  · -- the node that `u` waits for is handed to it
    rw [hctl] at hst
    rw [hctl']
    generalize σ.phase u = ph at hst ⊢
    cases hst with
    | blocked hp hk =>
        have hi := path_lt_size hw hID (mem_of_climb hp)
        exact ⟨_, .granted hp hk, (hL.insert hw hi).congr (fun m => by rw [ho])
          fun _ => Iff.rfl⟩

/-- `tid` is set by a thread that owns the root, as everybody does who has
entered. -/
theorem TreeInv.tid_step (hI : TreeInv tr ID σ) (hm : Config.Move σ.cfg t c')
    (hut : u ≠ t) (he : Entered (σ.phase u) (c'.ctl u)) : c'.var = ID u := by
  obtain ⟨L, hst, hL⟩ := hI.status u
  have hbefore : Entered (σ.phase u) (σ.cfg.ctl u) := by
    rcases hm.other hut with ⟨hctl, _⟩ | ⟨m, k, hctl, hctl', _⟩
    · exact hctl ▸ he
    · rw [hctl] at hst
      rcases he with he | ⟨_, he⟩
      · rw [he] at hst
        cases hst
      · rw [hctl'] at he
        cases he
  rcases hm.var_eq with hvar | ⟨v, p, hstore, _⟩
  · rw [hvar]
    exact hI.tid u hbefore
  · obtain ⟨L', hst', hL'⟩ := hI.status t
    rw [hstore] at hst'
    have hroot := Config.Holds.root hw hID (hst.eq_path hbefore ▸ hL)
    have hroot' := Config.Holds.root hw hID (hst'.store_eq_path ▸ hL')
    exact absurd (Option.some.inj (hroot.symm.trans hroot')) hut

theorem TreeInv.move (hI : TreeInv tr ID σ) (hm : Config.Move σ.cfg t c') :
    TreeInv tr ID { σ with cfg := c' } := by
  refine ⟨hI.sound.move hm, fun u => ?_, fun u he => ?_⟩
  · by_cases hut : u = t
    · subst hut
      obtain ⟨L, hst, hL, _⟩ := hI.own_step hw hID hm
      exact ⟨L, hst, hL⟩
    · have := hI.other_step hw hID hm hut
      exact this
  · by_cases hut : u = t
    · subst hut
      obtain ⟨_, _, _, htid⟩ := hI.own_step hw hID hm
      exact htid he
    · exact hI.tid_step hw hID hm hut he

omit hw hID in
/-- Thread `t` calls or returns. -/
theorem TreeInv.update {ph : Phase} {x : Ctl MutexId} (hI : TreeInv tr ID σ)
    (hs : (σ.cfg.goto t x).Sound) (hst : Status tr (ID t) ph x L)
    (hL : Config.Holds σ.cfg tr t L) (he : Entered ph x → σ.cfg.var = ID t) :
    TreeInv tr ID { cfg := σ.cfg.goto t x, phase := Function.update σ.phase t ph } := by
  refine ⟨hs, fun u => ?_, fun u hu => ?_⟩
  · by_cases hut : u = t
    · subst hut
      refine ⟨L, ?_, hL⟩
      dsimp only
      rwa [Config.goto_self, Function.update_self]
    · obtain ⟨L', hst', hL'⟩ := hI.status u
      refine ⟨L', ?_, hL'⟩
      dsimp only
      rwa [Config.goto_ne _ _ hut, Function.update_of_ne hut]
  · dsimp only at hu
    by_cases hut : u = t
    · subst hut
      rw [Config.goto_self, Function.update_self] at hu
      exact he hu
    · rw [Config.goto_ne _ _ hut, Function.update_of_ne hut] at hu
      exact hI.tid u hu

omit hw hID in
/-- A call that returns. -/
theorem TreeInv.enter {ph : Phase} {x : Ctl MutexId} (hI : TreeInv tr ID σ)
    (hx : σ.cfg.ctl t = x) (hst : Status tr (ID t) ph x L)
    (hL : Config.Holds σ.cfg tr t L) (he : Entered ph x → σ.cfg.var = ID t) :
    TreeInv tr ID (σ.enter t ph) := by
  have hself : σ.cfg.goto t x = σ.cfg := Config.goto_eq_self hx
  have := hI.update (hself.symm ▸ hI.sound) hst hL he
  rwa [hself] at this

theorem TreeInv.step {a : Action T} {σ' : State T} (hI : TreeInv tr ID σ)
    (h : σ.step tr ID a = some σ') : TreeInv tr ID σ' := by
  cases a with
  | acquire t =>
      obtain ⟨L, hst, hL⟩ := hI.status t
      obtain ⟨hph, e⟩ := Option.ite_none_right_eq_some.mp h
      cases e
      rw [hph] at hst
      generalize σ.cfg.ctl t = x at hst
      cases hst
      refine hI.update (hI.sound.goto_run _) ?_ hL ?_
      · rw [trnmntTreeAcquire_eq (hID t).1 (hID t).2.2]
        exact .of_acquireFrom rfl
      · rw [trnmntTreeAcquire_eq (hID t).1 (hID t).2.2]
        obtain ⟨k, e, _⟩ := acquireFrom_eq tr (ID t) (tr.leaf (ID t))
        rw [e]
        nofun
  | release t =>
      obtain ⟨L, hst, hL⟩ := hI.status t
      obtain ⟨hph, e⟩ := Option.ite_none_right_eq_some.mp h
      cases e
      rw [hph] at hst
      generalize σ.cfg.ctl t = x at hst
      cases hst
      refine hI.update (hI.sound.goto_run _) ?_ hL nofun
      rw [trnmntTreeRelease_eq (hID t).1 (hID t).2.2]
      exact .leave rfl
  | step t next =>
      obtain ⟨c', hc, rfl⟩ := Option.map_eq_some_iff.mp h
      exact hI.move hw hID (Config.step_move hc)
  | finish t =>
      obtain ⟨L, hst, hL⟩ := hI.status t
      unfold State.step at h
      dsimp only at h
      split at h
      case h_1 v hph hx =>
        cases h
        rw [hph, hx] at hst
        cases hst
        exact hI.enter hx (.inside 0) hL fun _ => hI.tid t (.inr ⟨hph, hx⟩)
      case h_2 v hph hx =>
        cases h
        rw [hph, hx] at hst
        cases hst
        exact hI.enter hx (.outside 0) hL nofun
      case h_3 => cases h

/-! ## §4  Releasing never waits -/

/-- An `unlock` of `trnmnt_tree_release` is accepted. -/
theorem TreeInv.exists_unlock (hI : TreeInv tr ID σ) (hph : σ.phase t = .releasing)
    {m : MutexId} {k : ℤ → Prog MutexId} (hx : σ.cfg.ctl t = .run (.unlock m k)) :
    ∃ σ', State.StepOf tr ID t σ σ' ∧ TreeInv tr ID σ' ∧ σ'.phase t = .releasing ∧
      σ'.cfg.ctl t = .run (k 0) := by
  obtain ⟨L, hst, hL⟩ := hI.status t
  rw [hph, hx] at hst
  have ho : σ.cfg.owner m = some t := by
    cases hst with
    | descend hp =>
        have hj := path_lt_size hw hID (mem_of_descend hp).1
        exact (hL _ hj).mpr List.mem_cons_self
  obtain ⟨next, c', hc, hx'⟩ := Config.exists_step_unlock hx ho
  have hstep : σ.step tr ID (.step t next) = some { σ with cfg := c' } :=
    Option.map_eq_some_iff.mpr ⟨c', hc, rfl⟩
  exact ⟨_, ⟨next, hstep⟩, hI.step hw hID hstep, hph, hx'⟩

theorem TreeInv.unlocks_return (js : List ℕ) : ∀ {σ : State T}, TreeInv tr ID σ →
    σ.phase t = .releasing → σ.cfg.ctl t = .run (unlocks tr js) →
    ∃ σ', Relation.ReflTransGen (State.StepOf tr ID t) σ σ' ∧
      σ'.cfg.ctl t = .run (.ret 0) := by
  induction js with
  | nil =>
      intro σ _ _ hx
      exact ⟨σ, .refl, hx⟩
  | cons j js ih =>
      intro σ hI hph hx
      obtain ⟨k, e, hk⟩ := unlocks_cons tr j js
      rw [e] at hx
      obtain ⟨σ₁, hs, hI₁, hph₁, hx₁⟩ := hI.exists_unlock hw hID hph hx
      obtain ⟨σ', hrun, hret⟩ := ih hI₁ hph₁ (hk ▸ hx₁)
      exact ⟨σ', .head hs hrun, hret⟩

/-- A thread that releases the tree returns 0 without waiting for anybody. -/
theorem TreeInv.release_returns (hI : TreeInv tr ID σ)
    (hph : σ.phase t = .releasing) :
    ∃ σ', Relation.ReflTransGen (State.StepOf tr ID t) σ σ' ∧
      σ'.cfg.ctl t = .run (.ret 0) := by
  obtain ⟨L, hst, _⟩ := hI.status t
  rw [hph] at hst
  cases hx : σ.cfg.ctl t with
  | blocked m k | granted m k =>
      rw [hx] at hst
      cases hst
  | run p =>
      rw [hx] at hst
      cases hst with
      | done => exact ⟨σ, .refl, hx⟩
      | @leave p hp =>
          have hstep : σ.step tr ID (.step t none) =
              some { σ with cfg := { σ.cfg.goto t (.run p) with var := -1 } } := by
            simp only [State.step, Config.step, hx, Option.map_some]
          have hx' : (σ.cfg.goto t (.run p)).ctl t =
              .run (unlocks tr (path (tr.leaf (ID t))).reverse) := by
            rw [Config.goto_self, hp]
          obtain ⟨σ', hrun, hret⟩ :=
            TreeInv.unlocks_return hw hID _ (hI.step hw hID hstep) hph hx'
          exact ⟨σ', .head ⟨none, hstep⟩ hrun, hret⟩
      | descend hp hk =>
          obtain ⟨σ₁, hs, hI₁, hph₁, hx₁⟩ := hI.exists_unlock hw hID hph hx
          obtain ⟨σ', hrun, hret⟩ :=
            TreeInv.unlocks_return hw hID _ hI₁ hph₁ (hk ▸ hx₁)
          exact ⟨σ', .head hs hrun, hret⟩

end Step

/-! ## §5  The tree is a lock -/

section Reach

variable {ID : T → ℤ} {σ : State T}

theorem State.Initial.treeInv (h : State.Initial tr σ) : TreeInv tr ID σ := by
  refine ⟨⟨?_, ?_⟩, fun t => ⟨[], ?_, fun i hi => ?_⟩, fun t he => ?_⟩
  · intro t m k hx
    rw [h.ctl] at hx
    cases hx
  · intro t m k hx
    rw [h.ctl] at hx
    cases hx
  · rw [h.phase, h.ctl]
    exact .outside 0
  · rw [h.owner i hi]
    exact iff_of_false nofun List.not_mem_nil
  · rw [h.phase] at he
    rcases he with he | ⟨he, _⟩ <;> cases he

theorem treeInv_of_reach (hw : tr.WellFormed) (hID : ∀ t, ValidID tr (ID t))
    (h : (treeSystem tr ID).Reach Lib.System.anyStep σ) : TreeInv tr ID σ :=
  h.invariant (I := TreeInv tr ID) (fun _ hi => State.Initial.treeInv hi)
    fun _ _ _ hI _ hs => hI.step hw hID hs

variable {depth : ℤ} {a : MutexFlags}

/-- The tournament tree is a lock. At most one thread is inside, every call that
returns returns 0 and a release always does, `tid` is the ID of the thread inside,
and when nobody uses the tree none of its mutexes is locked. -/
theorem tournament_lock (htr : (trnmntTreeAlloc depth a).1 = some tr)
    (hID : ∀ t, 0 ≤ ID t ∧ ID t < 2 ^ depth.toNat ∧ ID t ≤ 16)
    (h : (treeSystem tr ID).Reach Lib.System.anyStep σ) :
    (∀ t u, σ.phase t = .inside → σ.phase u = .inside → t = u) ∧
    (∀ t v, σ.phase t = .acquiring ∨ σ.phase t = .releasing →
      σ.cfg.ctl t = .run (.ret v) → v = 0) ∧
    (∀ t, σ.phase t = .releasing →
      ∃ σ', Relation.ReflTransGen (State.StepOf tr ID t) σ σ' ∧
        σ'.cfg.ctl t = .run (.ret 0)) ∧
    (∀ t, σ.phase t = .inside → σ.trnmntTreeTid = ID t) ∧
    ((∀ t, σ.phase t = .outside) → ∀ m ∈ tr.tree, σ.cfg.owner m = none) := by
  obtain ⟨hw, rfl⟩ := trnmntTreeAlloc_wellFormed htr
  have hI := treeInv_of_reach hw hID h
  refine ⟨fun t u ht hu => ?_, fun t v hph hx => ?_, fun t => hI.release_returns hw hID,
    fun t ht => hI.tid t (.inl ht), fun hall m hm => ?_⟩
  · -- both own the root
    obtain ⟨L, hst, hL⟩ := hI.status t
    obtain ⟨L', hst', hL'⟩ := hI.status u
    have hroot := Config.Holds.root hw hID (hst.eq_path (.inl ht) ▸ hL)
    have hroot' := Config.Holds.root hw hID (hst'.eq_path (.inl hu) ▸ hL')
    exact Option.some.inj (hroot.symm.trans hroot')
  · obtain ⟨L, hst, _⟩ := hI.status t
    rw [hx] at hst
    rcases hph with hph | hph
    · rw [hph] at hst
      cases hst
      rfl
    · rw [hph] at hst
      cases hst
      rfl
  · cases ho : σ.cfg.owner m with
    | none => rfl
    | some t =>
        obtain ⟨i, hi, rfl⟩ := hw.exists_mutex hm
        obtain ⟨L, hst, hL⟩ := hI.status t
        rw [hall t] at hst
        have hmem := (hL i hi).mp ho
        generalize σ.cfg.ctl t = x at hst
        cases hst
        cases hmem

/-! Three threads on the tree of three nodes: 0 and 1 share a leaf, 2 has the
other one. -/

def smallTree : TrnmntTree := { depth := 2, tree := [0, 1, 2], size := 3 }

theorem smallTree_alloc :
    (trnmntTreeAlloc 2 fun _ => false).1 = some smallTree := rfl

def smallStart : State (Fin 3) where
  cfg := { owner := fun _ => none, var := 0, ctl := fun _ => .run (.ret 0) }
  phase := fun _ => .outside

/-- Thread 0 is inside, 1 waits for it at their leaf and 2 at the root. -/
def queueRun : List (Action (Fin 3)) :=
  [.acquire 0, .step 0 none, .step 0 none, .step 0 none, .finish 0,
    .acquire 1, .step 1 none, .acquire 2, .step 2 none, .step 2 none]

/-- Thread 0 leaves and hands its nodes on. -/
def handRun : List (Action (Fin 3)) :=
  queueRun ++ [Action.release 0, .step 0 none, .step 0 (some 2), .step 0 (some 1), .finish 0,
    .step 2 none, .step 2 none, .finish 2, .step 1 none, .step 1 none]

def smallID (t : Fin 3) : ℤ := t.val

theorem smallID_valid (t : Fin 3) :
    0 ≤ smallID t ∧ smallID t < 2 ^ (2 : ℤ).toNat ∧ smallID t ≤ 16 := by
  revert t
  decide

theorem smallTree_reach (as : List (Action (Fin 3))) (P : State (Fin 3) → Prop)
    [DecidablePred P]
    (h : ((treeSystem smallTree smallID).exec Lib.System.anyStep smallStart as).any
      (fun σ => decide (P σ)) = true) :
    ∃ σ, (treeSystem smallTree smallID).Reach Lib.System.anyStep σ ∧ P σ :=
  Lib.System.exec_reach ⟨fun _ => rfl, fun _ => rfl, fun _ _ => rfl⟩ h

theorem tournament_lock_handed :
    ∃ σ, (treeSystem smallTree smallID).Reach Lib.System.anyStep σ ∧
      σ.phase 2 = .inside ∧ σ.trnmntTreeTid = 2 ∧
      ∀ t, σ.phase t = .inside → t = 2 := by
  obtain ⟨σ, hr, hph⟩ :=
    smallTree_reach handRun (fun σ => σ.phase 2 = .inside) (by decide +kernel)
  obtain ⟨hone, _, _, htid, _⟩ := tournament_lock smallTree_alloc smallID_valid hr
  exact ⟨σ, hr, hph, htid 2 hph, fun t ht => hone t 2 ht hph⟩

/-! ## §6  The tree does not deadlock -/

/-- A blocked thread waits for a node that is nearer to the root than all the ones
it owns. -/
theorem TreeInv.waits_above (hw : tr.WellFormed) (hID : ∀ t, ValidID tr (ID t))
    (hI : TreeInv tr ID σ) {t : T} {m : MutexId}
    (hm : (σ.cfg.ctl t).waitsFor = some m) :
    ∃ i, i < tr.size ∧ tr.mutex i = m ∧
      ∀ j, j < tr.size → σ.cfg.owner (tr.mutex j) = some t → i < j := by
  obtain ⟨L, hst, hL⟩ := hI.status t
  cases hx : σ.cfg.ctl t with
  | run | granted =>
      rw [hx] at hm
      cases hm
  | blocked m' k =>
      rw [hx] at hm hst
      cases hm
      generalize σ.phase t = ph at hst
      cases hst with
      | @blocked pre i _ hp _ =>
          refine ⟨i, path_lt_size hw hID (mem_of_climb hp), rfl, fun j hj ho => ?_⟩
          exact lt_of_mem_before hp ((hL j hj).mp ho)

theorem TreeInv.ranked (hw : tr.WellFormed) (hID : ∀ t, ValidID tr (ID t))
    (hI : TreeInv tr ID σ) : σ.cfg.Ranked tr.tree.idxOf := by
  intro t u m m' hm hm' ho
  dsimp only
  obtain ⟨i, hi, rfl, hbelow⟩ := hI.waits_above hw hID hm
  obtain ⟨j, hj, rfl, _⟩ := hI.waits_above hw hID hm'
  rw [hw.idxOf_mutex hi, hw.idxOf_mutex hj]
  exact hbelow j hj ho

/-- The tournament tree cannot deadlock: no threads wait for each other in a
circle, and when one is blocked, a thread that is not owns a mutex of the tree. -/
theorem tournament_no_deadlock (htr : (trnmntTreeAlloc depth a).1 = some tr)
    (hID : ∀ t, 0 ≤ ID t ∧ ID t < 2 ^ depth.toNat ∧ ID t ≤ 16)
    (h : (treeSystem tr ID).Reach Lib.System.anyStep σ) :
    (∀ t, ¬ Relation.TransGen σ.cfg.WaitsFor t t) ∧
    ∀ t m, (σ.cfg.ctl t).waitsFor = some m →
      ∃ u, (σ.cfg.ctl u).waitsFor = none ∧ ∃ m' ∈ tr.tree, σ.cfg.owner m' = some u := by
  obtain ⟨hw, rfl⟩ := trnmntTreeAlloc_wellFormed htr
  have hI := treeInv_of_reach hw hID h
  have hrank := hI.ranked hw hID
  refine ⟨fun t => Config.acyclic_of_rank hrank, fun t m hm => ?_⟩
  obtain ⟨u, v, m', hv, ho, hu⟩ := Config.exists_unblocked_owner hrank hI.sound hm
  obtain ⟨i, hi, rfl, _⟩ := hI.waits_above hw hID hv
  exact ⟨u, hu, _, hw.mutex_mem hi, ho⟩

theorem tournament_no_deadlock_queue :
    ∃ σ, (treeSystem smallTree smallID).Reach Lib.System.anyStep σ ∧
      (σ.cfg.ctl 1).waitsFor = some 1 ∧ (σ.cfg.ctl 2).waitsFor = some 0 ∧
      (∀ t, ¬ Relation.TransGen σ.cfg.WaitsFor t t) ∧
      ∃ u, (σ.cfg.ctl u).waitsFor = none ∧
        ∃ m ∈ smallTree.tree, σ.cfg.owner m = some u := by
  obtain ⟨σ, hr, h₁, h₂⟩ := smallTree_reach queueRun
    (fun σ => (σ.cfg.ctl 1).waitsFor = some 1 ∧ (σ.cfg.ctl 2).waitsFor = some 0)
    (by decide +kernel)
  obtain ⟨hacyclic, howner⟩ := tournament_no_deadlock smallTree_alloc smallID_valid hr
  exact ⟨σ, hr, h₁, h₂, hacyclic, howner 1 _ h₁⟩

end Reach

end Xv6.User
