import Mathlib.Data.Fintype.Basic
import Mathlib.Data.Int.Notation
import Mathlib.Logic.Relation

/-!
# Programs over hand-off locks

Threads run programs that lock and unlock mutexes and store into one shared
variable. A lock has an owner. `lock` by the owner and `unlock` by anybody else
return `-1`; `lock` of a lock with another owner blocks; `unlock` hands the lock to
one of the threads that are blocked on it, any of them, and frees it if there is
none. A thread that was handed a lock is its owner at once, and returns from
`lock` when it is next scheduled.

* `Config.step` executes one operation, `Config.Move` inverts it.
* `Config.Sound`: the owner of a lock that somebody waits for is another thread,
  and a thread that was handed a lock owns it.
* `Config.acyclic_of_rank`, `Config.exists_unblocked_owner`: threads that ask for
  locks in the order of a rank do not wait for each other in a circle, and if one
  is blocked, an owner of a lock is not.
-/

set_option linter.unusedSectionVars false

namespace Xv6.Lib.HandOff

variable {T M : Type} [DecidableEq T] [DecidableEq M]

/-! ## Programs -/

/-- A program over locks `M` and one shared variable. -/
inductive Prog (M : Type) where
  | ret (v : ℤ)
  | lock (m : M) (k : ℤ → Prog M)
  | unlock (m : M) (k : ℤ → Prog M)
  | store (v : ℤ) (k : Prog M)

/-- A call, and what is done with its result. -/
def Prog.bind : Prog M → (ℤ → Prog M) → Prog M
  | .ret v, f => f v
  | .lock m k, f => .lock m fun v => (k v).bind f
  | .unlock m k, f => .unlock m fun v => (k v).bind f
  | .store v k, f => .store v (k.bind f)

/-- Where a thread is in its program: at an operation, asleep in `lock`, or about
to return from a `lock` that was handed to it. -/
inductive Ctl (M : Type) where
  | run (p : Prog M)
  | blocked (m : M) (k : ℤ → Prog M)
  | granted (m : M) (k : ℤ → Prog M)

def Ctl.waitsFor : Ctl M → Option M
  | .blocked m _ => some m
  | _ => none

/-! ## Execution -/

structure Config (T M : Type) where
  owner : M → Option T
  var : ℤ
  ctl : T → Ctl M

namespace Config

def goto (c : Config T M) (t : T) (x : Ctl M) : Config T M :=
  { c with ctl := Function.update c.ctl t x }

def own (c : Config T M) (m : M) (o : Option T) : Config T M :=
  { c with owner := Function.update c.owner m o }

section Update

variable (c : Config T M) (t u : T) (x : Ctl M) (m : M) (o : Option T)

@[simp] theorem goto_owner : (c.goto t x).owner = c.owner := rfl
@[simp] theorem goto_var : (c.goto t x).var = c.var := rfl
@[simp] theorem goto_self : (c.goto t x).ctl t = x := Function.update_self ..
@[simp] theorem own_ctl : (c.own m o).ctl = c.ctl := rfl
@[simp] theorem own_var : (c.own m o).var = c.var := rfl
@[simp] theorem own_self : (c.own m o).owner m = o := Function.update_self ..

theorem goto_ne {u t : T} (h : u ≠ t) : (c.goto t x).ctl u = c.ctl u :=
  Function.update_of_ne h ..

theorem goto_eq_self {c : Config T M} {t : T} {x : Ctl M} (h : c.ctl t = x) :
    c.goto t x = c := by
  subst h
  exact congrArg (fun f => { c with ctl := f }) (Function.update_eq_self t c.ctl)

theorem own_ne {m m' : M} (h : m' ≠ m) : (c.own m o).owner m' = c.owner m' :=
  Function.update_of_ne h ..

/-- Somebody else's lock changes hands. -/
theorem owner_own_iff {c : Config T M} {t : T} {m : M} {o : Option T}
    (ho : o ≠ some t) (hm : c.owner m ≠ some t) (m' : M) :
    (c.own m o).owner m' = some t ↔ c.owner m' = some t := by
  by_cases h : m' = m
  · subst h
    rw [own_self]
    exact iff_of_false ho hm
  · rw [own_ne _ _ h]

end Update

/-- One operation of thread `t`. An `unlock` hands the lock to `next`, who must be
waiting for it; `next` is `none` if nobody is. -/
def step [Fintype T] (c : Config T M) (t : T) (next : Option T) :
    Option (Config T M) :=
  match c.ctl t with
  | .run (.ret _) | .blocked _ _ => none
  | .granted _ k => some (c.goto t (.run (k 0)))
  | .run (.store v p) => some { c.goto t (.run p) with var := v }
  | .run (.lock m k) =>
      match c.owner m with
      | none => some ((c.own m (some t)).goto t (.run (k 0)))
      | some u =>
          some (c.goto t (if u = t then .run (k (-1)) else .blocked m k))
  | .run (.unlock m k) =>
      if c.owner m = some t then
        match next with
        | some u =>
            match c.ctl u with
            | .blocked m' k' =>
                if m' = m then
                  some (((c.own m (some u)).goto u (.granted m k')).goto t
                    (.run (k 0)))
                else none
            | _ => none
        | none =>
            if ∀ u, (c.ctl u).waitsFor ≠ some m then
              some ((c.own m none).goto t (.run (k 0)))
            else none
      else some (c.goto t (.run (k (-1))))

variable {c c' : Config T M} {t u : T} {m : M}

/-- What `step` can do. -/
inductive Move (c : Config T M) (t : T) : Config T M → Prop
  | resume {m : M} {k : ℤ → Prog M} (h : c.ctl t = .granted m k) :
      Move c t (c.goto t (.run (k 0)))
  | store {v : ℤ} {p : Prog M} (h : c.ctl t = .run (.store v p)) :
      Move c t { c.goto t (.run p) with var := v }
  | take {m : M} {k : ℤ → Prog M} (h : c.ctl t = .run (.lock m k))
      (ho : c.owner m = none) :
      Move c t ((c.own m (some t)).goto t (.run (k 0)))
  | refuse {m : M} {k : ℤ → Prog M} (h : c.ctl t = .run (.lock m k))
      (ho : c.owner m = some t) : Move c t (c.goto t (.run (k (-1))))
  | block {m : M} {k : ℤ → Prog M} {u : T} (h : c.ctl t = .run (.lock m k))
      (ho : c.owner m = some u) (hu : u ≠ t) : Move c t (c.goto t (.blocked m k))
  | free {m : M} {k : ℤ → Prog M} (h : c.ctl t = .run (.unlock m k))
      (ho : c.owner m = some t) (hw : ∀ u, (c.ctl u).waitsFor ≠ some m) :
      Move c t ((c.own m none).goto t (.run (k 0)))
  | handOff {m : M} {k k' : ℤ → Prog M} {u : T}
      (h : c.ctl t = .run (.unlock m k)) (ho : c.owner m = some t)
      (hu : c.ctl u = .blocked m k') :
      Move c t (((c.own m (some u)).goto u (.granted m k')).goto t (.run (k 0)))
  | reject {m : M} {k : ℤ → Prog M} (h : c.ctl t = .run (.unlock m k))
      (ho : c.owner m ≠ some t) : Move c t (c.goto t (.run (k (-1))))

theorem step_move [Fintype T] {next : Option T} (h : c.step t next = some c') :
    Move c t c' := by
  unfold step at h
  split at h
  case h_1 | h_2 => cases h
  case h_3 hc =>
    cases h
    exact .resume hc
  case h_4 hc =>
    cases h
    exact .store hc
  case h_5 m k hc =>
    split at h
    case h_1 ho =>
      cases h
      exact .take hc ho
    case h_2 u ho =>
      cases h
      by_cases hu : u = t
      · rw [if_pos hu]
        subst hu
        exact .refuse hc ho
      · rw [if_neg hu]
        exact .block hc ho hu
  case h_6 m k hc =>
    split at h
    case isFalse ho =>
      cases h
      exact .reject hc ho
    case isTrue ho =>
      split at h
      case h_1 u =>
        split at h
        case h_2 => cases h
        case h_1 m' k' hu =>
          split at h
          case isFalse => cases h
          case isTrue hm =>
            cases h
            subst hm
            exact .handOff hc ho hu
      case h_2 =>
        split at h
        case isFalse => cases h
        case isTrue hw =>
          cases h
          exact .free hc ho hw

/-- A step of `t` leaves another thread where it is, unless it hands a lock to it. -/
theorem Move.other (hm : Move c t c') (hut : u ≠ t) :
    (c'.ctl u = c.ctl u ∧ ∀ m, c'.owner m = some u ↔ c.owner m = some u) ∨
    ∃ m k, c.ctl u = .blocked m k ∧ c'.ctl u = .granted m k ∧
      c'.owner = (c.own m (some u)).owner := by
  cases hm with
  | resume | refuse | block | reject =>
      exact .inl ⟨goto_ne _ _ hut, fun _ => Iff.rfl⟩
  | store => exact .inl ⟨goto_ne _ _ hut, fun _ => Iff.rfl⟩
  | take _ ho =>
      refine .inl ⟨goto_ne _ _ hut, owner_own_iff ?_ ?_⟩
      · exact fun e => hut (Option.some.inj e).symm
      · rw [ho]
        nofun
  | free _ ho =>
      refine .inl ⟨goto_ne _ _ hut, owner_own_iff nofun ?_⟩
      rw [ho]
      exact fun e => hut (Option.some.inj e).symm
  | @handOff m k k' v h ho hv =>
      by_cases huv : u = v
      · subst huv
        refine .inr ⟨m, k', hv, ?_, rfl⟩
        rw [goto_ne _ _ hut, goto_self]
      · refine .inl ⟨?_, owner_own_iff ?_ ?_⟩
        · rw [goto_ne _ _ hut, goto_ne _ _ huv, own_ctl]
        · exact fun e => huv (Option.some.inj e).symm
        · rw [ho]
          exact fun e => hut (Option.some.inj e).symm

/-- Only a store changes the variable. -/
theorem Move.var_eq (hm : Move c t c') :
    c'.var = c.var ∨ ∃ v p, c.ctl t = .run (.store v p) ∧ c'.var = v := by
  cases hm with
  | store h => exact .inr ⟨_, _, h, rfl⟩
  | _ => exact .inl rfl

/-- The owner of a lock can always unlock it. -/
theorem exists_step_unlock [Fintype T] {k : ℤ → Prog M}
    (h : c.ctl t = .run (.unlock m k)) (ho : c.owner m = some t) :
    ∃ next c', c.step t next = some c' ∧ c'.ctl t = .run (k 0) := by
  by_cases hw : ∃ u, (c.ctl u).waitsFor = some m
  · obtain ⟨u, hu⟩ := hw
    cases hc : c.ctl u with
    | run | granted =>
        rw [hc] at hu
        cases hu
    | blocked m' k' =>
        rw [hc] at hu
        cases hu
        refine ⟨some u, ((c.own m (some u)).goto u (.granted m k')).goto t (.run (k 0)),
          ?_, goto_self ..⟩
        simp only [step, h, ho, hc, if_true]
  · refine ⟨none, (c.own m none).goto t (.run (k 0)), ?_, goto_self ..⟩
    simp only [step, h, ho, if_true]
    exact if_pos fun u hu => hw ⟨u, hu⟩

/-! ## Owners and waiters -/

/-- Waiting threads wait for others, and a lock that was handed on is owned. -/
structure Sound (c : Config T M) : Prop where
  blocked : ∀ {t m k}, c.ctl t = .blocked m k → ∃ u, u ≠ t ∧ c.owner m = some u
  granted : ∀ {t m k}, c.ctl t = .granted m k → c.owner m = some t

/-- A thread at an operation starts another one. -/
theorem Sound.goto_run (h : c.Sound) (p : Prog M) : (c.goto t (.run p)).Sound := by
  constructor
  · intro u m k hu
    by_cases hut : u = t
    · rw [hut, goto_self] at hu
      cases hu
    · rw [goto_ne _ _ hut] at hu
      exact h.blocked hu
  · intro u m k hu
    by_cases hut : u = t
    · rw [hut, goto_self] at hu
      cases hu
    · rw [goto_ne _ _ hut] at hu
      exact h.granted hu

/-- The owner of lock `m` changes, and everybody who waits for it waits for the
new owner. -/
theorem Sound.own (h : c.Sound) {o : Option T}
    (hb : ∀ {t k}, c.ctl t = .blocked m k → ∃ u, u ≠ t ∧ o = some u)
    (hg : ∀ {t k}, c.ctl t = .granted m k → o = some t) : (c.own m o).Sound := by
  constructor
  · intro t m' k ht
    rw [own_ctl] at ht
    by_cases hm : m' = m
    · subst hm
      rw [own_self]
      exact hb ht
    · rw [own_ne _ _ hm]
      exact h.blocked ht
  · intro t m' k ht
    rw [own_ctl] at ht
    by_cases hm : m' = m
    · subst hm
      rw [own_self]
      exact hg ht
    · rw [own_ne _ _ hm]
      exact h.granted ht

theorem Sound.move (h : c.Sound) (hm : Move c t c') : c'.Sound := by
  cases hm with
  | resume | refuse | reject => exact h.goto_run _
  | store =>
      have := h.goto_run (t := t)
      exact ⟨(this _).blocked, (this _).granted⟩
  | take _ ho =>
      refine (h.own (fun hb => ?_) fun hg => ?_).goto_run _
      · obtain ⟨u, _, hu⟩ := h.blocked hb
        rw [ho] at hu
        cases hu
      · rw [h.granted hg] at ho
        cases ho
  | @block m k u ht ho hu =>
      constructor
      · intro v m' k' hv
        rw [goto_owner]
        by_cases hvt : v = t
        · subst hvt
          rw [goto_self] at hv
          cases hv
          exact ⟨u, hu, ho⟩
        · rw [goto_ne _ _ hvt] at hv
          exact h.blocked hv
      · intro v m' k' hv
        by_cases hvt : v = t
        · subst hvt
          rw [goto_self] at hv
          cases hv
        · rw [goto_ne _ _ hvt] at hv
          exact h.granted hv
  | @free m k ht ho hw =>
      refine (h.own (fun {v _} hb => ?_) fun {v _} hg => ?_).goto_run _
      · exact absurd (by rw [hb]; rfl) (hw v)
      · -- the owner is at its `unlock`, so the lock was not handed to anybody
        rw [h.granted hg] at ho
        cases ho
        rw [ht] at hg
        cases hg
  | @handOff m k k' u ht ho hu =>
      -- the new owner no longer waits, the others wait for it
      refine Sound.goto_run ?_ _
      constructor
      · intro v m' k'' hv
        by_cases hvu : v = u
        · subst hvu
          rw [goto_self] at hv
          cases hv
        · rw [goto_ne _ _ hvu, own_ctl] at hv
          rw [goto_owner]
          by_cases hmm : m' = m
          · subst hmm
            exact ⟨u, fun e => hvu e.symm, own_self ..⟩
          · rw [own_ne _ _ hmm]
            exact h.blocked hv
      · intro v m' k'' hv
        rw [goto_owner]
        by_cases hvu : v = u
        · subst hvu
          rw [goto_self] at hv
          cases hv
          exact own_self ..
        · rw [goto_ne _ _ hvu, own_ctl] at hv
          have hown := h.granted hv
          by_cases hmm : m' = m
          · subst hmm
            rw [ho] at hown
            cases hown
            rw [ht] at hv
            cases hv
          · rw [own_ne _ _ hmm]
            exact hown

/-! ## Waiting in a circle -/

/-- Thread `t` is blocked on a lock that thread `u` owns. -/
def WaitsFor (c : Config T M) (t u : T) : Prop :=
  ∃ m, (c.ctl t).waitsFor = some m ∧ c.owner m = some u

/-- Of the locks that somebody waits for, a blocked thread owns only ones of a
higher rank than the one it waits for itself. -/
def Ranked (c : Config T M) (rank : M → ℕ) : Prop :=
  ∀ t u m m', (c.ctl t).waitsFor = some m → (c.ctl u).waitsFor = some m' →
    c.owner m' = some t → rank m < rank m'

theorem acyclic_of_rank {rank : M → ℕ} (h : c.Ranked rank) :
    ¬ Relation.TransGen c.WaitsFor t t := by
  -- along a chain the rank of what is waited for goes down
  have hchain : ∀ {t u : T}, Relation.TransGen c.WaitsFor t u → ∀ {m m' : M},
      (c.ctl t).waitsFor = some m → (c.ctl u).waitsFor = some m' →
      rank m' < rank m := by
    intro t u htu
    induction htu with
    | single hw =>
        intro m m' hm hm'
        obtain ⟨m₁, hm₁, ho⟩ := hw
        obtain rfl : m = m₁ := Option.some.inj (hm.symm.trans hm₁)
        exact h _ _ _ _ hm' hm ho
    | tail _ hw ih =>
        intro m m' hm hm'
        obtain ⟨m₁, hm₁, ho⟩ := hw
        exact (h _ _ _ _ hm' hm₁ ho).trans (ih hm hm₁)
  intro hcyc
  obtain ⟨u, ⟨m, hm, _⟩, _⟩ := Relation.TransGen.head'_iff.mp hcyc
  exact absurd (hchain hcyc hm hm) (lt_irrefl _)

theorem exists_unblocked_owner {rank : M → ℕ} (h : c.Ranked rank) (hs : c.Sound)
    (hm : (c.ctl t).waitsFor = some m) :
    ∃ u v m', (c.ctl v).waitsFor = some m' ∧ c.owner m' = some u ∧
      (c.ctl u).waitsFor = none := by
  -- follow the owners, on the rank of the lock that is waited for
  induction hn : rank m using Nat.strong_induction_on generalizing t m with
  | _ n ih =>
      obtain ⟨u, ho⟩ : ∃ u, c.owner m = some u := by
        cases hc : c.ctl t with
        | blocked m' k =>
            rw [hc] at hm
            cases hm
            obtain ⟨u, _, ho⟩ := hs.blocked hc
            exact ⟨u, ho⟩
        | run | granted =>
            rw [hc] at hm
            cases hm
      cases hu : (c.ctl u).waitsFor with
      | none => exact ⟨u, t, m, hm, ho, hu⟩
      | some m' => exact ih (rank m') (hn ▸ h _ _ _ _ hu hm ho) hu rfl

end Config

end Xv6.Lib.HandOff
