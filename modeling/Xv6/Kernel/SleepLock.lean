import Mathlib.Data.Fintype.Basic
import Mathlib.Tactic.SplitIfs
import Xv6.Lib.Transition

/-!
# Who holds a sleeplock

`acquiresleep`, `releasesleep` and `holdingsleep` of sleeplock.c, one step for each access to a
field of a lock, for any threads and any locks. `pid` gives the process of each thread, and
several threads may belong to one process. The lock records the process of its holder, so
`holdingsleep` cannot tell a thread from another one of its process.
-/

set_option linter.unusedSectionVars false

namespace Xv6.SleepLock

open Xv6.Lib

/-! ## §1  The functions -/

/-- The functions that panic if `holdingsleep` returns 0. -/
inductive Check where
  | iunlock
  | brelse
  | bwrite
  | iderw
deriving DecidableEq, Repr

/-- `iunlock` and `brelse` go on to `releasesleep`. -/
def Check.releases : Check → Bool
  | .iunlock | .brelse => true
  | .bwrite | .iderw => false

/-- Where a thread is. -/
inductive Pc (L : Type) where
  | out
  -- `acquiresleep`
  | acquire (l : L)       -- `acquire(&lk->lk)`, also in `sleep`
  | test (l : L)          -- `while (lk->locked)`
  | asleep (l : L)        -- `sleep(lk, &lk->lk)`
  | setLocked (l : L)     -- `lk->locked = 1`
  | setPid (l : L)        -- `lk->pid = myproc()->pid`
  | acquired (l : L)      -- `release(&lk->lk)`
  -- `releasesleep`
  | release (l : L)       -- `acquire(&lk->lk)`
  | clearLocked (l : L)   -- `lk->locked = 0`
  | clearPid (l : L)      -- `lk->pid = 0`
  | wakeup (l : L)        -- `wakeup(lk)`
  | released (l : L)      -- `release(&lk->lk)`
  -- `holdingsleep`
  | holding (c : Check) (l : L)             -- `acquire(&lk->lk)`
  | compare (c : Check) (l : L)             -- `r = lk->locked && (lk->pid == myproc()->pid)`
  | compared (c : Check) (l : L) (r : Bool) -- `release(&lk->lk)`
  | returned (c : Check) (l : L) (r : Bool) -- back in the caller
  | panicked (c : Check) (l : L)
deriving DecidableEq, Repr

/-- The thread has the spinlock of `l`. -/
def Pc.Inside {L : Type} (l : L) : Pc L → Prop
  | .test k | .setLocked k | .setPid k | .acquired k | .clearLocked k | .clearPid k | .wakeup k
  | .released k | .compare _ k | .compared _ k _ => k = l
  | _ => False

/-- `struct sleeplock`; `lk` is the thread that has the spinlock. -/
structure Lock (T : Type) where
  lk : Option T
  locked : Bool
  pid : ℕ
deriving DecidableEq, Repr

/-- `has` is a history variable: the locks that each thread has acquired and not released. -/
structure State (T L : Type) where
  lock : L → Lock T
  pc : T → Pc L
  has : T → L → Bool

inductive Act (T L : Type) where
  | acquiresleep (t : T) (l : L)
  | releasesleep (t : T) (l : L)
  | check (t : T) (c : Check) (l : L)
  | run (t : T)
  | kill (t : T)          -- `kill` wakes a thread that sleeps
deriving DecidableEq, Repr

variable {T L : Type} [DecidableEq T] [DecidableEq L]

namespace State

def goto (s : State T L) (t : T) (p : Pc L) : State T L :=
  { s with pc := Function.update s.pc t p }

def setLock (s : State T L) (l : L) (f : Lock T → Lock T) : State T L :=
  { s with lock := Function.update s.lock l (f (s.lock l)) }

def setHas (s : State T L) (t : T) (l : L) (b : Bool) : State T L :=
  { s with has := Function.update s.has t (Function.update (s.has t) l b) }

/-- `acquire(&lk->lk)`, where nobody else has it. -/
def lockSpin (s : State T L) (t : T) (l : L) (p : Pc L) : Option (State T L) :=
  if (s.lock l).lk = none then
    some ((s.setLock l fun k => { k with lk := some t }).goto t p)
  else none

/-- `release(&lk->lk)` -/
def unlockSpin (s : State T L) (t : T) (l : L) (p : Pc L) : State T L :=
  (s.setLock l fun k => { k with lk := none }).goto t p

/-- `wakeup(lk)`: those who sleep will go on to `acquire(lk)` in `sleep`. -/
def wakeup (s : State T L) (l : L) : State T L :=
  { s with pc := fun t => if s.pc t = .asleep l then .acquire l else s.pc t }

/-- The next step of a thread inside one of the functions. -/
def run (pid : T → ℕ) (s : State T L) (t : T) : Option (State T L) :=
  match s.pc t with
  | .acquire l => s.lockSpin t l (.test l)
  | .test l =>
      -- `sleep` marks the thread before it releases `lk`, with `ptable.lock` held
      if (s.lock l).locked then some (s.unlockSpin t l (.asleep l))
      else some (s.goto t (.setLocked l))
  | .setLocked l =>
      some (((s.setLock l fun k => { k with locked := true }).setHas t l true).goto t (.setPid l))
  | .setPid l => some ((s.setLock l fun k => { k with pid := pid t }).goto t (.acquired l))
  | .acquired l => some (s.unlockSpin t l .out)
  | .release l => s.lockSpin t l (.clearLocked l)
  | .clearLocked l =>
      some (((s.setLock l fun k => { k with locked := false }).setHas t l false).goto t
        (.clearPid l))
  | .clearPid l => some ((s.setLock l fun k => { k with pid := 0 }).goto t (.wakeup l))
  | .wakeup l => some ((s.wakeup l).goto t (.released l))
  | .released l => some (s.unlockSpin t l .out)
  | .holding c l => s.lockSpin t l (.compare c l)
  | .compare c l =>
      some (s.goto t (.compared c l ((s.lock l).locked && (s.lock l).pid == pid t)))
  | .compared c l r => some (s.unlockSpin t l (.returned c l r))
  | .returned c l r =>
      if r then some (s.goto t (if c.releases then .release l else .out))
      else some (s.goto t (.panicked c l))
  | .out | .asleep _ | .panicked _ _ => none

end State

/-- Any thread may acquire any lock and make any check at any time. Besides `iunlock` and
`brelse` it is `iput` that releases a lock, one that it has acquired itself. -/
def step (pid : T → ℕ) (s : State T L) : Act T L → Option (State T L)
  | .acquiresleep t l => if s.pc t = .out then some (s.goto t (.acquire l)) else none
  | .releasesleep t l =>
      if s.pc t = .out ∧ s.has t l = true then some (s.goto t (.release l)) else none
  | .check t c l => if s.pc t = .out then some (s.goto t (.holding c l)) else none
  | .run t => s.run pid t
  | .kill t =>
      match s.pc t with
      | .asleep l => some (s.goto t (.acquire l))
      | _ => none

def system (pid : T → ℕ) : System (State T L) (Act T L) where
  init s := (∀ l, s.lock l = ⟨none, false, 0⟩) ∧ (∀ t, s.pc t = .out) ∧ ∀ t l, s.has t l = false
  step := step pid

/-- A thread does not look at a lock that another thread of its process has. -/
def apart (pid : T → ℕ) (s : State T L) : Act T L → Prop
  | .run t =>
      match s.pc t with
      | .compare _ l => ∀ u, s.has u l = true → pid u = pid t → u = t
      | _ => True
  | _ => True

instance [Fintype T] (pid : T → ℕ) (s : State T L) (a : Act T L) : Decidable (apart pid s a) := by
  unfold apart; split
  · split <;> infer_instance
  · infer_instance

/-! ## §2  One thread at one lock -/

variable {pid : T → ℕ} {s s' : State T L} {t u : T} {k l : L} {p : Pc L} {b : Bool}
  {f : Lock T → Lock T}

@[simp] theorem goto_lock : (s.goto t p).lock = s.lock := rfl
@[simp] theorem goto_has : (s.goto t p).has = s.has := rfl
@[simp] theorem goto_pc : (s.goto t p).pc t = p := Function.update_self ..
@[simp] theorem setLock_has : (s.setLock l f).has = s.has := rfl
@[simp] theorem setLock_pc : (s.setLock l f).pc = s.pc := rfl
@[simp] theorem setLock_lock : (s.setLock l f).lock l = f (s.lock l) := Function.update_self ..
@[simp] theorem setHas_lock : (s.setHas t l b).lock = s.lock := rfl
@[simp] theorem setHas_pc : (s.setHas t l b).pc = s.pc := rfl

@[simp] theorem setHas_has : (s.setHas t l b).has t l = b := by
  show Function.update s.has t (Function.update (s.has t) l b) t l = b
  rw [Function.update_self, Function.update_self]

theorem goto_pc_of_ne (h : u ≠ t) : (s.goto t p).pc u = s.pc u := Function.update_of_ne h ..

theorem setLock_lock_of_ne (h : k ≠ l) : (s.setLock l f).lock k = s.lock k :=
  Function.update_of_ne h ..

theorem setHas_has_of_ne (h : u ≠ t ∨ k ≠ l) : (s.setHas t l b).has u k = s.has u k := by
  show Function.update s.has t (Function.update (s.has t) l b) u k = _
  by_cases hu : u = t
  · subst hu
    rw [Function.update_self, Function.update_of_ne (h.resolve_left fun h => h rfl)]
  · rw [Function.update_of_ne hu]

/-- What a step of thread `t` may change: the lock `l`, if nobody else has its spinlock, where
`t` is and whether it has `l`; and it may wake up those who sleep. -/
structure Touches (t : T) (l : L) (s s' : State T L) : Prop where
  lock : ∀ k ≠ l, s'.lock k = s.lock k
  has : ∀ u k, u ≠ t ∨ k ≠ l → s'.has u k = s.has u k
  pc : ∀ u ≠ t, s'.pc u = s.pc u ∨ s.pc u = .asleep l ∧ s'.pc u = .acquire l
  spin : ∀ u ≠ t, (s.lock l).lk = some u → s'.lock l = s.lock l

namespace Touches

theorem refl : Touches t l s s :=
  ⟨fun _ _ => rfl, fun _ _ _ => rfl, fun _ _ => .inl rfl, fun _ _ _ => rfl⟩

theorem wakeup : Touches t l s (s.wakeup l) := by
  refine ⟨fun _ _ => rfl, fun _ _ _ => rfl, fun u _ => ?_, fun _ _ _ => rfl⟩
  by_cases hu : s.pc u = .asleep l
  · exact .inr ⟨hu, if_pos hu⟩
  · exact .inl (if_neg hu)

theorem goto (h : Touches t l s s') : Touches t l s (s'.goto t p) := by
  refine ⟨h.lock, h.has, fun u hu => ?_, h.spin⟩
  rw [goto_pc_of_ne hu]
  exact h.pc u hu

theorem setHas (h : Touches t l s s') : Touches t l s (s'.setHas t l b) := by
  refine ⟨h.lock, fun u k hne => ?_, h.pc, h.spin⟩
  rw [setHas_has_of_ne hne]
  exact h.has u k hne

theorem setLock (h : Touches t l s s') (hlk : ∀ u, (s.lock l).lk = some u → u = t) :
    Touches t l s (s'.setLock l f) := by
  refine ⟨fun k hk => ?_, h.has, h.pc, fun u hne hu => absurd (hlk u hu) hne⟩
  rw [setLock_lock_of_ne hk]
  exact h.lock k hk

end Touches

/-! ## §3  The invariant -/

/-- Nobody has the lock, or one thread has it, and its process is recorded as soon as it
leaves `acquiresleep`. -/
def Held (pid : T → ℕ) (s : State T L) (l : L) : Prop :=
  (s.lock l).locked = false ∧ (∀ t, s.has t l = false) ∨
  ∃ t, (s.lock l).locked = true ∧ (∀ u, s.has u l = true ↔ u = t) ∧
    (s.pc t ≠ .setPid l → (s.lock l).pid = pid t)

/-- What a thread knows of the locks at a point of its program. -/
def Known (s : State T L) (t : T) : Pc L → Prop
  | .setLocked l | .clearPid l => (s.lock l).locked = false
  | .setPid l | .release l | .clearLocked l => s.has t l = true
  | .compared _ l r | .returned _ l r => r = true ↔ s.has t l = true
  | .panicked _ l => s.has t l = false
  | _ => True

structure Inv (pid : T → ℕ) (s : State T L) : Prop where
  inside : ∀ t l, (s.pc t).Inside l → (s.lock l).lk = some t
  held : ∀ l, Held pid s l
  known : ∀ t, Known s t (s.pc t)

theorem Touches.known_other (h : Touches t l s s') (hi : Inv pid s) (hu : u ≠ t) :
    Known s' u (s'.pc u) := by
  rcases h.pc u hu with e | ⟨_, e⟩
  · rw [e]
    have hk := hi.known u
    have hin := hi.inside u
    have hlock (k : L) (hk : (s.pc u).Inside k) : s'.lock k = s.lock k := by
      by_cases hkl : k = l
      · subst hkl
        exact h.spin u hu (hin k hk)
      · exact h.lock k hkl
    cases hpc : s.pc u with
    | setLocked k | clearPid k =>
        rw [hpc] at hk hlock
        show (s'.lock k).locked = false
        rw [hlock k rfl]
        exact hk
    | setPid k | release k | clearLocked k | compared c k r | returned c k r | panicked c k =>
        rw [hpc] at hk
        simp only [Known] at hk ⊢
        rw [h.has u k (.inl hu)]
        exact hk
    | _ => trivial
  · rw [e]
    trivial

theorem Touches.inside_other (h : Touches t l s s') (hi : Inv pid s) (hu : u ≠ t)
    (hk : (s'.pc u).Inside k) : (s'.lock k).lk = some u := by
  rcases h.pc u hu with e | ⟨_, e⟩
  · rw [e] at hk
    have hlk := hi.inside u k hk
    by_cases hkl : k = l
    · subst hkl
      rw [h.spin u hu hlk, hlk]
    · rw [h.lock k hkl, hlk]
  · rw [e] at hk
    exact hk.elim

/-- The other locks. -/
theorem Touches.held_other (h : Touches t l s s') (hi : Inv pid s) (hkl : k ≠ l)
    (hat : ¬ (s.pc t).Inside k) : Held pid s' k := by
  have hhas (u : T) : s'.has u k = s.has u k := h.has u k (.inr hkl)
  rcases hi.held k with ⟨hlocked, hnone⟩ | ⟨u, hlocked, honly, hpid⟩
  · refine .inl ⟨?_, fun u => ?_⟩
    · rw [h.lock k hkl, hlocked]
    · rw [hhas, hnone]
  · refine .inr ⟨u, ?_, fun v => ?_, fun hpc => ?_⟩
    · rw [h.lock k hkl, hlocked]
    · rw [hhas]
      exact honly v
    · rw [h.lock k hkl]
      refine hpid fun e => ?_
      by_cases hu : u = t
      · subst hu
        exact hat (e ▸ rfl)
      · rcases h.pc u hu with e' | ⟨e', _⟩
        · exact hpc (e'.trans e)
        · rw [e] at e'
          cases e'

/-- A step keeps the invariant if it does so at its own thread and lock. -/
theorem Inv.touch (hi : Inv pid s) (h : Touches t l s s')
    (hat : ∀ k, (s.pc t).Inside k → k = l) (hin : ∀ k, (s'.pc t).Inside k → (s'.lock k).lk = some t)
    (hheld : Held pid s' l) (hknown : Known s' t (s'.pc t)) : Inv pid s' := by
  refine ⟨fun u k hk => ?_, fun k => ?_, fun u => ?_⟩
  · by_cases hu : u = t
    · subst hu
      exact hin k hk
    · exact h.inside_other hi hu hk
  · by_cases hkl : k = l
    · subst hkl
      exact hheld
    · exact h.held_other hi hkl fun hk => hkl (hat k hk)
  · by_cases hu : u = t
    · subst hu
      exact hknown
    · exact h.known_other hi hu

/-- A step that leaves the fields of the lock alone. -/
theorem Touches.held (h : Touches t l s s') (hi : Held pid s l)
    (hlocked : (s'.lock l).locked = (s.lock l).locked) (hp : (s'.lock l).pid = (s.lock l).pid)
    (hhas : s'.has t l = s.has t l) (hpc : s.pc t ≠ .setPid l) : Held pid s' l := by
  have hall (u : T) : s'.has u l = s.has u l := by
    by_cases hu : u = t
    · subst hu
      exact hhas
    · exact h.has u l (.inl hu)
  rcases hi with ⟨hno, hnone⟩ | ⟨u, hyes, honly, hpid⟩
  · refine .inl ⟨hlocked.trans hno, fun u => ?_⟩
    rw [hall, hnone]
  · refine .inr ⟨u, hlocked.trans hyes, fun v => ?_, fun hpc' => hp.trans (hpid fun e => ?_)⟩
    · rw [hall]
      exact honly v
    · rcases h.pc u fun hu => hpc (hu ▸ e) with e' | ⟨e', _⟩
      · exact hpc' (e'.trans e)
      · rw [e] at e'
        cases e'

/-- The thread that has the lock is the only one. -/
theorem Held.of_has (h : Held pid s l) (ht : s.has t l = true) :
    (s.lock l).locked = true ∧ (∀ u, s.has u l = true ↔ u = t) ∧
      (s.pc t ≠ .setPid l → (s.lock l).pid = pid t) := by
  rcases h with ⟨_, hnone⟩ | ⟨u, hyes, honly, hpid⟩
  · rw [hnone] at ht
    cases ht
  · obtain rfl := (honly t).mp ht
    exact ⟨hyes, honly, hpid⟩

theorem Held.of_free (h : Held pid s l) (hl : (s.lock l).locked = false) :
    ∀ t, s.has t l = false := by
  rcases h with ⟨_, hnone⟩ | ⟨u, hyes, _⟩
  · exact hnone
  · rw [hl] at hyes
    cases hyes

/-! ## §4  Steps and runs -/

section Steps

variable {c : Check}

/-- Nobody else has the spinlock. -/
theorem Inv.alone (hi : Inv pid s) (hin : (s.pc t).Inside l) :
    ∀ u, (s.lock l).lk = some u → u = t := by
  intro u hu
  rw [hi.inside t l hin] at hu
  exact (Option.some.inj hu).symm

/-- A step that changes neither the fields of the lock nor who has it. -/
theorem Inv.move (hi : Inv pid s) (h : Touches t l s s')
    (hat : ∀ k, (s.pc t).Inside k → k = l) (hpc : s.pc t ≠ .setPid l)
    (hlocked : (s'.lock l).locked = (s.lock l).locked) (hp : (s'.lock l).pid = (s.lock l).pid)
    (hhas : s'.has t l = s.has t l)
    (hin : ∀ k, (s'.pc t).Inside k → (s'.lock k).lk = some t) (hknown : Known s' t (s'.pc t)) :
    Inv pid s' :=
  hi.touch h hat hin (h.held (hi.held l) hlocked hp hhas hpc) hknown

/-- `acquire(&lk->lk)`; what the thread knows then is about what it has. -/
theorem Inv.lockSpin (hi : Inv pid s) (hs : s.lockSpin t l p = some s')
    (hout : ∀ k, ¬ (s.pc t).Inside k) (hin : ∀ k, p.Inside k → k = l)
    (hknown : s'.has = s.has → Known s' t p) : Inv pid s' := by
  unfold State.lockSpin at hs
  split_ifs at hs with hfree
  cases hs
  refine hi.move (.goto (.setLock .refl ?_)) (fun k hk => absurd hk (hout k)) ?_ ?_ ?_ rfl ?_ ?_
  · intro u hu
    rw [hfree] at hu
    cases hu
  · intro hpc
    exact hout l (hpc ▸ rfl)
  · simp
  · simp
  · intro k hk
    rw [goto_pc] at hk
    obtain rfl := hin k hk
    simp
  · rw [goto_pc]
    exact hknown rfl

/-- `release(&lk->lk)` -/
theorem Inv.unlockSpin (hi : Inv pid s) (hat : ∀ k, (s.pc t).Inside k ↔ k = l)
    (hpc : s.pc t ≠ .setPid l) (hout : ∀ k, ¬ p.Inside k)
    (hknown : (s.unlockSpin t l p).has = s.has → Known (s.unlockSpin t l p) t p) :
    Inv pid (s.unlockSpin t l p) := by
  have hgoto : (s.unlockSpin t l p).pc t = p := goto_pc
  have hlock : (s.unlockSpin t l p).lock l = ⟨none, (s.lock l).locked, (s.lock l).pid⟩ :=
    Function.update_self ..
  refine hi.move (.goto (.setLock .refl (hi.alone ((hat l).mpr rfl)))) (fun k => (hat k).mp) hpc
    ?_ ?_ rfl ?_ ?_
  · rw [hlock]
  · rw [hlock]
  · intro k hk
    rw [hgoto] at hk
    exact absurd hk (hout k)
  · rw [hgoto]
    exact hknown rfl

/-- The thread goes on with all the locks as they are. -/
theorem Inv.goto (hi : Inv pid s) (hat : ∀ k, (s.pc t).Inside k → k = l)
    (hpc : s.pc t ≠ .setPid l) (hin : ∀ k, p.Inside k → (s.pc t).Inside k)
    (hknown : Known s t p) : Inv pid (s.goto t p) := by
  refine hi.move (.goto .refl) hat hpc rfl rfl rfl ?_ ?_
  · intro k hk
    rw [goto_pc] at hk
    exact hi.inside t k (hin k hk)
  · rw [goto_pc]
    exact hknown

/-- The same outside of the critical sections. -/
theorem Inv.goto_out (hi : Inv pid s) (l : L) (hout : ∀ k, ¬ (s.pc t).Inside k)
    (hp : ∀ k, ¬ p.Inside k) (hknown : Known s t p) : Inv pid (s.goto t p) := by
  refine hi.goto (l := l) (fun k hk => absurd hk (hout k)) (fun hpc => hout l ?_)
    (fun k hk => absurd hk (hp k)) hknown
  rw [hpc]
  rfl

/-- A step inside a critical section. -/
theorem Inv.write (hi : Inv pid s) (hat : ∀ k, (s.pc t).Inside k ↔ k = l)
    (h : (∀ u, (s.lock l).lk = some u → u = t) → Touches t l s s')
    (hlk : (s'.lock l).lk = (s.lock l).lk) (hin : ∀ k, (s'.pc t).Inside k → k = l)
    (hheld : Held pid s' l) (hknown : Known s' t (s'.pc t)) : Inv pid s' := by
  have hl := (hat l).mpr rfl
  refine hi.touch (h (hi.alone hl)) (fun k => (hat k).mp) (fun k hk => ?_) hheld hknown
  obtain rfl := hin k hk
  rw [hlk]
  exact hi.inside t k hl

/-- `lk->locked = 1` -/
theorem Inv.setLocked (hi : Inv pid s) (hpc : s.pc t = .setLocked l) :
    Inv pid (((s.setLock l fun k => { k with locked := true }).setHas t l true).goto t
      (.setPid l)) := by
  have hfree : (s.lock l).locked = false := by
    have hk := hi.known t
    rwa [hpc] at hk
  have hnone := (hi.held l).of_free hfree
  refine hi.write (fun k => ?_) (fun h => .goto (.setHas (.setLock .refl h))) ?_ (fun k hk => ?_)
    (.inr ⟨t, ?_, fun u => ?_, fun h => absurd goto_pc h⟩) ?_
  · rw [hpc]
    exact eq_comm
  · simp
  · rw [goto_pc] at hk
    exact hk.symm
  · simp
  · by_cases hu : u = t
    · subst hu
      simp
    · rw [goto_has, setHas_has_of_ne (.inl hu), setLock_has, hnone]
      exact iff_of_false nofun hu
  · rw [goto_pc]
    exact setHas_has

/-- `lk->pid = myproc()->pid` -/
theorem Inv.setPid (hi : Inv pid s) (hpc : s.pc t = .setPid l) :
    Inv pid ((s.setLock l fun k => { k with pid := pid t }).goto t (.acquired l)) := by
  have hhas : s.has t l = true := by
    have hk := hi.known t
    rwa [hpc] at hk
  obtain ⟨hyes, honly, _⟩ := (hi.held l).of_has hhas
  refine hi.write (fun k => ?_) (fun h => .goto (.setLock .refl h)) ?_ (fun k hk => ?_)
    (.inr ⟨t, ?_, honly, fun _ => ?_⟩) ?_
  · rw [hpc]
    exact eq_comm
  · simp
  · rw [goto_pc] at hk
    exact hk.symm
  · simpa using hyes
  · simp
  · rw [goto_pc]
    trivial

/-- `lk->locked = 0` -/
theorem Inv.clearLocked (hi : Inv pid s) (hpc : s.pc t = .clearLocked l) :
    Inv pid (((s.setLock l fun k => { k with locked := false }).setHas t l false).goto t
      (.clearPid l)) := by
  have hhas : s.has t l = true := by
    have hk := hi.known t
    rwa [hpc] at hk
  obtain ⟨_, honly, _⟩ := (hi.held l).of_has hhas
  have hfree : ((((s.setLock l fun k => { k with locked := false }).setHas t l false).goto t
      (.clearPid l)).lock l).locked = false := by simp
  refine hi.write (fun k => ?_) (fun h => .goto (.setHas (.setLock .refl h))) ?_ (fun k hk => ?_)
    (.inl ⟨hfree, fun u => ?_⟩) ?_
  · rw [hpc]
    exact eq_comm
  · simp
  · rw [goto_pc] at hk
    exact hk.symm
  · by_cases hu : u = t
    · subst hu
      simp
    · rw [goto_has, setHas_has_of_ne (.inl hu), setLock_has]
      exact Bool.eq_false_iff.mpr fun h => hu ((honly u).mp h)
  · rw [goto_pc]
    exact hfree

/-- `lk->pid = 0` -/
theorem Inv.clearPid (hi : Inv pid s) (hpc : s.pc t = .clearPid l) :
    Inv pid ((s.setLock l fun k => { k with pid := 0 }).goto t (.wakeup l)) := by
  have hfree : (s.lock l).locked = false := by
    have hk := hi.known t
    rwa [hpc] at hk
  refine hi.write (fun k => ?_) (fun h => .goto (.setLock .refl h)) ?_ (fun k hk => ?_)
    (.inl ⟨?_, (hi.held l).of_free hfree⟩) ?_
  · rw [hpc]
    exact eq_comm
  · simp
  · rw [goto_pc] at hk
    exact hk.symm
  · simpa using hfree
  · rw [goto_pc]
    trivial

/-- `r = lk->locked && (lk->pid == myproc()->pid)`, if no other thread of the process has the
lock. -/
theorem Inv.compare_iff (hi : Inv pid s) (hpc : s.pc t = .compare c l)
    (hapart : ∀ u, s.has u l = true → pid u = pid t → u = t) :
    ((s.lock l).locked && (s.lock l).pid == pid t) = true ↔ s.has t l = true := by
  rw [Bool.and_eq_true, beq_iff_eq]
  rcases hi.held l with ⟨hno, hnone⟩ | ⟨u, hyes, honly, hpid⟩
  · rw [hno, hnone]
    exact iff_of_false (fun h => nomatch h.1) nofun
  · -- the process has been recorded: this thread has the spinlock, so no other is inside
    have hrec := hpid fun e => by
      have hu := hi.alone (hpc ▸ rfl : (s.pc t).Inside l) u (hi.inside u l (e ▸ rfl))
      rw [hu, hpc] at e
      cases e
    rw [hrec]
    constructor
    · rintro ⟨_, he⟩
      have hu := (honly u).mpr rfl
      exact hapart u hu he ▸ hu
    · intro ht
      exact ⟨hyes, congrArg pid ((honly t).mp ht).symm⟩

theorem Inv.run (hi : Inv pid s) (hg : apart pid s (.run t)) (hs : s.run pid t = some s') :
    Inv pid s' := by
  have hk := hi.known t
  cases hpc : s.pc t with
  | out | asleep l | panicked c l =>
      rw [State.run, hpc] at hs
      cases hs
  | acquire l =>
      rw [State.run, hpc] at hs
      exact hi.lockSpin hs (by rw [hpc]; exact fun _ => id) (fun _ h => Eq.symm h) fun _ => trivial
  | test l =>
      rw [State.run, hpc] at hs
      dsimp only at hs
      split_ifs at hs with hl <;> cases hs
      · exact hi.unlockSpin (fun k => by rw [hpc]; exact eq_comm) (by rw [hpc]; nofun)
          (fun _ => id) fun _ => trivial
      · refine hi.goto (l := l) (fun k hk => ?_) (by rw [hpc]; nofun) (fun k hk => ?_) ?_
        · rw [hpc] at hk
          exact hk.symm
        · rw [hpc]
          exact hk
        · exact Bool.eq_false_iff.mpr hl
  | setLocked l =>
      rw [State.run, hpc] at hs
      cases hs
      exact hi.setLocked hpc
  | setPid l =>
      rw [State.run, hpc] at hs
      cases hs
      exact hi.setPid hpc
  | acquired l | released l =>
      rw [State.run, hpc] at hs
      cases hs
      exact hi.unlockSpin (fun k => by rw [hpc]; exact eq_comm) (by rw [hpc]; nofun)
        (fun _ => id) fun _ => trivial
  | release l =>
      rw [hpc] at hk
      rw [State.run, hpc] at hs
      refine hi.lockSpin hs (by rw [hpc]; exact fun _ => id) (fun _ h => Eq.symm h) fun e => ?_
      show s'.has t l = true
      rw [e]
      exact hk
  | clearLocked l =>
      rw [State.run, hpc] at hs
      cases hs
      exact hi.clearLocked hpc
  | clearPid l =>
      rw [State.run, hpc] at hs
      cases hs
      exact hi.clearPid hpc
  | wakeup l =>
      rw [State.run, hpc] at hs
      cases hs
      refine hi.write (fun k => ?_) (fun _ => .goto .wakeup) rfl (fun k hk => ?_) ?_ ?_
      · rw [hpc]
        exact eq_comm
      · rw [goto_pc] at hk
        exact hk.symm
      · exact Touches.held (.goto .wakeup) (hi.held l) rfl rfl rfl (by rw [hpc]; nofun)
      · rw [goto_pc]
        trivial
  | holding c l =>
      rw [State.run, hpc] at hs
      exact hi.lockSpin hs (by rw [hpc]; exact fun _ => id) (fun _ h => Eq.symm h) fun _ => trivial
  | compare c l =>
      rw [State.run, hpc] at hs
      cases hs
      rw [apart, hpc] at hg
      refine hi.goto (l := l) (fun k hk => ?_) (by rw [hpc]; nofun) (fun k hk => ?_) ?_
      · rw [hpc] at hk
        exact hk.symm
      · rw [hpc]
        exact hk
      · exact hi.compare_iff hpc hg
  | compared c l r =>
      rw [hpc] at hk
      rw [State.run, hpc] at hs
      cases hs
      exact hi.unlockSpin (fun k => by rw [hpc]; exact eq_comm) (by rw [hpc]; nofun)
        (fun _ => id) fun _ => hk
  | returned c l r =>
      rw [hpc] at hk
      rw [State.run, hpc] at hs
      dsimp only at hs
      have hout (k : L) : ¬ (s.pc t).Inside k := by
        rw [hpc]
        exact id
      split_ifs at hs with hr hc <;> cases hs
      · exact hi.goto_out l hout (fun _ => id) (hk.mp hr)
      · exact hi.goto_out l hout (fun _ => id) trivial
      · exact hi.goto_out l hout (fun _ => id) (Bool.eq_false_iff.mpr fun h => hr (hk.mpr h))

theorem Inv.step {a : Act T L} (hi : Inv pid s) (hg : apart pid s a)
    (hs : step pid s a = some s') : Inv pid s' := by
  cases a with
  | run t => exact hi.run hg hs
  | acquiresleep t l | check t c l =>
      unfold SleepLock.step at hs
      dsimp only at hs
      split_ifs at hs with hpc
      cases hs
      exact hi.goto_out l (by rw [hpc]; exact fun _ => id) (fun _ => id) trivial
  | releasesleep t l =>
      unfold SleepLock.step at hs
      dsimp only at hs
      split_ifs at hs with hpc
      cases hs
      exact hi.goto_out l (by rw [hpc.1]; exact fun _ => id) (fun _ => id) hpc.2
  | kill t =>
      unfold SleepLock.step at hs
      dsimp only at hs
      split at hs
      case h_1 l hpc =>
        cases hs
        exact hi.goto_out l (by rw [hpc]; exact fun _ => id) (fun _ => id) trivial
      case h_2 => cases hs

/-- Threads that look at a lock do so while no other thread of their process has it. -/
theorem inv_of_reach (h : (system pid).Reach (apart pid) s) : Inv pid s := by
  refine h.invariant ?_ fun _ _ _ hi hg hs => hi.step hg hs
  rintro s ⟨hlock, hpc, hhas⟩
  refine ⟨fun t l hin => ?_, fun l => .inl ⟨?_, fun t => hhas t l⟩, fun t => ?_⟩
  · rw [hpc] at hin
    exact hin.elim
  · rw [hlock]
  · rw [hpc]
    trivial

/-- In runs where threads look at a lock only while no other thread of their process has it,
`holdingsleep` returns 1 to the one thread that has the lock, and the functions that check it
go on there and panic in every other thread. -/
theorem holdingsleep_exact {r : Bool} (h : (system pid).Reach (apart pid) s)
    (hpc : s.pc t = .returned c l r) :
    (r = true ↔ s.has t l = true) ∧ (∀ u, s.has t l = true → s.has u l = true → u = t) ∧
    ∃ s', step pid s (.run t) = some s' ∧ s'.pc t =
      if s.has t l = true then (if c.releases then .release l else .out) else .panicked c l := by
  have hi := inv_of_reach h
  have hr : r = true ↔ s.has t l = true := by
    have hk := hi.known t
    rwa [hpc] at hk
  refine ⟨hr, fun u ht hu => ((hi.held l).of_has ht).2.1 u |>.mp hu, ?_⟩
  have hstep : step pid s (.run t) = if r then some (s.goto t (if c.releases then .release l
      else .out)) else some (s.goto t (.panicked c l)) := by
    show s.run pid t = _
    rw [State.run, hpc]
  rw [hstep]
  by_cases ht : s.has t l = true
  · rw [if_pos ht, if_pos (hr.mpr ht)]
    exact ⟨_, rfl, goto_pc⟩
  · rw [if_neg ht, if_neg (hr.not.mpr ht)]
    exact ⟨_, rfl, goto_pc⟩

end Steps

/-- Nobody has called any function. -/
def start : State Bool Unit := ⟨fun _ => ⟨none, false, 0⟩, fun _ => .out, fun _ _ => false⟩

theorem start_init (pid : Bool → ℕ) : (system pid).init start :=
  ⟨fun _ => rfl, fun _ => rfl, fun _ _ => rfl⟩

/-- Thread `false` acquires the lock and thread `true` calls `iunlock`, up to the return of
`holdingsleep`. -/
def meet : List (Act Bool Unit) :=
  [.acquiresleep false (), .run false, .run false, .run false, .run false, .run false,
    .check true .iunlock (), .run true, .run true, .run true]

/-- The threads are of different processes. -/
theorem holdingsleep_exact_two : ∃ s : State Bool Unit,
    (system fun t => if t then 3 else 2).Reach (apart fun t => if t then 3 else 2) s ∧
    s.has false () = true ∧ s.pc true = .returned .iunlock () false ∧
    ∃ s', step (fun t => if t then 3 else 2) s (.run true) = some s' ∧
      s'.pc true = .panicked .iunlock () := by
  have hrun : ((system fun t => if t then 3 else 2).exec (apart fun t => if t then 3 else 2)
      start meet).any (fun s => decide (s.has false () = true ∧ s.has true () = false ∧
        s.pc true = .returned .iunlock () false)) = true := by decide
  obtain ⟨s, hs, hfalse, htrue, hpc⟩ := System.exec_reach (start_init _) hrun
  obtain ⟨_, _, s', hs', hpanic⟩ := holdingsleep_exact hs hpc
  rw [htrue, if_neg (by decide)] at hpanic
  exact ⟨s, hs, hfalse, hpc, s', hs', hpanic⟩

/-- The threads are of one process: `holdingsleep` returns 1 to the thread that does not have
the lock, and `iunlock` releases the lock of the other one. -/
theorem holdingsleep_sibling :
    (∃ s : State Bool Unit, (system fun _ => 2).Reach System.anyStep s ∧
      s.has false () = true ∧ s.has true () = false ∧ s.pc true = .returned .iunlock () true) ∧
    ∃ s : State Bool Unit, (system fun _ => 2).Reach System.anyStep s ∧
      s.has false () = true ∧ (s.lock ()).locked = false := by
  have hmeet : ((system fun _ => 2).exec System.anyStep start meet).any
      (fun s => decide (s.has false () = true ∧ s.has true () = false ∧
        s.pc true = .returned .iunlock () true)) = true := by decide
  have hfree : ((system fun _ => 2).exec System.anyStep start
      (meet ++ [.run true, .run true, .run true])).any
      (fun s => decide (s.has false () = true ∧ (s.lock ()).locked = false)) = true := by
    decide
  exact ⟨System.exec_reach (start_init _) hmeet, System.exec_reach (start_init _) hfree⟩

end Xv6.SleepLock
