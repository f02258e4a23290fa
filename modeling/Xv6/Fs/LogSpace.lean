import Mathlib.Algebra.BigOperators.Group.Finset.Basic
import Mathlib.Algebra.Order.BigOperators.Group.Finset
import Mathlib.Data.Fintype.BigOperators
import Mathlib.Tactic.IntervalCases
import Xv6.Fs.Log
import Xv6.Lib.Count
import Xv6.Lib.Transition

/-!
# Space in the log

`begin_op` admits an operation when the log has room for `MAXOPBLOCKS` blocks of
every operation that is outstanding, `log_write` panics when the log is full. The
two count differently: `begin_op` takes the log to have `LOGSIZE` data blocks, and
the log that `mkfs` makes has one less, as its first block is the header.

`log_write` looks at the log before it takes `log.lock`, so its test and its update
of the header are two steps.
-/

set_option linter.unusedSectionVars false

namespace Xv6.Fs.Space

variable {T : Type} [DecidableEq T] [Fintype T]

/-! ## §1  Operations -/

/-- `nlog` of `mkfs.c`: the blocks of the log, with the header. -/
def nlog : ℕ := logSize

/-- An operation between `begin_op` and `end_op`: the blocks that it has logged, and
the block of a `log_write` that has passed its tests. -/
structure Op where
  used : Finset ℕ
  pending : Option ℕ

/-- The `panic`s of `log_write` and `end_op`. -/
inductive Panic where
  | tooBig | outsideTrans | committing
deriving DecidableEq, Repr

structure State (T : Type) where
  log : Log
  op : T → Option Op
  panicked : Option Panic

/-- `logWrite t b` is the call with its tests, `record t` the part of `log_write` that
holds `log.lock`; `committed` is the end of a commit. -/
inductive Act (T : Type) where
  | beginOp (t : T)
  | logWrite (t : T) (b : ℕ)
  | record (t : T)
  | endOp (t : T)
  | committed

namespace State

def setOp (s : State T) (t : T) (o : Option Op) : State T :=
  { s with op := Function.update s.op t o }

def step (size : ℕ) (s : State T) : Act T → Option (State T)
  | .beginOp t =>
      if s.op t = none ∧ s.log.mustWait = false then
        some { s.setOp t (some ⟨∅, none⟩) with log := s.log.enter }
      else none
  | .logWrite t b =>
      match s.op t with
      | some ⟨used, none⟩ =>
          if s.log.tooBig size = true then some { s with panicked := some .tooBig }
          else if s.log.outstanding < 1 then
            some { s with panicked := some .outsideTrans }
          else some (s.setOp t (some ⟨used, some b⟩))
      | _ => none
  | .record t =>
      match s.op t with
      | some ⟨used, some b⟩ =>
          some { s.setOp t (some ⟨insert b used, none⟩) with log := s.log.record b }
      | _ => none
  | .endOp t =>
      match s.op t with
      | some ⟨_, none⟩ =>
          if s.log.committing = true then some { s with panicked := some .committing }
          else some { s.setOp t none with log := s.log.leave }
      | _ => none
  | .committed =>
      if s.log.committing = true then some { s with log := s.log.committed } else none

def start : State T := { log := .empty, op := fun _ => none, panicked := none }

end State

/-- Operations on a log of `size` blocks. A machine that has panicked stops. -/
def spaceSystem (T : Type) [DecidableEq T] (size : ℕ) :
    Lib.System (State T) (Act T) where
  init s := s = .start
  step s a := if s.panicked = none then s.step size a else none

/-- An operation logs at most `k` different blocks. -/
def logsAtMost (k : ℕ) (s : State T) : Act T → Prop
  | .logWrite t b => ∀ o ∈ s.op t, (insert b o.used).card ≤ k
  | _ => True

instance (k : ℕ) (s : State T) (a : Act T) : Decidable (logsAtMost k s a) :=
  match a with
  | .logWrite t b =>
      inferInstanceAs (Decidable (∀ o ∈ s.op t, (insert b o.used).card ≤ k))
  | .beginOp _ | .record _ | .endOp _ | .committed => isTrue trivial

/-! ## §2  The reserve -/

/-- What an operation may still log, of `k` blocks. -/
def reserve (k : ℕ) : Option Op → ℕ
  | some o => k - o.used.card
  | none => 0

/-- The operations that are outstanding. -/
def State.active (s : State T) : Finset T := Finset.univ.filter fun t => (s.op t).isSome

structure SpaceInv (k : ℕ) (s : State T) : Prop where
  nodup : s.log.lh.Nodup
  count : s.log.outstanding = s.active.card
  -- a commit runs when nobody is outstanding, and empties the log
  idle : s.active = ∅ → s.log.committing = false → s.log.lh = []
  busy : s.log.committing = true → s.active = ∅
  used : ∀ {t o}, s.op t = some o → (∀ b ∈ o.used, b ∈ s.log.lh) ∧ o.used.card ≤ k
  pending : ∀ {t o b}, s.op t = some o → o.pending = some b → (insert b o.used).card ≤ k
  room : s.log.lh.length + ∑ t, reserve k (s.op t) ≤ 2 * k + (logSize - 2 * maxOpBlocks)

variable {k size : ℕ} {s s' : State T} {t : T} {o : Op}

@[simp] theorem State.mem_active : t ∈ s.active ↔ (s.op t).isSome = true := by
  simp [State.active]

theorem State.setOp_self (x : Option Op) : (s.setOp t x).op t = x :=
  Function.update_self ..

theorem State.setOp_ne {u : T} (x : Option Op) (h : u ≠ t) :
    (s.setOp t x).op u = s.op u :=
  Function.update_of_ne h ..

theorem State.active_some (o : Op) : (s.setOp t (some o)).active = insert t s.active := by
  ext u
  rw [Finset.mem_insert, State.mem_active, State.mem_active]
  by_cases h : u = t
  · subst h
    rw [State.setOp_self]
    exact iff_of_true rfl (.inl rfl)
  · rw [State.setOp_ne _ h]
    exact ⟨.inr, fun hu => hu.resolve_left h⟩

theorem State.active_none : (s.setOp t none).active = s.active.erase t := by
  ext u
  rw [Finset.mem_erase, State.mem_active, State.mem_active]
  by_cases h : u = t
  · subst h
    rw [State.setOp_self]
    exact iff_of_false nofun fun hu => hu.1 rfl
  · rw [State.setOp_ne _ h]
    exact ⟨fun hu => ⟨h, hu⟩, fun hu => hu.2⟩

/-- One operation's reserve changes. -/
theorem sum_reserve_setOp (x : Option Op) :
    ∑ u, reserve k ((s.setOp t x).op u) + reserve k (s.op t) =
      ∑ u, reserve k (s.op u) + reserve k x :=
  Lib.sum_update (reserve k) s.op t x

theorem sum_reserve_le : ∑ u, reserve k (s.op u) ≤ k * s.active.card := by
  calc ∑ u, reserve k (s.op u)
      = ∑ u ∈ s.active, reserve k (s.op u) := by
        apply Eq.symm
        apply Finset.sum_subset (Finset.subset_univ _)
        intro u _ hu
        rw [State.mem_active, Option.not_isSome_iff_eq_none] at hu
        rw [hu]
        rfl
    _ ≤ ∑ _u ∈ s.active, k := by
        apply Finset.sum_le_sum
        intro u _
        cases s.op u with
        | none => exact Nat.zero_le _
        | some o => exact Nat.sub_le _ _
    _ = k * s.active.card := by
        rw [Finset.sum_const_nat fun _ _ => rfl, Nat.mul_comm]

theorem SpaceInv.start : SpaceInv k (.start : State T) := by
  have hact : (State.start : State T).active = ∅ := by
    ext t
    rw [State.mem_active]
    exact iff_of_false nofun (Finset.notMem_empty t)
  refine ⟨List.nodup_nil, ?_, fun _ _ => rfl, nofun, nofun, nofun, ?_⟩
  · rw [hact]
    rfl
  · show 0 + ∑ _t : T, 0 ≤ _
    rw [Finset.sum_const_zero]
    exact Nat.zero_le _

/-- `begin_op` admits an operation. -/
theorem SpaceInv.beginOp (hI : SpaceInv k s) (hk : k ≤ maxOpBlocks)
    (ho : s.op t = none) (hw : s.log.mustWait = false) :
    SpaceInv k { s.setOp t (some ⟨∅, none⟩) with log := s.log.enter } := by
  obtain ⟨hc, hroom⟩ := Bool.or_eq_false_iff.mp hw
  have hroom := of_decide_eq_false hroom
  have hnot : t ∉ s.active := by
    rw [State.mem_active, ho]
    nofun
  have hact := State.active_some (s := s) (t := t) ⟨∅, none⟩
  refine ⟨hI.nodup, ?_, ?_, ?_, ?_, ?_, ?_⟩
  · show s.log.outstanding + 1 = ((s.setOp t _).active.card : ℤ)
    rw [hact, Finset.card_insert_of_notMem hnot, hI.count]
    rfl
  · intro he
    have : t ∈ (s.setOp t (some ⟨∅, none⟩)).active := hact ▸ Finset.mem_insert_self ..
    exact absurd (he ▸ this) (Finset.notMem_empty t)
  · intro h
    exact absurd (hc.symm.trans h) nofun
  · intro u x hu
    by_cases hut : u = t
    · subst hut
      cases (State.setOp_self _).symm.trans hu
      exact ⟨nofun, Nat.zero_le _⟩
    · exact hI.used ((State.setOp_ne _ hut).symm.trans hu)
  · intro u x b hu hb
    by_cases hut : u = t
    · subst hut
      cases (State.setOp_self _).symm.trans hu
      cases hb
    · exact hI.pending ((State.setOp_ne _ hut).symm.trans hu) hb
  · -- either the log is empty, or there is somebody else's reserve beside the new one
    show s.log.lh.length + ∑ u, reserve k ((s.setOp t (some ⟨∅, none⟩)).op u) ≤ _
    have hsum := sum_reserve_setOp (k := k) (s := s) (t := t) (some ⟨∅, none⟩)
    have hle := sum_reserve_le (k := k) (s := s)
    rw [ho] at hsum
    change _ + 0 = _ + (k - 0) at hsum
    have hcount := hI.count
    simp only [logSize, maxOpBlocks] at hroom hk ⊢
    rcases Nat.eq_zero_or_pos s.active.card with h0 | hpos
    · rw [hI.idle (Finset.card_eq_zero.mp h0) hc]
      rw [h0] at hle
      show 0 + _ ≤ _
      omega
    · have hle2 : s.active.card ≤ 2 := by omega
      interval_cases s.active.card
      all_goals omega

/-- An operation that is outstanding logs a block, or gets ready to. -/
theorem SpaceInv.update (hI : SpaceInv k s) (ho : s.op t = some o) {o' : Op} {l : Log}
    (hout : l.outstanding = s.log.outstanding)
    (hcom : l.committing = s.log.committing) (hnd : l.lh.Nodup)
    (hmono : ∀ b ∈ s.log.lh, b ∈ l.lh) (hused : ∀ b ∈ o'.used, b ∈ l.lh)
    (hcard : o'.used.card ≤ k)
    (hpend : ∀ b, o'.pending = some b → (insert b o'.used).card ≤ k)
    (hroom : l.lh.length + (k - o'.used.card) ≤ s.log.lh.length + (k - o.used.card)) :
    SpaceInv k { s.setOp t (some o') with log := l } := by
  have hmem : t ∈ s.active := by
    rw [State.mem_active, ho]
    rfl
  have hact : (s.setOp t (some o')).active = s.active := by
    rw [State.active_some, Finset.insert_eq_of_mem hmem]
  refine ⟨hnd, ?_, ?_, ?_, ?_, ?_, ?_⟩
  · show l.outstanding = ((s.setOp t (some o')).active.card : ℤ)
    rw [hact, hout, hI.count]
  · intro he
    change (s.setOp t (some o')).active = ∅ at he
    rw [hact] at he
    exact absurd (he ▸ hmem) (Finset.notMem_empty t)
  · intro hc
    change l.committing = true at hc
    rw [hcom] at hc
    exact absurd (hI.busy hc ▸ hmem) (Finset.notMem_empty t)
  · intro u x hu
    by_cases hut : u = t
    · subst hut
      cases (State.setOp_self _).symm.trans hu
      exact ⟨hused, hcard⟩
    · obtain ⟨h₁, h₂⟩ := hI.used ((State.setOp_ne _ hut).symm.trans hu)
      exact ⟨fun b hb => hmono b (h₁ b hb), h₂⟩
  · intro u x b hu hb
    by_cases hut : u = t
    · subst hut
      cases (State.setOp_self _).symm.trans hu
      exact hpend b hb
    · exact hI.pending ((State.setOp_ne _ hut).symm.trans hu) hb
  · show l.lh.length + ∑ u, reserve k ((s.setOp t (some o')).op u) ≤ _
    have hsum := sum_reserve_setOp (k := k) (s := s) (t := t) (some o')
    rw [ho] at hsum
    change _ + (k - o.used.card) = _ + (k - o'.used.card) at hsum
    have := hI.room
    omega

/-- The part of `log_write` under `log.lock`. -/
theorem SpaceInv.record (hI : SpaceInv k s) {b : ℕ} (ho : s.op t = some o)
    (hb : o.pending = some b) :
    SpaceInv k { s.setOp t (some ⟨insert b o.used, none⟩) with log := s.log.record b } := by
  obtain ⟨hin, hk⟩ := hI.used ho
  have hk' := hI.pending ho hb
  refine hI.update ho Log.record_outstanding Log.record_committing
    (Log.nodup_record hI.nodup) (fun c hc => Log.mem_record.mpr (.inl hc)) ?_ hk' nofun ?_
  · intro c hc
    rcases Finset.mem_insert.mp hc with rfl | hc
    · exact Log.mem_record.mpr (.inr rfl)
    · exact Log.mem_record.mpr (.inl (hin c hc))
  · show _ + (k - (insert b o.used).card) ≤ _
    by_cases hbu : b ∈ o.used
    · -- a block that the operation has logged before is absorbed
      rw [Log.record_of_mem (hin b hbu), Finset.insert_eq_of_mem hbu]
    · have := s.log.length_record_le b
      rw [Finset.card_insert_of_notMem hbu] at hk' ⊢
      omega

theorem SpaceInv.endOp (hI : SpaceInv k s) (ho : s.op t = some o)
    (hc : s.log.committing = false) :
    SpaceInv k { s.setOp t none with log := s.log.leave } := by
  have hmem : t ∈ s.active := by
    rw [State.mem_active, ho]
    rfl
  have hcard : ((s.setOp t none).active.card : ℤ) = s.log.outstanding - 1 := by
    rw [State.active_none, hI.count, Finset.card_erase_of_mem hmem]
    have := Finset.card_pos.mpr ⟨t, hmem⟩
    omega
  have hlast : s.log.leave.committing = true ↔ (s.setOp t none).active = ∅ := by
    show (s.log.committing || decide (s.log.outstanding - 1 = 0)) = true ↔ _
    rw [hc, Bool.false_or, decide_eq_true_iff, ← hcard, Int.natCast_eq_zero,
      Finset.card_eq_zero]
  refine ⟨hI.nodup, hcard.symm, ?_, hlast.mp, ?_, ?_, ?_⟩
  · intro he hf
    exact absurd (hlast.mpr he) (by rw [hf]; nofun)
  · intro u x hu
    by_cases hut : u = t
    · subst hut
      cases (State.setOp_self _).symm.trans hu
    · exact hI.used ((State.setOp_ne _ hut).symm.trans hu)
  · intro u x b hu hb
    by_cases hut : u = t
    · subst hut
      cases (State.setOp_self _).symm.trans hu
    · exact hI.pending ((State.setOp_ne _ hut).symm.trans hu) hb
  · show s.log.lh.length + ∑ u, reserve k ((s.setOp t none).op u) ≤ _
    have hsum := sum_reserve_setOp (k := k) (s := s) (t := t) none
    change _ = _ + 0 at hsum
    have := hI.room
    omega

theorem SpaceInv.committed (hI : SpaceInv k s) (hc : s.log.committing = true) :
    SpaceInv k { s with log := s.log.committed } := by
  have hact := hI.busy hc
  have hnone : ∀ t, s.op t = none := by
    intro t
    rw [← Option.not_isSome_iff_eq_none, ← State.mem_active, hact]
    exact Finset.notMem_empty t
  refine ⟨List.nodup_nil, hI.count, fun _ _ => rfl, nofun, ?_, ?_, ?_⟩
  · intro t o ho
    cases (hnone t).symm.trans ho
  · intro t o b ho
    cases (hnone t).symm.trans ho
  · have := hI.room
    show 0 + ∑ t, reserve k (s.op t) ≤ _
    omega

/-- With fewer than `MAXOPBLOCKS` blocks for each operation the tests of `log_write`
succeed. -/
theorem SpaceInv.fits (hI : SpaceInv k s) (hk : k < maxOpBlocks) (hs : logSize ≤ size) :
    s.log.tooBig size = false := by
  have := hI.room
  unfold Log.tooBig
  rw [Bool.or_eq_false_iff, decide_eq_false_iff_not, decide_eq_false_iff_not]
  simp only [logSize, maxOpBlocks] at *
  omega

theorem SpaceInv.step {a : Act T} (hI : SpaceInv k s) (hk : k < maxOpBlocks)
    (hs : logSize ≤ size) (hp : s.panicked = none) (hg : logsAtMost k s a)
    (h : s.step size a = some s') : SpaceInv k s' ∧ s'.panicked = none := by
  cases a with
  | beginOp t =>
      obtain ⟨⟨ho, hw⟩, e⟩ := Option.ite_none_right_eq_some.mp h
      cases e
      exact ⟨hI.beginOp hk.le ho hw, hp⟩
  | logWrite t b =>
      unfold State.step at h
      dsimp only at h
      split at h
      case h_2 => cases h
      case h_1 used ho =>
        have hmem : t ∈ s.active := by
          rw [State.mem_active, ho]
          rfl
        have hout : ¬ s.log.outstanding < 1 := by
          have := Finset.card_pos.mpr ⟨t, hmem⟩
          rw [hI.count]
          omega
        obtain ⟨hin, hcard⟩ := hI.used ho
        rw [if_neg (by rw [hI.fits hk hs]; nofun), if_neg hout] at h
        cases h
        refine ⟨hI.update ho rfl rfl hI.nodup (fun _ => id) hin hcard ?_ le_rfl, hp⟩
        rintro c ⟨⟩
        exact hg ⟨used, none⟩ ho
  | record t =>
      unfold State.step at h
      dsimp only at h
      split at h
      case h_2 => cases h
      case h_1 used b ho =>
        cases h
        exact ⟨hI.record ho rfl, hp⟩
  | endOp t =>
      unfold State.step at h
      dsimp only at h
      split at h
      case h_2 => cases h
      case h_1 used ho =>
        have hc : s.log.committing = false := by
          rw [Bool.eq_false_iff]
          intro hc
          have hmem : t ∈ s.active := by
            rw [State.mem_active, ho]
            rfl
          exact absurd (hI.busy hc ▸ hmem) (Finset.notMem_empty t)
        rw [if_neg (by rw [hc]; nofun)] at h
        cases h
        exact ⟨hI.endOp ho hc, hp⟩
  | committed =>
      obtain ⟨hc, e⟩ := Option.ite_none_right_eq_some.mp h
      cases e
      exact ⟨hI.committed hc, hp⟩

theorem spaceInv_of_reach (hk : k < maxOpBlocks) (hs : logSize ≤ size)
    (h : (spaceSystem T size).Reach (logsAtMost k) s) :
    SpaceInv k s ∧ s.panicked = none := by
  apply h.invariant (I := fun s => SpaceInv k s ∧ s.panicked = none)
  · rintro s rfl
    exact ⟨.start, rfl⟩
  · rintro s a s' ⟨hI, hp⟩ hg hstep
    obtain ⟨_, hstep⟩ := Option.ite_none_right_eq_some.mp hstep
    exact hI.step hk hs hp hg hstep

/-! ## §3  The log does not overflow -/

/-- The operations `ts` begin, and each logs `n` blocks of its own. -/
def fill (n : ℕ) (ts : List (Fin 3)) : List (Act (Fin 3)) :=
  ts.map .beginOp ++ ts.flatMap fun t =>
    (List.range n).flatMap fun i => [.logWrite t (10 * t + i), .record t]

theorem fill_reach (k : ℕ) (as : List (Act (Fin 3))) (P : State (Fin 3) → Prop)
    [DecidablePred P]
    (h : ((spaceSystem (Fin 3) nlog).exec (logsAtMost k) .start as).any
      (fun s => decide (P s)) = true) :
    ∃ s, (spaceSystem (Fin 3) nlog).Reach (logsAtMost k) s ∧ P s :=
  Lib.System.exec_reach rfl h

/-- Three operations of ten blocks each are admitted together, and the log has room
for 29 blocks. -/
theorem log_overflows :
    ∃ s, (spaceSystem (Fin 3) nlog).Reach (logsAtMost maxOpBlocks) s ∧
      s.panicked = some .tooBig :=
  fill_reach maxOpBlocks (fill 9 [0, 1, 2] ++ [.logWrite 0 9, .record 0,
    .logWrite 1 19, .record 1, .logWrite 2 29]) _ (by decide)

/-- On the log that `mkfs` makes, operations of fewer than `MAXOPBLOCKS` blocks never
overflow it, in any interleaving. -/
theorem log_never_overflows
    (h : (spaceSystem T nlog).Reach (logsAtMost (maxOpBlocks - 1)) s) :
    s.panicked ≠ some .tooBig ∧ s.log.lh.Nodup ∧ s.log.lh.length ≤ nlog - 1 := by
  obtain ⟨hI, hp⟩ := spaceInv_of_reach (by decide) le_rfl h
  refine ⟨?_, hI.nodup, ?_⟩
  · rw [hp]
    nofun
  · have hroom := hI.room
    simp only [nlog, logSize, maxOpBlocks] at hroom ⊢
    omega

theorem log_never_overflows_full :
    ∃ s, (spaceSystem (Fin 3) nlog).Reach (logsAtMost (maxOpBlocks - 1)) s ∧
      s.log.lh.length = 27 ∧ s.panicked ≠ some .tooBig ∧ s.log.lh.Nodup ∧
      s.log.lh.length ≤ nlog - 1 := by
  obtain ⟨s, hs, hlen⟩ := fill_reach (maxOpBlocks - 1) (fill 9 [0, 1, 2])
    (fun s => s.log.lh.length = 27) (by decide)
  exact ⟨s, hs, hlen, log_never_overflows hs⟩

end Xv6.Fs.Space
