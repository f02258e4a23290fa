import Mathlib.Data.Int.Notation
import Mathlib.Data.Nat.Notation

/-!
# The in-memory log record

`struct log` of `log.c`, as far as the functions that run under `log.lock`
read it. The header's `n` is the length of the list of logged block numbers.
The on-disk side (`write_log`, `write_head`, `install_trans`) is in
`Xv6.Fs.LogDisk`, crashes are in `Xv6.Fs.LogCrash`; the threads that sleep in `begin_op` are in `Xv6.Kernel`.
-/

namespace Xv6.Fs

/-- `MAXOPBLOCKS`: blocks one file system operation may log. -/
def maxOpBlocks : ℕ := 10

/-- `LOGSIZE`: data blocks of the on-disk log. -/
def logSize : ℕ := maxOpBlocks * 3

/-- `struct log`, without its lock, its device and the position of the log
area (`start` and `size` are constants after `initlog`). -/
structure Log where
  outstanding : ℤ
  committing : Bool
  lh : List ℕ
deriving DecidableEq, Repr

namespace Log

/-- The log after `initlog`. -/
def empty : Log := ⟨0, false, []⟩

/-- `begin_op` has to wait: a commit is running, or this operation might
exhaust the log. -/
def mustWait (l : Log) : Bool :=
  l.committing ||
    decide ((logSize : ℤ) < l.lh.length + (l.outstanding + 1) * maxOpBlocks)

/-- `begin_op` admits the operation. -/
def enter (l : Log) : Log := { l with outstanding := l.outstanding + 1 }

/-- `log_write` panics with "too big a transaction": `size` is `log.size`. -/
def tooBig (size : ℕ) (l : Log) : Bool :=
  decide (logSize ≤ l.lh.length) || decide ((size : ℤ) - 1 ≤ l.lh.length)

/-- `log_write`'s update of the header: a block already logged is absorbed. -/
def record (l : Log) (b : ℕ) : Log :=
  if b ∈ l.lh then l else { l with lh := l.lh ++ [b] }

/-- The first half of `end_op`: one operation fewer, and the last one starts
the commit. -/
def leave (l : Log) : Log :=
  { l with outstanding := l.outstanding - 1
           committing := l.committing || decide (l.outstanding - 1 = 0) }

/-- The second half of `end_op`, after `commit()` has emptied the header. -/
def committed (l : Log) : Log := { l with committing := false, lh := [] }

variable {l : Log} {b c : ℕ}

theorem record_of_mem (h : b ∈ l.lh) : l.record b = l := if_pos h

theorem record_of_not_mem (h : b ∉ l.lh) :
    l.record b = { l with lh := l.lh ++ [b] } :=
  if_neg h

theorem mem_record : c ∈ (l.record b).lh ↔ c ∈ l.lh ∨ c = b := by
  by_cases hm : b ∈ l.lh
  · rw [record_of_mem hm]
    exact ⟨.inl, fun hc => hc.elim id fun e => e ▸ hm⟩
  · rw [record_of_not_mem hm]
    show c ∈ l.lh ++ [b] ↔ _
    rw [List.mem_append, List.mem_singleton]

theorem nodup_record (h : l.lh.Nodup) : (l.record b).lh.Nodup := by
  by_cases hm : b ∈ l.lh
  · rw [record_of_mem hm]
    exact h
  · rw [record_of_not_mem hm]
    show (l.lh ++ [b]).Nodup
    refine List.nodup_append.mpr ⟨h, List.pairwise_singleton _ b, ?_⟩
    intro c hc c' hc' e
    exact hm (List.mem_singleton.mp hc' ▸ e ▸ hc)

theorem length_record_le (l : Log) (b : ℕ) :
    (l.record b).lh.length ≤ l.lh.length + 1 := by
  by_cases hm : b ∈ l.lh
  · rw [record_of_mem hm]
    exact Nat.le_succ _
  · rw [record_of_not_mem hm]
    exact Nat.le_of_eq (List.length_append ..)

/-- `log_write` changes the header only. -/
theorem record_outstanding : (l.record b).outstanding = l.outstanding := by
  unfold record
  split <;> rfl

theorem record_committing : (l.record b).committing = l.committing := by
  unfold record
  split <;> rfl

end Log

end Xv6.Fs
