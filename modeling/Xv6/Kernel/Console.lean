import Mathlib.Data.List.Basic
import Xv6.Lib.CircularBuffer
import Xv6.Lib.Transition

/-!
# The console line discipline

`consoleintr` and `consoleread` of console.c on the buffer `input`, with its three indices, and
the line editor that they implement: a queue of committed bytes and a line that is being edited.
`consoleintr` is modelled for one character at a time. A reader runs from the `acquire`, or from
the return of `sleep`, up to the next `sleep` or to the `release`, and may go on at any time.
-/

namespace Xv6.Console

open Xv6.Lib

/-! ## §1  Readers -/

/-- `C(x)`. -/
def ctrl (x : UInt8) : UInt8 := x - 64

/-- `C('P')`, a process listing. -/
def ctrlP : UInt8 := ctrl 80

/-- `C('U')`, kill line. -/
def ctrlU : UInt8 := ctrl 85

/-- `C('H')`, backspace. -/
def ctrlH : UInt8 := ctrl 72

/-- `C('D')`, end of file. -/
def ctrlD : UInt8 := ctrl 68

def newline : UInt8 := 10

/-- `INPUT_BUF`. -/
def inputBuf : ℕ := 128

instance : NeZero inputBuf := ⟨by decide⟩

/-- Where a call of `consoleread` is: `n` bytes to go of `target`, and the bytes that are in the
caller's buffer. -/
inductive Phase where
  | ready
  | reading (target n : ℕ) (got : List UInt8)
  | returned (got : List UInt8) (ret : ℤ)
deriving DecidableEq, Repr

/-- What takes characters and lets readers go on. -/
structure Device (σ : Type) where
  key : σ → UInt8 → σ
  read : σ → (target n : ℕ) → List UInt8 → σ × Phase

/-- A device, and the calls of type `R` that are made to it. -/
structure Terminal (σ R : Type) where
  dev : σ
  phase : R → Phase

inductive Act (R : Type) where
  | key (c : UInt8)
  | read (p : R) (n : ℕ)
  | run (p : R)

variable {σ R : Type} [DecidableEq R]

def Terminal.goto (x : Terminal σ R) (p : R) (ph : Phase) : Terminal σ R :=
  { x with phase := Function.update x.phase p ph }

def Device.step (d : Device σ) (x : Terminal σ R) : Act R → Option (Terminal σ R)
  | .key c => some { x with dev := d.key x.dev c }
  | .read p n => if x.phase p = .ready then some (x.goto p (.reading n n [])) else none
  | .run p =>
      match x.phase p with
      | .reading target n got =>
          some { x.goto p (d.read x.dev target n got).2 with
            dev := (d.read x.dev target n got).1 }
      | _ => none

/-- No call has been made yet. -/
def Device.system (d : Device σ) (start : σ → Prop) : System (Terminal σ R) (Act R) where
  init x := start x.dev ∧ ∀ p, x.phase p = .ready
  step := d.step

/-! ## §2  The buffer -/

/-- `input`. -/
structure Input where
  buf : Fin inputBuf → UInt8
  r : UInt32
  w : UInt32
  e : UInt32

namespace Input

/-- `input.buf[input.e++ % INPUT_BUF] = c` -/
def put (i : Input) (c : UInt8) : Input :=
  { i with buf := Function.update i.buf (cell inputBuf i.e.toNat) c, e := i.e + 1 }

/-- The loop of `C('U')`; it runs at most `e - w` times. -/
def killLine (i : Input) : ℕ → Input
  | 0 => i
  | n + 1 =>
      if i.e ≠ i.w ∧ i.buf (cell inputBuf (i.e - 1).toNat) ≠ newline then
        killLine { i with e := i.e - 1 } n
      else i

/-- `consoleintr` on the character `c`. -/
def consoleintr (i : Input) (c : UInt8) : Input :=
  if c = ctrlP then i
  else if c = ctrlU then i.killLine (i.e - i.w).toNat
  else if c = ctrlH ∨ c = 127 then
    if i.e ≠ i.w then { i with e := i.e - 1 } else i
  else if c ≠ 0 ∧ i.e - i.r < 128 then
    let c := if c = 13 then newline else c
    let i := i.put c
    if c = newline ∨ c = ctrlD ∨ i.e = i.r + 128 then { i with w := i.e } else i
  else i

/-- The loop of `consoleread`, up to a `sleep` or to the end. -/
def consoleread (i : Input) (target : ℕ) : ℕ → List UInt8 → Input × Phase
  | 0, got => (i, .returned got (target - (0 : ℕ)))
  | n + 1, got =>
      if i.r = i.w then (i, .reading target (n + 1) got)
      else
        let c := i.buf (cell inputBuf i.r.toNat)
        let i' := { i with r := i.r + 1 }
        if c = ctrlD then
          (if n + 1 < target then { i' with r := i'.r - 1 } else i',
            .returned got (target - (n + 1 : ℕ)))
        else if c = newline then (i', .returned (got ++ [c]) (target - n))
        else consoleread i' target n (got ++ [c])

end Input

def console : Device Input := ⟨Input.consoleintr, Input.consoleread⟩

/-! ## §3  The line editor -/

/-- The committed bytes, and the line that is being edited. -/
structure Editor where
  committed : List UInt8
  line : List UInt8
deriving DecidableEq, Repr

namespace Editor

/-- A character is typed. -/
def type (d : Editor) (c : UInt8) : Editor :=
  if c ≠ 0 ∧ d.committed.length + d.line.length < inputBuf then
    let c := if c = 13 then newline else c
    let line := d.line ++ [c]
    if c = newline ∨ c = ctrlD ∨ d.committed.length + line.length = inputBuf then
      ⟨d.committed ++ line, []⟩
    else ⟨d.committed, line⟩
  else d

/-- Keys that edit, and characters. -/
def edit (d : Editor) (c : UInt8) : Editor :=
  if c = ctrlU then { d with line := [] }
  else if c = ctrlH ∨ c = 127 then { d with line := d.line.dropLast }
  else d.type c

/-- A process listing is no input. -/
def key (d : Editor) (c : UInt8) : Editor := if c = ctrlP then d else d.edit c

/-- A reader takes bytes up to a newline, or to an end of file, which it takes only as its first
one. -/
def read (d : Editor) (target : ℕ) : ℕ → List UInt8 → Editor × Phase
  | 0, got => (d, .returned got got.length)
  | n + 1, got =>
      match d.committed with
      | [] => (d, .reading target (n + 1) got)
      | c :: rest =>
          if c = ctrlD then
            if got = [] then ({ d with committed := rest }, .returned [] 0)
            else (d, .returned got got.length)
          else if c = newline then
            ({ d with committed := rest }, .returned (got ++ [c]) (got ++ [c]).length)
          else read { d with committed := rest } target n (got ++ [c])

end Editor

def editor : Device Editor := ⟨Editor.key, Editor.read⟩

/-! ## §4  The buffer holds the line -/

/-- The cells from `r` to `w` are the committed bytes and those from `w` to `e` the line. -/
structure Edits (i : Input) (d : Editor) : Prop where
  cells : Buffers inputBuf (2 ^ 32) i.buf i.r.toNat i.e.toNat (d.committed ++ d.line)
  write : i.w.toNat = (i.r.toNat + d.committed.length) % 2 ^ 32
  line : newline ∉ d.line

namespace Edits

variable {i : Input} {d : Editor} {c : UInt8} {C E got : List UInt8} {n target : ℕ}

theorem dvd : inputBuf ∣ 2 ^ 32 := by decide

theorem length_le (h : Edits i d) : d.committed.length + d.line.length ≤ 128 := by
  rw [← List.length_append]
  exact h.cells.length_le

/-- Distances between the indices. -/
theorem toNat_sub (h : Edits i d) :
    (i.e - i.r).toNat = d.committed.length + d.line.length ∧
    (i.w - i.r).toNat = d.committed.length ∧ (i.e - i.w).toNat = d.line.length := by
  have hlen := h.length_le
  have he := h.cells.write_eq
  have hw := h.write
  have hr := i.r.toNat_lt
  rw [List.length_append] at he
  refine ⟨?_, ?_, ?_⟩
  · rw [UInt32.toNat_sub]
    omega
  · rw [UInt32.toNat_sub]
    omega
  · rw [UInt32.toNat_sub]
    omega

theorem eq_iff_sub {a b : UInt32} : a = b ↔ (a - b).toNat = 0 := by
  rw [← UInt32.toNat_inj, UInt32.toNat_sub]
  have ha := a.toNat_lt
  have hb := b.toNat_lt
  omega

theorem line_empty_iff (h : Edits i d) : i.e = i.w ↔ d.line = [] := by
  rw [eq_iff_sub, h.toNat_sub.2.2, List.length_eq_zero_iff]

theorem committed_empty_iff (h : Edits i d) : i.r = i.w ↔ d.committed = [] := by
  rw [eq_comm, eq_iff_sub, h.toNat_sub.2.1, List.length_eq_zero_iff]

/-- The last character of the line goes. -/
theorem erase (h : Edits i ⟨C, E ++ [c]⟩) : Edits { i with e := i.e - 1 } ⟨C, E⟩ ∧
    i.buf (cell inputBuf (i.e - 1).toNat) = c := by
  have hcells := h.cells
  have hsub : (i.e - 1).toNat = (i.e.toNat + (2 ^ 32 - 1)) % 2 ^ 32 := by
    rw [UInt32.toNat_sub, show UInt32.toNat 1 = 1 from rfl]
    omega
  dsimp only at hcells
  rw [← List.append_assoc] at hcells
  rw [hsub]
  refine ⟨⟨?_, h.write, fun hm => h.line (List.mem_append_left _ hm)⟩, hcells.back dvd⟩
  rw [hsub]
  exact hcells.unpush

theorem killLine (h : Edits i ⟨C, E⟩) (hn : E.length ≤ n) : Edits (i.killLine n) ⟨C, []⟩ := by
  induction n generalizing i E with
  | zero =>
      rw [List.length_eq_zero_iff.mp (Nat.le_zero.mp hn)] at h
      exact h
  | succ n ih =>
      unfold Input.killLine
      rcases List.eq_nil_or_concat' E with rfl | ⟨E', c, rfl⟩
      · rw [if_neg fun hne => hne.1 (h.line_empty_iff.mpr rfl)]
        exact h
      · obtain ⟨h', hc⟩ := h.erase
        have hne : i.e ≠ i.w := fun he => absurd (h.line_empty_iff.mp he) (by simp)
        have hnl : c ≠ newline := fun hcn => h.line (by simp [hcn])
        rw [if_pos ⟨hne, by rwa [hc]⟩]
        refine ih h' ?_
        rw [List.length_append, List.length_singleton] at hn
        omega

/-- A character goes to the end of the line. -/
theorem put (h : Edits i d) (hlt : d.committed.length + d.line.length < inputBuf)
    (hc : c ≠ newline) : Edits (i.put c) ⟨d.committed, d.line ++ [c]⟩ := by
  have hpush := h.cells.push dvd (by rwa [List.length_append]) c
  have he : (i.e + 1).toNat = (i.e.toNat + 1) % 2 ^ 32 := UInt32.toNat_add ..
  rw [← he, List.append_assoc] at hpush
  refine ⟨hpush, h.write, fun hm => ?_⟩
  rcases List.mem_append.mp hm with hm | hm
  · exact h.line hm
  · exact hc (List.mem_singleton.mp hm).symm

/-- The line is committed, with a last character. -/
theorem commit (h : Edits i d) (hlt : d.committed.length + d.line.length < inputBuf) :
    Edits { i.put c with w := (i.put c).e } ⟨d.committed ++ (d.line ++ [c]), []⟩ := by
  have hpush := h.cells.push dvd (by rwa [List.length_append]) c
  have he : (i.e + 1).toNat = (i.e.toNat + 1) % 2 ^ 32 := UInt32.toNat_add ..
  rw [← he, List.append_assoc] at hpush
  refine ⟨?_, hpush.write_eq, List.not_mem_nil⟩
  rw [List.append_nil]
  exact hpush

/-- The buffer is full with the next character. -/
theorem full_iff (h : Edits i d) : (i.put c).e = (i.put c).r + 128 ↔
      d.committed.length + (d.line ++ [c]).length = inputBuf := by
  have hsub := h.toNat_sub.1
  show i.e + 1 = i.r + 128 ↔ _
  rw [List.length_append, List.length_singleton, ← UInt32.toNat_inj, UInt32.toNat_add,
    UInt32.toNat_add, show UInt32.toNat 1 = 1 from rfl, show UInt32.toNat 128 = 128 from rfl,
    show inputBuf = 128 from rfl]
  rw [UInt32.toNat_sub] at hsub
  have hr := i.r.toNat_lt
  have he := i.e.toNat_lt
  have hle := h.length_le
  omega

theorem type (h : Edits i d) (hP : c ≠ ctrlP) (hU : c ≠ ctrlU) (hH : ¬ (c = ctrlH ∨ c = 127)) :
    Edits (i.consoleintr c) (d.type c) := by
  rw [Input.consoleintr, if_neg hP, if_neg hU, if_neg hH, Editor.type]
  have hroom : i.e - i.r < 128 ↔ d.committed.length + d.line.length < inputBuf := by
    rw [UInt32.lt_iff_toNat_lt, h.toNat_sub.1]
    rfl
  rw [if_congr (and_congr_right' hroom) rfl rfl]
  by_cases hput : c ≠ 0 ∧ d.committed.length + d.line.length < inputBuf
  · rw [if_pos hput, if_pos hput]
    dsimp only
    generalize (if c = 13 then newline else c) = c
    rw [if_congr (or_congr_right (or_congr_right h.full_iff)) rfl rfl]
    split_ifs with hend
    · exact h.commit hput.2
    · exact h.put hput.2 fun hc => hend (.inl hc)
  · rw [if_neg hput, if_neg hput]
    exact h

theorem key (h : Edits i d) (c : UInt8) : Edits (i.consoleintr c) (d.key c) := by
  by_cases hP : c = ctrlP
  · rw [Input.consoleintr, Editor.key, if_pos hP, if_pos hP]
    exact h
  rw [Editor.key, if_neg hP, Editor.edit]
  by_cases hU : c = ctrlU
  · rw [Input.consoleintr, if_neg hP, if_pos hU, if_pos hU, h.toNat_sub.2.2]
    exact h.killLine (Nat.le_refl _)
  rw [if_neg hU]
  by_cases hH : c = ctrlH ∨ c = 127
  · rw [Input.consoleintr, if_neg hP, if_neg hU, if_pos hH, if_pos hH]
    obtain ⟨C, E⟩ := d
    rcases List.eq_nil_or_concat' E with rfl | ⟨E, x, rfl⟩
    · rw [if_neg fun hne => hne (h.line_empty_iff.mpr rfl)]
      exact h
    · have hne : i.e ≠ i.w := fun he => absurd (h.line_empty_iff.mp he) (by simp)
      rw [if_pos hne]
      dsimp only
      rw [List.dropLast_concat]
      exact h.erase.1
  · rw [if_neg hH]
    exact h.type hP hU hH

/-- The first committed byte goes. -/
theorem take (h : Edits i ⟨c :: C, E⟩) : Edits { i with r := i.r + 1 } ⟨C, E⟩ := by
  have hr : (i.r + 1).toNat = (i.r.toNat + 1) % 2 ^ 32 := UInt32.toNat_add ..
  refine ⟨?_, ?_, h.line⟩
  · rw [hr]
    exact h.cells.pop dvd
  · have hw := h.write
    dsimp only at hw ⊢
    rw [hr, hw, List.length_cons, Nat.mod_add_mod]
    congr 1
    omega

/-- A stretch of a read. -/
theorem read (h : Edits i d) (hn : n + got.length = target) :
    Edits (i.consoleread target n got).1 (d.read target n got).1 ∧
      (i.consoleread target n got).2 = (d.read target n got).2 := by
  induction n generalizing i d got with
  | zero =>
      refine ⟨h, ?_⟩
      have hret : (target : ℤ) - (0 : ℕ) = got.length := by omega
      exact congrArg (Phase.returned got) hret
  | succ n ih =>
      obtain ⟨C, E⟩ := d
      unfold Input.consoleread Editor.read
      cases C with
      | nil =>
          rw [if_pos (h.committed_empty_iff.mpr rfl)]
          exact ⟨h, rfl⟩
      | cons c C =>
          have hne : i.r ≠ i.w := fun he => List.cons_ne_nil c C (h.committed_empty_iff.mp he)
          have hc : i.buf (cell inputBuf i.r.toNat) = c := h.cells.front
          rw [if_neg hne]
          dsimp only
          rw [hc]
          by_cases hD : c = ctrlD
          · rw [if_pos hD, if_pos hD]
            have hret : (target : ℤ) - (n + 1 : ℕ) = got.length := by omega
            rw [hret]
            by_cases hgot : got = []
            · rw [if_pos hgot, if_neg (by rw [← hn, hgot]; exact Nat.lt_irrefl _), hgot]
              exact ⟨h.take, rfl⟩
            · have hpos := List.length_pos_iff.mpr hgot
              rw [if_neg hgot, if_pos (by omega)]
              refine ⟨?_, rfl⟩
              have hback : i.r + 1 - 1 = i.r := UInt32.add_sub_cancel ..
              rw [hback]
              exact h
          · rw [if_neg hD, if_neg hD]
            by_cases hN : c = newline
            · rw [if_pos hN, if_pos hN]
              refine ⟨h.take, ?_⟩
              have hret : (target : ℤ) - n = (got ++ [c]).length := by
                rw [List.length_append, List.length_singleton]
                omega
              exact congrArg (Phase.returned _) hret
            · rw [if_neg hN, if_neg hN]
              refine ih h.take ?_
              rw [List.length_append, List.length_singleton]
              omega

theorem start (buf : Fin inputBuf → UInt8) (x : UInt32) : Edits ⟨buf, x, x, x⟩ ⟨[], []⟩ :=
  ⟨.nil x.toNat_lt, (Nat.mod_eq_of_lt x.toNat_lt).symm, List.not_mem_nil⟩

end Edits

/-! ## §5  The console is a line editor -/

/-- What a reader that waits has still to get. -/
def Phase.Left : Phase → Prop
  | .reading target n got => n + got.length = target
  | _ => True

theorem Editor.read_left {d : Editor} {target n : ℕ} {got : List UInt8}
    (hn : n + got.length = target) : (d.read target n got).2.Left := by
  induction n generalizing d got with
  | zero => trivial
  | succ n ih =>
      unfold Editor.read
      split
      · exact hn
      · rename_i c rest _
        split_ifs
        · trivial
        · trivial
        · trivial
        · refine ih ?_
          rw [List.length_append, List.length_singleton]
          omega

/-- The two terminals look the same. -/
structure Shows (x : Terminal Input R) (y : Terminal Editor R) : Prop where
  edits : Edits x.dev y.dev
  phase : x.phase = y.phase
  left : ∀ p, (x.phase p).Left

theorem Shows.goto {x : Terminal Input R} {y : Terminal Editor R} {i : Input} {d : Editor}
    {ph : Phase} (h : Shows x y) (hd : Edits i d) (p : R) (hp : ph.Left) :
    Shows { x.goto p ph with dev := i } { y.goto p ph with dev := d } := by
  refine ⟨hd, ?_, fun q => ?_⟩
  · show Function.update x.phase p ph = Function.update y.phase p ph
    rw [h.phase]
  · show (Function.update x.phase p ph q).Left
    by_cases hq : q = p
    · rw [hq, Function.update_self]
      exact hp
    · rw [Function.update_of_ne hq]
      exact h.left q

theorem Shows.step {x : Terminal Input R} {y : Terminal Editor R} (h : Shows x y) (a : Act R) :
    Option.Rel Shows (console.step x a) (editor.step y a) := by
  cases a with
  | key c => exact .some ⟨h.edits.key c, h.phase, h.left⟩
  | read p n =>
      unfold Device.step
      rw [h.phase]
      dsimp only
      split_ifs
      · exact .some (h.goto h.edits p rfl)
      · exact .none
  | run p =>
      have hleft := h.left p
      unfold Device.step
      dsimp only
      rw [h.phase] at hleft ⊢
      split
      · rename_i target n got hp
        rw [hp] at hleft
        obtain ⟨hedits, hphase⟩ := h.edits.read hleft
        refine .some ?_
        show Shows { x.goto p (x.dev.consoleread target n got).2 with
          dev := (x.dev.consoleread target n got).1 } _
        rw [hphase]
        exact h.goto hedits p (Editor.read_left hleft)
      · exact .none

/-- From three equal indices, for all characters and calls in any order: the readers get what the
line editor gives them, and the indices are in order, with at most `INPUT_BUF` between them. -/
theorem console_refines_editor (buf : Fin inputBuf → UInt8) (x : UInt32) (l : List (Act R)) :
    Option.Rel (fun s t => s.phase = t.phase ∧ s.dev.w - s.dev.r ≤ s.dev.e - s.dev.r ∧
        s.dev.e - s.dev.r ≤ 128)
      ((console.system fun _ => True).exec System.anyStep ⟨⟨buf, x, x, x⟩, fun _ => .ready⟩ l)
      ((editor.system fun _ => True).exec System.anyStep ⟨⟨[], []⟩, fun _ => .ready⟩ l) := by
  have hstart : Shows (R := R) ⟨⟨buf, x, x, x⟩, fun _ => .ready⟩ ⟨⟨[], []⟩, fun _ => .ready⟩ :=
    ⟨.start buf x, rfl, fun _ => trivial⟩
  refine System.exec_rel (R := Shows) (fun _ _ a h => h.step a) (fun s t h => ?_) hstart
  obtain ⟨he, hw, _⟩ := h.edits.toNat_sub
  have hle := h.edits.length_le
  refine ⟨h.phase, ?_, ?_⟩
  · rw [UInt32.le_iff_toNat_le, he, hw]
    exact Nat.le_add_right ..
  · rw [UInt32.le_iff_toNat_le, he]
    exact hle

/-- `^P` is a nonzero character that does not come into the line. -/
theorem listing_is_no_input :
    (((console.system fun _ => True).exec System.anyStep
      ⟨⟨fun _ => 0, 0, 0, 0⟩, fun _ : Unit => .ready⟩
      [.key ctrlP, .key newline, .read () 5, .run ()]).any fun s =>
        decide (s.phase () = .returned [newline] 1)) = true ∧
    (((Device.system ⟨Editor.edit, Editor.read⟩ fun _ => True).exec System.anyStep
      ⟨⟨[], []⟩, fun _ : Unit => .ready⟩
      [.key ctrlP, .key newline, .read () 5, .run ()]).any fun s =>
        decide (s.phase () = .returned [ctrlP, newline] 2)) = true := by
  decide

end Xv6.Console
