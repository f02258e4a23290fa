import Mathlib.Data.List.Basic
import Mathlib.Data.Nat.Notation

/-!
# `grep`

grep.c, over the bytes that arrive. `buf` is a list: the bytes that are kept in front,
with what `read` adds. The NULs that the loop stores (behind the buffer, and over a
newline while `match` looks at the line in front of it) end the C strings here, so that
a string is a list.

How the input arrives is a list of pieces. A call of `read` returns from one piece, as
much as it was asked for, and 0 at the end.
-/

namespace Xv6.User.Grep

/-! ## §1  The matcher -/

/-- `matchstar`, with `matchhere` of the rest of the pattern. -/
def matchstar (c : UInt8) (here : List UInt8 → Bool) : List UInt8 → Bool
  | [] => here []
  | t :: ts => here (t :: ts) || ((t == c || c == '.'.toUInt8) && matchstar c here ts)

def matchhere : List UInt8 → List UInt8 → Bool
  | [], _ => true
  | [c], text =>
      if c = '$'.toUInt8 then text.isEmpty
      else
        match text with
        | [] => false
        | t :: _ => c == '.'.toUInt8 || c == t
  | c :: d :: re, text =>
      if d = '*'.toUInt8 then matchstar c (matchhere re) text
      else
        match text with
        | [] => false
        | t :: ts => (c == '.'.toUInt8 || c == t) && matchhere (d :: re) ts

/-- The loop of `match`. -/
def matchAny (re : List UInt8) : List UInt8 → Bool
  | [] => matchhere re []
  | t :: ts => matchhere re (t :: ts) || matchAny re ts

/-- `match` -/
def matchText (re text : List UInt8) : Bool :=
  match re with
  | [] => matchAny [] text
  | c :: re' => if c = '^'.toUInt8 then matchhere re' text else matchAny (c :: re') text

/-! ## §2  The loops -/

def newline : UInt8 := '\n'.toUInt8

/-- `sizeof(buf)` -/
def bufSize : ℕ := 1024

/-- `strchr`: the string in front of the first `c`, and what is behind it. -/
def strchr (c : UInt8) : List UInt8 → Option (List UInt8 × List UInt8)
  | [] => none
  | b :: bs =>
      if b = 0 then none
      else if b = c then some ([], bs)
      else (strchr c bs).map fun r => (b :: r.1, r.2)

/-- The inner loop, from `p` on: what it writes, and `p` at its end. Every round takes a
byte at least. -/
def lineLoop (re : List UInt8) : ℕ → List UInt8 → List UInt8 × List UInt8
  | 0, p => ([], p)
  | fuel + 1, p =>
      match strchr newline p with
      | none => ([], p)
      | some (line, p') =>
          let r := lineLoop re fuel p'
          (if matchText re line then line ++ newline :: r.1 else r.1, r.2)

/-- A round of `grep`: what `read` has returned, and what has been written. -/
structure Round where
  read : List UInt8
  wrote : List UInt8
deriving DecidableEq

/-- The outer loop, with what is kept in the buffer. Every round reads a byte at
least. -/
def grepLoop (re : List UInt8) : ℕ → List UInt8 → List (List UInt8) → List Round
  | 0, _, _ => []
  | _ + 1, _, [] => []
  | fuel + 1, kept, piece :: pieces =>
      let room := bufSize - kept.length - 1
      let n := piece.take room
      if n = [] then []
      else
        let buf := kept ++ n
        let r := lineLoop re buf.length buf
        let left := piece.drop room
        let kept := if r.2.length = buf.length then [] else r.2
        ⟨n, r.1⟩ :: grepLoop re fuel kept (if left = [] then pieces else left :: pieces)

/-- `grep`, on input that arrives in these pieces. -/
def grep (re : List UInt8) (pieces : List (List UInt8)) : List Round :=
  grepLoop re pieces.flatten.length [] pieces

/-- All bytes that are written. -/
def output (rounds : List Round) : List UInt8 := rounds.flatMap Round.wrote

/-! ## §3  What it is for -/

/-- A line that `grep` can handle: no NUL, no newline, and it fits. -/
structure IsLine (line : List UInt8) : Prop where
  nul : 0 ∉ line
  newline : newline ∉ line
  short : line.length < 1023

/-- The input that consists of these lines. -/
def unlines (lines : List (List UInt8)) : List UInt8 := lines.flatMap (· ++ [newline])

/-- The lines that match, in order. -/
def selected (re : List UInt8) (lines : List (List UInt8)) : List UInt8 :=
  unlines (lines.filter (matchText re))

section Lines

variable {re line p rest : List UInt8} {lines : List (List UInt8)} {fuel : ℕ}

theorem unlines_cons (line : List UInt8) (lines : List (List UInt8)) :
    unlines (line :: lines) = line ++ newline :: unlines lines := by
  simp [unlines]

theorem unlines_append (l l' : List (List UInt8)) : unlines (l ++ l') = unlines l ++ unlines l' :=
  List.flatMap_append

theorem selected_append (l l' : List (List UInt8)) :
    selected re (l ++ l') = selected re l ++ selected re l' := by
  rw [selected, List.filter_append, unlines_append]
  rfl

theorem selected_cons (line : List UInt8) (lines : List (List UInt8)) :
    selected re (line :: lines) = if matchText re line then line ++ newline :: selected re lines
      else selected re lines := by
  unfold selected
  split_ifs with h
  · rw [List.filter_cons_of_pos h, unlines_cons]
  · rw [List.filter_cons_of_neg h]

theorem strchr_of_notMem (h : newline ∉ p) : strchr newline p = none := by
  induction p with
  | nil => rfl
  | cons b bs ih =>
      obtain ⟨hne, hbs⟩ := not_or.mp (List.mem_cons.not.mp h)
      rw [strchr, if_neg (Ne.symm hne), ih hbs]
      exact ite_self _

theorem strchr_line (h0 : 0 ∉ line) (hn : newline ∉ line) (rest : List UInt8) :
    strchr newline (line ++ newline :: rest) = some (line, rest) := by
  induction line with
  | nil =>
      show (if newline = 0 then none else if newline = newline then some ([], rest) else _) = _
      rw [if_neg (by decide), if_pos rfl]
  | cons b bs ih =>
      obtain ⟨hb0, hbs0⟩ := not_or.mp (List.mem_cons.not.mp h0)
      obtain ⟨hbn, hbsn⟩ := not_or.mp (List.mem_cons.not.mp hn)
      rw [List.cons_append, strchr, if_neg (Ne.symm hb0), if_neg (Ne.symm hbn), ih hbs0 hbsn]
      rfl

/-- The inner loop takes the whole lines, and leaves what follows. -/
theorem lineLoop_spec (hl : ∀ line ∈ lines, IsLine line) (hp : newline ∉ p)
    (hf : lines.length ≤ fuel) :
    lineLoop re fuel (unlines lines ++ p) = (selected re lines, p) := by
  induction lines generalizing fuel with
  | nil =>
      cases fuel with
      | zero => rfl
      | succ fuel =>
          show lineLoop re (fuel + 1) p = _
          rw [lineLoop, strchr_of_notMem hp]
          rfl
  | cons line lines ih =>
      obtain ⟨hline, hlines⟩ := List.forall_mem_cons.mp hl
      cases fuel with
      | zero => exact absurd hf (Nat.not_succ_le_zero _)
      | succ fuel =>
          have hstr := strchr_line hline.nul hline.newline (unlines lines ++ p)
          rw [unlines_cons, List.append_assoc, List.cons_append, lineLoop, hstr]
          dsimp only
          rw [ih hlines (Nat.le_of_succ_le_succ hf), selected_cons]

theorem length_le_unlines (lines : List (List UInt8)) :
    lines.length ≤ (unlines lines).length := by
  induction lines with
  | nil => exact Nat.le_refl _
  | cons line lines ih =>
      rw [unlines_cons, List.length_append, List.length_cons, List.length_cons]
      omega

/-- A part of the input at a time: the lines that are complete, and the beginning of the
next one. -/
theorem split_unlines {text : List UInt8} (h : text ++ rest = unlines lines)
    (hl : ∀ line ∈ lines, newline ∉ line) :
    ∃ l l' p, lines = l ++ l' ∧ text = unlines l ++ p ∧ newline ∉ p ∧
      p ++ rest = unlines l' := by
  induction lines generalizing text with
  | nil =>
      obtain ⟨rfl, rfl⟩ := List.append_eq_nil_iff.mp h
      exact ⟨[], [], [], rfl, rfl, nofun, rfl⟩
  | cons line lines ih =>
      obtain ⟨hline, hlines⟩ := List.forall_mem_cons.mp hl
      rw [unlines_cons] at h
      rcases List.append_eq_append_iff.mp h with ⟨a, ha, hrest⟩ | ⟨_ | ⟨b, c⟩, hc, hrest⟩
      · -- the first line has not come to its end
        refine ⟨[], line :: lines, text, rfl, rfl, ?_, h.trans (unlines_cons ..).symm⟩
        rw [ha] at hline
        exact fun hin => hline (List.mem_append_left _ hin)
      · rw [List.append_nil] at hc
        exact ⟨[], line :: lines, text, rfl, rfl, hc ▸ hline, h.trans (unlines_cons ..).symm⟩
      · obtain ⟨rfl, htail⟩ := List.cons.inj hrest
        obtain ⟨l, l', p, rfl, rfl, hp, hleft⟩ := ih htail.symm hlines
        refine ⟨line :: l, l', p, rfl, ?_, hp, hleft⟩
        rw [hc, unlines_cons, List.append_assoc, List.cons_append]

end Lines

/-! ## §4  `grep` -/

section Rounds

variable {re kept : List UInt8} {lines pieces : List (List UInt8)} {fuel : ℕ}

/-- The beginning of a line leaves room in the buffer. -/
theorem room_pos {rest : List UInt8} (hl : ∀ line ∈ lines, IsLine line) (hkept : newline ∉ kept)
    (h : kept ++ rest = unlines lines) : kept.length < bufSize - 1 := by
  cases lines with
  | nil =>
      obtain ⟨rfl, _⟩ := List.append_eq_nil_iff.mp h
      decide
  | cons line lines =>
      have hshort := (hl line List.mem_cons_self).short
      rw [unlines_cons] at h
      rcases List.append_eq_append_iff.mp h with ⟨a, rfl, _⟩ | ⟨_ | ⟨b, c⟩, rfl, hrest⟩
      · rw [List.length_append] at hshort
        show kept.length < 1023
        omega
      · rw [List.append_nil]
        exact hshort
      · obtain ⟨rfl, _⟩ := List.cons.inj hrest
        exact absurd (List.mem_append_right _ List.mem_cons_self) hkept

/-- Without a newline there is no line. -/
theorem eq_nil_of_unlines (h : unlines lines = kept) (hkept : newline ∉ kept) : lines = [] := by
  cases lines with
  | nil => rfl
  | cons line lines =>
      rw [unlines_cons] at h
      exact absurd (h ▸ List.mem_append_right _ List.mem_cons_self) hkept

theorem flatten_left (left : List UInt8) (pieces : List (List UInt8)) :
    (if left = [] then pieces else left :: pieces).flatten = left ++ pieces.flatten := by
  split_ifs with h
  · rw [h, List.nil_append]
  · rfl

/-- A round that reads a newline takes the lines that are complete, and keeps the
beginning of the next one. -/
theorem round_spec (re : List UInt8) {n rest : List UInt8} (hl : ∀ line ∈ lines, IsLine line)
    (hin : newline ∈ n) (h : (kept ++ n) ++ rest = unlines lines) :
    ∃ l l' p, lines = l ++ l' ∧ newline ∉ p ∧ p ++ rest = unlines l' ∧
      lineLoop re (kept ++ n).length (kept ++ n) = (selected re l, p) ∧
      p.length ≠ (kept ++ n).length := by
  obtain ⟨l, l', p, rfl, htext, hp, hleft⟩ :=
    split_unlines h fun line hline => (hl line hline).newline
  have hfuel : l.length ≤ (kept ++ n).length := by
    rw [htext, List.length_append]
    exact Nat.le_trans (length_le_unlines l) (Nat.le_add_right ..)
  have hloop : lineLoop re (kept ++ n).length (unlines l ++ p) = (selected re l, p) :=
    lineLoop_spec (fun line hline => hl line (List.mem_append_left _ hline)) hp hfuel
  rw [← htext] at hloop
  refine ⟨l, l', p, rfl, hp, hleft, hloop, fun hlen => hp ?_⟩
  -- a newline has been read, so some line is complete
  rw [htext, List.length_append, Nat.right_eq_add, List.length_eq_zero_iff] at hlen
  rw [hlen, List.nil_append] at htext
  exact htext ▸ List.mem_append_right _ hin

/-- What is kept and what is still to come are the lines that are left, and these are
written as they match. -/
theorem grepLoop_spec (hl : ∀ line ∈ lines, IsLine line) (hkept : newline ∉ kept)
    (hne : ∀ piece ∈ pieces, piece ≠ []) (h : kept ++ pieces.flatten = unlines lines)
    (hf : pieces.flatten.length ≤ fuel)
    (hread : ∀ r ∈ grepLoop re fuel kept pieces, newline ∈ r.read) :
    output (grepLoop re fuel kept pieces) = selected re lines := by
  induction fuel generalizing kept lines pieces with
  | zero =>
      rw [List.eq_nil_of_length_eq_zero (Nat.le_zero.mp hf), List.append_nil] at h
      rw [eq_nil_of_unlines h.symm hkept]
      rfl
  | succ fuel ih =>
      cases pieces with
      | nil =>
          rw [List.flatten_nil, List.append_nil] at h
          rw [eq_nil_of_unlines h.symm hkept]
          rfl
      | cons piece pieces =>
          obtain ⟨hpiece, hpieces⟩ := List.forall_mem_cons.mp hne
          rw [List.flatten_cons] at h hf
          have hroom := room_pos hl hkept h
          have hpos : 0 < bufSize - kept.length - 1 := by omega
          -- the piece is what is read and what is left of it
          rw [← List.take_append_drop (bufSize - kept.length - 1) piece] at h hf
          have hn : piece.take (bufSize - kept.length - 1) ≠ [] := by
            rw [Ne, List.take_eq_nil_iff]
            exact not_or.mpr ⟨Nat.ne_of_gt hpos, hpiece⟩
          rw [grepLoop, if_neg hn] at hread ⊢
          generalize piece.take (bufSize - kept.length - 1) = n at h hf hn hread ⊢
          generalize piece.drop (bufSize - kept.length - 1) = left at h hf hread ⊢
          obtain ⟨hin, hread⟩ := List.forall_mem_cons.mp hread
          rw [List.append_assoc, ← List.append_assoc] at h
          obtain ⟨l, l', p, rfl, hp, hleft, hloop, hshort⟩ := round_spec re hl hin h
          dsimp only at hread ⊢
          rw [hloop] at hread ⊢
          dsimp only at hread ⊢
          rw [if_neg hshort] at hread ⊢
          rw [← flatten_left] at hleft
          show selected re l ++ output _ = _
          rw [selected_append]
          congr 1
          refine ih (fun line hline => hl line (List.mem_append_right _ hline)) hp ?_ hleft ?_ hread
          · intro piece hmem
            split_ifs at hmem with hnil
            · exact hpieces piece hmem
            · rcases List.mem_cons.mp hmem with rfl | hmem
              · exact hnil
              · exact hpieces piece hmem
          · have := List.length_pos_iff.mpr hn
            rw [List.length_append, List.length_append] at hf
            rw [flatten_left, List.length_append]
            omega

end Rounds

/-- Lines that arrive in any pieces, as long as every `read` returns a newline: what is
written are the lines that match. So it does not depend on the pieces. -/
theorem grep_selects (re : List UInt8) (lines pieces : List (List UInt8))
    (hl : ∀ line ∈ lines, IsLine line) (hne : ∀ piece ∈ pieces, piece ≠ [])
    (h : pieces.flatten = unlines lines) (hread : ∀ r ∈ grep re pieces, newline ∈ r.read) :
    output (grep re pieces) = selected re lines :=
  grepLoop_spec hl nofun hne h (Nat.le_refl _) hread

/-- The bytes of a C string literal. -/
def bytes (cs : List Char) : List UInt8 := cs.map Char.toUInt8

/-- `grep b` on three lines that come in two pieces, cut inside the second line. -/
theorem grep_selects_two_pieces :
    output (grep (bytes ['b']) [bytes ['a', 'b', '\n', 'c'], bytes ['b', '\n', 'd', '\n']]) =
      bytes ['a', 'b', '\n', 'c', 'b', '\n'] :=
  grep_selects (bytes ['b']) [bytes ['a', 'b'], bytes ['c', 'b'], bytes ['d']] _
    (by intro line hline; constructor <;> revert line <;> decide) (by decide) (by decide)
    (by decide)

/-- The line `ab` is written if it arrives at once, and lost if it arrives in two
pieces. -/
theorem grep_loses_line :
    IsLine (bytes ['a', 'b']) ∧
    output (grep (bytes ['a']) [bytes ['a', 'b', '\n']]) = bytes ['a', 'b', '\n'] ∧
    output (grep (bytes ['a']) [bytes ['a'], bytes ['b', '\n']]) = [] ∧
    selected (bytes ['a']) [bytes ['a', 'b']] = bytes ['a', 'b', '\n'] :=
  ⟨⟨by decide, by decide, by decide⟩, by decide, by decide, by decide⟩

end Xv6.User.Grep
