import Mathlib.Data.List.Forall2
import Mathlib.Data.List.TakeWhile
import Mathlib.Tactic.SplitIfs
import Xv6.User.Shell

/-!
# The grammar of command lines

Tokens, derivations and the trees they denote, independent of the parser. A
derivation is a tree of its own (`Line`, `Pipe`, `Command`), with the token list that
it derives as `yield`.

The parser reads tokens through `peek` and `gettoken` only: `wp_peek` and
`wp_gettoken` say what these two do to the list of the tokens that are left, so that
everything above them is an argument about token lists.
-/

namespace Xv6.User.Sh

open Xv6.Lib Xv6.Lib.PanicM

/-! ## §1  Tokens -/

inductive Token where
  | word (w : List UInt8)
  | lt | gt | gtgt | bar | amp | semi | lpar | rpar
deriving DecidableEq, Repr

/-- The operators of one byte, other than `>`. -/
def operator (b : UInt8) : Token :=
  if b = '<'.toUInt8 then .lt
  else if b = '|'.toUInt8 then .bar
  else if b = '&'.toUInt8 then .amp
  else if b = ';'.toUInt8 then .semi
  else if b = '('.toUInt8 then .lpar
  else .rpar

/-- The tokens of a line: maximal runs of word bytes, and operators. -/
def tokens : List UInt8 → List Token
  | [] => []
  | b :: bs =>
      if isSpace b then tokens bs
      else if isWord b then .word (b :: bs.takeWhile isWord) :: tokens (bs.dropWhile isWord)
      else if b = '>'.toUInt8 then
        if bs.head? = some '>'.toUInt8 then .gtgt :: tokens bs.tail else .gt :: tokens bs
      else operator b :: tokens bs
termination_by s => s.length
decreasing_by
  all_goals simp only [List.length_cons, List.length_tail]
  · omega
  · have := (List.dropWhile_sublist isWord (l := bs)).length_le
    omega
  all_goals omega

/-! ## §2  Derivations -/

inductive RedirOp where
  | lt | gt | gtgt
deriving DecidableEq, Repr

def RedirOp.token : RedirOp → Token
  | .lt => .lt
  | .gt => .gt
  | .gtgt => .gtgt

def RedirOp.mode : RedirOp → ℕ
  | .lt => oRdonly
  | .gt | .gtgt => oWronly ||| oCreate

def RedirOp.fd : RedirOp → ℕ
  | .lt => 0
  | .gt | .gtgt => 1

/-- `redir ::= ('<' | '>' | '>>') word`. -/
structure Redir where
  op : RedirOp
  file : List UInt8
deriving DecidableEq, Repr

def Redir.yield (r : Redir) : List Token := [r.op.token, .word r.file]

def redirsYield (rs : List Redir) : List Token := rs.flatMap Redir.yield

theorem redirsYield_cons (r : Redir) (rs : List Redir) :
    redirsYield (r :: rs) = r.yield ++ redirsYield rs := List.flatMap_cons

/-- A word and the redirections after it. -/
abbrev Arg := List UInt8 × List Redir

def Arg.yield (a : Arg) : List Token := .word a.1 :: redirsYield a.2

def argsYield (as : List Arg) : List Token := as.flatMap Arg.yield

theorem argsYield_cons (a : Arg) (as : List Arg) :
    argsYield (a :: as) = Arg.yield a ++ argsYield as := List.flatMap_cons

/-- `redir* (word redir*)*` with at most `MAXARGS - 1` words. -/
structure Simple where
  lead : List Redir
  args : List Arg
  few : args.length < maxargs

def Simple.yield (x : Simple) : List Token := redirsYield x.lead ++ argsYield x.args

mutual

/-- `line ::= pipe '&'* [';' line]`. -/
inductive Line where
  | last (p : Pipe) (amps : ℕ)
  | seq (p : Pipe) (amps : ℕ) (l : Line)

/-- `pipe ::= cmd ['|' pipe]`. -/
inductive Pipe where
  | one (c : Command)
  | pipe (c : Command) (p : Pipe)

/-- `cmd ::= '(' line ')' redir* | redir* (word redir*)*`. -/
inductive Command where
  | block (l : Line) (rs : List Redir)
  | simple (x : Simple)

end

mutual

def Line.yield : Line → List Token
  | .last p amps => p.yield ++ List.replicate amps .amp
  | .seq p amps l => p.yield ++ (List.replicate amps .amp ++ .semi :: l.yield)

def Pipe.yield : Pipe → List Token
  | .one c => c.yield
  | .pipe c p => c.yield ++ .bar :: p.yield

def Command.yield : Command → List Token
  | .block l rs => .lpar :: l.yield ++ .rpar :: redirsYield rs
  | .simple x => x.yield

end

/-! ## §3  What a derivation denotes -/

/-- A redirection is put around a command. -/
def wrap (c : Cmd (List UInt8)) (r : Redir) : Cmd (List UInt8) :=
  .redir c r.file r.op.mode r.op.fd

/-- The command with its arguments, and the redirections around it, each later one
outside. -/
def Simple.denote (x : Simple) : Cmd (List UInt8) :=
  (x.lead ++ x.args.flatMap Prod.snd).foldl wrap (.exec (x.args.map Prod.fst))

/-- A command with `n` times `&` after it. -/
def backs : ℕ → Cmd (List UInt8) → Cmd (List UInt8)
  | 0, c => c
  | n + 1, c => backs n (.back c)

mutual

def Line.denote : Line → Cmd (List UInt8)
  | .last p amps => backs amps p.denote
  | .seq p amps l => .list (backs amps p.denote) l.denote

def Pipe.denote : Pipe → Cmd (List UInt8)
  | .one c => c.denote
  | .pipe c p => .pipe c.denote p.denote

def Command.denote : Command → Cmd (List UInt8)
  | .block l rs => rs.foldl wrap l.denote
  | .simple x => x.denote

end

/-! ## §4  The cursor and the tokens -/

theorem isWord_of_not {b : UInt8} (h : isSpace b = false) :
    isWord b = !symbols.contains b := by
  simp [isWord, h]

theorem tokens_dropWhile (s : List UInt8) : tokens (s.dropWhile isSpace) = tokens s := by
  induction s with
  | nil => rfl
  | cons b bs ih =>
      by_cases h : isSpace b = true
      · rw [List.dropWhile_cons_of_pos h, ih, tokens, if_pos h]
      · rw [List.dropWhile_cons_of_neg h]

theorem tokens_ne_nil {b : UInt8} (h : isSpace b = false) (bs : List UInt8) :
    tokens (b :: bs) ≠ [] := by
  rw [tokens, if_neg (by simp [h])]
  split_ifs <;> nofun

theorem tokens_skip (c : Cursor) : tokens (c.skip isSpace).rest = tokens c.rest :=
  tokens_dropWhile c.rest

/-- The word `w` stands at `sp` in the line `s`, and ends there. -/
structure WordAt (s : List UInt8) (sp : Span) (w : List UInt8) : Prop where
  nonempty : w ≠ []
  text : s.drop sp.1 = w ++ s.drop sp.2
  size : sp.2 = sp.1 + w.length
  chars : ∀ b ∈ w, isWord b = true
  stop : ∀ b, s[sp.2]? = some b → isWord b = false

/-- The cursor is at its position in the line `s`. -/
def Cursor.At (s : List UInt8) (c : Cursor) : Prop := c.rest = s.drop c.pos

namespace Cursor

variable {s : List UInt8} {c : Cursor}

theorem At.skip (h : c.At s) (p : UInt8 → Bool) : (c.skip p).At s := by
  unfold At Cursor.skip at *
  dsimp only
  have e : (c.rest.takeWhile p ++ c.rest.dropWhile p).drop (c.rest.takeWhile p).length =
      c.rest.dropWhile p := List.drop_left ..
  rw [List.takeWhile_append_dropWhile] at e
  rw [← List.drop_drop, ← h, e]

theorem At.next (h : c.At s) : c.next.At s := by
  unfold At Cursor.next at *
  dsimp only
  rw [← List.drop_drop, ← h, List.drop_one]

/-- Before the end of the line there is no NUL. -/
theorem At.ne_nul (h : c.At s) (hs : 0 ∉ s) {b : UInt8} {bs : List UInt8}
    (hc : c.rest = b :: bs) : b ≠ 0 := by
  rintro rfl
  rw [show c.rest = _ from h] at hc
  exact hs (List.mem_of_mem_drop (by rw [hc]; exact List.mem_cons_self))

end Cursor

/-- What `gettoken` returns for a token. -/
def Token.ret : Token → UInt8
  | .word _ => 'a'.toUInt8
  | .lt => '<'.toUInt8
  | .gt => '>'.toUInt8
  | .gtgt => '+'.toUInt8
  | .bar => '|'.toUInt8
  | .amp => '&'.toUInt8
  | .semi => ';'.toUInt8
  | .lpar => '('.toUInt8
  | .rpar => ')'.toUInt8

theorem Token.ret_ne_zero (t : Token) : t.ret ≠ 0 := by
  cases t <;> (simp only [Token.ret]; decide)

/-- The operators of one byte that `gettoken` lists. -/
def operators : List UInt8 := bytes ['|', '(', ')', ';', '&', '<']

theorem operator_ret {b : UInt8} (h : operators.contains b = true) : (operator b).ret = b := by
  simp only [operators, bytes, List.map_cons, List.map_nil, List.contains_cons,
    List.contains_nil, Bool.or_false, Bool.or_eq_true, beq_iff_eq] at h
  rcases h with rfl | rfl | rfl | rfl | rfl | rfl <;> rfl

theorem operator_ne_word (b : UInt8) (w : List UInt8) : operator b ≠ .word w := by
  unfold operator
  split_ifs <;> nofun

theorem not_operator {b : UInt8} (hw : isWord b = true) :
    ¬ operators.contains b = true ∧ b ≠ '>'.toUInt8 := by
  simp only [isWord, symbols, operators, bytes, List.map_cons, List.map_nil,
    List.contains_cons, List.contains_nil, Bool.or_false, Bool.and_eq_true,
    Bool.not_eq_true', Bool.or_eq_false_iff, beq_eq_false_iff_ne] at hw ⊢
  simp [hw]

theorem gt_or_operator {b : UInt8} (hs : isSpace b = false) (hw : isWord b = false) :
    b = '>'.toUInt8 ∨ operators.contains b = true := by
  rw [isWord_of_not hs] at hw
  simp only [symbols, bytes, List.map_cons, List.map_nil, List.contains_cons,
    List.contains_nil, Bool.or_false, Bool.not_eq_false', Bool.or_eq_true, beq_iff_eq] at hw
  rcases hw with rfl | rfl | rfl | rfl | rfl | rfl | rfl
  all_goals first | exact .inl rfl | exact .inr rfl

/-- What the `switch` of `gettoken` makes of a line that does not begin with a
space. -/
inductive Lexes (s : List UInt8) (c : Cursor) : UInt8 × Cursor → Prop
  | done (h : tokens c.rest = []) : Lexes s c (0, c)
  | token {t : Token} {c' : Cursor} (h : tokens c.rest = t :: tokens c'.rest)
      (hat : c'.At s) (hw : ∀ w, t = .word w → WordAt s (c.pos, c'.pos) w) :
      Lexes s c (t.ret, c')

section Lex

variable {s : List UInt8} {c : Cursor} {b : UInt8} {bs : List UInt8}

theorem Cursor.cur_cons (h : c.rest = b :: bs) : c.cur = b := by
  rw [Cursor.cur, h]
  rfl

theorem lexes_word (hat : c.At s) (h : c.rest = b :: bs) (hb : isSpace b = false)
    (hw : isWord b = true) : Lexes s c ('a'.toUInt8, c.skip isWord) := by
  have hrest : c.rest.dropWhile isWord = bs.dropWhile isWord := by
    rw [h, List.dropWhile_cons_of_pos hw]
  have htake : c.rest.takeWhile isWord = b :: bs.takeWhile isWord := by
    rw [h, List.takeWhile_cons_of_pos hw]
  refine .token (t := .word (b :: bs.takeWhile isWord)) ?_ (hat.skip isWord) ?_
  · rw [h, tokens, if_neg (by simp [hb]), if_pos hw]
    exact congrArg _ (congrArg tokens hrest.symm)
  · rintro _ ⟨⟩
    rw [← htake]
    refine ⟨by rw [htake]; nofun, ?_, rfl, fun b hb => ?_, fun b hb => ?_⟩
    · rw [← show (c.skip isWord).rest = _ from hat.skip isWord, ← show c.rest = _ from hat]
      exact (List.takeWhile_append_dropWhile).symm
    · exact List.mem_takeWhile_imp hb
    · have hnot := List.head?_dropWhile_not isWord c.rest
      rw [show c.rest.dropWhile isWord = s.drop (c.skip isWord).pos from hat.skip isWord,
        List.head?_drop, hb] at hnot
      simpa using hnot

theorem lexes_gt (hat : c.At s) (h : c.rest = '>'.toUInt8 :: bs) :
    Lexes s c (if c.next.cur = '>'.toUInt8 then ('+'.toUInt8, c.next.next)
      else (c.cur, c.next)) := by
  have htok : tokens c.rest = if bs.head? = some '>'.toUInt8 then .gtgt :: tokens bs.tail
      else .gt :: tokens bs := by
    rw [h, tokens, if_neg (by decide), if_neg (by decide), if_pos rfl]
  have hbs : c.next.rest = bs := by
    rw [Cursor.next, h]
    rfl
  rw [Cursor.cur_cons h]
  by_cases hgt : c.next.cur = '>'.toUInt8
  · rw [if_pos hgt]
    refine .token (t := .gtgt) ?_ hat.next.next nofun
    rw [htok, if_pos ?_, Cursor.next, hbs]
    cases bs with
    | nil =>
        rw [Cursor.cur, hbs] at hgt
        exact absurd hgt (by decide)
    | cons b bs =>
        rw [Cursor.cur_cons hbs] at hgt
        rw [List.head?_cons, hgt]
  · rw [if_neg hgt]
    refine .token (t := .gt) ?_ hat.next nofun
    rw [htok, if_neg ?_, hbs]
    intro e
    cases bs with
    | nil => cases e
    | cons b bs =>
        rw [Cursor.cur_cons hbs] at hgt
        exact hgt (Option.some.inj e)

theorem lexes_operator (hat : c.At s) (h : c.rest = b :: bs) (hb : isSpace b = false)
    (hw : isWord b = false) (hop : operators.contains b = true) :
    Lexes s c (c.cur, c.next) := by
  rw [Cursor.cur_cons h, ← operator_ret hop]
  have hgt : b ≠ '>'.toUInt8 := by
    rintro rfl
    exact absurd hop (by decide)
  refine .token ?_ hat.next (fun w e => ?_)
  · rw [h, tokens, if_neg (by simp [hb]), if_neg (by simp [hw]), if_neg hgt, Cursor.next, h]
    rfl
  · exact absurd e (operator_ne_word b w)

theorem Cursor.lex_lexes (hs : 0 ∉ s) (hat : c.At s)
    (hspace : ∀ b bs, c.rest = b :: bs → isSpace b = false) : Lexes s c c.lex := by
  unfold Cursor.lex
  cases h : c.rest with
  | nil =>
      rw [if_pos (by rw [Cursor.cur, h]; rfl)]
      exact .done (by rw [h, tokens])
  | cons b bs =>
      have hcur := Cursor.cur_cons h
      have hb := hspace b bs h
      rw [if_neg (by rw [hcur]; exact hat.ne_nul hs h)]
      cases hw : isWord b with
      | true =>
          obtain ⟨hop, hgt⟩ := not_operator hw
          rw [if_neg (by rwa [hcur]), if_neg (by rwa [hcur])]
          exact lexes_word hat h hb hw
      | false =>
          rcases gt_or_operator hb hw with rfl | hop
          · rw [if_neg (by rw [hcur]; decide), if_pos hcur]
            exact lexes_gt hat h
          · rw [if_pos (by rw [hcur]; exact hop)]
            exact lexes_operator hat h hb hw hop

end Lex

/-- What `gettoken` makes of the tokens that are left. -/
inductive Gets (s : List UInt8) (ts : List Token) : UInt8 × Span × Cursor → Prop
  | done {sp : Span} {c' : Cursor} (h : ts = []) (h' : tokens c'.rest = [])
      (hat : c'.At s) : Gets s ts (0, sp, c')
  | token {t : Token} {sp : Span} {c' : Cursor} (h : ts = t :: tokens c'.rest)
      (hat : c'.At s) (hw : ∀ w, t = .word w → WordAt s sp w) : Gets s ts (t.ret, sp, c')

theorem Cursor.skip_head {c : Cursor} {b : UInt8} {bs : List UInt8}
    (h : (c.skip isSpace).rest = b :: bs) : isSpace b = false := by
  have hnot := List.head?_dropWhile_not isSpace c.rest
  rw [show c.rest.dropWhile isSpace = b :: bs from h] at hnot
  simpa using hnot

theorem Cursor.gettoken_gets {s : List UInt8} {c : Cursor} (hs : 0 ∉ s) (hat : c.At s) :
    Gets s (tokens c.rest) c.gettoken := by
  unfold Cursor.gettoken
  dsimp only
  have hq := hat.skip isSpace
  have hlex := (c.skip isSpace).lex_lexes hs hq fun _ _ => Cursor.skip_head
  rw [← tokens_skip c]
  generalize (c.skip isSpace).lex = r at hlex
  cases hlex with
  | done h => exact .done h (by rw [tokens_skip]; exact h) (hq.skip isSpace)
  | token h hat' hw => exact .token (by rw [h, tokens_skip]) (hat'.skip isSpace) hw

/-! ## §5  `peek` and `gettoken` on tokens -/

/-- The byte that an operator begins with. -/
def Token.first : Token → Option UInt8
  | .word _ => none
  | .lt => some '<'.toUInt8
  | .gt | .gtgt => some '>'.toUInt8
  | .bar => some '|'.toUInt8
  | .amp => some '&'.toUInt8
  | .semi => some ';'.toUInt8
  | .lpar => some '('.toUInt8
  | .rpar => some ')'.toUInt8

/-- The token list begins with one of these operators. -/
def Begins (cs : List Char) (ts : List Token) : Bool :=
  (ts.head?.bind Token.first).any (bytes cs).contains

/-- The operator `k` is the one that begins with `ch`. -/
def Sep (ch : Char) (k : Token) : Prop :=
  ∀ t : Token, (t.first.any (bytes [ch]).contains) = true → t = k

theorem sep_amp : Sep '&' .amp := by rintro (_ | _) h <;> first | rfl | cases h
theorem sep_semi : Sep ';' .semi := by rintro (_ | _) h <;> first | rfl | cases h
theorem sep_bar : Sep '|' .bar := by rintro (_ | _) h <;> first | rfl | cases h
theorem sep_lpar : Sep '(' .lpar := by rintro (_ | _) h <;> first | rfl | cases h
theorem sep_rpar : Sep ')' .rpar := by rintro (_ | _) h <;> first | rfl | cases h

theorem Sep.cases {ch : Char} {k : Token} (h : Sep ch k) (ts : List Token) :
    Begins [ch] ts = false ∨ ∃ ts', ts = k :: ts' := by
  cases hb : Begins [ch] ts with
  | false => exact .inl rfl
  | true =>
      cases ts with
      | nil => cases hb
      | cons t ts => exact .inr ⟨ts, by rw [h t hb]⟩

/-- The tokens that are left. -/
def State.toks (st : State) : List Token := tokens st.cursor.rest

/-- The parser is somewhere in the line `s`, and memory is left. -/
structure Good (s : List UInt8) (st : State) : Prop where
  cursor : st.cursor.At s
  room : st.room = none

section Rules

variable {s : List UInt8} {st : State} {α : Type} {E : Halt → Prop}

theorem operator_first {b : UInt8} (h : operators.contains b = true) :
    (operator b).first = some b := by
  simp only [operators, bytes, List.map_cons, List.map_nil, List.contains_cons,
    List.contains_nil, Bool.or_false, Bool.or_eq_true, beq_iff_eq] at h
  rcases h with rfl | rfl | rfl | rfl | rfl | rfl <;> rfl

/-- The first byte of a line tells how its tokens begin. -/
theorem begins_tokens {cs : List Char} (hcs : bytes cs ⊆ symbols) {b : UInt8}
    {bs : List UInt8} (hb : isSpace b = false) :
    Begins cs (tokens (b :: bs)) = (bytes cs).contains b := by
  rw [tokens, if_neg (by simp [hb])]
  split_ifs with hw hgt h₂
  · refine (Bool.eq_false_iff.mpr fun h => ?_).symm
    have := hcs (List.contains_iff_mem.mp h)
    simp [isWord, this] at hw
  · rw [hgt]
    rfl
  · rw [hgt]
    rfl
  · have hop := (gt_or_operator hb (Bool.eq_false_iff.mpr hw)).resolve_left hgt
    simp [Begins, operator_first hop]

/-- `peek` leaves the cursor at the next token, or at the end of the line. -/
theorem skip_eq_nil_iff (c : Cursor) : (c.skip isSpace).rest = [] ↔ tokens c.rest = [] := by
  rw [← tokens_skip c]
  cases h : (c.skip isSpace).rest with
  | nil => exact ⟨fun _ => by rw [tokens], fun _ => rfl⟩
  | cons b bs => exact ⟨nofun, fun e => absurd e (tokens_ne_nil (Cursor.skip_head h) bs)⟩

theorem wp_peek {cs : List Char} (hcs : bytes cs ⊆ symbols) (hs : 0 ∉ s) (hst : Good s st)
    {Q : Bool → State → Prop}
    (h : ∀ st', Good s st' → st'.toks = st.toks → Q (Begins cs st.toks) st') :
    wp (peek cs) Q E st := by
  have hval : ((st.cursor.skip isSpace).cur != 0 &&
      (bytes cs).contains (st.cursor.skip isSpace).cur) = Begins cs st.toks := by
    unfold State.toks
    rw [← tokens_skip]
    have hat := hst.cursor.skip isSpace
    cases hr : (st.cursor.skip isSpace).rest with
    | nil => simp [Cursor.cur, hr, Begins, tokens]
    | cons b bs =>
        rw [begins_tokens hcs (Cursor.skip_head hr), Cursor.cur_cons hr]
        simp [hat.ne_nul hs hr]
  have := h { st with cursor := st.cursor.skip isSpace }
    ⟨hst.cursor.skip isSpace, hst.room⟩ (tokens_skip st.cursor)
  rw [← hval] at this
  exact wp_bind (wp_get (wp_bind (wp_modify (wp_pure this))))

theorem wp_gettoken (hs : 0 ∉ s) (hst : Good s st) {Q : UInt8 × Span → State → Prop}
    (hdone : st.toks = [] → ∀ sp st', Good s st' → st'.toks = [] → Q (0, sp) st')
    (htoken : ∀ t ts, st.toks = t :: ts → ∀ sp st', Good s st' → st'.toks = ts →
      (∀ w, t = .word w → WordAt s sp w) → Q (t.ret, sp) st') :
    wp gettoken Q E st := by
  have hg := st.cursor.gettoken_gets hs hst.cursor
  have key : Q (st.cursor.gettoken.1, st.cursor.gettoken.2.1)
      { st with cursor := st.cursor.gettoken.2.2 } := by
    generalize st.cursor.gettoken = g at hg
    cases hg with
    | done h h' hat => exact hdone h _ _ ⟨hat, hst.room⟩ h'
    | token h hat hw => exact htoken _ _ h _ _ ⟨hat, hst.room⟩ rfl hw
  exact wp_bind (wp_get (wp_bind (wp_modify (wp_pure key))))

/-- `gettoken` takes the first token. -/
theorem wp_gettoken_cons (hs : 0 ∉ s) (hst : Good s st) {t : Token} {ts : List Token}
    (ht : st.toks = t :: ts) {Q : UInt8 × Span → State → Prop}
    (h : ∀ sp st', Good s st' → st'.toks = ts → (∀ w, t = .word w → WordAt s sp w) →
      Q (t.ret, sp) st') : wp gettoken Q E st := by
  refine wp_gettoken hs hst (fun h0 => ?_) fun t' ts' ht' => ?_
  · rw [ht] at h0
    cases h0
  · obtain ⟨rfl, rfl⟩ := List.cons.inj (ht.symm.trans ht')
    exact h

theorem wp_malloc (hst : Good s st) {Q : Unit → State → Prop} (h : Q () st) :
    wp malloc Q E st := by
  refine wp_bind (wp_get ?_)
  rw [hst.room]
  exact wp_pure h

end Rules

/-! ## §6  Trees of offsets and trees of words -/

/-- The two trees have the same shape and `R` relates their words. -/
inductive Cmd.Rel {W V : Type} (R : W → V → Prop) : Cmd W → Cmd V → Prop
  | exec {argv : List W} {argv' : List V} (h : List.Forall₂ R argv argv') :
      Rel R (.exec argv) (.exec argv')
  | redir {c : Cmd W} {d : Cmd V} {w : W} {v : V} {mode fd : ℕ} (h : Rel R c d)
      (hw : R w v) : Rel R (.redir c w mode fd) (.redir d v mode fd)
  | pipe {c c' : Cmd W} {d d' : Cmd V} (h : Rel R c d) (h' : Rel R c' d') :
      Rel R (.pipe c c') (.pipe d d')
  | list {c c' : Cmd W} {d d' : Cmd V} (h : Rel R c d) (h' : Rel R c' d') :
      Rel R (.list c c') (.list d d')
  | back {c : Cmd W} {d : Cmd V} (h : Rel R c d) : Rel R (.back c) (.back d)

theorem Cmd.Rel.addArg {W V : Type} {R : W → V → Prop} {c : Cmd W} {d : Cmd V}
    (h : Rel R c d) {w : W} {v : V} (hw : R w v) : Rel R (c.addArg w) (d.addArg v) := by
  induction h with
  | exec h => exact .exec (List.rel_append h (.cons hw .nil))
  | redir h hf ih => exact .redir ih hf
  | pipe h h' => exact .pipe h h'
  | list h h' => exact .list h h'
  | back h => exact .back h

theorem foldl_wrap_addArg (rs : List Redir) (c : Cmd (List UInt8)) (w : List UInt8) :
    (rs.foldl wrap c).addArg w = rs.foldl wrap (c.addArg w) := by
  induction rs generalizing c with
  | nil => rfl
  | cons r rs ih => exact ih (wrap c r)

/-- The arguments and the redirections between them, in the order in which the
parser meets them. -/
def addArgs (c : Cmd (List UInt8)) (as : List Arg) : Cmd (List UInt8) :=
  as.foldl (fun c a => a.2.foldl wrap (c.addArg a.1)) c

/-- Redirections are put around the command while its arguments are still added. -/
theorem addArgs_wrap (as : List Arg) (rs : List Redir) (ws : List (List UInt8)) :
    addArgs (rs.foldl wrap (.exec ws)) as =
      (rs ++ as.flatMap Prod.snd).foldl wrap (.exec (ws ++ as.map Prod.fst)) := by
  induction as generalizing rs ws with
  | nil => simp [addArgs]
  | cons a as ih =>
      have hstep : a.2.foldl wrap ((rs.foldl wrap (.exec ws)).addArg a.1) =
          (rs ++ a.2).foldl wrap (.exec (ws ++ [a.1])) := by
        rw [foldl_wrap_addArg, List.foldl_append]
        rfl
      rw [addArgs, List.foldl_cons, hstep]
      refine (ih (rs ++ a.2) (ws ++ [a.1])).trans ?_
      simp only [List.flatMap_cons, List.map_cons, List.append_assoc, List.cons_append,
        List.nil_append]

theorem Simple.denote_eq (x : Simple) :
    x.denote = addArgs (x.lead.foldl wrap (.exec [])) x.args := by
  rw [addArgs_wrap]
  rfl

end Xv6.User.Sh
