import Mathlib.Data.Nat.Notation
import Xv6.Lib.PanicM

/-!
# The parser of the shell

`sh.c` from `gettoken` to `parsecmd`, over the bytes of a command line. A pointer
into the line is its offset; the cursor `*ps` comes with the bytes from it up to
`es`. The nodes of the tree come from `malloc`, whose result nobody checks: when it
is a null pointer, `memset` overwrites the first bytes of the program, and the model
stops. The recursive functions and the loops take fuel, so that what is proved about
the parser includes that it returns.
-/

namespace Xv6.User.Sh

open Xv6.Lib

/-! ## §1  Command trees -/

def maxargs : ℕ := 10

/-- Two offsets into the command line: where a word begins and ends. -/
abbrev Span := ℕ × ℕ

/-- `struct cmd`, with the words as `W`: offsets while the line is parsed, strings
once it has been. -/
inductive Cmd (W : Type) where
  | exec (argv : List W)
  | redir (cmd : Cmd W) (file : W) (mode fd : ℕ)
  | pipe (left right : Cmd W)
  | list (left right : Cmd W)
  | back (cmd : Cmd W)
deriving DecidableEq, Repr

namespace Cmd

variable {W V : Type}

/-- `cmd->argv[argc] = q; cmd->eargv[argc] = eq`, where `cmd` is the node that the
redirections have been put around. -/
def addArg (w : W) : Cmd W → Cmd W
  | exec argv => exec (argv ++ [w])
  | redir cmd file mode fd => redir (cmd.addArg w) file mode fd
  | cmd => cmd

def map (g : W → V) : Cmd W → Cmd V
  | exec argv => exec (argv.map g)
  | redir cmd file mode fd => redir (cmd.map g) (g file) mode fd
  | pipe left right => pipe (left.map g) (right.map g)
  | list left right => list (left.map g) (right.map g)
  | back cmd => back (cmd.map g)

end Cmd

def oRdonly : ℕ := 0x000
def oWronly : ℕ := 0x001
def oCreate : ℕ := 0x200

/-! ## §2  The state of the parser -/

/-- A position in the command line, and the bytes from it to the end. -/
structure Cursor where
  pos : ℕ
  rest : List UInt8
deriving DecidableEq, Repr

namespace Cursor

/-- `*s`: behind the line there is a NUL. -/
def cur (s : Cursor) : UInt8 := s.rest.headD 0

/-- `s++`. -/
def next (s : Cursor) : Cursor := ⟨s.pos + 1, s.rest.tail⟩

/-- `while(s < es && p(*s)) s++`. -/
def skip (p : UInt8 → Bool) (s : Cursor) : Cursor :=
  ⟨s.pos + (s.rest.takeWhile p).length, s.rest.dropWhile p⟩

end Cursor

/-- The cursor, and how many calls of `malloc` succeed before the first one that
fails; `none` if none fails. -/
structure State where
  cursor : Cursor
  room : Option ℕ
deriving DecidableEq, Repr

/-- Why the parser does not return. -/
inductive Halt where
  | panic (msg : String)
  | leftovers (s : List UInt8)    -- "leftovers: %s\n" is printed, then panic("syntax")
  | null                          -- memset(0, 0, sizeof(*cmd))
  | fuel
deriving DecidableEq, Repr

abbrev ParseM : Type → Type := PanicM Halt State

/-- `malloc`, and the `memset` of what it returns. -/
def malloc : ParseM Unit := do
  match (← get).room with
  | none => pure ()
  | some 0 => throw .null
  | some (n + 1) => modify fun st => { st with room := some n }

def execcmd : ParseM (Cmd Span) := do
  malloc
  pure (.exec [])

def redircmd (subcmd : Cmd Span) (file : Span) (mode fd : ℕ) : ParseM (Cmd Span) := do
  malloc
  pure (.redir subcmd file mode fd)

def pipecmd (left right : Cmd Span) : ParseM (Cmd Span) := do
  malloc
  pure (.pipe left right)

def listcmd (left right : Cmd Span) : ParseM (Cmd Span) := do
  malloc
  pure (.list left right)

def backcmd (subcmd : Cmd Span) : ParseM (Cmd Span) := do
  malloc
  pure (.back subcmd)

/-! ## §3  Tokens -/

/-- The bytes of a C string literal. -/
def bytes (cs : List Char) : List UInt8 := cs.map Char.toUInt8

def whitespace : List UInt8 := bytes [' ', '\t', '\r', '\n', '\x0b']

def symbols : List UInt8 := bytes ['<', '|', '>', '&', ';', '(', ')']

def isSpace (b : UInt8) : Bool := whitespace.contains b

/-- A byte that may stand in a word. -/
def isWord (b : UInt8) : Bool := !isSpace b && !symbols.contains b

namespace Cursor

/-- The `switch` of `gettoken`: its value, and where the token ends. -/
def lex (s : Cursor) : UInt8 × Cursor :=
  if s.cur = 0 then (0, s)
  else if (bytes ['|', '(', ')', ';', '&', '<']).contains s.cur then (s.cur, s.next)
  else if s.cur = '>'.toUInt8 then
    if s.next.cur = '>'.toUInt8 then ('+'.toUInt8, s.next.next) else (s.cur, s.next)
  else ('a'.toUInt8, s.skip isWord)

/-- `gettoken` on a cursor: its value, `*q` and `*eq`, and the new `*ps`. -/
def gettoken (s : Cursor) : UInt8 × Span × Cursor :=
  let q := s.skip isSpace
  let eq := q.lex.2
  (q.lex.1, (q.pos, eq.pos), eq.skip isSpace)

end Cursor

def gettoken : ParseM (UInt8 × Span) := do
  let (ret, span, s) := (← get).cursor.gettoken
  modify fun st => { st with cursor := s }
  pure (ret, span)

def peek (toks : List Char) : ParseM Bool := do
  let s := (← get).cursor.skip isSpace
  modify fun st => { st with cursor := s }
  pure (s.cur != 0 && (bytes toks).contains s.cur)

/-! ## §4  The parser -/

def parseredirs : ℕ → Cmd Span → ParseM (Cmd Span)
  | 0, _ => throw .fuel
  | f + 1, cmd => do
      if ← peek ['<', '>'] then
        let (tok, _) ← gettoken
        let (word, file) ← gettoken
        if word ≠ 'a'.toUInt8 then throw (.panic "missing file for redirection")
        else
          let cmd ←
            if tok = '<'.toUInt8 then redircmd cmd file oRdonly 0
            else if tok = '>'.toUInt8 then redircmd cmd file (oWronly ||| oCreate) 1
            else if tok = '+'.toUInt8 then redircmd cmd file (oWronly ||| oCreate) 1
            else pure cmd
          parseredirs f cmd
      else pure cmd

/-- The loop of `parseexec` over the arguments. -/
def argLoop : ℕ → ℕ → Cmd Span → ParseM (Cmd Span)
  | 0, _, _ => throw .fuel
  | f + 1, argc, ret => do
      if ← peek ['|', ')', '&', ';'] then pure ret
      else
        let (tok, word) ← gettoken
        if tok = 0 then pure ret
        else if tok ≠ 'a'.toUInt8 then throw (.panic "syntax")
        else
          let ret := ret.addArg word
          if argc + 1 ≥ maxargs then throw (.panic "too many args")
          else
            let ret ← parseredirs f ret
            argLoop f (argc + 1) ret

/-- The loop of `parseline` over the `&`s. -/
def backLoop : ℕ → Cmd Span → ParseM (Cmd Span)
  | 0, _ => throw .fuel
  | f + 1, cmd => do
      if ← peek ['&'] then
        let _ ← gettoken
        let cmd ← backcmd cmd
        backLoop f cmd
      else pure cmd

mutual

def parseline : ℕ → ParseM (Cmd Span)
  | 0 => throw .fuel
  | f + 1 => do
      let cmd ← parsepipe f
      let cmd ← backLoop f cmd
      if ← peek [';'] then
        let _ ← gettoken
        let right ← parseline f
        listcmd cmd right
      else pure cmd

def parsepipe : ℕ → ParseM (Cmd Span)
  | 0 => throw .fuel
  | f + 1 => do
      let cmd ← parseexec f
      if ← peek ['|'] then
        let _ ← gettoken
        let right ← parsepipe f
        pipecmd cmd right
      else pure cmd

def parseexec : ℕ → ParseM (Cmd Span)
  | 0 => throw .fuel
  | f + 1 => do
      if ← peek ['('] then parseblock f
      else
        let ret ← execcmd
        let ret ← parseredirs f ret
        argLoop f 0 ret

def parseblock : ℕ → ParseM (Cmd Span)
  | 0 => throw .fuel
  | f + 1 => do
      if !(← peek ['(']) then throw (.panic "parseblock")
      else
        let _ ← gettoken
        let cmd ← parseline f
        if !(← peek [')']) then throw (.panic "syntax - missing )")
        else
          let _ ← gettoken
          parseredirs f cmd

end

/-- `*p = 0` for the ends of all words. -/
def nulterminate : Cmd Span → List UInt8 → List UInt8
  | .exec argv, buf => argv.foldl (fun buf w => buf.set w.2 0) buf
  | .redir cmd file _ _, buf => (nulterminate cmd buf).set file.2 0
  | .pipe left right, buf => nulterminate right (nulterminate left buf)
  | .list left right, buf => nulterminate right (nulterminate left buf)
  | .back cmd, buf => nulterminate cmd buf

/-- `parsecmd(s)`: the tree, and what it leaves in the buffer that holds `s` and a
NUL. -/
def parsecmd (f : ℕ) (s : List UInt8) : ParseM (Cmd Span × List UInt8) := do
  let cmd ← parseline f
  let _ ← peek []
  let rest := (← get).cursor.rest
  if rest ≠ [] then throw (.leftovers rest)
  else pure (cmd, nulterminate cmd (s ++ [0]))

/-- The parser at the beginning of the line `s`. -/
def State.start (s : List UInt8) (room : Option ℕ) : State := ⟨⟨0, s⟩, room⟩

/-- The C string at offset `p`. -/
def cstring (buf : List UInt8) (p : ℕ) : List UInt8 := (buf.drop p).takeWhile (· != 0)

end Xv6.User.Sh
