import Xv6.User.ShellParser

/-!
# The words of a parsed line

`nulterminate` writes into the line while it walks the tree. What the tree points to
afterwards is what stood there before: the words of the line, in the places that a
derivation of the line gives them. This is about every run of `parsecmd` that returns,
with any fuel and any number of calls of `malloc` that succeed; such a run goes the way
of one with as much of both as needed.
-/

namespace Xv6.User.Sh

open Xv6.Lib PanicM

/-! ## §1  Fuel and memory -/

/-- The same state, with memory for all calls of `malloc`. -/
def Unlimited (st st' : State) : Prop := st'.cursor = st.cursor ∧ st'.room = none

/-- What `x` returns, `y` returns with memory for all calls. -/
abbrev Lasts {α : Type} (x y : ParseM α) : Prop := Follows Unlimited x y

section Lasts

theorem gettoken_lasts : Lasts gettoken gettoken := by
  rintro ⟨c, room⟩ ⟨c', room'⟩ ⟨hc, hr⟩ _ _ ⟨⟩
  dsimp only at hc hr
  subst hc hr
  exact ⟨_, rfl, rfl, rfl⟩

theorem peek_lasts (toks : List Char) : Lasts (peek toks) (peek toks) := by
  rintro ⟨c, room⟩ ⟨c', room'⟩ ⟨hc, hr⟩ _ _ ⟨⟩
  dsimp only at hc hr
  subst hc hr
  exact ⟨_, rfl, rfl, rfl⟩

theorem malloc_lasts : Lasts malloc malloc := by
  rintro ⟨c, room⟩ ⟨c', room'⟩ ⟨hc, hr⟩ a st₁ h
  dsimp only at hc hr
  subst hc hr
  refine ⟨⟨c', none⟩, rfl, ?_, rfl⟩
  rcases room with _ | _ | n <;> cases h <;> rfl

/-- The functions that make a node of the tree. -/
theorem node_lasts (c : Cmd Span) :
    Lasts (do malloc; pure c) (do malloc; pure c) :=
  malloc_lasts.bind fun _ => .pure _

variable {f f' : ℕ}

/-- More fuel does not hurt. -/
theorem parseredirs_lasts (hf : f ≤ f') (c : Cmd Span) :
    Lasts (parseredirs f c) (parseredirs f' c) := by
  induction f generalizing f' c with
  | zero => exact .throw _ _
  | succ f ih =>
      rcases f' with _ | f'
      · omega
      refine (peek_lasts _).bind fun _ => .ite ?_ (.pure _)
      refine gettoken_lasts.bind fun _ => gettoken_lasts.bind fun _ => .ite (.throw _ _) ?_
      have hnext : ∀ c, Lasts (parseredirs f c) (parseredirs f' c) := ih (by omega)
      refine .ite ((node_lasts _).bind hnext) (.ite ((node_lasts _).bind hnext) ?_)
      exact .ite ((node_lasts _).bind hnext) (.bind (.pure _) hnext)

theorem argLoop_lasts (hf : f ≤ f') (argc : ℕ) (c : Cmd Span) :
    Lasts (argLoop f argc c) (argLoop f' argc c) := by
  induction f generalizing f' argc c with
  | zero => exact .throw _ _
  | succ f ih =>
      rcases f' with _ | f'
      · omega
      refine (peek_lasts _).bind fun _ => .ite (.pure _) ?_
      refine gettoken_lasts.bind fun _ => .ite (.pure _) (.ite (.throw _ _) ?_)
      refine .ite (.throw _ _) ?_
      exact (parseredirs_lasts (by omega) _).bind fun c => ih (by omega) _ c

theorem backLoop_lasts (hf : f ≤ f') (c : Cmd Span) :
    Lasts (backLoop f c) (backLoop f' c) := by
  induction f generalizing f' c with
  | zero => exact .throw _ _
  | succ f ih =>
      rcases f' with _ | f'
      · omega
      refine (peek_lasts _).bind fun _ => .ite ?_ (.pure _)
      exact gettoken_lasts.bind fun _ => (node_lasts _).bind fun c => ih (by omega) c

/-- The four functions call each other with less fuel. -/
theorem parser_lasts (hf : f ≤ f') :
    Lasts (parseline f) (parseline f') ∧ Lasts (parsepipe f) (parsepipe f') ∧
    Lasts (parseexec f) (parseexec f') ∧ Lasts (parseblock f) (parseblock f') := by
  induction f generalizing f' with
  | zero =>
      unfold parseline parsepipe parseexec parseblock
      exact ⟨.throw _ _, .throw _ _, .throw _ _, .throw _ _⟩
  | succ f ih =>
      rcases f' with _ | f'
      · omega
      have hle : f ≤ f' := by omega
      obtain ⟨hline, hpipe, hexec, hblock⟩ := ih hle
      refine ⟨?_, ?_, ?_, ?_⟩
      · unfold parseline
        refine hpipe.bind fun c => (backLoop_lasts hle c).bind fun c => ?_
        refine (peek_lasts _).bind fun _ => .ite ?_ (.pure _)
        exact gettoken_lasts.bind fun _ => hline.bind fun _ => node_lasts _
      · unfold parsepipe
        refine hexec.bind fun c => (peek_lasts _).bind fun _ => .ite ?_ (.pure _)
        exact gettoken_lasts.bind fun _ => hpipe.bind fun _ => node_lasts _
      · unfold parseexec
        refine (peek_lasts _).bind fun _ => .ite hblock ?_
        exact (node_lasts _).bind fun c => (parseredirs_lasts hle c).bind fun c =>
          argLoop_lasts hle 0 c
      · unfold parseblock
        refine (peek_lasts _).bind fun _ => .ite (.throw _ _) ?_
        refine gettoken_lasts.bind fun _ => hline.bind fun c => ?_
        refine (peek_lasts _).bind fun _ => .ite (.throw _ _) ?_
        exact gettoken_lasts.bind fun _ => parseredirs_lasts hle c

theorem parsecmd_lasts (hf : f ≤ f') (s : List UInt8) :
    Lasts (parsecmd f s) (parsecmd f' s) := by
  refine (parser_lasts hf).1.bind fun c => (peek_lasts _).bind fun _ => ?_
  -- what is left of the line does not depend on the memory
  rintro ⟨k, room⟩ ⟨k', room'⟩ ⟨hk, hr⟩ a st₁ h
  dsimp only at hk hr
  subst hk hr
  refine ⟨⟨k', none⟩, ?_, ?_⟩
  · change (if k'.rest ≠ [] then _ else _ : ParseM _) _ = _ at h
    change (if k'.rest ≠ [] then _ else _ : ParseM _) _ = _
    split_ifs at h ⊢ with hnil
    · cases h
    · cases h
      rfl
  · change (if k'.rest ≠ [] then _ else _ : ParseM _) _ = _ at h
    split_ifs at h with hnil
    · cases h
    · cases h
      exact ⟨rfl, rfl⟩

end Lasts

/-! ## §2  The words -/

/-- The text of the line at a span. -/
def spanText (s : List UInt8) (sp : Span) : List UInt8 := (s.drop sp.1).take (sp.2 - sp.1)

theorem WordAt.spanText_eq {s w : List UInt8} {sp : Span} (h : WordAt s sp w) : spanText s sp = w := by
  rw [spanText, h.text, h.size, Nat.add_sub_cancel_left, List.take_left]

/-- The words that the spans of the tree stand for. -/
theorem Cmd.Rel.map_eq {W V : Type} {R : W → V → Prop} {g : W → V} {c : Cmd W} {d : Cmd V}
    (h : Rel R c d) (hg : ∀ w v, R w v → g w = v) : c.map g = d := by
  induction h with
  | exec h =>
      refine congrArg Cmd.exec ?_
      induction h with
      | nil => rfl
      | cons hw _ ih => rw [List.map_cons, hg _ _ hw, ih]
  | redir _ hw ih => rw [Cmd.map, ih, hg _ _ hw]
  | pipe _ _ ihl ihr | list _ _ ihl ihr => rw [Cmd.map, ihl, ihr]
  | back _ ih => rw [Cmd.map, ih]

/-- In every exec node there is room in `argv[MAXARGS]` for the null pointer that
`parseexec` stores behind the last argument. -/
def Cmd.Terminated {W : Type} : Cmd W → Prop
  | .exec argv => argv.length < maxargs
  | .redir cmd _ _ _ => cmd.Terminated
  | .pipe left right => left.Terminated ∧ right.Terminated
  | .list left right => left.Terminated ∧ right.Terminated
  | .back cmd => cmd.Terminated

theorem Cmd.Rel.terminated {W V : Type} {R : W → V → Prop} {c : Cmd W} {d : Cmd V}
    (h : Rel R c d) (hd : d.Terminated) : c.Terminated := by
  induction h with
  | exec h =>
      show List.length _ < maxargs
      rw [h.length_eq]
      exact hd
  | redir _ _ ih => exact ih hd
  | pipe _ _ ihl ihr | list _ _ ihl ihr => exact ⟨ihl hd.1, ihr hd.2⟩
  | back _ ih => exact ih hd

section Derivations

theorem terminated_wrap (rs : List Redir) {c : Cmd (List UInt8)} (h : c.Terminated) :
    (rs.foldl wrap c).Terminated := by
  induction rs generalizing c with
  | nil => exact h
  | cons r rs ih => exact ih h

theorem terminated_backs (n : ℕ) {c : Cmd (List UInt8)} (h : c.Terminated) :
    (backs n c).Terminated := by
  induction n generalizing c with
  | zero => exact h
  | succ n ih => exact ih h

theorem Simple.terminated (x : Simple) : x.denote.Terminated := by
  apply terminated_wrap
  show (x.args.map Prod.fst).length < maxargs
  rw [List.length_map]
  exact x.few

mutual

theorem Line.terminated : ∀ l : Line, l.denote.Terminated
  | .last p n => terminated_backs n p.terminated
  | .seq p n l => ⟨terminated_backs n p.terminated, l.terminated⟩

theorem Pipe.terminated : ∀ p : Pipe, p.denote.Terminated
  | .one c => c.terminated
  | .pipe c p => ⟨c.terminated, p.terminated⟩

theorem Command.terminated : ∀ c : Command, c.denote.Terminated
  | .block l rs => terminated_wrap rs l.terminated
  | .simple x => x.terminated

end

end Derivations

/-- A line that `parsecmd` accepts: the tree, with each of its words as the C string that
is in the buffer afterwards, is the tree with the words as they stood in the line, and
the one that a derivation of the tokens of the line denotes. -/
theorem words_survive (s : List UInt8) (hs : 0 ∉ s) (f : ℕ) (room : Option ℕ)
    (c : Cmd Span) (buf : List UInt8) (st : State)
    (h : parsecmd f s (State.start s room) = .ok ((c, buf), st)) :
    c.map (fun sp => cstring buf sp.1) = c.map (spanText s) ∧ c.Terminated ∧
    ∃ l : Line, l.yield = tokens s ∧ c.map (spanText s) = l.denote := by
  have hf : f ≤ max f (4 * (tokens s).length + 5) := Nat.le_max_left ..
  obtain ⟨st', hrun, _⟩ := parsecmd_lasts hf s (State.start s room) (State.start s none)
    ⟨rfl, rfl⟩ _ _ h
  have hsound := parsecmd_sound hs (f := max f (4 * (tokens s).length + 5)) (by omega)
  obtain ⟨hbuf, l, hl, hrel⟩ := wp_ok hsound hrun
  have htext : c.map (spanText s) = l.denote := hrel.map_eq fun _ _ hw => hw.spanText_eq
  refine ⟨?_, hrel.terminated l.terminated, l, hl, htext⟩
  obtain rfl : buf = nulterminate c (s ++ [0]) := hbuf
  rw [htext]
  exact hrel.strings hs

/-- `a>b;(c d)&` -/
def touchingLine : List UInt8 := bytes ['a', '>', 'b', ';', '(', 'c', ' ', 'd', ')', '&']

def touchingTree : Cmd Span :=
  .list (.redir (.exec [(0, 1)]) (2, 3) (oWronly ||| oCreate) 1)
    (.back (.exec [(5, 6), (7, 8)]))

/-- Tokens that touch operators, with just enough fuel and memory. -/
theorem words_survive_touching :
    touchingTree.map (fun sp => cstring (nulterminate touchingTree (touchingLine ++ [0])) sp.1) =
      .list (.redir (.exec [bytes ['a']]) (bytes ['b']) (oWronly ||| oCreate) 1)
        (.back (.exec [bytes ['c'], bytes ['d']])) := by
  have hcheck : check (parsecmd 20 touchingLine) (fun r _ => decide
      (r = (touchingTree, nulterminate touchingTree (touchingLine ++ [0]))))
      (State.start touchingLine (some 5)) = true := by
    decide +kernel
  obtain ⟨r, st, hrun, hr⟩ := exists_of_check hcheck
  obtain rfl := of_decide_eq_true hr
  exact (words_survive touchingLine (by decide) 20 (some 5) _ _ st hrun).1

end Xv6.User.Sh
