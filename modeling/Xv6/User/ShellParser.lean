import Xv6.User.ShellGrammar

/-!
# The parser accepts exactly its grammar

What the parser accepts has a derivation (§2, by induction on the fuel), and a
derivation drives the parser through it (§3, by induction on the derivation). With
fuel for every token the parser returns or panics, so that the two together decide
which. The words of the tree are offsets; `nulterminate` makes them C strings, since
the byte after a word is never part of a word.
-/

namespace Xv6.User.Sh

open Xv6.Lib Xv6.Lib.PanicM

/-! ## §1  Steps of the loops -/

section Loops

variable {s : List UInt8} {st : State} {E : Halt → Prop} {Q : Cmd Span → State → Prop}
  {f : ℕ} {c : Cmd Span} {ts : List Token}

theorem wp_redircmd (hst : Good s st) {file : Span} {mode fd : ℕ}
    (h : Q (.redir c file mode fd) st) : wp (redircmd c file mode fd) Q E st :=
  wp_bind (wp_malloc hst (wp_pure h))

theorem parseredirs_stop (hs : 0 ∉ s) (hst : Good s st)
    (hb : Begins ['<', '>'] st.toks = false)
    (h : ∀ st', Good s st' → st'.toks = st.toks → Q c st') :
    wp (parseredirs (f + 1) c) Q E st := by
  refine wp_bind (wp_peek (by decide) hs hst fun st₁ hg₁ ht₁ => ?_)
  rw [hb]
  exact wp_pure (h st₁ hg₁ ht₁)

theorem begins_redir (op : RedirOp) : Begins ['<', '>'] (op.token :: ts) = true := by
  cases op <;> rfl

theorem parseredirs_step (hs : 0 ∉ s) (hst : Good s st) {r : Redir}
    (ht : st.toks = r.yield ++ ts)
    (h : ∀ sp st', Good s st' → st'.toks = ts → WordAt s sp r.file →
      wp (parseredirs f (.redir c sp r.op.mode r.op.fd)) Q E st') :
    wp (parseredirs (f + 1) c) Q E st := by
  refine wp_bind (wp_peek (by decide) hs hst fun st₁ hg₁ ht₁ => ?_)
  rw [show st.toks = r.op.token :: .word r.file :: ts from ht] at ht₁ ⊢
  rw [begins_redir]
  refine wp_bind (wp_gettoken_cons hs hg₁ ht₁ fun _ st₂ hg₂ ht₂ _ => ?_)
  refine wp_bind (wp_gettoken_cons hs hg₂ ht₂ fun sp st₃ hg₃ ht₃ hw => ?_)
  have hnext := h sp st₃ hg₃ ht₃ (hw _ rfl)
  dsimp only
  rw [if_neg (by simp [Token.ret])]
  cases hop : r.op with
  | lt =>
      rw [hop] at hnext
      exact wp_bind (wp_redircmd hg₃ hnext)
  | gt =>
      rw [hop] at hnext
      exact wp_bind (wp_redircmd hg₃ hnext)
  | gtgt =>
      rw [hop] at hnext
      exact wp_bind (wp_redircmd hg₃ hnext)

theorem parseredirs_missing (hs : 0 ∉ s) (hst : Good s st) {op : RedirOp}
    (ht : st.toks = op.token :: ts) (hw : ∀ w ts', ts ≠ .word w :: ts')
    (h : ∀ msg, E (.panic msg)) : wp (parseredirs (f + 1) c) Q E st := by
  refine wp_bind (wp_peek (by decide) hs hst fun st₁ hg₁ ht₁ => ?_)
  rw [ht] at ht₁ ⊢
  rw [begins_redir]
  refine wp_bind (wp_gettoken_cons hs hg₁ ht₁ fun _ st₂ hg₂ ht₂ _ => ?_)
  refine wp_bind (wp_gettoken hs hg₂ (fun _ _ _ _ _ => ?_) fun t ts' ht' _ _ _ _ _ => ?_)
  · exact wp_throw (h _)
  · cases t with
    | word w => exact absurd (ht₂.symm.trans ht') (hw w ts')
    | _ => exact wp_throw (h _)

/-- No redirection, a redirection, or one whose file is missing. -/
theorem redir_cases (ts : List Token) : Begins ['<', '>'] ts = false ∨
    (∃ r ts', ts = Redir.yield r ++ ts') ∨
    ∃ op ts', ts = RedirOp.token op :: ts' ∧ ∀ w ts'', ts' ≠ .word w :: ts'' := by
  have hop : ∀ op ts', (∃ r ts'', RedirOp.token op :: ts' = Redir.yield r ++ ts'') ∨
      ∃ op' ts'', RedirOp.token op :: ts' = RedirOp.token op' :: ts'' ∧
        ∀ w ts₃, ts'' ≠ .word w :: ts₃ := by
    intro op ts'
    by_cases hw : ∃ w ts'', ts' = .word w :: ts''
    · obtain ⟨w, ts'', rfl⟩ := hw
      exact .inl ⟨⟨op, w⟩, ts'', rfl⟩
    · exact .inr ⟨op, ts', rfl, fun w ts'' e => hw ⟨w, ts'', e⟩⟩
  match ts with
  | [] => exact .inl rfl
  | .lt :: ts' => exact .inr (hop .lt ts')
  | .gt :: ts' => exact .inr (hop .gt ts')
  | .gtgt :: ts' => exact .inr (hop .gtgt ts')
  | .word _ :: _ | .bar :: _ | .amp :: _ | .semi :: _ | .lpar :: _ | .rpar :: _ =>
      exact .inl rfl

/-- The parser has called `panic`. -/
def Panics (e : Halt) : Prop := ∃ msg, e = .panic msg

variable {d : Cmd (List UInt8)}

/-- What `parseredirs` accepts is a list of redirections. -/
theorem parseredirs_sound (hs : 0 ∉ s) (f : ℕ) : ∀ {st : State} {c : Cmd Span}
    {d : Cmd (List UInt8)}, Good s st → Cmd.Rel (WordAt s) c d → st.toks.length < f →
    wp (parseredirs f c) (fun c' st' => Good s st' ∧ ∃ rs,
      st.toks = redirsYield rs ++ st'.toks ∧ Cmd.Rel (WordAt s) c' (rs.foldl wrap d))
      Panics st := by
  induction f with
  | zero => exact fun _ _ hf => absurd hf (Nat.not_lt_zero _)
  | succ f ih =>
      intro st c d hst hc hf
      rcases redir_cases st.toks with hb | ⟨r, ts, ht⟩ | ⟨op, ts, ht, hw⟩
      · exact parseredirs_stop hs hst hb fun st' hg ht => ⟨hg, [], ht.symm, hc⟩
      · refine parseredirs_step hs hst ht fun sp st₁ hg₁ ht₁ hw => ?_
        have hlen : st₁.toks.length < f := by
          rw [ht, List.length_append] at hf
          rw [ht₁]
          simp only [Redir.yield, List.length_cons] at hf
          omega
        refine wp_mono (ih hg₁ (.redir hc hw) hlen) ?_ fun _ => id
        rintro c' st' ⟨hg', rs, hrs, hc'⟩
        refine ⟨hg', r :: rs, ?_, hc'⟩
        rw [ht, ← ht₁, hrs, redirsYield_cons, List.append_assoc]
      · exact parseredirs_missing hs hst ht hw fun msg => ⟨msg, rfl⟩

/-- A list of redirections drives `parseredirs` through it. -/
theorem parseredirs_complete (hs : 0 ∉ s) (rs : List Redir) (f : ℕ) :
    ∀ {st : State} {c : Cmd Span} {d : Cmd (List UInt8)} {tail : List Token},
    Good s st → Cmd.Rel (WordAt s) c d → st.toks = redirsYield rs ++ tail →
    Begins ['<', '>'] tail = false →
    wp (parseredirs f c) (fun c' st' => Good s st' ∧ st'.toks = tail ∧
      Cmd.Rel (WordAt s) c' (rs.foldl wrap d)) (· = .fuel) st := by
  induction f generalizing rs with
  | zero => exact fun _ _ _ _ => wp_throw rfl
  | succ f ih =>
      intro st c d tail hst hc ht hb
      cases rs with
      | nil =>
          exact parseredirs_stop hs hst (by rw [ht]; exact hb) fun st' hg ht' =>
            ⟨hg, ht'.trans ht, hc⟩
      | cons r rs =>
          rw [redirsYield_cons, List.append_assoc] at ht
          exact parseredirs_step hs hst ht fun sp st₁ hg₁ ht₁ hw =>
            ih rs hg₁ (.redir hc hw) ht₁ hb

theorem backLoop_stop (hs : 0 ∉ s) (hst : Good s st) (hb : Begins ['&'] st.toks = false)
    (h : ∀ st', Good s st' → st'.toks = st.toks → Q c st') :
    wp (backLoop (f + 1) c) Q E st := by
  refine wp_bind (wp_peek (by decide) hs hst fun st₁ hg₁ ht₁ => ?_)
  rw [hb]
  exact wp_pure (h st₁ hg₁ ht₁)

theorem backLoop_step (hs : 0 ∉ s) (hst : Good s st) (ht : st.toks = .amp :: ts)
    (h : ∀ st', Good s st' → st'.toks = ts → wp (backLoop f (.back c)) Q E st') :
    wp (backLoop (f + 1) c) Q E st := by
  refine wp_bind (wp_peek (by decide) hs hst fun st₁ hg₁ ht₁ => ?_)
  rw [ht] at ht₁ ⊢
  refine wp_bind (wp_gettoken_cons hs hg₁ ht₁ fun _ st₂ hg₂ ht₂ _ => ?_)
  exact wp_bind (wp_bind (wp_malloc hg₂ (wp_pure (h st₂ hg₂ ht₂))))

theorem backLoop_sound (hs : 0 ∉ s) (f : ℕ) : ∀ {st : State} {c : Cmd Span}
    {d : Cmd (List UInt8)}, Good s st → Cmd.Rel (WordAt s) c d → st.toks.length < f →
    wp (backLoop f c) (fun c' st' => Good s st' ∧ ∃ n,
      st.toks = List.replicate n .amp ++ st'.toks ∧ Cmd.Rel (WordAt s) c' (backs n d))
      Panics st := by
  induction f with
  | zero => exact fun _ _ hf => absurd hf (Nat.not_lt_zero _)
  | succ f ih =>
      intro st c d hst hc hf
      rcases sep_amp.cases st.toks with hb | ⟨ts, ht⟩
      · exact backLoop_stop hs hst hb fun st' hg ht => ⟨hg, 0, ht.symm, hc⟩
      · refine backLoop_step hs hst ht fun st₁ hg₁ ht₁ => ?_
        have hlen : st₁.toks.length < f := by
          rw [ht, List.length_cons] at hf
          rw [ht₁]
          omega
        refine wp_mono (ih hg₁ (.back hc) hlen) ?_ fun _ => id
        rintro c' st' ⟨hg', n, hn, hc'⟩
        refine ⟨hg', n + 1, ?_, hc'⟩
        rw [ht, ← ht₁, hn, List.replicate_succ]
        rfl

theorem backLoop_complete (hs : 0 ∉ s) (n : ℕ) (f : ℕ) :
    ∀ {st : State} {c : Cmd Span} {d : Cmd (List UInt8)} {tail : List Token},
    Good s st → Cmd.Rel (WordAt s) c d → st.toks = List.replicate n .amp ++ tail →
    Begins ['&'] tail = false →
    wp (backLoop f c) (fun c' st' => Good s st' ∧ st'.toks = tail ∧
      Cmd.Rel (WordAt s) c' (backs n d)) (· = .fuel) st := by
  induction f generalizing n with
  | zero => exact fun _ _ _ _ => wp_throw rfl
  | succ f ih =>
      intro st c d tail hst hc ht hb
      cases n with
      | zero =>
          exact backLoop_stop hs hst (by rw [ht]; exact hb) fun st' hg ht' =>
            ⟨hg, ht'.trans ht, hc⟩
      | succ n =>
          rw [List.replicate_succ, List.cons_append] at ht
          exact backLoop_step hs hst ht fun st₁ hg₁ ht₁ => ih n hg₁ (.back hc) ht₁ hb

/-- The tokens after a command: none, or an operator that ends it. -/
def Ends (ts : List Token) : Prop := ts = [] ∨ Begins ['|', ')', '&', ';'] ts = true

theorem Ends.not_redir (h : Ends ts) : Begins ['<', '>'] ts = false := by
  rcases h with rfl | h
  · rfl
  · match ts with
    | [] => rfl
    | .bar :: _ | .amp :: _ | .semi :: _ | .rpar :: _ => rfl
    | .word _ :: _ | .lt :: _ | .gt :: _ | .gtgt :: _ | .lpar :: _ => cases h

/-- A command ends, goes on with a word, or there is an error. -/
theorem arg_cases (ts : List Token) : Ends ts ∨ (∃ w ts', ts = .word w :: ts') ∨
    ∃ t ts', ts = t :: ts' ∧ Begins ['|', ')', '&', ';'] ts = false ∧
      t.ret ≠ 'a'.toUInt8 := by
  match ts with
  | [] => exact .inl (.inl rfl)
  | .bar :: _ | .amp :: _ | .semi :: _ | .rpar :: _ => exact .inl (.inr rfl)
  | .word w :: ts' => exact .inr (.inl ⟨w, ts', rfl⟩)
  | .lt :: _ | .gt :: _ | .gtgt :: _ | .lpar :: _ =>
      exact .inr (.inr ⟨_, _, rfl, rfl, by decide⟩)

variable {argc : ℕ}

theorem argLoop_stop (hs : 0 ∉ s) (hst : Good s st) (he : Ends st.toks)
    (h : ∀ st', Good s st' → st'.toks = st.toks → Q c st') :
    wp (argLoop (f + 1) argc c) Q E st := by
  refine wp_bind (wp_peek (by decide) hs hst fun st₁ hg₁ ht₁ => ?_)
  rcases he with he | he
  · rw [he] at ht₁ ⊢
    refine wp_bind (wp_gettoken hs hg₁ (fun _ _ st₂ hg₂ ht₂ => ?_) fun t ts ht => ?_)
    · exact wp_pure (h st₂ hg₂ (ht₂.trans he.symm))
    · cases ht₁.symm.trans ht
  · rw [he]
    exact wp_pure (h st₁ hg₁ ht₁)

theorem argLoop_word (hs : 0 ∉ s) (hst : Good s st) {w : List UInt8}
    (ht : st.toks = .word w :: ts)
    (h : ∀ sp st', Good s st' → st'.toks = ts → WordAt s sp w →
      wp (if argc + 1 ≥ maxargs then throw (.panic "too many args")
        else parseredirs f (c.addArg sp) >>= argLoop f (argc + 1)) Q E st') :
    wp (argLoop (f + 1) argc c) Q E st := by
  refine wp_bind (wp_peek (by decide) hs hst fun st₁ hg₁ ht₁ => ?_)
  rw [ht] at ht₁ ⊢
  refine wp_bind (wp_gettoken_cons hs hg₁ ht₁ fun sp st₂ hg₂ ht₂ hw => ?_)
  refine wp_ite (fun hr => absurd hr (Token.ret_ne_zero _)) fun _ => ?_
  refine wp_ite (fun hr => absurd rfl hr) fun _ => ?_
  exact h sp st₂ hg₂ ht₂ (hw w rfl)

theorem argLoop_error (hs : 0 ∉ s) (hst : Good s st) {t : Token}
    (ht : st.toks = t :: ts) (hb : Begins ['|', ')', '&', ';'] st.toks = false)
    (ha : t.ret ≠ 'a'.toUInt8) (h : ∀ msg, E (.panic msg)) :
    wp (argLoop (f + 1) argc c) Q E st := by
  refine wp_bind (wp_peek (by decide) hs hst fun st₁ hg₁ ht₁ => ?_)
  rw [hb]
  rw [ht] at ht₁
  refine wp_bind (wp_gettoken_cons hs hg₁ ht₁ fun sp st₂ hg₂ ht₂ hw => ?_)
  refine wp_ite (fun hr => absurd hr t.ret_ne_zero) fun _ => ?_
  exact wp_ite (fun _ => wp_throw (h _)) fun hr => absurd ha hr

theorem argLoop_sound (hs : 0 ∉ s) (f : ℕ) : ∀ {st : State} {argc : ℕ} {c : Cmd Span}
    {d : Cmd (List UInt8)}, Good s st → Cmd.Rel (WordAt s) c d → st.toks.length < f →
    argc < maxargs →
    wp (argLoop f argc c) (fun c' st' => Good s st' ∧ ∃ as,
      st.toks = argsYield as ++ st'.toks ∧ argc + as.length < maxargs ∧
      Cmd.Rel (WordAt s) c' (addArgs d as)) Panics st := by
  induction f with
  | zero => exact fun _ _ hf => absurd hf (Nat.not_lt_zero _)
  | succ f ih =>
      intro st argc c d hst hc hf hlt
      rcases arg_cases st.toks with he | ⟨w, ts, ht⟩ | ⟨t, ts, ht, hb, ha⟩
      · exact argLoop_stop hs hst he fun st' hg ht => ⟨hg, [], ht.symm, hlt, hc⟩
      · by_cases hmax : argc + 1 < maxargs
        swap
        · refine argLoop_word hs hst ht fun _ _ _ _ _ => ?_
          rw [if_pos (not_lt.mp hmax)]
          exact wp_throw ⟨_, rfl⟩
        refine argLoop_word hs hst ht fun sp st₁ hg₁ ht₁ hw => ?_
        rw [if_neg (not_le.mpr hmax)]
        have hlen₁ : st₁.toks.length < f := by
          rw [ht, List.length_cons] at hf
          rw [ht₁]
          omega
        refine wp_call (parseredirs_sound hs f hg₁ (hc.addArg hw) hlen₁) ?_
        rintro c₂ st₂ ⟨hg₂, rs, hrs, hc₂⟩
        have hlen₂ : st₂.toks.length < f := by
          rw [hrs, List.length_append] at hlen₁
          omega
        refine wp_mono (ih hg₂ hc₂ hlen₂ hmax) ?_ fun _ => id
        rintro c' st' ⟨hg', as, has, hcount, hc'⟩
        refine ⟨hg', (w, rs) :: as, ?_, ?_, hc'⟩
        · rw [ht, ← ht₁, hrs, has, argsYield_cons, Arg.yield, List.append_assoc,
            List.cons_append]
        · rw [List.length_cons]
          omega
      · exact argLoop_error hs hst ht hb ha fun msg => ⟨msg, rfl⟩

theorem begins_args {as : List Arg} (h : Begins ['<', '>'] ts = false) :
    Begins ['<', '>'] (argsYield as ++ ts) = false := by
  cases as with
  | nil => exact h
  | cons a as => rfl

theorem argLoop_complete (hs : 0 ∉ s) (as : List Arg) (f : ℕ) :
    ∀ {st : State} {argc : ℕ} {c : Cmd Span} {d : Cmd (List UInt8)} {tail : List Token},
    Good s st → Cmd.Rel (WordAt s) c d → st.toks = argsYield as ++ tail → Ends tail →
    argc + as.length < maxargs →
    wp (argLoop f argc c) (fun c' st' => Good s st' ∧ st'.toks = tail ∧
      Cmd.Rel (WordAt s) c' (addArgs d as)) (· = .fuel) st := by
  induction f generalizing as with
  | zero => exact fun _ _ _ _ _ => wp_throw rfl
  | succ f ih =>
      intro st argc c d tail hst hc ht he hcount
      cases as with
      | nil =>
          exact argLoop_stop hs hst (by rw [ht]; exact he) fun st' hg ht' =>
            ⟨hg, ht'.trans ht, hc⟩
      | cons a as =>
          rw [argsYield_cons, Arg.yield, List.append_assoc, List.cons_append] at ht
          rw [List.length_cons] at hcount
          refine argLoop_word hs hst ht fun sp st₁ hg₁ ht₁ hw => ?_
          rw [if_neg (by omega)]
          refine wp_call (parseredirs_complete hs a.2 f hg₁ (hc.addArg hw) ht₁
            (begins_args he.not_redir)) ?_
          rintro c₂ st₂ ⟨hg₂, ht₂, hc₂⟩
          exact ih as hg₂ hc₂ ht₂ he (by omega)

end Loops

/-! ## §2  What the parser accepts has a derivation -/

section Sound

variable {s : List UInt8}

/-- A parser for `D` has returned: it has read what a derivation yields, and returned
the tree that the derivation denotes. -/
def Accepts {D : Type} (s : List UInt8) (yield : D → List Token)
    (denote : D → Cmd (List UInt8)) (st : State) (c : Cmd Span) (st' : State) : Prop :=
  Good s st' ∧ ∃ l, st.toks = yield l ++ st'.toks ∧ Cmd.Rel (WordAt s) c (denote l)

/-- With fuel for `n` tokens, `x` accepts or panics. -/
def Sound {D : Type} (s : List UInt8) (yield : D → List Token)
    (denote : D → Cmd (List UInt8)) (x : ParseM (Cmd Span)) (n : ℕ) : Prop :=
  ∀ st, Good s st → st.toks.length ≤ n → wp x (Accepts s yield denote st) Panics st

theorem parsepipe_sound (hs : 0 ∉ s) {f n : ℕ}
    (hexec : Sound s Command.yield Command.denote (parseexec f) n)
    (hpipe : ∀ m < n, Sound s Pipe.yield Pipe.denote (parsepipe f) m) :
    Sound s Pipe.yield Pipe.denote (parsepipe (f + 1)) n := by
  intro st hst hn
  refine wp_call (hexec st hst hn) ?_
  rintro c₁ st₁ ⟨hg₁, x, hx, hc₁⟩
  refine wp_bind (wp_peek (by decide) hs hg₁ fun st₂ hg₂ ht₂ => ?_)
  rcases sep_bar.cases st₁.toks with hb | ⟨ts, ht⟩
  · rw [hb]
    exact wp_pure ⟨hg₂, .one x, by rw [ht₂]; exact hx, hc₁⟩
  · rw [ht] at ht₂ ⊢
    refine wp_bind (wp_gettoken_cons hs hg₂ ht₂ fun _ st₃ hg₃ ht₃ _ => ?_)
    have hlt : st₃.toks.length < n := by
      rw [hx, ht, List.length_append, List.length_cons] at hn
      rw [ht₃]
      omega
    refine wp_call (hpipe _ hlt st₃ hg₃ le_rfl) ?_
    rintro c₄ st₄ ⟨hg₄, p, hp, hc₄⟩
    refine wp_bind (wp_malloc hg₄ (wp_pure ⟨hg₄, .pipe x p, ?_, .pipe hc₁ hc₄⟩))
    rw [hx, ht, ← ht₃, hp, Pipe.yield, List.append_assoc, List.cons_append]

theorem parseline_sound (hs : 0 ∉ s) {f n : ℕ} (hf : n < f)
    (hpipe : Sound s Pipe.yield Pipe.denote (parsepipe f) n)
    (hline : ∀ m < n, Sound s Line.yield Line.denote (parseline f) m) :
    Sound s Line.yield Line.denote (parseline (f + 1)) n := by
  intro st hst hn
  refine wp_call (hpipe st hst hn) ?_
  rintro c₁ st₁ ⟨hg₁, p, hp, hc₁⟩
  have hn₁ : st₁.toks.length ≤ n := by
    rw [hp, List.length_append] at hn
    omega
  refine wp_call (backLoop_sound hs f hg₁ hc₁ (by omega)) ?_
  rintro c₂ st₂ ⟨hg₂, k, hk, hc₂⟩
  refine wp_bind (wp_peek (by decide) hs hg₂ fun st₃ hg₃ ht₃ => ?_)
  rcases sep_semi.cases st₂.toks with hb | ⟨ts, ht⟩
  · rw [hb]
    refine wp_pure ⟨hg₃, .last p k, ?_, hc₂⟩
    rw [hp, hk, ht₃, Line.yield, List.append_assoc]
  · rw [ht] at ht₃ ⊢
    refine wp_bind (wp_gettoken_cons hs hg₃ ht₃ fun _ st₄ hg₄ ht₄ _ => ?_)
    have hlt : st₄.toks.length < n := by
      rw [hk, ht, List.length_append, List.length_cons] at hn₁
      rw [ht₄]
      omega
    refine wp_call (hline _ hlt st₄ hg₄ le_rfl) ?_
    rintro c₅ st₅ ⟨hg₅, l, hl, hc₅⟩
    refine wp_bind (wp_malloc hg₅ (wp_pure ⟨hg₅, .seq p k l, ?_, .list hc₂ hc₅⟩))
    rw [hp, hk, ht, ← ht₄, hl, Line.yield, List.append_assoc, List.append_assoc,
      List.cons_append]

theorem parseblock_sound (hs : 0 ∉ s) {f n : ℕ} (hf : n < f)
    (hline : ∀ m < n, Sound s Line.yield Line.denote (parseline f) m) :
    Sound s Command.yield Command.denote (parseblock (f + 1)) n := by
  intro st hst hn
  refine wp_bind (wp_peek (by decide) hs hst fun st₁ hg₁ ht₁ => ?_)
  rcases sep_lpar.cases st.toks with hb | ⟨ts, ht⟩
  · rw [hb]
    exact wp_throw ⟨_, rfl⟩
  rw [ht] at ht₁ ⊢
  refine wp_bind (wp_gettoken_cons hs hg₁ ht₁ fun _ st₂ hg₂ ht₂ _ => ?_)
  have hlt : st₂.toks.length < n := by
    rw [ht, List.length_cons] at hn
    rw [ht₂]
    omega
  refine wp_call (hline _ hlt st₂ hg₂ le_rfl) ?_
  rintro c₃ st₃ ⟨hg₃, l, hl, hc₃⟩
  refine wp_bind (wp_peek (by decide) hs hg₃ fun st₄ hg₄ ht₄ => ?_)
  rcases sep_rpar.cases st₃.toks with hb | ⟨ts', ht'⟩
  · rw [hb]
    exact wp_throw ⟨_, rfl⟩
  rw [ht'] at ht₄ ⊢
  refine wp_bind (wp_gettoken_cons hs hg₄ ht₄ fun _ st₅ hg₅ ht₅ _ => ?_)
  have hlt₅ : st₅.toks.length < f := by
    rw [hl, ht', List.length_append, List.length_cons] at hlt
    rw [ht₅]
    omega
  refine wp_mono (parseredirs_sound hs f hg₅ hc₃ hlt₅) ?_ fun _ => id
  rintro c₆ st₆ ⟨hg₆, rs, hrs, hc₆⟩
  refine ⟨hg₆, .block l rs, ?_, hc₆⟩
  rw [ht, ← ht₂, hl, ht', ← ht₅, hrs, Command.yield, List.append_assoc, List.cons_append,
    List.cons_append]

theorem parseexec_sound (hs : 0 ∉ s) {f n : ℕ} (hf : n < f)
    (hblock : Sound s Command.yield Command.denote (parseblock f) n) :
    Sound s Command.yield Command.denote (parseexec (f + 1)) n := by
  intro st hst hn
  refine wp_bind (wp_peek (by decide) hs hst fun st₁ hg₁ ht₁ => ?_)
  cases hb : Begins ['('] st.toks with
  | true =>
      have := hblock st₁ hg₁ (by rw [ht₁]; exact hn)
      unfold Accepts at this
      rwa [ht₁] at this
  | false =>
      refine wp_bind (wp_bind (wp_malloc hg₁ (wp_pure ?_)))
      have hn₁ : st₁.toks.length < f := by
        rw [ht₁]
        omega
      refine wp_call (parseredirs_sound hs f hg₁ (.exec .nil) hn₁) ?_
      rintro c₂ st₂ ⟨hg₂, rs, hrs, hc₂⟩
      have hn₂ : st₂.toks.length < f := by
        rw [hrs, List.length_append] at hn₁
        omega
      refine wp_mono (argLoop_sound hs f hg₂ hc₂ hn₂ (by decide)) ?_ fun _ => id
      rintro c₃ st₃ ⟨hg₃, as, has, hfew, hc₃⟩
      refine ⟨hg₃, .simple ⟨rs, as, by omega⟩, ?_, ?_⟩
      · rw [← ht₁, hrs, has, Command.yield, Simple.yield, List.append_assoc]
      · rw [Command.denote, Simple.denote_eq]
        exact hc₃

/-- Every function of the parser, with four units of fuel for each token. -/
theorem parser_sound (hs : 0 ∉ s) (f : ℕ) :
    (∀ n, 4 * n + 1 < f → Sound s Command.yield Command.denote (parseblock f) n) ∧
    (∀ n, 4 * n + 2 < f → Sound s Command.yield Command.denote (parseexec f) n) ∧
    (∀ n, 4 * n + 3 < f → Sound s Pipe.yield Pipe.denote (parsepipe f) n) ∧
    ∀ n, 4 * n + 4 < f → Sound s Line.yield Line.denote (parseline f) n := by
  induction f with
  | zero =>
      refine ⟨?_, ?_, ?_, ?_⟩ <;> exact fun n hn => absurd hn (Nat.not_lt_zero _)
  | succ f ih =>
      obtain ⟨hblock, hexec, hpipe, hline⟩ := ih
      refine ⟨fun n hn => ?_, fun n hn => ?_, fun n hn => ?_, fun n hn => ?_⟩
      · exact parseblock_sound hs (by omega) fun m hm => hline m (by omega)
      · exact parseexec_sound hs (by omega) (hblock n (by omega))
      · exact parsepipe_sound hs (hexec n (by omega)) fun m hm => hpipe m (by omega)
      · exact parseline_sound hs (by omega) (hpipe n (by omega)) fun m hm =>
          hline m (by omega)

end Sound

/-! ## §3  A derivation drives the parser through it -/

section Complete

variable {s : List UInt8} {ts : List Token}

/-- With enough fuel, `x` reads the tokens of `st` up to `tail` and returns `d`. -/
def Drives (s : List UInt8) (x : ParseM (Cmd Span)) (st : State) (tail : List Token)
    (d : Cmd (List UInt8)) : Prop :=
  wp x (fun c st' => Good s st' ∧ st'.toks = tail ∧ Cmd.Rel (WordAt s) c d)
    (· = .fuel) st

/-- The tokens after a pipe. -/
def EndsPipe (ts : List Token) : Prop := Ends ts ∧ Begins ['|'] ts = false

/-- The tokens after a line. -/
def EndsLine (ts : List Token) : Prop := ts = [] ∨ Begins [')'] ts = true

theorem EndsLine.not_begins (h : EndsLine ts) :
    EndsPipe ts ∧ Begins ['&'] ts = false ∧ Begins [';'] ts = false := by
  rcases h with rfl | h
  · exact ⟨⟨.inl rfl, rfl⟩, rfl, rfl⟩
  · obtain ⟨ts', rfl⟩ := (sep_rpar.cases ts).resolve_left (by simp [h])
    exact ⟨⟨.inr rfl, rfl⟩, rfl, rfl⟩

/-- The `&`s after a pipe. -/
theorem endsPipe_amps (h : EndsPipe ts) (n : ℕ) :
    EndsPipe (List.replicate n .amp ++ ts) := by
  cases n with
  | zero => exact h
  | succ n => exact ⟨.inr rfl, rfl⟩

theorem Ends.not_lpar (h : Ends ts) : Begins ['('] ts = false := by
  rcases (sep_lpar.cases ts) with hb | ⟨ts', rfl⟩
  · exact hb
  · rcases h with h | h <;> cases h

theorem Simple.not_lpar (x : Simple) (h : Ends ts) :
    Begins ['('] (x.yield ++ ts) = false := by
  obtain ⟨lead, args, _⟩ := x
  cases lead with
  | cons r rs =>
      obtain ⟨op, w⟩ := r
      cases op <;> rfl
  | nil =>
      cases args with
      | cons a as => rfl
      | nil => exact h.not_lpar

theorem simple_drives (hs : 0 ∉ s) (x : Simple) (f : ℕ) {st : State} {tail : List Token}
    (hst : Good s st) (ht : st.toks = x.yield ++ tail) (he : Ends tail) :
    Drives s (parseexec f) st tail x.denote := by
  cases f with
  | zero => exact wp_throw rfl
  | succ f =>
      refine wp_bind (wp_peek (by decide) hs hst fun st₁ hg₁ ht₁ => ?_)
      rw [ht] at ht₁ ⊢
      rw [x.not_lpar he]
      refine wp_bind (wp_bind (wp_malloc hg₁ (wp_pure ?_)))
      rw [Simple.yield, List.append_assoc] at ht₁
      refine wp_call (parseredirs_complete hs x.lead f hg₁ (.exec .nil) ht₁
        (begins_args he.not_redir)) ?_
      rintro c₂ st₂ ⟨hg₂, ht₂, hc₂⟩
      have hfew := x.few
      rw [x.denote_eq]
      exact argLoop_complete hs x.args f hg₂ hc₂ ht₂ he (by omega)

theorem block_drives (hs : 0 ∉ s) {l : Line} (rs : List Redir)
    (hl : ∀ (f : ℕ) {st : State} {tail : List Token}, Good s st →
      st.toks = l.yield ++ tail → EndsLine tail →
      Drives s (parseline f) st tail l.denote)
    (f : ℕ) {st : State} {tail : List Token} (hst : Good s st)
    (ht : st.toks = (Command.block l rs).yield ++ tail) (he : Ends tail) :
    Drives s (parseblock f) st tail (Command.block l rs).denote := by
  cases f with
  | zero => exact wp_throw rfl
  | succ f =>
      rw [Command.yield, List.append_assoc, List.cons_append, List.cons_append] at ht
      refine wp_bind (wp_peek (by decide) hs hst fun st₁ hg₁ ht₁ => ?_)
      rw [ht] at ht₁ ⊢
      refine wp_bind (wp_gettoken_cons hs hg₁ ht₁ fun _ st₂ hg₂ ht₂ _ => ?_)
      refine wp_call (hl f hg₂ ht₂ (.inr rfl)) ?_
      rintro c₃ st₃ ⟨hg₃, ht₃, hc₃⟩
      refine wp_bind (wp_peek (by decide) hs hg₃ fun st₄ hg₄ ht₄ => ?_)
      rw [ht₃] at ht₄ ⊢
      refine wp_bind (wp_gettoken_cons hs hg₄ ht₄ fun _ st₅ hg₅ ht₅ _ => ?_)
      exact parseredirs_complete hs rs f hg₅ hc₃ ht₅ he.not_redir

mutual

theorem Line.drives (hs : 0 ∉ s) : ∀ (l : Line) (f : ℕ) {st : State} {tail : List Token},
    Good s st → st.toks = l.yield ++ tail → EndsLine tail →
    Drives s (parseline f) st tail l.denote
  | _, 0, _, _, _, _, _ => wp_throw rfl
  | .last p k, f + 1, st, tail, hst, ht, he => by
      obtain ⟨hpipe, hamp, hsemi⟩ := he.not_begins
      rw [Line.yield, List.append_assoc] at ht
      refine wp_call (p.drives hs f hst ht (endsPipe_amps hpipe k)) ?_
      rintro c₁ st₁ ⟨hg₁, ht₁, hc₁⟩
      refine wp_call (backLoop_complete hs k f hg₁ hc₁ ht₁ hamp) ?_
      rintro c₂ st₂ ⟨hg₂, ht₂, hc₂⟩
      refine wp_bind (wp_peek (by decide) hs hg₂ fun st₃ hg₃ ht₃ => ?_)
      rw [ht₂] at ht₃ ⊢
      rw [hsemi]
      exact wp_pure ⟨hg₃, ht₃, hc₂⟩
  | .seq p k l, f + 1, st, tail, hst, ht, he => by
      rw [Line.yield, List.append_assoc, List.append_assoc, List.cons_append] at ht
      refine wp_call (p.drives hs f hst ht (endsPipe_amps ⟨.inr rfl, rfl⟩ k)) ?_
      rintro c₁ st₁ ⟨hg₁, ht₁, hc₁⟩
      refine wp_call (backLoop_complete hs k f hg₁ hc₁ ht₁ rfl) ?_
      rintro c₂ st₂ ⟨hg₂, ht₂, hc₂⟩
      refine wp_bind (wp_peek (by decide) hs hg₂ fun st₃ hg₃ ht₃ => ?_)
      rw [ht₂] at ht₃ ⊢
      refine wp_bind (wp_gettoken_cons hs hg₃ ht₃ fun _ st₄ hg₄ ht₄ _ => ?_)
      refine wp_call (l.drives hs f hg₄ ht₄ he) ?_
      rintro c₅ st₅ ⟨hg₅, ht₅, hc₅⟩
      exact wp_bind (wp_malloc hg₅ (wp_pure ⟨hg₅, ht₅, .list hc₂ hc₅⟩))

theorem Pipe.drives (hs : 0 ∉ s) : ∀ (p : Pipe) (f : ℕ) {st : State} {tail : List Token},
    Good s st → st.toks = p.yield ++ tail → EndsPipe tail →
    Drives s (parsepipe f) st tail p.denote
  | _, 0, _, _, _, _, _ => wp_throw rfl
  | .one x, f + 1, st, tail, hst, ht, he => by
      refine wp_call (x.drives hs f hst ht he.1) ?_
      rintro c₁ st₁ ⟨hg₁, ht₁, hc₁⟩
      refine wp_bind (wp_peek (by decide) hs hg₁ fun st₂ hg₂ ht₂ => ?_)
      rw [ht₁] at ht₂ ⊢
      rw [he.2]
      exact wp_pure ⟨hg₂, ht₂, hc₁⟩
  | .pipe x p, f + 1, st, tail, hst, ht, he => by
      rw [Pipe.yield, List.append_assoc, List.cons_append] at ht
      refine wp_call (x.drives hs f hst ht (.inr rfl)) ?_
      rintro c₁ st₁ ⟨hg₁, ht₁, hc₁⟩
      refine wp_bind (wp_peek (by decide) hs hg₁ fun st₂ hg₂ ht₂ => ?_)
      rw [ht₁] at ht₂ ⊢
      refine wp_bind (wp_gettoken_cons hs hg₂ ht₂ fun _ st₃ hg₃ ht₃ _ => ?_)
      refine wp_call (p.drives hs f hg₃ ht₃ he) ?_
      rintro c₄ st₄ ⟨hg₄, ht₄, hc₄⟩
      exact wp_bind (wp_malloc hg₄ (wp_pure ⟨hg₄, ht₄, .pipe hc₁ hc₄⟩))

theorem Command.drives (hs : 0 ∉ s) : ∀ (x : Command) (f : ℕ) {st : State}
    {tail : List Token}, Good s st → st.toks = x.yield ++ tail → Ends tail →
    Drives s (parseexec f) st tail x.denote
  | .simple x, f, _, _, hst, ht, he => simple_drives hs x f hst ht he
  | .block _ _, 0, _, _, _, _, _ => wp_throw rfl
  | .block l rs, f + 1, st, tail, hst, ht, he => by
      refine wp_bind (wp_peek (by decide) hs hst fun st₁ hg₁ ht₁ => ?_)
      rw [ht] at ht₁ ⊢
      exact block_drives hs rs (fun f => l.drives hs f) f hg₁ ht₁ he

end

end Complete

/-! ## §4  `nulterminate` and the whole parser -/

/-- The offsets at which `nulterminate` stores a NUL. -/
def Cmd.ends : Cmd Span → List ℕ
  | .exec argv => argv.map Prod.snd
  | .redir cmd file _ _ => cmd.ends ++ [file.2]
  | .pipe left right => left.ends ++ right.ends
  | .list left right => left.ends ++ right.ends
  | .back cmd => cmd.ends

/-- The buffer with NULs at the offsets `es`. -/
def zeros (es : List ℕ) (buf : List UInt8) : List UInt8 :=
  es.foldl (fun buf e => buf.set e 0) buf

theorem nulterminate_eq (c : Cmd Span) (buf : List UInt8) :
    nulterminate c buf = zeros c.ends buf := by
  induction c generalizing buf with
  | exec argv =>
      unfold nulterminate zeros Cmd.ends
      rw [List.foldl_map]
  | redir cmd file mode fd ih =>
      rw [nulterminate, ih, Cmd.ends, zeros, zeros, List.foldl_append]
      rfl
  | pipe left right ihl ihr | list left right ihl ihr =>
      rw [nulterminate, ihl, ihr, Cmd.ends, zeros, zeros, zeros, List.foldl_append]
  | back cmd ih => rw [nulterminate, ih, Cmd.ends]

theorem zeros_of_notMem {es : List ℕ} {j : ℕ} (h : j ∉ es) (buf : List UInt8) :
    (zeros es buf)[j]? = buf[j]? := by
  induction es generalizing buf with
  | nil => rfl
  | cons e es ih =>
      obtain ⟨hne, hes⟩ := List.ne_and_not_mem_of_not_mem_cons h
      refine (ih hes (buf.set e 0)).trans ?_
      rw [List.getElem?_set_ne hne.symm]

theorem zeros_of_mem {es : List ℕ} {j : ℕ} (h : j ∈ es) {buf : List UInt8}
    (hj : j < buf.length) : (zeros es buf)[j]? = some 0 := by
  induction es generalizing buf with
  | nil => cases h
  | cons e es ih =>
      by_cases hes : j ∈ es
      · exact ih hes (by rwa [List.length_set])
      · obtain rfl : j = e := by
          rcases List.mem_cons.mp h with h | h
          · exact h
          · exact absurd h hes
        refine (zeros_of_notMem hes (buf.set j 0)).trans ?_
        rw [List.getElem?_set_self hj]

theorem takeWhile_eq_of_getElem? {l w : List UInt8} (hw : 0 ∉ w)
    (h : ∀ k < w.length, l[k]? = w[k]?) (hend : l[w.length]? = some 0) :
    l.takeWhile (· != 0) = w := by
  induction w generalizing l with
  | nil =>
      cases l with
      | nil => rfl
      | cons b l =>
          obtain rfl : b = 0 := Option.some.inj hend
          rfl
  | cons b w ih =>
      cases l with
      | nil => cases hend
      | cons b' l =>
          obtain rfl : b' = b := Option.some.inj (h 0 (Nat.succ_pos _))
          have hb : b' ≠ 0 := fun e => hw (by rw [e]; exact List.mem_cons_self)
          rw [List.takeWhile_cons_of_pos (by simpa using hb)]
          refine congrArg _ (ih (fun hm => hw (List.mem_cons_of_mem _ hm)) (fun k hk => ?_) hend)
          exact h (k + 1) (Nat.succ_lt_succ hk)

section Strings

variable {s : List UInt8} {es : List ℕ}

/-- NULs at ends of words leave the words and end them. -/
theorem WordAt.cstring (hs : 0 ∉ s)
    (hstop : ∀ e ∈ es, ∀ b, s[e]? = some b → isWord b = false) {sp : Span}
    {w : List UInt8} (h : WordAt s sp w) (hmem : sp.2 ∈ es) :
    cstring (zeros es (s ++ [0])) sp.1 = w := by
  have hpos := List.length_pos_iff.mpr h.nonempty
  have hlen := congrArg List.length h.text
  rw [List.length_append, List.length_drop, List.length_drop] at hlen
  have hsize := h.size
  have hword : ∀ k < w.length, s[sp.1 + k]? = w[k]? := by
    intro k hk
    rw [← List.getElem?_drop, h.text, List.getElem?_append_left hk]
  refine takeWhile_eq_of_getElem? (fun h0 => hs ?_) (fun k hk => ?_) ?_
  · refine List.mem_of_mem_drop (i := sp.1) ?_
    rw [h.text]
    exact List.mem_append_left _ h0
  · have hk' := hword k hk
    have hnot : sp.1 + k ∉ es := by
      intro hm
      have hget := List.getElem?_eq_getElem hk
      have := hstop _ hm _ (hk'.trans hget)
      rw [h.chars _ (List.getElem_mem hk)] at this
      cases this
    rw [List.getElem?_drop, zeros_of_notMem hnot, List.getElem?_append_left (by omega), hk']
  · rw [List.getElem?_drop, ← hsize]
    exact zeros_of_mem hmem (by rw [List.length_append, List.length_singleton]; omega)

/-- What stands after a word is not part of it. -/
theorem Cmd.Rel.stop {c : Cmd Span} {d : Cmd (List UInt8)} (h : Rel (WordAt s) c d) :
    ∀ e ∈ c.ends, ∀ b, s[e]? = some b → isWord b = false := by
  induction h with
  | exec h =>
      induction h with
      | nil => exact fun _ => nofun
      | cons hw _ ih =>
          intro e he
          rcases List.mem_cons.mp he with rfl | he
          · exact hw.stop
          · exact ih e he
  | redir _ hw ih =>
      intro e he
      rcases List.mem_append.mp he with he | he
      · exact ih e he
      · obtain rfl := List.mem_singleton.mp he
        exact hw.stop
  | pipe _ _ ihl ihr | list _ _ ihl ihr =>
      intro e he
      rcases List.mem_append.mp he with he | he
      · exact ihl e he
      · exact ihr e he
  | back _ ih => exact ih

/-- The tree of offsets, read as C strings. -/
theorem Cmd.Rel.map_cstring (hs : 0 ∉ s)
    (hstop : ∀ e ∈ es, ∀ b, s[e]? = some b → isWord b = false)
    {c : Cmd Span} {d : Cmd (List UInt8)} (h : Rel (WordAt s) c d) (hsub : c.ends ⊆ es) :
    c.map (fun sp => cstring (zeros es (s ++ [0])) sp.1) = d := by
  induction h with
  | exec h =>
      refine congrArg Cmd.exec ?_
      induction h with
      | nil => rfl
      | cons hw _ ih =>
          obtain ⟨hmem, hsub⟩ := List.cons_subset.mp hsub
          rw [List.map_cons, hw.cstring hs hstop hmem, ih hsub]
  | redir _ hw ih =>
      obtain ⟨hsub, hmem⟩ := List.append_subset.mp hsub
      rw [Cmd.map, ih hsub, hw.cstring hs hstop (hmem List.mem_cons_self)]
  | pipe _ _ ihl ihr | list _ _ ihl ihr =>
      obtain ⟨hl, hr⟩ := List.append_subset.mp hsub
      rw [Cmd.map, ihl hl, ihr hr]
  | back _ ih => rw [Cmd.map, ih hsub]

theorem Cmd.Rel.strings (hs : 0 ∉ s) {c : Cmd Span} {d : Cmd (List UInt8)}
    (h : Rel (WordAt s) c d) :
    c.map (fun sp => cstring (nulterminate c (s ++ [0])) sp.1) = d := by
  rw [nulterminate_eq]
  exact h.map_cstring hs h.stop (List.Subset.refl _)

end Strings

/-- The parser has called `panic`, maybe after it has printed what is left. -/
def Refuses (e : Halt) : Prop := Panics e ∨ ∃ rest, e = .leftovers rest

section Parsecmd

variable {s : List UInt8}

theorem good_start : Good s (State.start s none) := ⟨rfl, rfl⟩

/-- The end of `parsecmd`: the line has been read, or there is something left. -/
theorem wp_leftovers {st : State} {c : Cmd Span}
    {Q : Cmd Span × List UInt8 → State → Prop} {E : Halt → Prop}
    (hok : st.toks = [] → ∀ st', Q (c, nulterminate c (s ++ [0])) st')
    (herr : st.toks ≠ [] → ∀ rest, E (.leftovers rest)) :
    wp (do
      let _ ← peek []
      let rest := (← get).cursor.rest
      if rest ≠ [] then throw (.leftovers rest)
      else pure (c, nulterminate c (s ++ [0]))) Q E st := by
  refine wp_bind (wp_bind (wp_get (wp_bind (wp_modify (wp_pure (wp_bind (wp_get ?_)))))))
  refine wp_ite (fun hne => wp_throw (herr (fun ht => hne ?_) _)) fun hnil => wp_pure (hok ?_ _)
  · exact (skip_eq_nil_iff st.cursor).mpr ht
  · exact (skip_eq_nil_iff st.cursor).mp (not_not.mp hnil)

theorem parsecmd_sound (hs : 0 ∉ s) {f : ℕ} (hf : 4 * (tokens s).length + 4 < f) :
    wp (parsecmd f s) (fun r _ => r.2 = nulterminate r.1 (s ++ [0]) ∧
        ∃ l : Line, l.yield = tokens s ∧ Cmd.Rel (WordAt s) r.1 l.denote) Refuses
      (State.start s none) := by
  have hline := (parser_sound hs f).2.2.2 _ hf (State.start s none) good_start le_rfl
  refine wp_bind (wp_mono hline ?_ fun e he => .inl he)
  rintro c st ⟨hg, l, hl, hc⟩
  refine wp_leftovers (fun hnil _ => ⟨rfl, l, ?_, hc⟩) fun _ rest => .inr ⟨rest, rfl⟩
  rw [hnil, List.append_nil] at hl
  exact hl.symm

theorem parsecmd_complete (hs : 0 ∉ s) (f : ℕ) {l : Line} (hl : l.yield = tokens s) :
    wp (parsecmd f s) (fun r _ => r.1.map (fun sp => cstring r.2 sp.1) = l.denote)
      (· = .fuel) (State.start s none) := by
  have hstart : (State.start s none).toks = l.yield ++ [] := by
    rw [List.append_nil, hl]
    rfl
  refine wp_call (l.drives hs f good_start hstart (.inl rfl)) ?_
  rintro c st ⟨hg, ht, hc⟩
  exact wp_leftovers (fun _ _ => hc.strings hs) fun hne => absurd ht hne

/-- `ls>x`. -/
def lsLine : List UInt8 := bytes ['l', 's', '>', 'x']

def lsDerivation : Line :=
  .last (.one (.simple ⟨[], [(bytes ['l', 's'], [⟨.gt, bytes ['x']⟩])], by decide⟩)) 0

theorem lsDerivation_yield : lsDerivation.yield = tokens lsLine := by
  have hls : tokens lsLine = .word (bytes ['l', 's']) :: tokens (bytes ['>', 'x']) := by
    rw [lsLine, bytes, List.map_cons, tokens, if_neg (by decide), if_pos (by decide)]
    rfl
  have hgt : tokens (bytes ['>', 'x']) = .gt :: tokens (bytes ['x']) := by
    rw [bytes, List.map_cons, tokens, if_neg (by decide), if_neg (by decide), if_pos rfl,
      if_neg (by decide)]
    rfl
  have hx : tokens (bytes ['x']) = [.word (bytes ['x'])] := by
    rw [bytes, List.map_cons, tokens, if_neg (by decide), if_pos (by decide)]
    exact congrArg _ (by rw [List.map_nil, List.dropWhile_nil, tokens])
  rw [hls, hgt, hx]
  rfl

end Parsecmd

end Xv6.User.Sh
