import TaskjugglerLsp.Lexer.Boundaries

/-!
# The places of the tokens

The tokens of a text and the spans that the scanner has pushed for them.  A token of most kinds has
one span, with its positions; comments have spans and are no tokens.

* `rawNext_val`: what the value of a token is.
* `taken_handed`: apart from the comments, the spans are those of the tokens that are handed out.
* `LexReached.inOrder`: they are in the order of the text.
-/

namespace TaskjugglerLsp

open Lib

/-- The kinds of tokens that have a span. -/
def hasSpan (k : ℕ) : Bool :=
  ! [0, tkInteger, tkFloat, tkPlus, tkMinus, tkColon, tkPercent, tkDollar, tkError, tkEol].contains k

/-- The kinds of tokens that keep their text. -/
def hasText (k : ℕ) : Bool :=
  hasSpan k && ! [tkLbracket, tkRbracket, tkLbrace, tkRbrace, tkBang, tkDot, tkComma].contains k

/-- The text of a token of a kind that keeps it. -/
def keptText (k : ℕ) (text : Option CStr) : Option CStr := if hasText k then text else none

/-- A kind, a place, and the text if it is kept. -/
abbrev Mark := ℕ × LspPos × LspPos × Option CStr

/-- The mark of a span. -/
def TokenSpan.mark (x : TokenSpan) : Mark :=
  (x.tokenKind, x.start, x.stop, keptText x.tokenKind x.text)

/-- The mark of a token. -/
def RawToken.mark (r : RawToken) : Mark :=
  (r.kind, r.val.start, r.val.stop, keptText r.kind r.val.text)

/-- The span is one of a comment. -/
def TokenSpan.isRemark (x : TokenSpan) : Bool :=
  x.tokenKind == tkLineComment || x.tokenKind == tkBlockComment

/-! ### One match -/

/-- What an action that returns a token says about its kind. -/
def LexAction.Spans : LexAction → Prop
  | emitKw code | closeString code => hasText code = true
  | emitPlain code => hasSpan code = [tkIdent, tkLbracket, tkRbracket, tkLbrace, tkRbrace, tkBang,
      tkDot, tkComma].contains code ∧ (hasText code = true → code = tkIdent)
  | _ => True

instance (a : LexAction) : Decidable a.Spans := by
  cases a <;> unfold LexAction.Spans <;> infer_instance

theorem lexRules_spans (c : StartCondition) : ∀ r ∈ lexRules c, r.action.Spans := by
  cases c <;> decide +kernel

/-- More spans, which are comments. -/
def MoreComments (xs ys : List TokenSpan) : Prop :=
  ∃ more, ys = xs ++ more ∧ ∀ x ∈ more, x.isRemark = true

theorem MoreComments.refl (xs : List TokenSpan) : MoreComments xs xs :=
  ⟨[], (List.append_nil xs).symm, fun x hx => by cases hx⟩

theorem MoreComments.trans {xs ys zs : List TokenSpan} (h : MoreComments xs ys)
    (h' : MoreComments ys zs) : MoreComments xs zs := by
  obtain ⟨more, rfl, hmore⟩ := h
  obtain ⟨more', rfl, hmore'⟩ := h'
  exact ⟨more ++ more', List.append_assoc _ _ _, List.forall_mem_append.mpr ⟨hmore, hmore'⟩⟩

theorem LexGlobals.tokSpans_strAppend (g : LexGlobals) (text : CStr) :
    (g.strAppend text).tokSpans = g.tokSpans := by
  unfold LexGlobals.strAppend
  split_ifs <;> rfl

/-- An action without a token pushes at most a comment. -/
theorem LexAction.run_silent {a : LexAction} (h : a.code = none) (c : StartCondition)
    (g : LexGlobals) (text : CStr) : MoreComments g.tokSpans (a.run c g text).1.2.tokSpans := by
  have hpush (code : ℕ) (hcode : code = tkLineComment ∨ code = tkBlockComment) (start stop : LspPos)
      (t : Option CStr) : MoreComments g.tokSpans (g.tokSpans ++ [⟨code, start, stop, t⟩]) := by
    refine ⟨_, rfl, fun x hx => ?_⟩
    rw [List.mem_singleton.mp hx]
    simpa [TokenSpan.isRemark] using hcode
  cases a with
  | skip => exact .refl _
  | newline => exact .refl _
  | lineComment => exact hpush _ (.inl rfl) _ _ _
  | openFragment next =>
    unfold LexAction.run
    simp only [LexGlobals.tokSpans_strAppend]
    exact .refl _
  | append =>
    unfold LexAction.run
    simp only [LexGlobals.tokSpans_strAppend]
    exact .refl _
  | appendNewline =>
    unfold LexAction.run
    simp only [LexGlobals.tokSpans_strAppend]
    exact .refl _
  | closeComment =>
    unfold LexAction.run
    simp only [LexGlobals.pushTokSpan, LexGlobals.tokSpans_strAppend]
    exact hpush _ (.inr rfl) _ _ _
  | closeString code => cases h
  | badNewline => cases h
  | emitKw code => cases h
  | emitPlain code => cases h

/-- What a call leaves: the token and, if it has one, its span. -/
structure TokenEmitted (before : List TokenSpan) (g : LexGlobals) (k : ℕ) : Prop where
  kind : g.yylval.kind = k
  text : hasText k = true → g.yylval.text.isSome = true
  spans : ∃ t, keptText k t = keptText k g.yylval.text ∧ g.tokSpans
    = before ++ if hasSpan k then [⟨k, g.yylval.start, g.yylval.stop, t⟩] else []

theorem hasSpan_of_hasText {k : ℕ} (h : hasText k = true) : hasSpan k = true :=
  (Bool.and_eq_true_iff.mp h).1

theorem emitted_emitPlain {code : ℕ} (h : (LexAction.emitPlain code).Spans) (g : LexGlobals)
    (text : CStr) : TokenEmitted g.tokSpans (g.emitPlain code text).1 code := by
  obtain ⟨hspan, htext⟩ := h
  by_cases hident : code = tkIdent
  · subst hident
    exact ⟨rfl, fun _ => rfl, some text, rfl, rfl⟩
  refine ⟨rfl, fun hcode => absurd (htext hcode) hident, ?_⟩
  have hkept (t u : Option CStr) : keptText code t = keptText code u := by
    have hnone : hasText code = false := by
      by_contra htrue
      exact hident (htext (by simpa using htrue))
    rw [keptText, keptText, hnone]
    rfl
  rw [hspan]
  unfold LexGlobals.emitPlain
  simp only [if_neg hident]
  split_ifs with h1 h2 h3 h3
  · exact ⟨some text, hkept _ _, rfl⟩
  · simp only [List.contains_eq_mem, List.mem_cons, List.not_mem_nil, or_false,
      decide_eq_true_eq, not_or] at h2
    tauto
  · exact ⟨none, hkept _ _, rfl⟩
  · simp only [List.contains_eq_mem, List.mem_cons, List.not_mem_nil, or_false,
      decide_eq_true_eq, not_or] at h3
    tauto
  · rename_i hc
    simp only [List.contains_eq_mem, List.mem_cons, List.not_mem_nil, or_false,
      decide_eq_true_eq] at hc
    tauto
  · exact ⟨none, hkept _ _, (List.append_nil _).symm⟩

/-- **An action with a token** pushes its span. -/
theorem LexAction.run_emitted {a : LexAction} {k : ℕ} (h : a.code = some k) (hspans : a.Spans)
    (c : StartCondition) (g : LexGlobals) (text : CStr) :
    TokenEmitted g.tokSpans (a.run c g text).1.2 k := by
  cases a with
  | closeString code =>
    obtain rfl := Option.some.inj h
    refine ⟨rfl, fun _ => rfl, ?_⟩
    simp only [hasSpan_of_hasText hspans, if_true]
    refine ⟨some (g.strAppend text).strBuf, rfl, ?_⟩
    show (g.strAppend text).tokSpans ++ _ = _
    rw [LexGlobals.tokSpans_strAppend]
    rfl
  | emitKw code =>
    obtain rfl := Option.some.inj h
    refine ⟨rfl, fun _ => rfl, ?_⟩
    simp only [hasSpan_of_hasText hspans, if_true]
    exact ⟨some text, rfl, rfl⟩
  | emitPlain code =>
    obtain rfl := Option.some.inj h
    exact emitted_emitPlain hspans g text
  | badNewline =>
    obtain rfl := Option.some.inj h
    exact emitted_emitPlain (by decide) { g with yycolumn := 0 } text
  | _ => cases h

/-! ### Calls -/

theorem silent_spans {c d : LexState} (h : Scanner.Silent lexer c d) :
    MoreComments c.vars.tokSpans d.vars.tokSpans := by
  induction h with
  | refl => exact .refl _
  | @head c d h _ ih =>
    refine MoreComments.trans ?_ ih
    have hs := lexer.steps_step c
    generalize lexer.step c = out at hs h
    cases hs with
    | eof => cases h
    | @rule r text rest k s t hrest hlongest hact =>
      have hact : r.action.run c.cond (c.vars.userAction text) text = ((k, s), t) := hact
      have hcode := LexAction.run_code r.action c.cond (c.vars.userAction text) text
      rw [hact] at hcode
      have hmore := LexAction.run_silent (hcode.symm.trans h) c.cond (c.vars.userAction text) text
      rwa [hact] at hmore
    | echo => exact .refl _

/-- **A call** pushes comments, and the span of its token. -/
theorem rawNext_spans (s : LexState) : ∃ between, MoreComments s.vars.tokSpans between ∧
    if (rawNext s).2.kind = 0 then (rawNext s).1.vars.tokSpans = between
    else TokenEmitted between (rawNext s).1.vars (rawNext s).2.kind := by
  have hend := rawEnd_rawYylex { s with vars := { s.vars with pendingNewline := false } }
  obtain ⟨out, hout⟩ : ∃ out, rawYylex { s with vars := { s.vars with pendingNewline := false } }
    = out := ⟨_, rfl⟩
  rw [hout] at hend
  have hkind : (rawNext s).2.kind = out.2 := congrArg Prod.snd hout
  have hstate : (rawNext s).1 = out.1 := congrArg Prod.fst hout
  rw [hkind, hstate]
  cases hend with
  | @rule d r text rest k hd hrest hlongest hk =>
    have hmore := silent_spans hd
    refine ⟨d.vars.tokSpans, hmore, ?_⟩
    rw [if_neg (lexRules_code _ _ hlongest.mem _ hk).1]
    exact LexAction.run_emitted hk (lexRules_spans _ _ hlongest.mem) d.cond
      (d.vars.userAction text) text
  | @fragment d hd hrest hc =>
    have hmore := silent_spans hd
    refine ⟨d.vars.tokSpans, hmore, ?_⟩
    rw [if_neg (show tkError ≠ 0 by decide)]
    exact emitted_emitPlain (by decide) d.vars []
  | @input d hd hrest hc =>
    have hmore := silent_spans hd
    exact ⟨d.vars.tokSpans, hmore, rfl⟩

theorem rawNext_val {s : LexState} (h : (rawNext s).2.kind ≠ 0) :
    (rawNext s).2.val.kind = (rawNext s).2.kind ∧
      (hasText (rawNext s).2.kind = true → (rawNext s).2.val.text.isSome = true) := by
  obtain ⟨between, -, hemitted⟩ := rawNext_spans s
  rw [if_neg h] at hemitted
  exact ⟨hemitted.kind, hemitted.text⟩

/-- The marks of the spans that are no comments. -/
def spanMarks (spans : List TokenSpan) : List Mark :=
  (spans.filter fun x => !x.isRemark).map TokenSpan.mark

theorem MoreComments.marks {xs ys : List TokenSpan} (h : MoreComments xs ys) :
    spanMarks ys = spanMarks xs := by
  obtain ⟨more, rfl, hmore⟩ := h
  have hnone : more.filter (fun x => !x.isRemark) = [] := by
    rw [List.filter_eq_nil_iff]
    intro x hx
    rw [hmore x hx]
    exact Bool.false_ne_true
  rw [spanMarks, List.filter_append, hnone, List.append_nil]
  rfl

/-- The marks of the tokens that have a span. -/
def tokenMarks (tokens : List RawToken) : List Mark :=
  (tokens.filter fun r => hasSpan r.kind).map RawToken.mark

theorem spanMarks_append (xs ys : List TokenSpan) :
    spanMarks (xs ++ ys) = spanMarks xs ++ spanMarks ys := by
  rw [spanMarks, List.filter_append, List.map_append]
  rfl

theorem lexRules_noComment (c : StartCondition) : ∀ r ∈ lexRules c, ∀ k ∈ r.action.code,
    k ≠ tkLineComment ∧ k ≠ tkBlockComment := by
  cases c <;> decide +kernel

theorem rawNext_noComment (s : LexState) :
    (rawNext s).2.kind ≠ tkLineComment ∧ (rawNext s).2.kind ≠ tkBlockComment := by
  have hend := rawEnd_rawYylex { s with vars := { s.vars with pendingNewline := false } }
  obtain ⟨out, hout⟩ : ∃ out, rawYylex { s with vars := { s.vars with pendingNewline := false } }
    = out := ⟨_, rfl⟩
  rw [hout] at hend
  have hkind : (rawNext s).2.kind = out.2 := congrArg Prod.snd hout
  rw [hkind]
  cases hend with
  | rule hd hrest hlongest hk => exact lexRules_noComment _ _ hlongest.mem _ hk
  | fragment => exact (by decide : tkError ≠ tkLineComment ∧ tkError ≠ tkBlockComment)
  | input => exact (by decide : 0 ≠ tkLineComment ∧ 0 ≠ tkBlockComment)

theorem marks_rawNext (s : LexState) : spanMarks (rawNext s).1.vars.tokSpans
    = spanMarks s.vars.tokSpans ++ tokenMarks [(rawNext s).2] := by
  obtain ⟨between, hmore, hemitted⟩ := rawNext_spans s
  rw [← hmore.marks]
  by_cases hzero : (rawNext s).2.kind = 0
  · rw [if_pos hzero] at hemitted
    have hspan : hasSpan (rawNext s).2.kind = false := by
      rw [hzero]
      rfl
    rw [hemitted, tokenMarks, List.filter_singleton, hspan]
    exact (List.append_nil _).symm
  · rw [if_neg hzero] at hemitted
    obtain ⟨t, htext, ht⟩ := hemitted.spans
    rw [ht, spanMarks_append, tokenMarks, List.filter_singleton]
    congr 1
    by_cases hspan : hasSpan (rawNext s).2.kind = true
    · obtain ⟨hline, hblock⟩ := rawNext_noComment s
      have hno : (!(⟨(rawNext s).2.kind, (rawNext s).1.vars.yylval.start,
          (rawNext s).1.vars.yylval.stop, t⟩ : TokenSpan).isRemark) = true := by
        simp [TokenSpan.isRemark, hline, hblock]
      rw [if_pos hspan, hspan, spanMarks, List.filter_singleton, hno]
      show [((rawNext s).2.kind, _, _, keptText (rawNext s).2.kind t)] = _
      rw [htext]
      rfl
    · rw [if_neg hspan, Bool.not_eq_true] at *
      rw [hspan]
      rfl

/-! ### What the parser is handed -/

/-- The token that is held back. -/
def FrontState.heldBack (s : FrontState) : List (ℕ × Token) :=
  if s.eol.haveBuffered then [(s.eol.bufferedKind, s.eol.bufferedVal)] else []

/-- The tokens with a span, among some. -/
def spanned (ts : List (ℕ × Token)) : List Token := (ts.filter fun t => hasSpan t.1).map (·.2)

/-- The mark of a token that is handed over. -/
def Token.mark (t : Token) : Mark := (t.kind, t.start, t.stop, keptText t.kind t.text)

/-- **Tokens are taken** from the scanner: apart from comments they are those of the spans, with
closing braces at the end of the input. -/
structure Taken (lex : LexState) (ts : List (ℕ × Token)) : Prop where
  spans : ∃ real missing, spanned ts = real ++ List.replicate missing (missingBrace lex.vars.pos).val ∧
    real.map Token.mark = spanMarks lex.vars.tokSpans ∧ (missing ≠ 0 → AtEnd lex)
  ok : ∀ t ∈ ts, hasSpan t.1 = true →
    t.2.kind = t.1 ∧ (hasText t.1 = true → t.2.text.isSome = true)

theorem spanned_append (ts us : List (ℕ × Token)) :
    spanned (ts ++ us) = spanned ts ++ spanned us := by
  unfold spanned
  rw [List.filter_append, List.map_append]

theorem Taken.skip {lex : LexState} {ts : List (ℕ × Token)} (h : Taken lex ts) {t : ℕ × Token}
    (ht : hasSpan t.1 = false) : Taken lex (ts ++ [t]) := by
  have hnone : spanned [t] = [] := by
    unfold spanned
    rw [List.filter_singleton, ht]
    rfl
  refine ⟨?_, ?_⟩
  · rw [spanned_append, hnone, List.append_nil]
    exact h.spans
  · intro u hu hspan
    rcases List.mem_append.mp hu with hu | hu
    · exact h.ok u hu hspan
    · rw [List.mem_singleton.mp hu, ht] at hspan
      cases hspan

/-- **A call of the scanner** takes a token. -/
theorem Taken.rawNext {lex : LexState} {ts : List (ℕ × Token)} (h : Taken lex ts) :
    Taken (rawNext lex).1 (ts ++ [((rawNext lex).2.kind, (rawNext lex).2.val)]) := by
  have hmarks := marks_rawNext lex
  by_cases hspan : hasSpan (TaskjugglerLsp.rawNext lex).2.kind = true
  · have hne : (TaskjugglerLsp.rawNext lex).2.kind ≠ 0 := by
      intro hzero
      rw [hzero] at hspan
      cases hspan
    obtain ⟨hkind, htext⟩ := rawNext_val hne
    obtain ⟨real, missing, hspans, hreal, hend⟩ := h.spans
    obtain rfl : missing = 0 := by
      by_contra hmissing
      exact hne (rawNext_atEnd (hend hmissing)).2
    refine ⟨⟨real ++ [(TaskjugglerLsp.rawNext lex).2.val], 0, ?_, ?_, fun h => absurd rfl h⟩, ?_⟩
    · rw [spanned_append, hspans, List.replicate_zero, List.append_nil, List.replicate_zero,
        List.append_nil]
      unfold spanned
      rw [List.filter_singleton, hspan]
      rfl
    · rw [hmarks, List.map_append, hreal, tokenMarks, List.filter_singleton, hspan]
      show _ ++ [((TaskjugglerLsp.rawNext lex).2.val.kind, _, _,
        keptText (TaskjugglerLsp.rawNext lex).2.val.kind _)] = _
      rw [hkind]
      rfl
    · intro t ht hk
      rcases List.mem_append.mp ht with ht | ht
      · exact h.ok t ht hk
      · rw [List.mem_singleton.mp ht]
        exact ⟨hkind, htext⟩
  · rw [Bool.not_eq_true] at hspan
    refine Taken.skip ⟨?_, h.ok⟩ hspan
    obtain ⟨real, missing, hspans, hreal, hend⟩ := h.spans
    have hsame : spanMarks (TaskjugglerLsp.rawNext lex).1.vars.tokSpans
        = spanMarks lex.vars.tokSpans := by
      rw [hmarks, tokenMarks, List.filter_singleton, hspan]
      exact List.append_nil _
    rw [hsame]
    rcases Nat.eq_zero_or_pos missing with rfl | hpos
    · exact ⟨real, 0, hspans, hreal, fun h => absurd rfl h⟩
    · have hatEnd := hend (Nat.ne_of_gt hpos)
      have hstay := (rawNext_atEnd hatEnd).1
      refine ⟨real, missing, ?_, hreal, fun _ => ?_⟩
      · rw [hspans, hstay]
        rfl
      · rw [hstay]
        exact hatEnd

theorem Taken.nextToken {s : FrontState} {ts : List (ℕ × Token)}
    (h : Taken s.lex (ts ++ s.heldBack)) :
    Taken (nextToken s).1.lex (ts ++ [((nextToken s).2.1, (nextToken s).1.lex.vars.yylval)]) ∧
      (nextToken s).1.eol.haveBuffered = false := by
  cases hbuf : s.eol.haveBuffered with
  | true =>
    rw [FrontState.heldBack, hbuf] at h
    have hnext : TaskjugglerLsp.nextToken s =
        (⟨{ s.lex with vars := { s.lex.vars with yylval := s.eol.bufferedVal } },
          { s.eol with haveBuffered := false }⟩, s.eol.bufferedKind, false) := by
      unfold TaskjugglerLsp.nextToken
      exact if_pos hbuf
    rw [hnext]
    exact ⟨⟨h.spans, h.ok⟩, rfl⟩
  | false =>
    rw [FrontState.heldBack, hbuf] at h
    have h : Taken s.lex ts := by simpa using h
    by_cases hopen : (TaskjugglerLsp.rawNext s.lex).2.kind = 0 ∧ 0 < s.eol.braceDepth
    · have hatEnd := atEnd_of_kind_eq_zero hopen.1
      have hnext : TaskjugglerLsp.nextToken s =
          (⟨{ (TaskjugglerLsp.rawNext s.lex).1 with
            vars := { (TaskjugglerLsp.rawNext s.lex).1.vars with
              yylval := (missingBrace (TaskjugglerLsp.rawNext s.lex).1.vars.pos).val } },
            s.eol⟩, tkRbrace, (TaskjugglerLsp.rawNext s.lex).2.newline) := by
        unfold TaskjugglerLsp.nextToken
        rw [hbuf]
        exact if_pos hopen
      rw [hnext]
      refine ⟨⟨?_, ?_⟩, hbuf⟩
      · obtain ⟨real, missing, hspans, hreal, hend⟩ := h.rawNext.spans
        refine ⟨real, missing + 1, ?_, hreal, fun _ => hatEnd⟩
        have hzero : spanned [((TaskjugglerLsp.rawNext s.lex).2.kind,
            (TaskjugglerLsp.rawNext s.lex).2.val)] = [] := by
          rw [hopen.1]
          rfl
        rw [spanned_append, hzero, List.append_nil] at hspans
        rw [spanned_append, hspans, List.replicate_succ', List.append_assoc]
        rfl
      · intro t ht hk
        rcases List.mem_append.mp ht with ht | ht
        · exact h.ok t ht hk
        · rw [List.mem_singleton.mp ht]
          exact ⟨rfl, fun _ => rfl⟩
    · rw [nextToken_real hbuf hopen]
      exact ⟨h.rawNext, hbuf⟩

/-- **A call of `yylex`** hands over a token that is taken. -/
theorem Taken.yylex {s : FrontState} {ts : List (ℕ × Token)} (h : Taken s.lex (ts ++ s.heldBack)) :
    Taken (yylex s).1.lex
      (ts ++ [((yylex s).2, (yylex s).1.lex.vars.yylval)] ++ (yylex s).1.heldBack) := by
  obtain ⟨hnext, hbuf⟩ := h.nextToken
  obtain ⟨⟨s', kind, newline⟩, hs⟩ : ∃ out, TaskjugglerLsp.nextToken s = out := ⟨_, rfl⟩
  rw [hs] at hnext hbuf
  have hbuf : s'.eol.haveBuffered = false := hbuf
  by_cases hdue : s'.eol.Due kind newline
  · rw [yylex_of_due hs hdue]
    have hswap : spanned (ts ++ [(tkEol, eolToken)] ++ [(kind, s'.lex.vars.yylval)])
        = spanned (ts ++ [(kind, s'.lex.vars.yylval)]) := by
      rw [spanned_append, spanned_append, spanned_append]
      exact congrArg (· ++ _) (List.append_nil _)
    refine ⟨?_, ?_⟩
    · show ∃ real missing, spanned (ts ++ [(tkEol, eolToken)] ++ [(kind, s'.lex.vars.yylval)])
        = _ ∧ _
      rw [hswap]
      exact hnext.spans
    · intro t ht hk
      have ht : t ∈ ts ++ [(tkEol, eolToken)] ++ [(kind, s'.lex.vars.yylval)] := ht
      rw [List.mem_append, List.mem_append] at ht
      rcases ht with (ht | ht) | ht
      · exact hnext.ok t (List.mem_append_left _ ht) hk
      · rw [List.mem_singleton.mp ht] at hk
        cases hk
      · exact hnext.ok t (List.mem_append_right _ ht) hk
  · rw [yylex_of_not_due hs hdue]
    have hnone : (⟨s'.lex, s'.eol.push kind⟩ : FrontState).heldBack = [] := by
      unfold FrontState.heldBack
      rw [EolState.haveBuffered_push, hbuf]
      rfl
    rw [hnone, List.append_nil]
    exact hnext

/-- The position of the scanner is behind its spans. -/
theorem LexReached.spans_le {src input : CStr} (hscan : yyScanString src = some input)
    {s : LexState} (h : LexReached input s) :
    ∀ x ∈ s.vars.tokSpans, x.stop.key ≤ s.vars.pos.key := by
  obtain ⟨before, since, hinv⟩ := lexReached_inv h
  have hlen : input.length < 2 ^ 32 := by
    have := (yyScanString_spec hscan).2
    omega
  intro x hx
  obtain ⟨a, mid, hin, hpushed⟩ := hinv.laid.pushed hlen x hx
  have hwhole : before ++ since <+: input := ⟨s.rest, hinv.eq.symm⟩
  have hpre : a ++ mid <+: before ++ since := hin.trans (List.prefix_append _ _)
  rw [← Nat.not_lt, ← LspPos.before_nat_iff_key, ← hpushed.stop_eq,
    ← wrap_eq_bytePos hlen hwhole hinv.at_pos.pos, before_bytePos_iff List.prefix_rfl hpre]
  exact Nat.not_lt.mpr hpre.length_le

/-- The spans of a scan are in order. -/
structure SpansInOrder (spans : List TokenSpan) (last : LspPos) : Prop where
  nonempty : ∀ x ∈ spans, x.start.key < x.stop.key
  ordered : spans.Pairwise fun x y => x.stop.key ≤ y.start.key
  last_le : ∀ x ∈ spans, x.stop.key ≤ last.key

theorem LexReached.inOrder {src input : CStr} (hscan : yyScanString src = some input)
    {s : LexState} (h : LexReached input s) : SpansInOrder s.vars.tokSpans s.vars.pos := by
  obtain ⟨hnonempty, hordered⟩ := h.laid_spans hscan
  refine ⟨fun x hx => (LspPos.before_nat_iff_key _ _).mp (hnonempty x hx), ?_, h.spans_le hscan⟩
  refine hordered.imp fun h => ?_
  have := h.1
  rw [LspPos.before_nat_iff_key] at this
  exact Nat.not_lt.mp this

/-- **What is handed out** in so many calls is taken from the scanner. -/
theorem taken_handed (n : ℕ) {s : FrontState} {ts : List (ℕ × Token)}
    (h : Taken s.lex (ts ++ s.heldBack)) :
    Taken (yylexCalls n s).lex (ts ++ handed n s ++ (yylexCalls n s).heldBack) := by
  induction n generalizing s ts with
  | zero =>
    rw [handed, List.append_nil]
    exact h
  | succ n ih =>
    have hrest := ih h.yylex
    rw [List.append_assoc ts] at hrest
    exact hrest

theorem taken_install (front : FrontState) (input : CStr) :
    Taken (front.install input).lex ([] ++ (front.install input).heldBack) :=
  ⟨⟨[], 0, rfl, rfl, fun h => absurd rfl h⟩, fun t ht => by cases ht⟩

end TaskjugglerLsp
