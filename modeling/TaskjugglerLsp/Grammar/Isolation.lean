import TaskjugglerLsp.Grammar.Shapes
import TaskjugglerLsp.Lexer.Spans

/-!
# Parses are isolated from each other

What an earlier parse leaves in the globals does not show in a later one.  Two parses of a
text that start on different states are run side by side: `SameFront` and `SameVars`
are what the lexer and the grammar must have in common while they are read.

* `SameFront.yylex`: the lexers return the same tokens.
* `sameRel_respected`: the lexer and the actions keep what the two parses have in common.
* `parse_isolated`: after any two histories, a text has the same output.
-/

namespace TaskjugglerLsp

open Lib Lib.Lr

/-! ### The scanner -/

/-- Two scanners in the same place: the variables of a fragment agree while one is open. -/
structure SameGlobals (c : StartCondition) (g h : LexGlobals) : Prop where
  yylineno : g.yylineno = h.yylineno
  yycolumn : g.yycolumn = h.yycolumn
  pendingNewline : g.pendingNewline = h.pendingNewline
  tokSpans : g.tokSpans = h.tokSpans
  numSemEntries : g.numSemEntries = h.numSemEntries
  tokStart : c ≠ .initial → g.tokStart = h.tokStart
  mfragStart : c ≠ .initial → g.mfragStart = h.mfragStart
  strBuf : c ≠ .initial → g.strBuf = h.strBuf

section Globals

variable {c : StartCondition} {g h : LexGlobals}

theorem SameGlobals.pos (same : SameGlobals c g h) : g.pos = h.pos := by
  rw [LexGlobals.pos, LexGlobals.pos, same.yylineno, same.yycolumn]

theorem SameGlobals.userAction (same : SameGlobals c g h) (text : CStr) :
    SameGlobals c (g.userAction text) (h.userAction text) ∧
      (g.userAction text).tokStart = (h.userAction text).tokStart := by
  have hstart : (g.userAction text).tokStart = (h.userAction text).tokStart := by
    simp only [LexGlobals.userAction, LexGlobals.pos, same.yylineno, same.yycolumn]
  refine ⟨⟨?_, ?_, same.pendingNewline, same.tokSpans, same.numSemEntries, fun _ => hstart,
    same.mfragStart, same.strBuf⟩, hstart⟩
  · exact congrArg (· + _) same.yylineno
  · exact congrArg (· + _) same.yycolumn

theorem SameGlobals.pushTokSpan (same : SameGlobals c g h) (kind : ℕ) (start stop : LspPos)
    (text : Option CStr) :
    SameGlobals c (g.pushTokSpan kind start stop text) (h.pushTokSpan kind start stop text) where
  yylineno := same.yylineno
  yycolumn := same.yycolumn
  pendingNewline := same.pendingNewline
  tokSpans := congrArg (· ++ _) same.tokSpans
  numSemEntries := by
    simp only [LexGlobals.pushTokSpan, same.numSemEntries]
  tokStart := same.tokStart
  mfragStart := same.mfragStart
  strBuf := same.strBuf

theorem SameGlobals.strAppend (same : SameGlobals c g h) (hc : c ≠ .initial) (text : CStr) :
    SameGlobals c (g.strAppend text) (h.strAppend text) := by
  have hbuf := same.strBuf hc
  unfold LexGlobals.strAppend
  rw [hbuf]
  split_ifs
  · exact ⟨same.yylineno, same.yycolumn, same.pendingNewline, same.tokSpans, same.numSemEntries,
      same.tokStart, same.mfragStart, fun _ => rfl⟩
  · exact same

theorem SameGlobals.close (same : SameGlobals c g h) : SameGlobals .initial g h :=
  ⟨same.yylineno, same.yycolumn, same.pendingNewline, same.tokSpans, same.numSemEntries,
    fun hne => absurd rfl hne, fun hne => absurd rfl hne, fun hne => absurd rfl hne⟩

theorem SameGlobals.newColumn (same : SameGlobals c g h) :
    SameGlobals c { g with yycolumn := 0 } { h with yycolumn := 0 } :=
  ⟨same.yylineno, rfl, same.pendingNewline, same.tokSpans, same.numSemEntries, same.tokStart,
    same.mfragStart, same.strBuf⟩

theorem SameGlobals.newVal (same : SameGlobals c g h) (v w : Token) :
    SameGlobals c { g with yylval := v } { h with yylval := w } :=
  ⟨same.yylineno, same.yycolumn, same.pendingNewline, same.tokSpans, same.numSemEntries,
    same.tokStart, same.mfragStart, same.strBuf⟩

theorem SameGlobals.emitKw (same : SameGlobals c g h) (hstart : g.tokStart = h.tokStart)
    (code : ℕ) (text : CStr) :
    SameGlobals c (g.emitKw code text).1 (h.emitKw code text).1 ∧
      (g.emitKw code text).1.yylval = (h.emitKw code text).1.yylval := by
  unfold LexGlobals.emitKw
  rw [← hstart, ← same.pos]
  exact ⟨(same.pushTokSpan _ _ _ _).newVal _ _, rfl⟩

theorem SameGlobals.emitPlain (same : SameGlobals c g h) (hstart : g.tokStart = h.tokStart)
    (code : ℕ) (text : CStr) :
    SameGlobals c (g.emitPlain code text).1 (h.emitPlain code text).1 ∧
      (g.emitPlain code text).1.yylval = (h.emitPlain code text).1.yylval := by
  unfold LexGlobals.emitPlain
  rw [← hstart, ← same.pos]
  refine ⟨SameGlobals.newVal ?_ _ _, rfl⟩
  split_ifs
  · exact same.pushTokSpan _ _ _ _
  · exact same.pushTokSpan _ _ _ _
  · exact same

/-- **An action** goes on in the same start condition and returns the same token; with a
token, the values agree, and the scanner is in `INITIAL`. -/
theorem SameGlobals.run (same : SameGlobals c g h) {a : LexAction} {text : CStr}
    (hfits : a.Fits c text) :
    (a.run c (g.userAction text) text).1.1 = (a.run c (h.userAction text) text).1.1 ∧
    (a.run c (g.userAction text) text).2 = (a.run c (h.userAction text) text).2 ∧
    SameGlobals (a.run c (g.userAction text) text).1.1 (a.run c (g.userAction text) text).1.2
      (a.run c (h.userAction text) text).1.2 ∧
    ((a.run c (g.userAction text) text).2 ≠ none →
      (a.run c (g.userAction text) text).1.1 = .initial ∧
      (a.run c (g.userAction text) text).1.2.yylval
        = (a.run c (h.userAction text) text).1.2.yylval) := by
  obtain ⟨huser, hstart⟩ := same.userAction text
  generalize g.userAction text = g' at huser hstart ⊢
  generalize h.userAction text = h' at huser hstart ⊢
  cases a with
  | skip => exact ⟨rfl, rfl, huser, fun hne => absurd rfl hne⟩
  | newline =>
    exact ⟨rfl, rfl, ⟨huser.yylineno, rfl, rfl, huser.tokSpans, huser.numSemEntries,
      huser.tokStart, huser.mfragStart, huser.strBuf⟩, fun hne => absurd rfl hne⟩
  | lineComment =>
    have hpush := huser.pushTokSpan tkLineComment g'.tokStart g'.pos (some text)
    refine ⟨rfl, rfl, ?_, fun hne => absurd rfl hne⟩
    simp only [LexAction.run, LexGlobals.storeSemanticToken]
    rwa [← hstart, ← huser.pos]
  | openFragment next =>
    have hopen : SameGlobals next { g' with mfragStart := g'.tokStart, strBuf := [] }
        { h' with mfragStart := h'.tokStart, strBuf := [] } :=
      ⟨huser.yylineno, huser.yycolumn, huser.pendingNewline, huser.tokSpans, huser.numSemEntries,
        fun _ => hstart, fun _ => hstart, fun _ => rfl⟩
    exact ⟨rfl, rfl, hopen.strAppend hfits.2.1 text, fun hne => absurd rfl hne⟩
  | append => exact ⟨rfl, rfl, huser.strAppend hfits.1 text, fun hne => absurd rfl hne⟩
  | appendNewline =>
    exact ⟨rfl, rfl, (huser.strAppend hfits.1 text).newColumn, fun hne => absurd rfl hne⟩
  | closeComment =>
    have happ := huser.strAppend hfits.1 text
    have hpush := happ.pushTokSpan tkBlockComment (g'.strAppend text).mfragStart
      (g'.strAppend text).pos (some (g'.strAppend text).strBuf)
    refine ⟨rfl, rfl, ?_, fun hne => absurd rfl hne⟩
    simp only [LexAction.run]
    rw [← happ.mfragStart hfits.1, ← happ.strBuf hfits.1, ← happ.pos]
    exact hpush.close
  | closeString code =>
    have happ := huser.strAppend hfits.1 text
    have hpush := happ.pushTokSpan code (g'.strAppend text).mfragStart
      (g'.strAppend text).pos (some (g'.strAppend text).strBuf)
    refine ⟨rfl, rfl, ?_, fun _ => ⟨rfl, ?_⟩⟩
    · simp only [LexAction.run, LexGlobals.emitKwMfragText]
      rw [← happ.mfragStart hfits.1, ← happ.strBuf hfits.1, ← happ.pos]
      exact (hpush.newVal _ _).close
    · simp only [LexAction.run, LexGlobals.emitKwMfragText]
      rw [← happ.mfragStart hfits.1, ← happ.strBuf hfits.1, ← happ.pos]
  | badNewline =>
    obtain ⟨hemit, hval⟩ := huser.newColumn.emitPlain hstart tkError text
    exact ⟨rfl, rfl, hemit.close, fun _ => ⟨rfl, hval⟩⟩
  | emitKw code =>
    obtain ⟨hemit, hval⟩ := huser.emitKw hstart code text
    exact ⟨rfl, rfl, hemit, fun _ => ⟨hfits.1, hval⟩⟩
  | emitPlain code =>
    obtain ⟨hemit, hval⟩ := huser.emitPlain hstart code text
    exact ⟨rfl, rfl, hemit, fun _ => ⟨hfits.1, hval⟩⟩

end Globals

/-- Two scanners in the same place, with the same rest of the input. -/
structure SameScan (s t : LexState) : Prop where
  cond : s.cond = t.cond
  rest : s.rest = t.rest
  vars : SameGlobals s.cond s.vars t.vars

/-- What they have in common after a token; at the end of the input the value is left over. -/
structure SameToken (k : ℕ) (s t : LexState) : Prop where
  cond : s.cond = .initial
  same : SameScan s t
  yylval : k ≠ 0 → s.vars.yylval = t.vars.yylval

/-- **A match** keeps two scanners in the same place. -/
theorem SameScan.step {s t : LexState} (same : SameScan s t) :
    (lexer.step s).2 = (lexer.step t).2 ∧
      ((lexer.step s).2 = none → SameScan (lexer.step s).1 (lexer.step t).1) ∧
      ∀ k, (lexer.step s).2 = some k → SameToken k (lexer.step s).1 (lexer.step t).1 := by
  obtain ⟨c, g, rest⟩ := s
  obtain ⟨c', h, rest'⟩ := t
  obtain rfl : c = c' := same.cond
  obtain rfl : rest = rest' := same.rest
  have hvars : SameGlobals c g h := same.vars
  have hs := lexer.steps_step ⟨c, g, rest⟩
  obtain ⟨out, hout⟩ : ∃ out, lexer.step ⟨c, g, rest⟩ = out := ⟨_, rfl⟩
  rw [hout] at hs ⊢
  cases hs with
  | @eof k v t hrest heof =>
    obtain rfl : rest = [] := hrest
    have hstep : lexer.step ⟨c, h, []⟩
        = (⟨(lexer.eof c h).1.1, (lexer.eof c h).1.2, []⟩, some (lexer.eof c h).2) := rfl
    have heof : lexer.eof c g = ((k, v), t) := heof
    rw [hstep]
    by_cases hc : c = .initial
    · subst hc
      obtain ⟨⟨rfl, rfl⟩, rfl⟩ : (StartCondition.initial = k ∧ g = v) ∧ 0 = t := by
        simpa [lexer] using heof
      refine ⟨rfl, fun hne => (by cases hne), ?_⟩
      intro k hk
      exact ⟨rfl, ⟨rfl, rfl, hvars⟩, fun hne => absurd (Option.some.inj hk).symm hne⟩
    · obtain ⟨hemit, hval⟩ := hvars.emitPlain (hvars.tokStart hc) tkError []
      have hother : ∀ g, lexer.eof c g
          = ((.initial, (g.emitPlain tkError []).1), tkError) := by
        intro g
        cases c <;> first | exact absurd rfl hc | rfl
      rw [hother] at heof ⊢
      obtain ⟨⟨rfl, rfl⟩, rfl⟩ : (StartCondition.initial = k ∧
          (g.emitPlain tkError []).1 = v) ∧ tkError = t := by
        simpa using heof
      refine ⟨rfl, fun hne => (by cases hne), fun k _ => ?_⟩
      exact ⟨rfl, ⟨rfl, rfl, hemit.close⟩, fun _ => hval⟩
  | @rule r text more k v t hrest hlongest hact =>
    have hrest : rest = text ++ more := hrest
    have hlongest : IsLongest (lexer.rules c) r text more := hlongest
    obtain ⟨hcond, htok, hsame, hlast⟩ :=
      hvars.run (lexRules_fit c r hlongest.mem text hlongest.matches)
    have hact : r.action.run c (g.userAction text) text = ((k, v), t) := hact
    rw [hact] at hcond htok hsame hlast
    rw [Scanner.step_of_isLongest (c := ⟨c, h, rest⟩) lexer hrest hlongest]
    refine ⟨htok, fun _ => ⟨hcond, rfl, hsame⟩, fun k' hk' => ?_⟩
    obtain ⟨hinit, hval⟩ := hlast (by rw [hk']; exact Option.some_ne_none k')
    exact ⟨hinit, ⟨hcond, rfl, hsame⟩, fun _ => hval⟩
  | @echo a more hrest hnone =>
    obtain rfl : rest = a :: more := hrest
    have hstep : lexer.step ⟨c, h, a :: more⟩ = (⟨c, lexer.echo h [a], more⟩, none) := by
      have hnone : longestMatch (lexer.rules c) (a :: more) = none := hnone
      rw [Scanner.step]
      simp only
      rw [hnone]
    obtain ⟨huser, -⟩ := hvars.userAction [a]
    rw [hstep]
    refine ⟨rfl, fun _ => ⟨rfl, rfl, ?_⟩, fun k hk => by cases hk⟩
    exact ⟨huser.yylineno, huser.yycolumn, huser.pendingNewline, huser.tokSpans,
      huser.numSemEntries, huser.tokStart, huser.mfragStart, huser.strBuf⟩

/-- **A call of `raw_yylex`** returns the same token. -/
theorem SameScan.rawYylex {s t : LexState} (same : SameScan s t) :
    (rawYylex s).2 = (rawYylex t).2 ∧
      SameToken (rawYylex s).2 (rawYylex s).1 (rawYylex t).1 := by
  obtain ⟨k, hs, ht, htoken⟩ := Scanner.next_related (S := lexer) (R := SameScan)
    (Q := SameToken) (fun h => h.rest) (fun h => h.step) same
  unfold TaskjugglerLsp.rawYylex
  simp only
  rw [hs, ht]
  exact ⟨rfl, htoken⟩

/-! ### The wrapper -/

/-- Two wrappers in the same place. -/
structure SameEol (e f : EolState) : Prop where
  prevCanEnd : e.prevCanEnd = f.prevCanEnd
  prevKind : e.prevKind = f.prevKind
  haveBuffered : e.haveBuffered = f.haveBuffered
  bufferedKind : e.bufferedKind = f.bufferedKind
  bufferedVal : e.bufferedKind ≠ 0 → e.bufferedVal = f.bufferedVal
  braceIsMacro : ∀ i < e.braceDepth, i < eolBraceMax → e.braceIsMacro i = f.braceIsMacro i
  braceDepth : e.braceDepth = f.braceDepth

/-- Two front ends in the same place, with the last token if the parser still has it. -/
structure SameFront (last : Option ℕ) (s t : FrontState) : Prop where
  cond : s.lex.cond = .initial
  scan : SameScan s.lex t.lex
  eol : SameEol s.eol t.eol
  yylval : ∀ k, last = some k → k ≠ 0 → s.lex.vars.yylval = t.lex.vars.yylval

theorem SameScan.newVal {s t : LexState} (same : SameScan s t) (v w : Token) :
    SameScan { s with vars := { s.vars with yylval := v } }
      { t with vars := { t.vars with yylval := w } } :=
  ⟨same.cond, same.rest, same.vars.newVal v w⟩

section Wrapper

variable {s t : FrontState}

theorem SameFront.rawYylex (same : SameFront none s t) :
    (TaskjugglerLsp.rawYylex { s.lex with vars := { s.lex.vars with pendingNewline := false } }).2
      = (TaskjugglerLsp.rawYylex
          { t.lex with vars := { t.lex.vars with pendingNewline := false } }).2 ∧
    SameToken (TaskjugglerLsp.rawYylex
        { s.lex with vars := { s.lex.vars with pendingNewline := false } }).2
      (TaskjugglerLsp.rawYylex
        { s.lex with vars := { s.lex.vars with pendingNewline := false } }).1
      (TaskjugglerLsp.rawYylex
        { t.lex with vars := { t.lex.vars with pendingNewline := false } }).1 := by
  have hv := same.scan.vars
  exact SameScan.rawYylex ⟨same.scan.cond, same.scan.rest, hv.yylineno, hv.yycolumn, rfl,
    hv.tokSpans, hv.numSemEntries, hv.tokStart, hv.mfragStart, hv.strBuf⟩

/-- **The next real token** is the same. -/
theorem SameFront.nextToken (same : SameFront none s t) :
    (nextToken s).2 = (nextToken t).2 ∧
      SameFront (some (nextToken s).2.1) (nextToken s).1 (nextToken t).1 := by
  have heol := same.eol
  unfold TaskjugglerLsp.nextToken
  rw [← heol.haveBuffered]
  by_cases hbuf : s.eol.haveBuffered = true
  · rw [if_pos hbuf, if_pos hbuf]
    refine ⟨?_, same.cond, same.scan.newVal _ _, ?_, ?_⟩
    · rw [heol.bufferedKind]
    · exact ⟨heol.prevCanEnd, heol.prevKind, rfl, heol.bufferedKind, heol.bufferedVal,
        heol.braceIsMacro, heol.braceDepth⟩
    · intro k hk hne
      rw [← Option.some.inj hk] at hne
      exact heol.bufferedVal hne
  · rw [if_neg hbuf, if_neg hbuf]
    obtain ⟨hkind, htoken⟩ := same.rawYylex
    generalize TaskjugglerLsp.rawYylex
      { s.lex with vars := { s.lex.vars with pendingNewline := false } } = a at hkind htoken ⊢
    generalize TaskjugglerLsp.rawYylex
      { t.lex with vars := { t.lex.vars with pendingNewline := false } } = b at hkind htoken ⊢
    obtain ⟨l, kind⟩ := a
    obtain ⟨m, kind'⟩ := b
    obtain rfl : kind = kind' := hkind
    have htoken : SameToken kind l m := htoken
    have hnewline := htoken.same.vars.pendingNewline
    simp only
    by_cases hend : kind = 0 ∧ 0 < s.eol.braceDepth
    · rw [if_pos hend, if_pos (by rw [← heol.braceDepth]; exact hend)]
      refine ⟨congrArg (Prod.mk _) hnewline, htoken.cond, htoken.same.newVal _ _, heol, fun _ _ _ => ?_⟩
      simp only
      rw [htoken.same.vars.pos]
    · rw [if_neg hend, if_neg (by rw [← heol.braceDepth]; exact hend)]
      refine ⟨congrArg (Prod.mk _) hnewline, htoken.cond, htoken.same, heol, fun k hk hne => ?_⟩
      obtain rfl : kind = k := Option.some.inj hk
      exact htoken.yylval hne

theorem SameEol.openBrace {e f : EolState} (same : SameEol e f) :
    SameEol { e with
        braceIsMacro := if e.braceDepth < eolBraceMax then
          Function.update e.braceIsMacro e.braceDepth (e.prevKind == tkDollar) else e.braceIsMacro
        braceDepth := e.braceDepth + 1 }
      { f with
        braceIsMacro := if f.braceDepth < eolBraceMax then
          Function.update f.braceIsMacro f.braceDepth (f.prevKind == tkDollar) else f.braceIsMacro
        braceDepth := f.braceDepth + 1 } where
  prevCanEnd := same.prevCanEnd
  prevKind := same.prevKind
  haveBuffered := same.haveBuffered
  bufferedKind := same.bufferedKind
  bufferedVal := same.bufferedVal
  braceIsMacro := by
    intro i hi hmax
    simp only at hi ⊢
    rw [← same.braceDepth]
    by_cases hlt : e.braceDepth < eolBraceMax
    · rw [if_pos hlt, if_pos hlt]
      rcases Nat.lt_succ_iff_lt_or_eq.mp hi with hi | rfl
      · rw [Function.update_of_ne (Nat.ne_of_lt hi), Function.update_of_ne (Nat.ne_of_lt hi)]
        exact same.braceIsMacro i hi hmax
      · rw [Function.update_self, Function.update_self, same.prevKind]
    · rw [if_neg hlt, if_neg hlt]
      exact same.braceIsMacro i (by omega) hmax
  braceDepth := congrArg (· + 1) same.braceDepth

theorem SameEol.closeBrace {e f : EolState} (same : SameEol e f) :
    SameEol { e with braceDepth := e.braceDepth - 1 }
      { f with braceDepth := f.braceDepth - 1 } :=
  ⟨same.prevCanEnd, same.prevKind, same.haveBuffered, same.bufferedKind, same.bufferedVal,
    fun i hi hmax => same.braceIsMacro i (by simp only at hi; omega) hmax,
    congrArg (· - 1) same.braceDepth⟩

theorem SameEol.newToken {e f : EolState} (same : SameEol e f) (kind : ℕ) (b : Bool) :
    SameEol { e with prevKind := kind, prevCanEnd := b }
      { f with prevKind := kind, prevCanEnd := b } :=
  ⟨rfl, rfl, same.haveBuffered, same.bufferedKind, same.bufferedVal, same.braceIsMacro,
    same.braceDepth⟩

/-- **A call of `yylex`** returns the same token. -/
theorem SameFront.yylex (same : SameFront none s t) :
    (yylex s).2 = (yylex t).2 ∧ SameFront (some (yylex s).2) (yylex s).1 (yylex t).1 := by
  obtain ⟨hkind, hnext⟩ := same.nextToken
  unfold TaskjugglerLsp.yylex
  obtain ⟨⟨s', kind, newline⟩, hs⟩ : ∃ out, TaskjugglerLsp.nextToken s = out := ⟨_, rfl⟩
  obtain ⟨⟨t', kind', newline'⟩, ht⟩ : ∃ out, TaskjugglerLsp.nextToken t = out := ⟨_, rfl⟩
  rw [hs, ht] at hkind hnext
  rw [hs, ht]
  obtain ⟨rfl, rfl⟩ : kind = kind' ∧ newline = newline' := Prod.mk.inj hkind
  have hnext : SameFront (some kind) s' t' := hnext
  have heol := hnext.eol
  have hclose : (kind = tkRbrace ∧ 0 < t'.eol.braceDepth ∧ t'.eol.braceDepth ≤ eolBraceMax ∧
      t'.eol.braceIsMacro (t'.eol.braceDepth - 1) = true) ↔
      (kind = tkRbrace ∧ 0 < s'.eol.braceDepth ∧ s'.eol.braceDepth ≤ eolBraceMax ∧
      s'.eol.braceIsMacro (s'.eol.braceDepth - 1) = true) := by
    rw [← heol.braceDepth]
    refine and_congr_right fun hk => and_congr_right fun hpos => and_congr_right fun hle => ?_
    rw [heol.braceIsMacro (s'.eol.braceDepth - 1) (by omega) (by omega)]
  simp only [hclose]
  by_cases hend : s'.eol.prevCanEnd = true ∧ ((newline = true ∧ tokCanBeginStmt kind = true) ∨
      (kind = tkRbrace ∧ ¬ (kind = tkRbrace ∧ 0 < s'.eol.braceDepth ∧
        s'.eol.braceDepth ≤ eolBraceMax ∧
        s'.eol.braceIsMacro (s'.eol.braceDepth - 1) = true)) ∨ kind = 0)
  · have hend' := hend
    rw [heol.prevCanEnd] at hend'
    rw [if_pos hend, if_pos hend']
    refine ⟨rfl, hnext.cond, hnext.scan.newVal _ _, ?_, fun _ _ _ => rfl⟩
    exact ⟨rfl, heol.prevKind, rfl, rfl, hnext.yylval kind rfl, heol.braceIsMacro,
      heol.braceDepth⟩
  · have hend' := hend
    rw [heol.prevCanEnd] at hend'
    rw [if_neg hend, if_neg hend']
    refine ⟨rfl, hnext.cond, hnext.scan, SameEol.newToken ?_ _ _, hnext.yylval⟩
    by_cases hopen : kind = tkLbrace
    · rw [if_pos hopen, if_pos hopen]
      exact heol.openBrace
    · rw [if_neg hopen, if_neg hopen]
      by_cases hdepth : kind = tkRbrace ∧ 0 < s'.eol.braceDepth
      · rw [if_pos hdepth, if_pos (by rw [← heol.braceDepth]; exact hdepth)]
        exact heol.closeBrace
      · rw [if_neg hdepth, if_neg (by rw [← heol.braceDepth]; exact hdepth)]
        exact heol

end Wrapper

/-! ### The productions -/

/-- **Everything but the file** stands behind the action that resets the stack of tasks. -/
theorem guarded_file : Guarded grammar (fun n => n ∉ [NonTerm.accept, .file, .midFile])
    (· = .nt .midFile) :=
  guarded_of_forall (by decide) (by decide +kernel)

/-- **References** stand behind an action that sets their direction. -/
theorem guarded_depRef : Guarded grammar (fun n => n ∈ [NonTerm.depRef, .depRefList])
    (fun X => X = .nt .midDepends ∨ X = .nt .midPrecedes) :=
  guarded_of_forall (by decide) (by decide +kernel)

/-! ### The actions -/

/-- The value of the end of the input and of `error` is left over from another token. -/
def SameValue (X : Symbol NonTerm) (v w : Yystype) : Prop :=
  X ≠ .tok 0 → X ≠ .tok yyError → v = w

/-- Two parses in the same place: the stack of tasks agrees once it is reset, and the direction
of references where it has been set. -/
structure SameVars (γ : List (Symbol NonTerm)) (s t : GrammarState) : Prop where
  heap : s.heap = t.heap
  includes : s.includes = t.includes
  inIncludeDepth : s.inIncludeDepth = t.inIncludeDepth
  pendingPrefixes : s.pendingPrefixes = t.pendingPrefixes
  pendingDepKind : .nt .midDepends ∈ γ ∨ .nt .midPrecedes ∈ γ →
    s.pendingDepKind = t.pendingDepKind
  symStack : .nt .midFile ∈ γ → s.symStack = t.symStack

/-- What two parses have in common. -/
def sameRel : Rel NonTerm FrontState GrammarState Yystype := ⟨SameFront, SameValue, SameVars⟩

section Actions

theorem GrammarState.routeTopLevel_depKind (s : GrammarState) (k : DepKind) (node : ℕ) :
    ({ s with pendingDepKind := k }).routeTopLevel node
      = { s.routeTopLevel node with pendingDepKind := k } := by
  unfold GrammarState.routeTopLevel
  split_ifs <;> first | rfl | contradiction

theorem GrammarState.hoist_depKind (s : GrammarState) (k : DepKind) (syms : List ℕ) :
    ({ s with pendingDepKind := k }).hoist syms = { s.hoist syms with pendingDepKind := k } := by
  induction syms generalizing s with
  | nil => rfl
  | cons child syms ih =>
    have hstep (t : GrammarState) : t.hoist (child :: syms)
        = (if (t.cell child).info.keyword = kwProject then t
            else t.routeTopLevel child).hoist syms := rfl
    have hcell : ({ s with pendingDepKind := k } : GrammarState).cell child = s.cell child := rfl
    rw [hstep, hstep s, GrammarState.routeTopLevel_depKind, hcell]
    split_ifs
    · exact ih s
    · exact ih _

theorem GrammarState.symStackPush_depKind (s : GrammarState) (k : DepKind) (a : ℕ) :
    ({ s with pendingDepKind := k }).symStackPush a
      = { s.symStackPush a with pendingDepKind := k } := by
  obtain ⟨heap, includes, depth, prefixes, kind, stack⟩ := s
  simp only [GrammarState.symStackPush]
  split_ifs <;> rfl

theorem GrammarState.captureDate_depKind (s : GrammarState) (k : DepKind) (date : Token)
    (set : ℤ → NodeCell → NodeCell) :
    ({ s with pendingDepKind := k }).captureDate date set
      = { s.captureDate date set with pendingDepKind := k } := by
  obtain ⟨heap, includes, depth, prefixes, kind, stack⟩ := s
  cases stack with
  | nil => rfl
  | cons task stack =>
    unfold GrammarState.captureDate
    by_cases hkind : (heap[task]?.getD NodeCell.new).info.keyword = kwTask
    · cases parseTjpDate date.text with
      | none => simp [GrammarState.symStackTop]
      | some t => simp [GrammarState.symStackTop, GrammarState.cell, GrammarState.write, hkind]
    · simp [GrammarState.symStackTop, GrammarState.cell, hkind]

/-- The direction of references matters only to the action that reads it. -/
theorem ActionCode.run_depKind {code : ActionCode} (hread : code ≠ .depRef)
    (hset : ∀ k, code ≠ .pendingDepKind k) (args : List Yystype) (s : GrammarState) (k : DepKind) :
    code.run args { s with pendingDepKind := k }
      = ({ (code.run args s).1 with pendingDepKind := k }, (code.run args s).2) := by
  cases code with
  | depRef => exact absurd rfl hread
  | pendingDepKind k' => exact absurd rfl (hset k')
  | routeItem =>
    simp only [ActionCode.run]
    split
    · rfl
    · rw [GrammarState.routeTopLevel_depKind]
  | startDate | endDate =>
    simp only [ActionCode.run]
    rw [GrammarState.captureDate_depKind]
  | setPrefix kind =>
    simp only [ActionCode.run, GrammarState.setPendingPrefix]
    split_ifs <;> rfl
  | projectDecl =>
    let s' := (s.allocTjNode (dollar args 1).asTok (dollar args 2).asTok
      (dollar args 3).asTok).1.setRangeEnd s.heap.length
        (rangeEnd (dollar args 1).asTok (dollar args 6).asBody)
    exact congrArg (·, Yystype.sym s.heap.length)
      (GrammarState.hoist_depKind s' k (dollar args 6).asBody.syms)
  | openSymbol =>
    let s' := (s.allocTjNode (dollar args 1).asTok (dollar args 2).asTok (dollar args 3).asTok).1
    have hpush := GrammarState.symStackPush_depKind s' k s.heap.length
    simp only [ActionCode.run]
    by_cases hkind : (dollar args 1).asTok.kind = kwTask
    · rw [if_pos hkind, if_pos hkind]
      exact congrArg (·, Yystype.sym s.heap.length) hpush
    · rw [if_neg hkind, if_neg hkind]
      rfl
  | closeSymbol =>
    simp only [ActionCode.run]
    by_cases hkind : (dollar args 1).asTok.kind = kwTask
    · rw [if_pos hkind, if_pos hkind]
      rfl
    · rw [if_neg hkind, if_neg hkind]
      rfl
  | closeInclude =>
    simp only [ActionCode.run, GrammarState.pushInclude]
    split <;> rfl
  | bodyItem =>
    simp only [ActionCode.run]
    split <;> rfl
  | _ => rfl

variable {γ : List (Symbol NonTerm)} {s t : GrammarState}

theorem SameVars.eq_of_symStack (same : SameVars γ s t) (hstack : s.symStack = t.symStack) :
    t = { s with pendingDepKind := t.pendingDepKind } := by
  obtain ⟨heap, includes, depth, prefixes, kind, stack⟩ := t
  rw [GrammarState.mk.injEq]
  exact ⟨same.heap.symm, same.includes.symm, same.inIncludeDepth.symm, same.pendingPrefixes.symm,
    rfl, hstack.symm⟩

theorem sameVars_depKind (s : GrammarState) (k : DepKind)
    (h : .nt .midDepends ∈ γ ∨ .nt .midPrecedes ∈ γ → s.pendingDepKind = k) :
    SameVars γ s { s with pendingDepKind := k } :=
  ⟨rfl, rfl, rfl, rfl, h, fun _ => rfl⟩

/-- **The variables** after an action, on the same values. -/
theorem SameVars.run (same : SameVars γ s t) {p : Production NonTerm SemAction}
    (hp : p ∈ grammar.productions) (hviable : Viable grammar p p.rhs.length γ)
    {below : List (Symbol NonTerm)} (hbelow : ∀ X ∈ below, X ∈ γ) (args : List Yystype) :
    (p.action.code.run args s).2 = (p.action.code.run args t).2 ∧
      SameVars (.nt p.lhs :: below) (p.action.code.run args s).1
        (p.action.code.run args t).1 := by
  obtain ⟨hfile, hmid, hmark, hdep⟩ := productions_code p hp
  by_cases hlhs : p.lhs = .file ∨ p.lhs = .midFile
  · have hnot (X : NonTerm) (hX : X ≠ .file) (hX' : X ≠ .midFile) :
        .nt X ∈ Symbol.nt p.lhs :: below → .nt X ∈ γ := by
      intro hmem
      rcases List.mem_cons.mp hmem with heq | hmem
      · obtain rfl : X = p.lhs := Symbol.nt.inj heq
        rcases hlhs with hlhs | hlhs
        · exact absurd hlhs hX
        · exact absurd hlhs hX'
      · exact hbelow _ hmem
    have hkinds : .nt .midDepends ∈ Symbol.nt p.lhs :: below ∨
        .nt .midPrecedes ∈ Symbol.nt p.lhs :: below → s.pendingDepKind = t.pendingDepKind :=
      fun h => same.pendingDepKind
        (h.imp (hnot _ (by decide) (by decide)) (hnot _ (by decide) (by decide)))
    rcases hlhs with hlhs | hlhs
    · rw [hfile hlhs]
      refine ⟨rfl, same.heap, same.includes, same.inIncludeDepth, same.pendingPrefixes, hkinds,
        fun hmem => same.symStack ?_⟩
      rcases List.mem_cons.mp hmem with heq | hmem
      · rw [hlhs] at heq
        cases heq
      · exact hbelow _ hmem
    · rw [hmid hlhs]
      exact ⟨rfl, same.heap, same.includes, same.inIncludeDepth, same.pendingPrefixes, hkinds,
        fun _ => rfl⟩
  · have haccept : p.lhs ≠ .accept := grammar.fresh p hp
    obtain ⟨X, hX, rfl⟩ := hviable.marked guarded_file (by
      simp only [List.mem_cons, List.not_mem_nil, or_false]
      exact fun h => h.elim haccept hlhs)
    have hstack := same.symStack hX
    rw [same.eq_of_symStack hstack]
    by_cases hset : p.action.code = .pendingDepKind .depends ∨
        p.action.code = .pendingDepKind .precedes
    · rcases hset with hset | hset
      · rw [hset]
        exact ⟨rfl, rfl, rfl, rfl, rfl, fun _ => rfl, fun _ => rfl⟩
      · rw [hset]
        exact ⟨rfl, rfl, rfl, rfl, rfl, fun _ => rfl, fun _ => rfl⟩
    · have hkept (h : .nt .midDepends ∈ Symbol.nt p.lhs :: below ∨
          .nt .midPrecedes ∈ Symbol.nt p.lhs :: below) : s.pendingDepKind = t.pendingDepKind := by
        refine same.pendingDepKind (h.imp (fun h => ?_) fun h => ?_)
        · rcases List.mem_cons.mp h with heq | h
          · exact absurd (hmark (Or.inl (Symbol.nt.inj heq).symm)) hset
          · exact hbelow _ h
        · rcases List.mem_cons.mp h with heq | h
          · exact absurd (hmark (Or.inr (Symbol.nt.inj heq).symm)) hset
          · exact hbelow _ h
      by_cases hread : p.action.code = .depRef
      · obtain ⟨X, hX, hM⟩ := hviable.marked guarded_depRef (by
          rw [hdep hread]
          decide)
        have hkind : s.pendingDepKind = t.pendingDepKind := by
          rcases hM with rfl | rfl
          · exact same.pendingDepKind (Or.inl hX)
          · exact same.pendingDepKind (Or.inr hX)
        rw [← hkind]
        exact ⟨rfl, rfl, rfl, rfl, rfl, fun _ => rfl, fun _ => rfl⟩
      · have hset' (k : DepKind) : p.action.code ≠ .pendingDepKind k := by
          intro hk
          cases k
          · exact hset (Or.inl hk)
          · exact hset (Or.inr hk)
        have hrun := ActionCode.run_depKind hread hset' args s
        have hkind : (p.action.code.run args s).1.pendingDepKind = s.pendingDepKind :=
          congrArg (fun out => out.1.pendingDepKind) (hrun s.pendingDepKind)
        rw [hrun t.pendingDepKind]
        exact ⟨rfl, sameVars_depKind _ _ fun h => hkind.trans (hkept h)⟩

theorem Rel.Stacks.take_eq {κ : Type*} {F H : List (Frame κ NonTerm Yystype)}
    (h : sameRel.Stacks F H) (n : ℕ)
    (hsyms : ∀ X ∈ (symbols F).take n, X ≠ .tok 0 ∧ X ≠ .tok yyError) :
    (F.map (·.value)).take n = (H.map (·.value)).take n := by
  induction h generalizing n with
  | nil => rfl
  | @cons f g F H hf hrest ih =>
    cases n with
    | zero => rfl
    | succ n =>
      obtain ⟨h0, herror⟩ := hsyms f.symbol List.mem_cons_self
      rw [List.map_cons, List.map_cons, List.take_succ_cons, List.take_succ_cons,
        hf.2.2 h0 herror, ih n fun X hX => hsyms X (List.mem_cons_of_mem _ hX)]

/-- **The values** below an action are those of symbols of a production. -/
theorem reach_symbols {p : Production NonTerm SemAction} (hp : p ∈ grammar.productions)
    (hviable : Viable grammar p p.rhs.length γ) :
    p.action.code = .itemPlain ∨
      ∀ X ∈ γ.take p.action.reach, X ≠ .tok 0 ∧ X ≠ .tok yyError := by
  by_cases hcode : p.action.code = .itemPlain
  · exact Or.inl hcode
  refine Or.inr fun X hX => ?_
  rcases productions_reach p hp with hreach | ⟨hnil, hmid⟩
  · obtain ⟨below, rfl, -⟩ := hviable.all
    rw [hreach, List.take_left' (by rw [List.length_reverse]), List.mem_reverse] at hX
    obtain ⟨h0, herror⟩ := productions_tok p hp X hX
    exact ⟨h0, fun heq => hcode (herror heq)⟩
  · have hviable0 : Viable grammar p 0 γ := by
      rw [hnil] at hviable
      exact hviable
    rcases hviable0.expected with ⟨rfl, -⟩ | ⟨q, i, hq, hi⟩
    · exact absurd rfl (grammar.fresh _ hp)
    · obtain ⟨hlt, -⟩ := List.getElem?_eq_some_iff.mp hi
      have hqmem := List.mem_cons.mpr hq.mem
      obtain ⟨rfl, hsyms⟩ := productions_mid q hqmem i hlt _ hmid hi
      obtain ⟨below, rfl, -⟩ := hq.split
      rw [List.take_left' (by rw [List.length_reverse, List.length_take]; omega),
        List.mem_reverse] at hX
      exact hsyms X hX

/-- **An action** on two stacks in the same place. -/
theorem sameRel_run {κ : Type*} {p : Production NonTerm SemAction} (hp : p ∈ grammar.productions)
    {F H : List (Frame κ NonTerm Yystype)} (hviable : Viable grammar p p.rhs.length (symbols F))
    (hstacks : sameRel.Stacks F H) (same : SameVars (symbols F) s t) :
    SameValue (.nt p.lhs) (p.action.run (F.map (·.value)) s).2
        (p.action.run (H.map (·.value)) t).2 ∧
      SameVars (.nt p.lhs :: symbols (F.drop p.rhs.length))
        (p.action.run (F.map (·.value)) s).1 (p.action.run (H.map (·.value)) t).1 := by
  have hbelow (X : Symbol NonTerm) (hX : X ∈ symbols (F.drop p.rhs.length)) : X ∈ symbols F := by
    rw [symbols_drop] at hX
    exact List.mem_of_mem_drop hX
  unfold SemAction.run
  rcases reach_symbols hp hviable with hplain | hsyms
  · obtain ⟨-, hvars⟩ := same.run hp hviable hbelow
      ((F.map (·.value)).take p.action.reach).reverse
    rw [hplain] at hvars ⊢
    exact ⟨fun _ _ => rfl, hvars⟩
  · obtain ⟨hvalue, hvars⟩ := same.run hp hviable hbelow
      ((F.map (·.value)).take p.action.reach).reverse
    rw [← Rel.Stacks.take_eq hstacks p.action.reach hsyms]
    exact ⟨fun _ _ => hvalue, hvars⟩

end Actions

/-! ### Parses -/

section Parses

variable {κ : Type*} {T : Tables κ NonTerm SemAction}

/-- **The lexer and the actions** keep what two parses have in common. -/
theorem sameRel_respected : sameRel.Respected grammar (yyparser T) where
  next h := h.yylex
  drop h := ⟨h.cond, h.scan, h.eol, fun k hk => by cases hk⟩
  lval {k s t} h := fun hk _ => by
    have hne : k ≠ 0 := fun h0 => hk (congrArg Symbol.tok h0)
    exact congrArg Yystype.tok (h.yylval k rfl hne)
  error v w := fun _ hne => absurd rfl hne
  shift {γ k s t} h := by
    refine ⟨h.heap, h.includes, h.inIncludeDepth, h.pendingPrefixes, fun hmem => ?_, fun hmem => ?_⟩
    · refine h.pendingDepKind (hmem.imp (fun hmem => ?_) fun hmem => ?_)
      · exact (List.mem_cons.mp hmem).resolve_left (by simp)
      · exact (List.mem_cons.mp hmem).resolve_left (by simp)
    · exact h.symStack ((List.mem_cons.mp hmem).resolve_left (by simp))
  pop {γ X s t} h := by
    refine ⟨h.heap, h.includes, h.inIncludeDepth, h.pendingPrefixes, fun hmem => ?_, fun hmem => ?_⟩
    · exact h.pendingDepKind (hmem.imp (List.mem_cons_of_mem _) (List.mem_cons_of_mem _))
    · exact h.symStack (List.mem_cons_of_mem _ hmem)
  run hp _ _ _ _ hviable hstacks hvars := sameRel_run hp hviable hstacks hvars

variable [DecidableEq κ]

/-- The states of the program between parses, whatever the earlier ones were. -/
inductive ParseHistory (T : Tables κ NonTerm SemAction) : ProgState → Prop
  | boot : ParseHistory T .boot
  | parse {s t : ProgState} {text : CStr} {r : Result} {errors : ℕ} {out : ParseResult}
      (h : ParseHistory T s) (hparse : Parses T s text r errors t out) : ParseHistory T t

theorem sameFront_install {s t : FrontState} (hs : s.lex.cond = .initial)
    (ht : t.lex.cond = .initial) (input : CStr) :
    SameFront none (s.install input) (t.install input) where
  cond := hs
  scan := ⟨hs.trans ht.symm, rfl, rfl, rfl, rfl, rfl, rfl, fun hne => absurd hs hne,
    fun hne => absurd hs hne, fun hne => absurd hs hne⟩
  eol := ⟨rfl, rfl, rfl, rfl, fun _ => rfl, fun i hi => absurd hi (Nat.not_lt_zero i), rfl⟩
  yylval k hk := by cases hk

theorem sameVars_install (s t : GrammarState) : SameVars [] s.install t.install where
  heap := rfl
  includes := rfl
  inIncludeDepth := rfl
  pendingPrefixes := rfl
  pendingDepKind h := by rcases h with h | h <;> cases h
  symStack h := by cases h

omit [DecidableEq κ] in
theorem sameConfs_install {s t : ProgState} (hs : s.front.lex.cond = .initial)
    (ht : t.front.lex.cond = .initial) (input : CStr) :
    sameRel.Confs (Parser.init (κ := κ) (s.front.install input) s.grammar.install)
      (Parser.init (t.front.install input) t.grammar.install) where
  stack := .nil
  lookahead := rfl
  errStatus := rfl
  errors := rfl
  lex := sameFront_install hs ht input
  vars := sameVars_install s.grammar t.grammar

/-- **Every parse ends in `INITIAL`**, whatever it has met. -/
theorem ParseHistory.cond (hT : T.Sound grammar yyError) {s : ProgState}
    (h : ParseHistory T s) : s.front.lex.cond = .initial := by
  induction h with
  | boot => rfl
  | @parse s t text r errors out h hparse ih =>
    obtain @⟨input, d, r, hscan, hrun⟩ := hparse
    obtain ⟨d', -, hconfs⟩ := (sameConfs_install ih ih input).runs sameRel_respected hT
      Parser.spelled_nil hrun
    exact hconfs.lex.cond

theorem SameFront.parseResult {last : Option ℕ} {l m : FrontState} (same : SameFront last l m)
    {γ : List (Symbol NonTerm)} {s t : GrammarState} (hvars : SameVars γ s t) :
    TaskjugglerLsp.parseResult l s = TaskjugglerLsp.parseResult m t := by
  unfold TaskjugglerLsp.parseResult GrammarState.write GrammarState.cell
  simp only
  rw [hvars.heap, hvars.includes, same.scan.vars.tokSpans, same.scan.vars.numSemEntries]

/-- A parse can be replayed after another history. -/
theorem Parses.replay (hT : T.Sound grammar yyError) {s t s' : ProgState}
    (hs : ParseHistory T s) (ht : ParseHistory T t) {text : CStr} {r : Result} {errors : ℕ}
    {out : ParseResult} (h : Parses T s text r errors s' out) :
    ∃ t', Parses T t text r errors t' out := by
  obtain @⟨input, d, r, hscan, hrun⟩ := h
  obtain ⟨d', hrun', hconfs⟩ := (sameConfs_install (hs.cond hT) (ht.cond hT) input).runs
    sameRel_respected hT Parser.spelled_nil hrun
  have hparses := Parses.intro (s := t) hscan hrun'
  rw [← hconfs.errors, ← hconfs.lex.parseResult hconfs.vars] at hparses
  exact ⟨_, hparses⟩

theorem Parses.unique {s t t' : ProgState} {text : CStr} {r r' : Result} {errors errors' : ℕ}
    {out out' : ParseResult} (h : Parses T s text r errors t out)
    (h' : Parses T s text r' errors' t' out') : r = r' ∧ errors = errors' ∧ out = out' := by
  obtain @⟨input, d, r, hscan, hrun⟩ := h
  obtain @⟨input', d', r', hscan', hrun'⟩ := h'
  obtain rfl : input = input' := Option.some.inj (hscan.symm.trans hscan')
  obtain ⟨rfl, rfl⟩ := hrun.unique hrun'
  exact ⟨rfl, rfl, rfl⟩

/-- **Parses are isolated**: after any two histories, a text is parsed alike. -/
theorem parse_isolated (hT : T.Sound grammar yyError) {s t : ProgState}
    (hs : ParseHistory T s) (ht : ParseHistory T t) (text : CStr) :
    ((∃ r errors s' out, Parses T s text r errors s' out) ↔
      ∃ r errors t' out, Parses T t text r errors t' out) ∧
    ∀ r errors s' out, Parses T s text r errors s' out →
      ∀ r' errors' t' out', Parses T t text r' errors' t' out' →
        r = r' ∧ errors = errors' ∧ out = out' := by
  refine ⟨⟨?_, ?_⟩, ?_⟩
  · rintro ⟨r, errors, s', out, h⟩
    obtain ⟨t', h⟩ := h.replay hT hs ht
    exact ⟨r, errors, t', out, h⟩
  · rintro ⟨r, errors, t', out, h⟩
    obtain ⟨s', h⟩ := h.replay hT ht hs
    exact ⟨r, errors, s', out, h⟩
  · intro r errors s' out h r' errors' t' out' h'
    obtain ⟨t'', h⟩ := h.replay hT hs ht
    exact h.unique h'

end Parses

/-! ### Texts without statements -/

/-- The states that the parser enters on line breaks and on what it cannot read. -/
inductive BlankState where
  | start | marked | items | file | accepted | afterError | afterItem | afterEol | other
  deriving DecidableEq

/-- These states of the tables of the grammar. -/
def blankTables : Tables BlankState NonTerm SemAction where
  start := .start
  final := .accepted
  consistent q := q != .items && q != .file
  entry q k :=
    match q with
    | .items => if k = 0 then some (.reduce (rule .file [.nt .midFile, .nt .items] .default))
      else if k = tkEol then some (.shift .afterEol) else none
    | .file => if k = 0 then some (.shift .accepted) else none
    | _ => none
  dflt
    | .start => some (midRule .midFile 0 .resetSymStack)
    | .marked => some (rule .items [] .default)
    | .afterError => some (rule .item [.tok yyError] .itemPlain)
    | .afterItem => some (rule .items [.nt .items, .nt .item] .routeItem)
    | .afterEol => some (rule .items [.nt .items, .tok tkEol] .default)
    | _ => none
  goto q n :=
    match q, n with
    | .start, .midFile => .marked
    | .start, .file => .file
    | .marked, .items => .items
    | .items, .item => .afterItem
    | _, _ => .other
  shiftError
    | .items => some .afterError
    | _ => none

/-- The symbols that lead to each state. -/
def BlankState.symbols : BlankState → Option (List (Symbol NonTerm))
  | start => some []
  | marked => some [.nt .midFile]
  | items => some [.nt .items, .nt .midFile]
  | file => some [.nt .file]
  | accepted => some [.tok 0, .nt .file]
  | afterError => some [.tok yyError, .nt .items, .nt .midFile]
  | afterItem => some [.nt .item, .nt .items, .nt .midFile]
  | afterEol => some [.tok tkEol, .nt .items, .nt .midFile]
  | other => none

theorem blankTables_spelled {γ : List (Symbol NonTerm)} {q : BlankState}
    (h : blankTables.Spelled grammar yyError γ q) : ∀ δ ∈ q.symbols, γ = δ := by
  induction h with
  | start =>
    rintro δ hδ
    exact (Option.some.inj hδ)
  | @shift γ q q' k h hshift ih =>
    cases q with
    | items =>
      simp only [blankTables] at hshift
      by_cases h0 : k = 0
      · rw [if_pos h0] at hshift
        cases hshift
      by_cases heol : k = tkEol
      · rw [if_neg h0, if_pos heol, Option.some.injEq, Entry.shift.injEq] at hshift
        rw [ih _ rfl, heol, ← hshift]
        exact fun δ hδ => Option.some.inj hδ
      · rw [if_neg h0, if_neg heol] at hshift
        cases hshift
    | file =>
      simp only [blankTables] at hshift
      by_cases h0 : k = 0
      · rw [if_pos h0, Option.some.injEq, Entry.shift.injEq] at hshift
        rw [ih _ rfl, h0, ← hshift]
        exact fun δ hδ => Option.some.inj hδ
      · rw [if_neg h0] at hshift
        cases hshift
    | _ => cases hshift
  | @shiftError γ q q' h hshift ih =>
    cases q with
    | items =>
      rw [ih _ rfl, ← Option.some.inj hshift]
      exact fun δ hδ => Option.some.inj hδ
    | _ => cases hshift
  | @goto γ q n h p i hp hn ih =>
    intro δ hδ
    have hcases : (q = .start ∧ (n = .midFile ∨ n = .file)) ∨ (q = .marked ∧ n = .items) ∨
        (q = .items ∧ n = .item) ∨ blankTables.goto q n = .other := by
      cases q <;> cases n <;> simp [blankTables]
    rcases hcases with ⟨rfl, rfl | rfl⟩ | ⟨rfl, rfl⟩ | ⟨rfl, rfl⟩ | hother
    · rw [ih _ rfl]
      exact Option.some.inj hδ
    · rw [ih _ rfl]
      exact Option.some.inj hδ
    · rw [ih _ rfl]
      exact Option.some.inj hδ
    · rw [ih _ rfl]
      exact Option.some.inj hδ
    · rw [hother] at hδ
      cases hδ

theorem mem_fileProductions {p : Production NonTerm SemAction} (hp : p ∈ fileProductions) :
    p ∈ grammar.productions := by
  simp only [grammar, List.mem_append, hp, true_or]

theorem blankTables_sound : blankTables.Sound grammar yyError where
  entry {γ q k p} h hp := by
    cases q with
    | items =>
      simp only [blankTables] at hp
      by_cases h0 : k = 0
      · rw [if_pos h0, Option.some.injEq, Entry.reduce.injEq] at hp
        subst hp
        rw [blankTables_spelled h _ rfl]
        have hfile : rule .file [.nt .midFile, .nt .items] .default ∈ grammar.productions :=
          mem_fileProductions (by simp [fileProductions])
        exact ⟨hfile, .advance (.advance (.closure .start rfl hfile) rfl) rfl⟩
      · rw [if_neg h0] at hp
        split_ifs at hp
        cases hp
    | file =>
      simp only [blankTables] at hp
      split_ifs at hp
      cases hp
    | _ => cases hp
  dflt {γ q p} h hp := by
    have hfile : rule .file [.nt .midFile, .nt .items] .default ∈ grammar.productions :=
      mem_fileProductions (by simp [fileProductions])
    have hmid : midRule .midFile 0 .resetSymStack ∈ grammar.productions :=
      mem_fileProductions (by simp [fileProductions])
    have hnil : rule .items [] .default ∈ grammar.productions :=
      mem_fileProductions (by simp [fileProductions])
    have hitem : rule .items [.nt .items, .nt .item] .routeItem ∈ grammar.productions :=
      mem_fileProductions (by simp [fileProductions])
    have heol : rule .items [.nt .items, .tok tkEol] .default ∈ grammar.productions :=
      mem_fileProductions (by simp [fileProductions])
    have herror : rule .item [.tok yyError] .itemPlain ∈ grammar.productions :=
      mem_fileProductions (by simp [fileProductions])
    have hstart : Viable grammar (rule .file [.nt .midFile, .nt .items] .default) 1
        [.nt .midFile] := .advance (.closure .start rfl hfile) rfl
    cases q with
    | start =>
      obtain rfl := Option.some.inj hp
      rw [blankTables_spelled h _ rfl]
      exact ⟨hmid, .closure (.closure .start rfl hfile) rfl hmid⟩
    | marked =>
      obtain rfl := Option.some.inj hp
      rw [blankTables_spelled h _ rfl]
      exact ⟨hnil, .closure hstart rfl hnil⟩
    | afterError =>
      obtain rfl := Option.some.inj hp
      rw [blankTables_spelled h _ rfl]
      have hitems := Viable.advance (.closure hstart rfl hitem) rfl
      exact ⟨herror, .advance (.closure hitems rfl herror) rfl⟩
    | afterItem =>
      obtain rfl := Option.some.inj hp
      rw [blankTables_spelled h _ rfl]
      exact ⟨hitem, .advance (.advance (.closure hstart rfl hitem) rfl) rfl⟩
    | afterEol =>
      obtain rfl := Option.some.inj hp
      rw [blankTables_spelled h _ rfl]
      exact ⟨heol, .advance (.advance (.closure hstart rfl heol) rfl) rfl⟩
    | _ => cases hp
  final {γ} h := by
    rw [blankTables_spelled h _ rfl]
    exact .advance (.advance .start rfl) rfl

/-- The state after a parse of an unterminated string. -/
theorem exists_unterminated : ∃ s, ParseHistory blankTables s ∧
    s.front.lex.vars.strBuf = cstr "\"start" := by
  have hscan : yyScanString (cstr "\"start") = some (cstr "\"start") := by decide +kernel
  let start : Conf BlankState NonTerm FrontState GrammarState Yystype :=
    Parser.init (FrontState.boot.install (cstr "\"start")) ProgState.boot.grammar.install
  have hend : (((yyparser blankTables).runUpTo 20 start).map
      fun d => d.1.lex.lex.vars.strBuf) = some (cstr "\"start") := by decide +kernel
  obtain ⟨⟨d, r⟩, hrun, hbuf⟩ := Option.map_eq_some_iff.mp hend
  exact ⟨⟨d.lex, d.vars⟩, .parse .boot (.intro hscan (Parser.runs_of_runUpTo hrun)), hbuf⟩

theorem parse_isolated_unterminated : ∃ s, s.front.lex.vars.strBuf = cstr "\"start" ∧
    ((∃ r errors s' out, Parses blankTables .boot (cstr "'\n") r errors s' out) ↔
      ∃ r errors t' out, Parses blankTables s (cstr "'\n") r errors t' out) ∧
    ∀ r errors s' out, Parses blankTables .boot (cstr "'\n") r errors s' out →
      ∀ r' errors' t' out', Parses blankTables s (cstr "'\n") r' errors' t' out' →
        r = r' ∧ errors = errors' ∧ out = out' := by
  obtain ⟨s, hs, hbuf⟩ := exists_unterminated
  exact ⟨s, hbuf, parse_isolated blankTables_sound .boot hs _⟩

end TaskjugglerLsp
