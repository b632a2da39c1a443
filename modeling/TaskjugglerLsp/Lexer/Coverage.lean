import TaskjugglerLsp.Lexer

/-!
# Which texts the rules cover

`LexReached` are the states that the scanner passes through, match by match, whatever
the parser does between two calls.  In all of them some rule of `lexer.l` matches, with
one exception: a backslash in a quoted string before a line break or at the end of the
input (`lexer_covered_iff`).  There the default rule writes it to stdout.
-/

namespace TaskjugglerLsp

open Lib

/-- The states between two matches when `input` is scanned; between two calls, the wrapper
changes nothing but the value and the flag. -/
inductive LexReached (input : CStr) : LexState → Prop
  | start (vars : LexGlobals) : LexReached input ⟨.initial, vars.install, input⟩
  | step {s : LexState} (h : LexReached input s) : LexReached input (lexer.step s).1
  | wrapper {s : LexState} (b : Bool) (t : Token) (h : LexReached input s) :
      LexReached input { s with vars := { s.vars with pendingNewline := b, yylval := t } }

section Reached

variable {input : CStr} {s : LexState}

theorem LexReached.rawYylex (h : LexReached input s) : LexReached input (rawYylex s).1 :=
  Scanner.next_invariant (fun _ hc => hc.step) h

theorem LexReached.nextToken {s : FrontState} (h : LexReached input s.lex) :
    LexReached input (nextToken s).1.lex := by
  unfold TaskjugglerLsp.nextToken
  split
  · exact h.wrapper s.lex.vars.pendingNewline s.eol.bufferedVal
  · have hraw := (h.wrapper false s.lex.vars.yylval).rawYylex
    simp only
    split
    · exact hraw.wrapper _ _
    · exact hraw

theorem LexReached.yylex {s : FrontState} (h : LexReached input s.lex) :
    LexReached input (yylex s).1.lex := by
  have hnext := h.nextToken
  unfold TaskjugglerLsp.yylex
  simp only
  split
  · exact hnext.wrapper _ _
  · exact hnext

theorem LexReached.yylexCalls {s : FrontState} (n : ℕ) (h : LexReached input s.lex) :
    LexReached input (yylexCalls n s).lex := by
  induction n generalizing s with
  | zero => exact h
  | succ n ih => exact ih h.yylex

end Reached

/-! ### The rules of each start condition -/

theorem longestMatch_ne_none {rules : List (Rule UInt8 LexAction)} (r : Rule UInt8 LexAction)
    (text rest : CStr) (hr : r ∈ rules) (hne : text ≠ []) (h : r.pattern text = true) :
    longestMatch rules (text ++ rest) ≠ none := by
  rw [Ne, longestMatch_eq_none_iff]
  intro hnone
  rw [hnone text hne (List.prefix_append _ _) r hr] at h
  cases h

theorem initialRules_cover (a : UInt8) (rest : CStr) :
    longestMatch initialRules (a :: rest) ≠ none := by
  by_cases ha : a = 10
  · refine longestMatch_ne_none ⟨.lit [10], .newline⟩ [a] rest ?_ (by simp) ?_
    · simp [initialRules]
    · simp [Pattern.lit, ha]
  · refine longestMatch_ne_none ⟨.one lineClass, .emitPlain tkError⟩ [a] rest ?_
      (by simp) ?_
    · exact List.mem_append_right _ (by simp)
    · simp [Pattern.one, lineClass, ha]

theorem fragmentRules_cover (stop : CStr) (x : UInt8) (close : LexAction) (a : UInt8)
    (rest : CStr) : longestMatch (fragmentRules stop x close) (a :: rest) ≠ none := by
  by_cases ha : a = 10
  · refine longestMatch_ne_none ⟨.lit [10], .appendNewline⟩ [a] rest ?_ (by simp) ?_
    · simp [fragmentRules]
    · simp [Pattern.lit, ha]
  · by_cases hx : a = x
    · refine longestMatch_ne_none ⟨.lit [x], .append⟩ [a] rest ?_ (by simp) ?_
      · simp [fragmentRules]
      · simp [Pattern.lit, hx]
    · refine longestMatch_ne_none ⟨.many1 (lineClassBut x), .append⟩ [a] rest ?_
        (by simp) ?_
      · simp [fragmentRules]
      · simp [Pattern.many1, lineClassBut, ha, hx]

/-- A backslash that no character of its line follows. -/
def StrayEscape (rest : CStr) : Prop := rest = [92] ∨ ∃ more, rest = 92 :: 10 :: more

theorem quoteRules_cover_iff {q : UInt8} (hq : q ≠ 92) (a : UInt8) (rest : CStr) :
    longestMatch (quoteRules q) (a :: rest) ≠ none ↔ ¬ StrayEscape (a :: rest) := by
  constructor
  · intro h hstray
    refine h (longestMatch_eq_none_iff.mpr fun text hne htext r hr => ?_)
    obtain ⟨b, text, rfl⟩ := List.exists_cons_of_ne_nil hne
    have hcons := List.cons_prefix_cons.mp htext
    have hb : b = 92 ∧ (∀ c, text.head? = some c → c = 10) := by
      rcases hstray with heq | ⟨more, heq⟩
      · rw [List.cons.injEq] at heq
        refine ⟨hcons.1.trans heq.1, ?_⟩
        rw [heq.2, List.prefix_nil] at hcons
        simp [hcons.2]
      · rw [List.cons.injEq] at heq
        refine ⟨hcons.1.trans heq.1, ?_⟩
        rw [heq.2] at hcons
        cases text with
        | nil => simp
        | cons c text => simp [(List.cons_prefix_cons.mp hcons.2).1]
    obtain ⟨rfl, hnext⟩ := hb
    simp only [quoteRules, List.mem_cons, List.not_mem_nil, or_false] at hr
    rcases hr with rfl | rfl | rfl | rfl
    · simp [Pattern.lit, hq.symm]
    · simp [Pattern.lit]
    · rw [Bool.eq_false_iff]
      intro hmatch
      obtain ⟨ys, zs, heq, hys, hzs⟩ := Pattern.seq_eq_true.mp hmatch
      rw [eq_of_beq hys, List.singleton_append, List.cons.injEq] at heq
      obtain ⟨-, rfl⟩ := heq
      simp only [Pattern.one, Bool.and_eq_true, beq_iff_eq] at hzs
      obtain ⟨c, hc⟩ := List.length_eq_one_iff.mp hzs.1
      rw [hc] at hzs hnext
      rw [hnext c rfl] at hzs
      simp [lineClass] at hzs
    · simp [Pattern.many1, quotedClass]
  · intro h
    by_cases ha : a = 10
    · refine longestMatch_ne_none ⟨.lit [10], .badNewline⟩ [a] rest ?_ (by simp) ?_
      · simp [quoteRules]
      · simp [Pattern.lit, ha]
    · by_cases hquote : a = q
      · refine longestMatch_ne_none ⟨.lit [q], .closeString tkStr⟩ [a] rest ?_
          (by simp) ?_
        · simp [quoteRules]
        · simp [Pattern.lit, hquote]
      · by_cases hback : a = 92
        · subst hback
          cases rest with
          | nil => exact absurd (Or.inl rfl) h
          | cons b rest =>
            have hb : b ≠ 10 := by
              rintro rfl
              exact h (Or.inr ⟨rest, rfl⟩)
            refine longestMatch_ne_none ⟨.seq (.lit [92]) (.one lineClass), .append⟩ [92, b] rest ?_ (by simp) ?_
            · simp [quoteRules]
            · exact Pattern.seq_eq_true.mpr
                ⟨[92], [b], rfl, by simp [Pattern.lit], by simp [Pattern.one, lineClass, hb]⟩
        · refine longestMatch_ne_none ⟨.many1 (quotedClass q), .append⟩ [a] rest ?_
            (by simp) ?_
          · simp [quoteRules]
          · simp [Pattern.many1, quotedClass, ha, hback, hquote]

/-! ### Every state -/

/-- A rule of `lexer.l` matches, so the default rule is not taken and nothing is echoed. -/
structure ExplicitMatch (s : LexState) : Prop where
  explicit : ∃ r text rest, s.rest = text ++ rest ∧ IsLongest (lexRules s.cond) r text rest
  silent : (lexer.step s).1.vars.echoed = s.vars.echoed

/-- A quoted string goes on with a backslash that no character of its line follows. -/
def StrayBackslash (s : LexState) : Prop :=
  (s.cond = .dquote ∨ s.cond = .squote) ∧ StrayEscape s.rest

theorem lexRules_cover_iff {s : LexState} (hrest : s.rest ≠ []) :
    longestMatch (lexRules s.cond) s.rest ≠ none ↔ ¬ StrayBackslash s := by
  obtain ⟨cond, vars, rest⟩ := s
  obtain ⟨a, rest, rfl⟩ := List.exists_cons_of_ne_nil hrest
  cases cond with
  | initial => exact ⟨fun _ h => by simp [StrayBackslash] at h, fun _ => initialRules_cover a rest⟩
  | blockComment | scissors =>
    exact ⟨fun _ h => by simp [StrayBackslash] at h, fun _ => fragmentRules_cover _ _ _ a rest⟩
  | dquote | squote =>
    exact (quoteRules_cover_iff (by decide) a rest).trans (by simp [StrayBackslash])

theorem LexGlobals.echoed_emitPlain (g : LexGlobals) (code : ℕ) (yytext : CStr) :
    (g.emitPlain code yytext).1.echoed = g.echoed := by
  unfold emitPlain
  simp only
  split_ifs <;> rfl

theorem LexGlobals.echoed_strAppend (g : LexGlobals) (s : CStr) :
    (g.strAppend s).echoed = g.echoed := by
  unfold strAppend
  split_ifs <;> rfl

theorem LexAction.echoed_run (c : StartCondition) (g : LexGlobals) (yytext : CStr)
    (a : LexAction) : (a.run c g yytext).1.2.echoed = g.echoed := by
  cases a with
  | openFragment | append | appendNewline | closeComment | closeString =>
    exact LexGlobals.echoed_strAppend _ _
  | badNewline | emitPlain => exact LexGlobals.echoed_emitPlain _ _ _
  | skip | newline | lineComment | emitKw => rfl

theorem covered_iff {s : LexState} (hrest : s.rest ≠ []) : ExplicitMatch s ↔ ¬ StrayBackslash s := by
  rw [← lexRules_cover_iff hrest]
  constructor
  · rintro ⟨⟨r, text, rest, hsplit, hlongest⟩, -⟩
    rw [hsplit]
    exact longestMatch_ne_none r text rest hlongest.mem hlongest.ne_nil hlongest.matches
  · intro h
    obtain ⟨out, hout⟩ : ∃ out, lexer.step s = out := ⟨_, rfl⟩
    have hs := lexer.steps_step s
    rw [hout] at hs
    cases hs with
    | eof hnil => exact absurd hnil hrest
    | @rule r text rest k g t hsplit hlongest hact =>
      refine ⟨⟨r, text, rest, hsplit, hlongest⟩, ?_⟩
      have hecho := LexAction.echoed_run s.cond (s.vars.userAction text) text r.action
      have hrun : r.action.run s.cond (s.vars.userAction text) text = ((k, g), t) := hact
      rw [hrun] at hecho
      rw [hout]
      exact hecho
    | echo _ hnone => exact absurd hnone h

/-- **The rules cover a text** exactly if no quoted string in it goes on with a stray backslash:
in every state that the scanner passes through, a rule matches. -/
theorem lexer_covered_iff (input : CStr) :
    (∀ s, LexReached input s → s.rest ≠ [] → ExplicitMatch s) ↔
      ∀ s, LexReached input s → ¬ StrayBackslash s := by
  have hne (s : LexState) (hs : StrayBackslash s) : s.rest ≠ [] := by
    rcases hs.2 with h | ⟨more, h⟩ <;> simp [h]
  constructor
  · intro h s hs hstray
    exact (covered_iff (hne s hstray)).mp (h s hs (hne s hstray)) hstray
  · exact fun h s hs hrest => (covered_iff hrest).mpr (h s hs)

/-- A quote and a backslash at the end of the text. -/
theorem lexer_not_covered :
    ¬ ∀ (input : CStr) (s : LexState), 0 ∉ input → LexReached input s → s.rest ≠ [] →
      ExplicitMatch s := by
  intro h
  have hstart : LexReached [34, 92] _ := .start FrontState.boot.lex.vars
  have hopen : (lexer.step ⟨.initial, FrontState.boot.lex.vars.install, [34, 92]⟩).1.cond = .dquote ∧
      (lexer.step ⟨.initial, FrontState.boot.lex.vars.install, [34, 92]⟩).1.rest = [92] := by
    decide +kernel
  have hcovered := h [34, 92] _ (by decide) hstart.step (by rw [hopen.2]; simp)
  exact (covered_iff (by rw [hopen.2]; simp)).mp hcovered ⟨Or.inl hopen.1, Or.inl hopen.2⟩

end TaskjugglerLsp
