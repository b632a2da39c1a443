import TaskjugglerLsp.Lexer.Statements

/-!
# Where statements end

The law of the statement terminators: a `TK_EOL` comes between two tokens where the first can
end a statement, and the second opens one behind a line break, closes a body or is the end of the
input.  The tokens are those of `raw_yylex` with the closing braces that are missing at the end;
a brace that closes a macro call closes no body.

* `newline_iff`: the flag of the newline rule is a line break outside comments and strings.
* `macroClose_iff`: what the stack of braces knows about macro calls.
* `statement_law_iff`: the law holds but for line breaks that end a string, and for macro calls
  beyond the stack.
-/

namespace TaskjugglerLsp

open Lib

/-! ### Line breaks -/

/-- The scanner as a call of it begins. -/
def LexState.cleared (s : LexState) : LexState :=
  { s with vars := { s.vars with pendingNewline := false } }

/-- The scanner stands before a line break outside comments and strings. -/
def AtLineBreak (s : LexState) : Prop := s.cond = .initial ∧ s.rest.head? = some 10

/-- A line break outside comments and strings comes before the next token. -/
def LineBreakBefore (s : LexState) : Prop := ∃ d, Scanner.Silent lexer s.cleared d ∧ AtLineBreak d

/-- The next token is the line break that ends a string. -/
def BreaksString (s : LexState) : Prop :=
  ∃ d, Scanner.Silent lexer s.cleared d ∧ (d.cond = .dquote ∨ d.cond = .squote) ∧
    d.rest.head? = some 10

section Flag

variable {c d : LexState}

/-- In `INITIAL`, a match that begins with a line break is that of the newline rule. -/
theorem action_of_lineBreak {r : Rule UInt8 LexAction} {text rest : CStr}
    (hlongest : IsLongest (lexRules .initial) r text rest) (h10 : (text ++ rest).head? = some 10) :
    r.action = .newline := by
  have hfits := lexRules_fit .initial r hlongest.mem text hlongest.matches
  have hmem : (10 : UInt8) ∈ text := by
    obtain ⟨a, more, rfl⟩ := List.exists_cons_of_ne_nil hlongest.ne_nil
    obtain rfl : a = 10 := Option.some.inj h10
    exact List.mem_cons_self
  cases ha : r.action with
  | newline => rfl
  | skip => exact absurd hmem (by rw [ha] at hfits; exact hfits.2)
  | lineComment => exact absurd hmem (by rw [ha] at hfits; exact hfits.2)
  | openFragment => exact absurd hmem (by rw [ha] at hfits; exact hfits.2.2)
  | append => exact absurd rfl (by rw [ha] at hfits; exact hfits.1)
  | appendNewline => exact absurd rfl (by rw [ha] at hfits; exact hfits.1)
  | closeComment => exact absurd rfl (by rw [ha] at hfits; exact hfits.1)
  | closeString => exact absurd rfl (by rw [ha] at hfits; exact hfits.1)
  | badNewline => exact absurd rfl (by rw [ha] at hfits; exact hfits.1)
  | emitKw => exact absurd hmem (by rw [ha] at hfits; exact hfits.2.1)
  | emitPlain => exact absurd hmem (by rw [ha] at hfits; exact hfits.2.1)

theorem lineBreak_of_action {r : Rule UInt8 LexAction} {text : CStr}
    (hr : r ∈ lexRules c.cond) (hmatch : r.pattern text = true) (ha : r.action = .newline) :
    c.cond = .initial ∧ text = [10] := by
  have hfits := lexRules_fit c.cond r hr text hmatch
  rw [ha] at hfits
  exact hfits

theorem strAppend_pendingNewline (g : LexGlobals) (text : CStr) :
    (g.strAppend text).pendingNewline = g.pendingNewline := by
  unfold LexGlobals.strAppend
  split_ifs <;> rfl

theorem emitPlain_pendingNewline (g : LexGlobals) (code : ℕ) (text : CStr) :
    (g.emitPlain code text).1.pendingNewline = g.pendingNewline := by
  unfold LexGlobals.emitPlain
  simp only
  split_ifs <;> rfl

theorem LexAction.run_pendingNewline {a : LexAction} (ha : a ≠ .newline) (c : StartCondition)
    (g : LexGlobals) (text : CStr) :
    (a.run c (g.userAction text) text).1.2.pendingNewline = g.pendingNewline := by
  cases a with
  | newline => exact absurd rfl ha
  | skip | lineComment => rfl
  | openFragment next => exact strAppend_pendingNewline _ _
  | append | appendNewline => exact strAppend_pendingNewline _ _
  | closeComment => exact strAppend_pendingNewline _ _
  | closeString code => exact strAppend_pendingNewline _ _
  | badNewline => exact emitPlain_pendingNewline _ _ _
  | emitKw code => rfl
  | emitPlain code => exact emitPlain_pendingNewline _ _ _

/-- **A match without a token** sets the flag at a line break. -/
theorem pendingNewline_step (h : (lexer.step c).2 = none) :
    (lexer.step c).1.vars.pendingNewline = true ↔
      c.vars.pendingNewline = true ∨ AtLineBreak c := by
  have hs := lexer.steps_step c
  obtain ⟨out, hout⟩ : ∃ out, lexer.step c = out := ⟨_, rfl⟩
  rw [hout] at hs h ⊢
  cases hs with
  | eof => cases h
  | @rule r text rest k g t hrest hlongest hact =>
    have hact : r.action.run c.cond (c.vars.userAction text) text = ((k, g), t) := hact
    have hlongest : IsLongest (lexRules c.cond) r text rest := hlongest
    by_cases ha : r.action = .newline
    · obtain ⟨hc, rfl⟩ := lineBreak_of_action hlongest.mem hlongest.matches ha
      have hflag : g.pendingNewline = true := by
        rw [ha] at hact
        rw [← (Prod.mk.inj (Prod.mk.inj hact).1).2]
      have hbreak : AtLineBreak c := ⟨hc, by rw [hrest]; rfl⟩
      exact ⟨fun _ => Or.inr hbreak, fun _ => hflag⟩
    · have hflag : g.pendingNewline = c.vars.pendingNewline := by
        have hrun := LexAction.run_pendingNewline ha c.cond c.vars text
        rw [hact] at hrun
        exact hrun
      have hnot : ¬ AtLineBreak c := by
        rintro ⟨hc, h10⟩
        rw [hc] at hlongest
        exact ha (action_of_lineBreak hlongest (hrest ▸ h10))
      simp only [hflag]
      exact ⟨Or.inl, fun h => h.resolve_right hnot⟩
  | @echo a rest hrest hnone =>
    have hnot : ¬ AtLineBreak c := by
      rintro ⟨hc, -⟩
      refine (lexRules_cover_iff (s := c) (by simp [hrest])).mpr ?_ hnone
      intro hstray
      simp [StrayBackslash, hc] at hstray
    exact ⟨Or.inl, fun h => h.resolve_right hnot⟩

theorem pendingNewline_silent (h : Scanner.Silent lexer c d) (hd : (lexer.step d).2 ≠ none)
    (hnot : ¬ AtLineBreak d) : d.vars.pendingNewline = true ↔
      c.vars.pendingNewline = true ∨ ∃ e, Scanner.Silent lexer c e ∧ AtLineBreak e := by
  induction h with
  | refl c =>
    refine ⟨Or.inl, fun h => h.resolve_right ?_⟩
    rintro ⟨e, he, hbreak⟩
    cases he with
    | refl => exact hnot hbreak
    | head hnone _ => exact hd hnone
  | @head c d hnone hrest ih =>
    rw [ih hd hnot, pendingNewline_step hnone, or_assoc]
    refine or_congr_right ⟨?_, ?_⟩
    · rintro (hbreak | ⟨e, he, hbreak⟩)
      · exact ⟨c, .refl c, hbreak⟩
      · exact ⟨e, .head hnone he, hbreak⟩
    · rintro ⟨e, he, hbreak⟩
      cases he with
      | refl => exact Or.inl hbreak
      | head _ he => exact Or.inr ⟨e, he, hbreak⟩

theorem step_of_rest_nil (h : c.rest = []) : (lexer.step c).2 ≠ none := by
  unfold Scanner.step
  rw [h]
  exact Option.some_ne_none _

theorem not_atLineBreak_of_rest_nil (h : c.rest = []) : ¬ AtLineBreak c := by
  rintro ⟨-, h10⟩
  rw [h] at h10
  cases h10

/-- **The flag of the newline rule** is a line break outside comments and strings. -/
theorem newline_iff (s : LexState) : (rawNext s).2.newline = true ↔ LineBreakBefore s := by
  have hflag : (rawNext s).2.newline = (rawYylex s.cleared).1.vars.pendingNewline := rfl
  have hend := rawEnd_rawYylex s.cleared
  have hclear : ¬ s.cleared.vars.pendingNewline = true := Bool.false_ne_true
  rw [hflag]
  generalize rawYylex s.cleared = out at hend
  cases hend with
  | @rule d r text rest k hd hrest hlongest hk =>
    have hne : r.action ≠ .newline := by
      intro ha
      rw [ha] at hk
      cases hk
    have hlast : (lexer.step d).2 ≠ none := by
      rw [Scanner.step_of_isLongest lexer hrest hlongest]
      have hcode := LexAction.run_code r.action d.cond (d.vars.userAction text) text
      rw [hk] at hcode
      exact fun hnone => Option.some_ne_none k (hcode.symm.trans hnone)
    have hnot : ¬ AtLineBreak d := by
      rintro ⟨hc, h10⟩
      rw [hc] at hlongest
      exact hne (action_of_lineBreak hlongest (hrest ▸ h10))
    simp only [LexAction.run_pendingNewline hne]
    rw [pendingNewline_silent hd hlast hnot]
    exact or_iff_right hclear
  | @fragment d hd hrest hc =>
    simp only [emitPlain_pendingNewline]
    rw [pendingNewline_silent hd (step_of_rest_nil hrest) (not_atLineBreak_of_rest_nil hrest)]
    exact or_iff_right hclear
  | @input d hd hrest hc =>
    rw [pendingNewline_silent hd (step_of_rest_nil hrest) (not_atLineBreak_of_rest_nil hrest)]
    exact or_iff_right hclear

end Flag

/-! ### Braces -/

/-- The open braces, the innermost first, and whether they begin a macro call. -/
def braceStack (kinds : List ℕ) : List Bool :=
  (kinds.foldl (fun (st : ℕ × List Bool) k =>
    (k, if k = tkLbrace then (st.1 == tkDollar) :: st.2
      else if k = tkRbrace then st.2.tail else st.2)) (0, [])).2

/-- What the wrapper knows about the open braces. -/
structure Braces (e : EolState) (prev : ℕ) (stack : List Bool) : Prop where
  prevKind : e.prevKind = prev
  braceDepth : e.braceDepth = stack.length
  braceIsMacro : ∀ i < eolBraceMax, ∀ b, stack.reverse[i]? = some b → e.braceIsMacro i = b

theorem Braces.push {e : EolState} {prev : ℕ} {stack : List Bool} (h : Braces e prev stack)
    (k : ℕ) : Braces (e.push k) k (if k = tkLbrace then (prev == tkDollar) :: stack
      else if k = tkRbrace then stack.tail else stack) := by
  have hdepth := braceDepth_push e k
  by_cases hopen : k = tkLbrace
  · rw [if_pos hopen] at hdepth ⊢
    refine ⟨rfl, ?_, ?_⟩
    · rw [hdepth, h.braceDepth, List.length_cons]
    · intro i hi b hb
      have hcall : (e.push k).braceIsMacro = if e.braceDepth < eolBraceMax then
          Function.update e.braceIsMacro e.braceDepth (e.prevKind == tkDollar)
          else e.braceIsMacro := by
        unfold EolState.push
        rw [if_pos hopen]
      rw [hcall]
      rw [List.reverse_cons, List.getElem?_append, List.length_reverse] at hb
      by_cases hlt : i < stack.length
      · rw [if_pos hlt] at hb
        have hold := h.braceIsMacro i hi b hb
        split_ifs
        · rwa [Function.update_of_ne (by rw [h.braceDepth]; omega)]
        · exact hold
      · rw [if_neg hlt, List.getElem?_singleton] at hb
        split_ifs at hb with hzero
        obtain rfl : e.braceDepth = i := by rw [h.braceDepth]; omega
        rw [if_pos hi, Function.update_self, h.prevKind]
        exact Option.some.inj hb
  · rw [if_neg hopen] at hdepth ⊢
    have hcall : (e.push k).braceIsMacro = e.braceIsMacro := by
      unfold EolState.push
      rw [if_neg hopen]
      split_ifs <;> rfl
    by_cases hclose : k = tkRbrace
    · rw [if_pos hclose] at hdepth ⊢
      refine ⟨rfl, ?_, fun i hi b hb => ?_⟩
      · rw [hdepth, h.braceDepth, List.length_tail]
      · rw [hcall]
        refine h.braceIsMacro i hi b ?_
        cases stack with
        | nil => exact hb
        | cons x stack =>
          rw [List.reverse_cons, List.getElem?_append_left]
          · exact hb
          · exact (List.getElem?_eq_some_iff.mp hb).1
    · rw [if_neg hclose] at hdepth ⊢
      exact ⟨rfl, hdepth.trans h.braceDepth, fun i hi b hb => hcall ▸ h.braceIsMacro i hi b hb⟩

theorem braces_pushAll {e : EolState} {prev : ℕ} {stack : List Bool} (h : Braces e prev stack)
    (ts : List RawToken) : ∃ prev', Braces (e.pushAll ts) prev'
      ((ts.map (·.kind)).foldl (fun (st : ℕ × List Bool) k =>
        (k, if k = tkLbrace then (st.1 == tkDollar) :: st.2
          else if k = tkRbrace then st.2.tail else st.2)) (prev, stack)).2 := by
  induction ts generalizing e prev stack with
  | nil => exact ⟨prev, h⟩
  | cons r ts ih => exact ih (h.push r.kind)

/-- **The stack of braces** tells a macro call, as far as it reaches. -/
theorem macroClose_iff {e : EolState} {prev : ℕ} {stack : List Bool} (h : Braces e prev stack) :
    e.MacroClose tkRbrace ↔ stack.head? = some true ∧ stack.length ≤ eolBraceMax := by
  unfold EolState.MacroClose
  rw [h.braceDepth]
  cases stack with
  | nil => simp
  | cons b stack =>
    have hlast : (b :: stack).reverse[stack.length]? = some b := by
      rw [List.reverse_cons, List.getElem?_append_right (by rw [List.length_reverse]),
        List.length_reverse, Nat.sub_self]
      rfl
    rw [List.length_cons, List.head?_cons, Nat.add_sub_cancel, Option.some.injEq]
    constructor
    · rintro ⟨-, -, hle, hcall⟩
      exact ⟨(h.braceIsMacro _ (by omega) b hlast).symm.trans hcall, hle⟩
    · rintro ⟨rfl, hle⟩
      exact ⟨rfl, Nat.succ_pos _, hle, h.braceIsMacro _ (by omega) true hlast⟩

/-! ### Where the terminators are -/

/-- For each token of a stream that is not a terminator, whether one is before it. -/
def terminators : Bool → List ℕ → List Bool
  | _, [] => []
  | eol, k :: ks => if k = tkEol then terminators true ks else eol :: terminators false ks

theorem exists_terminators_append (eol : Bool) (ks js : List ℕ) :
    ∃ eol', terminators eol (ks ++ js) = terminators eol ks ++ terminators eol' js := by
  induction ks generalizing eol with
  | nil => exact ⟨eol, rfl⟩
  | cons k ks ih =>
    rw [List.cons_append, terminators, terminators]
    split_ifs
    · exact ih true
    · obtain ⟨eol', h⟩ := ih false
      exact ⟨eol', congrArg (List.cons eol) h⟩

theorem terminators_withEols (e : EolState) (ts : List RawToken) (hts : ∀ r ∈ ts, r.kind ≠ tkEol)
    (i : ℕ) : (terminators false ((withEols e ts).map (·.1)))[i]? = (ts[i]?).map fun r =>
      decide ((e.pushAll (ts.take i)).Due r.kind r.newline) := by
  induction ts generalizing e i with
  | nil => rfl
  | cons r ts ih =>
    have hr : r.kind ≠ tkEol := hts r List.mem_cons_self
    have hone : terminators false ((withEols e (r :: ts)).map (·.1))
        = decide (e.Due r.kind r.newline)
          :: terminators false ((withEols (e.push r.kind) ts).map (·.1)) := by
      rw [withEols]
      by_cases hdue : e.Due r.kind r.newline
      · simp [hdue, terminators, hr]
      · simp [hdue, terminators, hr]
    rw [hone]
    cases i with
    | zero => rfl
    | succ i => exact ih _ (fun r hr => hts r (List.mem_cons_of_mem _ hr)) i

theorem handed_add (n k : ℕ) (s : FrontState) :
    handed (n + k) s = handed n s ++ handed k (yylexCalls n s) := by
  induction n generalizing s with
  | zero =>
    rw [Nat.zero_add]
    rfl
  | succ n ih =>
    rw [Nat.succ_add, handed, ih]
    rfl

theorem yylexCalls_add (n k : ℕ) (s : FrontState) :
    yylexCalls (n + k) s = yylexCalls k (yylexCalls n s) := by
  induction n generalizing s with
  | zero => rw [Nat.zero_add, yylexCalls]
  | succ n ih =>
    rw [Nat.succ_add, yylexCalls, ih]
    rfl

theorem length_handed (n : ℕ) (s : FrontState) : (handed n s).length = n := by
  induction n generalizing s with
  | zero => rfl
  | succ n ih => exact congrArg (· + 1) (ih _)

theorem terminators_handed {s : FrontState} {n k i : ℕ} {b c : Bool}
    (hb : (terminators false ((handed n s).map (·.1)))[i]? = some b)
    (hc : (terminators false ((handed k s).map (·.1)))[i]? = some c) : b = c := by
  have hgo : ∀ {n k : ℕ} {b c : Bool}, n ≤ k →
      (terminators false ((handed n s).map (·.1)))[i]? = some b →
      (terminators false ((handed k s).map (·.1)))[i]? = some c → b = c := by
    intro n k b c hle hb hc
    obtain ⟨d, rfl⟩ := Nat.exists_eq_add_of_le hle
    rw [handed_add, List.map_append] at hc
    obtain ⟨eol, happ⟩ := exists_terminators_append false ((handed n s).map (·.1))
      ((handed d (yylexCalls n s)).map (·.1))
    rw [happ, List.getElem?_append_left (List.getElem?_eq_some_iff.mp hb).1, hb] at hc
    exact Option.some.inj hc
  rcases Nat.le_total n k with hle | hle
  · exact hgo hle hb hc
  · exact (hgo hle hc hb).symm

/-! ### The law -/

/-- The kinds of the tokens of a text, with the closing braces that it misses and its end. -/
def completedKinds (m : ℕ) (s : LexState) : List ℕ :=
  (rawTokens m s).map (·.kind)
    ++ List.replicate (openBraces ((rawTokens m s).map (·.kind))) tkRbrace ++ [0]

/-- **The law**: whether a statement ends between token `i`, which is `a`, and `b`.  A line
break that ends a string is one, and `before` are the tokens up to `a`. -/
def Boundary (s : LexState) (before : List ℕ) (i a b : ℕ) : Prop :=
  tokCanEndStmt a = true ∧
    (((LineBreakBefore (rawAfter (i + 1) s) ∨ BreaksString (rawAfter i s)) ∧
        tokCanBeginStmt b = true) ∨
      (b = tkRbrace ∧ (braceStack before).head? ≠ some true) ∨ b = 0)

/-- The terminators of `yylex` are those of the law. -/
def StatementLaw (s : FrontState) : Prop :=
  ∀ m, HasTokens s.lex m → ∀ n i a b eol, (completedKinds m s.lex)[i]? = some a →
    (completedKinds m s.lex)[i + 1]? = some b →
    (terminators false ((handed n s).map (·.1)))[i + 1]? = some eol →
    (eol = true ↔ Boundary s.lex ((completedKinds m s.lex).take (i + 1)) i a b)

/-- A line break that ends a string is the only one before `b`, which can begin a statement. -/
def HiddenBreak (s : LexState) (i b : ℕ) : Prop :=
  BreaksString (rawAfter i s) ∧ ¬ LineBreakBefore (rawAfter (i + 1) s) ∧ tokCanBeginStmt b = true

/-- A macro call is closed that lies beyond the stack of braces. -/
def DeepCall (before : List ℕ) (b : ℕ) : Prop :=
  b = tkRbrace ∧ (braceStack before).head? = some true ∧ eolBraceMax < (braceStack before).length

theorem map_kind_completed (m : ℕ) (s : LexState) (v : Token) :
    (completed m s v).map (·.kind) = completedKinds m s := by
  simp [completed, completedKinds, missingBrace]

theorem completed_ne_eol (m : ℕ) (s : LexState) (v : Token) :
    ∀ r ∈ completed m s v, r.kind ≠ tkEol := by
  intro r hr
  rcases List.mem_append.mp hr with hr | hr
  · rcases List.mem_append.mp hr with hr | hr
    · exact rawTokens_ne_eol m _ r hr
    · rw [List.eq_of_mem_replicate hr]
      exact (by decide : tkRbrace ≠ tkEol)
  · rw [List.mem_singleton.mp hr]
    exact (by decide : 0 ≠ tkEol)

theorem length_rawTokens (m : ℕ) (s : LexState) : (rawTokens m s).length = m := by
  induction m generalizing s with
  | zero => rfl
  | succ m ih => exact congrArg (· + 1) (ih _)

theorem rawTokens_getElem? {m i : ℕ} (h : i < m) (s : LexState) :
    (rawTokens m s)[i]? = some (rawNext (rawAfter i s)).2 := by
  induction i generalizing m s with
  | zero =>
    obtain ⟨m, rfl⟩ := Nat.exists_eq_succ_of_ne_zero (Nat.ne_of_gt h)
    rfl
  | succ i ih =>
    obtain ⟨m, rfl⟩ := Nat.exists_eq_succ_of_ne_zero (Nat.ne_of_gt (Nat.zero_lt_of_lt h))
    exact ih (Nat.lt_of_succ_lt_succ h) _

/-- A token behind a line break, if it can begin a statement. -/
theorem newline_completed {m i : ℕ} {s : LexState} {v : Token} {r : RawToken}
    (hr : (completed m s v)[i]? = some r) :
    (r.newline = true ∧ tokCanBeginStmt r.kind = true) ↔
      (LineBreakBefore (rawAfter i s) ∧ tokCanBeginStmt r.kind = true) := by
  by_cases hi : i < m
  · have hraw : (completed m s v)[i]? = some (rawNext (rawAfter i s)).2 := by
      rw [completed, List.append_assoc, List.getElem?_append_left, rawTokens_getElem? hi]
      rwa [length_rawTokens]
    obtain rfl := Option.some.inj (hraw.symm.trans hr)
    rw [newline_iff]
  · have hsynthetic : tokCanBeginStmt r.kind ≠ true := by
      rw [completed, List.append_assoc, List.getElem?_append_right] at hr
      · rcases List.mem_append.mp (List.mem_of_getElem? hr) with hr | hr
        · rw [List.eq_of_mem_replicate hr]
          exact (by decide : tokCanBeginStmt tkRbrace ≠ true)
        · rw [List.mem_singleton.mp hr]
          exact (by decide : tokCanBeginStmt 0 ≠ true)
      · rw [length_rawTokens]
        omega
    exact ⟨fun h => absurd h.2 hsynthetic, fun h => absurd h.2 hsynthetic⟩

/-- **Where a terminator is due** in the stream of a text. -/
theorem due_completed {e : EolState} (he : Braces e 0 []) {m i : ℕ} {s : LexState} {v : Token}
    {x r : RawToken} (hx : (completed m s v)[i]? = some x)
    (hr : (completed m s v)[i + 1]? = some r) :
    (e.pushAll ((completed m s v).take (i + 1))).Due r.kind r.newline ↔
      tokCanEndStmt x.kind = true ∧
        ((LineBreakBefore (rawAfter (i + 1) s) ∧ tokCanBeginStmt r.kind = true) ∨
          (r.kind = tkRbrace ∧
            ¬ ((braceStack ((completedKinds m s).take (i + 1))).head? = some true ∧
              (braceStack ((completedKinds m s).take (i + 1))).length ≤ eolBraceMax)) ∨
          r.kind = 0) := by
  have hcan : (e.pushAll ((completed m s v).take (i + 1))).prevCanEnd = tokCanEndStmt x.kind := by
    rw [List.take_add_one, hx, EolState.pushAll, List.foldl_append]
    rfl
  obtain ⟨prev, hbraces⟩ := braces_pushAll he ((completed m s v).take (i + 1))
  rw [List.map_take, map_kind_completed] at hbraces
  have hcall := macroClose_iff hbraces
  unfold EolState.Due
  rw [hcan, newline_completed hr]
  refine and_congr_right fun _ => or_congr_right (or_congr_left ?_)
  refine and_congr_right fun hk => not_congr ?_
  rw [hk]
  exact hcall

/-- The law at one place. -/
theorem boundary_iff {s : FrontState} {m : ℕ} (hm : HasTokens s.lex m)
    (hready : s.eol.haveBuffered = false) (hbraces : Braces s.eol 0 []) {i a b : ℕ}
    (ha : (completedKinds m s.lex)[i]? = some a) (hb : (completedKinds m s.lex)[i + 1]? = some b) :
    ∃ n eol, (terminators false ((handed n s).map (·.1)))[i + 1]? = some eol ∧
      ((eol = true ↔ Boundary s.lex ((completedKinds m s.lex).take (i + 1)) i a b) ↔
        (tokCanEndStmt a = true →
          ¬ HiddenBreak s.lex i b ∧ ¬ DeepCall ((completedKinds m s.lex).take (i + 1)) b)) := by
  obtain ⟨v, t, ⟨n, hlist, -⟩, -⟩ := hands_completed hm hready hbraces.braceDepth
  rw [← map_kind_completed m s.lex v, List.getElem?_map, Option.map_eq_some_iff] at ha hb
  obtain ⟨x, hx, rfl⟩ := ha
  obtain ⟨r, hr, rfl⟩ := hb
  refine ⟨n, decide ((s.eol.pushAll ((completed m s.lex v).take (i + 1))).Due r.kind r.newline),
    ?_, ?_⟩
  · rw [hlist, terminators_withEols _ _ (completed_ne_eol m s.lex v), hr]
    rfl
  · rw [decide_eq_true_iff, due_completed hbraces hx hr]
    unfold Boundary HiddenBreak DeepCall
    by_cases hcan : tokCanEndStmt x.kind = true
    · by_cases hbegin : tokCanBeginStmt r.kind = true
      · have hne : r.kind ≠ tkRbrace := by
          rintro hk
          rw [hk] at hbegin
          exact absurd hbegin (by decide)
        have hne0 : r.kind ≠ 0 := by
          rintro hk
          rw [hk] at hbegin
          exact absurd hbegin (by decide)
        simp only [hcan, hbegin, hne, hne0, true_and, and_true, false_and, or_false, not_false_eq_true,
          forall_true_left]
        tauto
      · simp only [hcan, hbegin, true_and, and_false, false_or, not_false_eq_true, forall_true_left,
          Bool.false_eq_true]
        by_cases hk : r.kind = tkRbrace
        · have hne0 : r.kind ≠ 0 := by
            rw [hk]
            decide
          simp only [hk, true_and]
          rw [← Nat.not_le]
          have hne0 : tkRbrace ≠ 0 := by decide
          simp only [hne0, or_false]
          tauto
        · simp only [hk, false_and, false_or, not_false_eq_true]
    · simp only [hcan, false_and, Bool.false_eq_true, false_imp_iff]

/-- **The law of the statement terminators** holds for a text but for line breaks that end a
string, and for macro calls beyond the stack of braces. -/
theorem statement_law_iff (s : FrontState) (input : CStr) :
    StatementLaw (s.install input) ↔ ∀ m, HasTokens (s.install input).lex m → ∀ i a b,
      (completedKinds m (s.install input).lex)[i]? = some a →
      (completedKinds m (s.install input).lex)[i + 1]? = some b → tokCanEndStmt a = true →
      ¬ HiddenBreak (s.install input).lex i b ∧
        ¬ DeepCall ((completedKinds m (s.install input).lex).take (i + 1)) b := by
  have hbraces : Braces (s.install input).eol 0 [] := ⟨rfl, rfl, fun i hi b hb => by cases hb⟩
  constructor
  · intro h m hm i a b ha hb
    obtain ⟨n, eol, heol, hlaw⟩ := boundary_iff hm rfl hbraces ha hb
    exact hlaw.mp (h m hm n i a b eol ha hb heol)
  · intro h m hm n i a b eol ha hb heol
    obtain ⟨n', eol', heol', hlaw⟩ := boundary_iff hm rfl hbraces ha hb
    obtain rfl := terminators_handed heol heol'
    exact hlaw.mpr (h m hm i a b ha hb)

/-- A string without an end, and a keyword on the next line. -/
def unterminated : FrontState := FrontState.boot.install (cstr "\"\ntask")

/-- The law fails for the line break that ends a string. -/
theorem statement_law_unterminated : ¬ StatementLaw unterminated := by
  intro h
  have htokens : HasTokens unterminated.lex 2 := by
    unfold HasTokens
    decide +kernel
  obtain ⟨a, ha, hend⟩ : ∃ a, (completedKinds 2 unterminated.lex)[0]? = some a ∧
      tokCanEndStmt a = true := ⟨tkError, by decide +kernel, by decide⟩
  obtain ⟨b, hb, hbegin⟩ : ∃ b, (completedKinds 2 unterminated.lex)[1]? = some b ∧
      tokCanBeginStmt b = true := ⟨kwTask, by decide +kernel, by decide⟩
  have hnone : (terminators false ((handed 3 unterminated).map (·.1)))[1]? = some false := by
    decide +kernel
  have hstring : BreaksString unterminated.lex := by
    refine ⟨_, .head (by decide +kernel) (.refl _), ?_, ?_⟩
    · exact .inl (by decide +kernel)
    · decide +kernel
  have hlaw := h 2 htokens 3 0 a b false ha hb hnone
  exact absurd (hlaw.mpr ⟨hend, .inl ⟨.inr hstring, hbegin⟩⟩) Bool.false_ne_true

end TaskjugglerLsp
