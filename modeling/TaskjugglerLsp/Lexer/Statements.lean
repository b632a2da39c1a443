import TaskjugglerLsp.Lexer.Spans

/-!
# Statement terminators and missing braces

What `yylex` hands to the parser: the tokens of `raw_yylex`, a `}` for every body that is
still open at the end of the input, and a `TK_EOL` before some of them.  `withEols` is this
stream for a list of real tokens.

* `hands_completed`: the stream of a whole text.
* `yylex_projection`: without what is synthesised, it is the stream of `raw_yylex`.
-/

namespace TaskjugglerLsp

open Lib

/-! ### Tokens of the scanner -/

/-- A token of `raw_yylex`, and whether the newline rule has matched before it. -/
structure RawToken where
  kind : ℕ
  newline : Bool
  val : Token

/-- A call of `raw_yylex`, as the wrapper makes it. -/
def rawNext (s : LexState) : LexState × RawToken :=
  let out := rawYylex { s with vars := { s.vars with pendingNewline := false } }
  (out.1, ⟨out.2, out.1.vars.pendingNewline, out.1.vars.yylval⟩)

/-- The scanner after so many calls. -/
def rawAfter : ℕ → LexState → LexState
  | 0, s => s
  | n + 1, s => rawAfter n (rawNext s).1

/-- The tokens of so many calls. -/
def rawTokens : ℕ → LexState → List RawToken
  | 0, _ => []
  | n + 1, s => (rawNext s).2 :: rawTokens n (rawNext s).1

/-- The token that an action returns. -/
def LexAction.code : LexAction → Option ℕ
  | closeString code | emitKw code | emitPlain code => some code
  | badNewline => some tkError
  | _ => none

theorem LexAction.run_code (a : LexAction) (c : StartCondition) (g : LexGlobals) (text : CStr) :
    (a.run c g text).2 = a.code := by cases a <;> rfl

theorem initialRules_code : ∀ r ∈ initialRules, ∀ k ∈ r.action.code, k ≠ 0 ∧ k ≠ tkEol := by
  decide +kernel

/-- No rule returns the end of the input or a terminator. -/
theorem lexRules_code (c : StartCondition) : ∀ r ∈ lexRules c, ∀ k ∈ r.action.code,
    k ≠ 0 ∧ k ≠ tkEol := by
  cases c with
  | initial => exact initialRules_code
  | blockComment | scissors | dquote | squote => decide +kernel

theorem length_silent {c d : LexState} (h : Scanner.Silent lexer c d) :
    d.rest.length ≤ c.rest.length := by
  induction h with
  | refl => exact le_rfl
  | head h _ ih => exact ih.trans (Scanner.length_step h).le

/-- **How a call ends**: with the token of a rule, at the end of a fragment, or at the end of
the input. -/
inductive RawEnd (s : LexState) : LexState × ℕ → Prop
  | rule {d : LexState} {r : Rule UInt8 LexAction} {text rest : CStr} {k : ℕ}
      (hd : Scanner.Silent lexer s d) (hrest : d.rest = text ++ rest)
      (hlongest : IsLongest (lexRules d.cond) r text rest) (hk : r.action.code = some k) :
      RawEnd s (⟨(r.action.run d.cond (d.vars.userAction text) text).1.1,
        (r.action.run d.cond (d.vars.userAction text) text).1.2, rest⟩, k)
  | fragment {d : LexState} (hd : Scanner.Silent lexer s d) (hrest : d.rest = [])
      (hc : d.cond ≠ .initial) :
      RawEnd s (⟨.initial, (d.vars.emitPlain tkError []).1, []⟩, tkError)
  | input {d : LexState} (hd : Scanner.Silent lexer s d) (hrest : d.rest = [])
      (hc : d.cond = .initial) : RawEnd s (d, 0)

theorem rawEnd_rawYylex (s : LexState) : RawEnd s (rawYylex s) := by
  obtain ⟨d, t, hd, hstep, ht⟩ := Scanner.next_spec (S := lexer) s
  have hraw : rawYylex s = ((lexer.next s).1, t) := by
    unfold rawYylex
    simp only
    rw [ht]
    rfl
  have hs := lexer.steps_step d
  rw [hstep] at hs
  rw [hraw]
  generalize (lexer.next s).1 = s' at hs ⊢
  generalize hout : (s', some t) = out at hs
  cases hs with
  | @eof k g t' hrest heof =>
    rw [Prod.mk.injEq, Option.some.injEq] at hout
    obtain ⟨rfl, rfl⟩ := hout
    by_cases hc : d.cond = .initial
    · rw [hc] at heof
      obtain ⟨⟨rfl, rfl⟩, rfl⟩ : (StartCondition.initial = k ∧ d.vars = g) ∧ 0 = t := by
        simpa [lexer] using heof
      have hend := RawEnd.input hd hrest hc
      obtain ⟨c, g, rest⟩ := d
      obtain rfl : rest = [] := hrest
      obtain rfl : c = .initial := hc
      exact hend
    · have hother : lexer.eof d.cond d.vars
          = ((.initial, (d.vars.emitPlain tkError []).1), tkError) := by
        generalize d.cond = c at hc
        cases c <;> first | exact absurd rfl hc | rfl
      rw [hother] at heof
      obtain ⟨⟨rfl, rfl⟩, rfl⟩ : (StartCondition.initial = k ∧
          (d.vars.emitPlain tkError []).1 = g) ∧ tkError = t := by
        simpa using heof
      exact .fragment hd hrest hc
  | @rule r text rest k g t' hrest hlongest hact =>
    rw [Prod.mk.injEq] at hout
    obtain ⟨rfl, rfl⟩ := hout
    have hact : r.action.run d.cond (d.vars.userAction text) text = ((k, g), some t) := hact
    have hcode := LexAction.run_code r.action d.cond (d.vars.userAction text) text
    rw [hact] at hcode
    have hend := RawEnd.rule hd hrest hlongest hcode.symm
    rwa [hact] at hend
  | echo => cases hout

/-- The scanner has reached the end of the input. -/
def AtEnd (s : LexState) : Prop := s.cond = .initial ∧ s.rest = []

theorem rawNext_kind_ne_eol (s : LexState) : (rawNext s).2.kind ≠ tkEol := by
  have hend := rawEnd_rawYylex { s with vars := { s.vars with pendingNewline := false } }
  obtain ⟨out, hout⟩ : ∃ out, rawYylex { s with vars := { s.vars with pendingNewline := false } }
    = out := ⟨_, rfl⟩
  rw [hout] at hend
  have hkind : (rawNext s).2.kind = out.2 := congrArg Prod.snd hout
  rw [hkind]
  cases hend with
  | rule hd hrest hlongest hk => exact (lexRules_code _ _ hlongest.mem _ hk).2
  | fragment => exact (by decide : tkError ≠ tkEol)
  | input => exact (by decide : 0 ≠ tkEol)

/-- **The end of the input** is returned only there. -/
theorem atEnd_of_kind_eq_zero {s : LexState} (h : (rawNext s).2.kind = 0) :
    AtEnd (rawNext s).1 := by
  have hend := rawEnd_rawYylex { s with vars := { s.vars with pendingNewline := false } }
  obtain ⟨out, hout⟩ : ∃ out, rawYylex { s with vars := { s.vars with pendingNewline := false } }
    = out := ⟨_, rfl⟩
  rw [hout] at hend
  have hkind : (rawNext s).2.kind = out.2 := congrArg Prod.snd hout
  have hstate : (rawNext s).1 = out.1 := congrArg Prod.fst hout
  rw [hstate]
  rw [hkind] at h
  cases hend with
  | rule hd hrest hlongest hk => exact absurd h (lexRules_code _ _ hlongest.mem _ hk).1
  | fragment => cases h
  | input hd hrest hc => exact ⟨hc, hrest⟩

theorem rawNext_atEnd {s : LexState} (h : AtEnd s) :
    (rawNext s).1 = { s with vars := { s.vars with pendingNewline := false } } ∧
      (rawNext s).2.kind = 0 := by
  obtain ⟨c, g, rest⟩ := s
  obtain ⟨rfl, rfl⟩ : c = .initial ∧ rest = [] := h
  exact ⟨rfl, rfl⟩

/-- What is left to read: the input, and an open fragment. -/
def lexMeasure (s : LexState) : ℕ := 2 * s.rest.length + if s.cond = .initial then 0 else 1

theorem lexMeasure_rawNext {s : LexState} (h : (rawNext s).2.kind ≠ 0) :
    lexMeasure (rawNext s).1 < lexMeasure s := by
  have hend := rawEnd_rawYylex { s with vars := { s.vars with pendingNewline := false } }
  obtain ⟨out, hout⟩ : ∃ out, rawYylex { s with vars := { s.vars with pendingNewline := false } }
    = out := ⟨_, rfl⟩
  rw [hout] at hend
  have hkind : (rawNext s).2.kind = out.2 := congrArg Prod.snd hout
  have hstate : (rawNext s).1 = out.1 := congrArg Prod.fst hout
  rw [hstate]
  rw [hkind] at h
  cases hend with
  | @rule d r text rest k hd hrest hlongest hk =>
    have hle := length_silent hd
    have hpos := List.length_pos_iff.mpr hlongest.ne_nil
    rw [hrest, List.length_append] at hle
    have hle : text.length + rest.length ≤ s.rest.length := hle
    simp only [lexMeasure]
    split <;> omega
  | @fragment d hd hrest hc =>
    have hopen : s.rest ≠ [] ∨ s.cond ≠ .initial := by
      by_contra hnot
      rw [not_or, not_not, not_not] at hnot
      cases hd with
      | refl => exact hc hnot.2
      | head hnone _ =>
        obtain ⟨c, g, rest⟩ := s
        obtain ⟨rfl, rfl⟩ : rest = [] ∧ c = .initial := hnot
        cases hnone
    simp only [lexMeasure, List.length_nil, if_true]
    rcases hopen with hne | hne
    · have := List.length_pos_iff.mpr hne
      omega
    · rw [if_neg hne]
      omega
  | input => exact absurd rfl h

/-- **Every text ends**: after some tokens, `raw_yylex` returns the end of the input. -/
theorem exists_rawTokens (s : LexState) :
    ∃ m, (∀ r ∈ rawTokens m s, r.kind ≠ 0) ∧ (rawNext (rawAfter m s)).2.kind = 0 := by
  induction hn : lexMeasure s using Nat.strong_induction_on generalizing s with
  | _ n ih =>
    by_cases h : (rawNext s).2.kind = 0
    · refine ⟨0, fun r hr => ?_, h⟩
      cases hr
    · obtain ⟨m, hm, hlast⟩ := ih _ (hn ▸ lexMeasure_rawNext h) (rawNext s).1 rfl
      refine ⟨m + 1, fun r hr => ?_, hlast⟩
      rcases List.mem_cons.mp hr with rfl | hr
      · exact h
      · exact hm r hr

theorem rawTokens_ne_eol (m : ℕ) (s : LexState) : ∀ r ∈ rawTokens m s, r.kind ≠ tkEol := by
  induction m generalizing s with
  | zero => exact fun r hr => by cases hr
  | succ m ih =>
    intro r hr
    rcases List.mem_cons.mp hr with rfl | hr
    · exact rawNext_kind_ne_eol s
    · exact ih _ r hr

/-! ### The wrapper -/

/-- What `yylex` hands over in so many calls. -/
def handed : ℕ → FrontState → List (ℕ × Token)
  | 0, _ => []
  | n + 1, s => ((yylex s).2, (yylex s).1.lex.vars.yylval) :: handed n (yylex s).1

namespace EolState

/-- `macro_close` -/
def MacroClose (e : EolState) (kind : ℕ) : Prop :=
  kind = tkRbrace ∧ 0 < e.braceDepth ∧ e.braceDepth ≤ eolBraceMax ∧
    e.braceIsMacro (e.braceDepth - 1) = true

/-- Whether a terminator comes before a token. -/
def Due (e : EolState) (kind : ℕ) (newline : Bool) : Prop :=
  e.prevCanEnd = true ∧ ((newline = true ∧ tokCanBeginStmt kind = true) ∨
    (kind = tkRbrace ∧ ¬ e.MacroClose kind) ∨ kind = 0)

instance (e : EolState) (kind : ℕ) : Decidable (e.MacroClose kind) :=
  inferInstanceAs (Decidable (_ ∧ _))

instance (e : EolState) (kind : ℕ) (newline : Bool) : Decidable (e.Due kind newline) :=
  inferInstanceAs (Decidable (_ ∧ _))

/-- The wrapper after a token is handed over. -/
def push (e : EolState) (kind : ℕ) : EolState :=
  let eol :=
    if kind = tkLbrace then
      { e with
        braceIsMacro := if e.braceDepth < eolBraceMax then
          Function.update e.braceIsMacro e.braceDepth (e.prevKind == tkDollar)
          else e.braceIsMacro
        braceDepth := e.braceDepth + 1 }
    else if kind = tkRbrace ∧ 0 < e.braceDepth then
      { e with braceDepth := e.braceDepth - 1 }
    else e
  { eol with prevKind := kind, prevCanEnd := tokCanEndStmt kind }

/-- The wrapper without the token that it may hold back. -/
def clear (e : EolState) : EolState :=
  { e with haveBuffered := false, bufferedKind := 0, bufferedVal := Token.zero }

/-- The wrapper holds a token back behind a terminator. -/
def hold (e : EolState) (kind : ℕ) (val : Token) : EolState :=
  { e with
    bufferedKind := kind
    bufferedVal := val
    haveBuffered := true
    prevCanEnd := false }

theorem clear_push (e : EolState) (kind : ℕ) : (e.push kind).clear = e.clear.push kind := by
  unfold push
  by_cases hopen : kind = tkLbrace
  · rw [if_pos hopen, if_pos hopen]
    rfl
  · rw [if_neg hopen, if_neg hopen]
    by_cases hclose : kind = tkRbrace ∧ 0 < e.braceDepth
    · rw [if_pos hclose, if_pos (show kind = tkRbrace ∧ 0 < e.clear.braceDepth from hclose)]
      rfl
    · rw [if_neg hclose, if_neg (show ¬ (kind = tkRbrace ∧ 0 < e.clear.braceDepth) from hclose)]
      rfl

theorem haveBuffered_push (e : EolState) (kind : ℕ) :
    (e.push kind).haveBuffered = e.haveBuffered := by
  unfold push
  split_ifs <;> rfl

end EolState

/-- The value of a terminator. -/
def eolToken : Token := { Token.zero with kind := tkEol }

theorem yylex_of_due {s : FrontState} {s' : FrontState} {kind : ℕ} {newline : Bool}
    (hnext : nextToken s = (s', kind, newline)) (hdue : s'.eol.Due kind newline) :
    yylex s = (⟨{ s'.lex with vars := { s'.lex.vars with yylval := eolToken } },
      s'.eol.hold kind s'.lex.vars.yylval⟩, tkEol) := by
  unfold yylex
  rw [hnext]
  exact if_pos hdue

theorem yylex_of_not_due {s : FrontState} {s' : FrontState} {kind : ℕ} {newline : Bool}
    (hnext : nextToken s = (s', kind, newline)) (hdue : ¬ s'.eol.Due kind newline) :
    yylex s = (⟨s'.lex, s'.eol.push kind⟩, kind) := by
  unfold yylex
  rw [hnext]
  exact if_neg hdue

/-- Some calls of `yylex`, and what they hand over. -/
def Hands (s : FrontState) (ts : List (ℕ × Token)) (t : FrontState) : Prop :=
  ∃ n, handed n s = ts ∧ yylexCalls n s = t

theorem Hands.trans {s t u : FrontState} {ts us : List (ℕ × Token)} (h : Hands s ts t)
    (h' : Hands t us u) : Hands s (ts ++ us) u := by
  obtain ⟨n, hn, hs⟩ := h
  obtain ⟨m, hm, ht⟩ := h'
  refine ⟨n + m, ?_⟩
  induction n generalizing s ts with
  | zero =>
    obtain rfl : [] = ts := hn
    obtain rfl : s = t := hs
    rw [Nat.zero_add]
    exact ⟨hm, ht⟩
  | succ n ih =>
    subst hn
    obtain ⟨hlist, hstate⟩ := ih rfl hs
    rw [Nat.succ_add]
    exact ⟨congrArg (List.cons _) hlist, hstate⟩

theorem hands_one (s : FrontState) :
    Hands s [((yylex s).2, (yylex s).1.lex.vars.yylval)] (yylex s).1 := ⟨1, rfl, rfl⟩

/-- **A real token** is handed over, behind its terminator if one is due. -/
theorem hands_token {s s' : FrontState} {kind : ℕ} {newline : Bool}
    (hnext : nextToken s = (s', kind, newline)) (hready : s'.eol.haveBuffered = false) :
    ∃ t, Hands s ((if s'.eol.Due kind newline then [(tkEol, eolToken)] else [])
        ++ [(kind, s'.lex.vars.yylval)]) t ∧
      t.lex = s'.lex ∧ t.eol.haveBuffered = false ∧ t.eol.clear = s'.eol.clear.push kind := by
  by_cases hdue : s'.eol.Due kind newline
  · rw [if_pos hdue]
    have hfirst := hands_one s
    rw [yylex_of_due hnext hdue] at hfirst
    generalize hmid : FrontState.mk
      { s'.lex with vars := { s'.lex.vars with yylval := eolToken } }
      (s'.eol.hold kind s'.lex.vars.yylval) = mid at hfirst
    let e := { s'.eol.hold kind s'.lex.vars.yylval with haveBuffered := false }
    have hheld : nextToken mid = (⟨s'.lex, e⟩, kind, false) := by
      rw [← hmid]
      rfl
    have hnot : ¬ e.Due kind false := fun h => Bool.false_ne_true h.1
    have hsecond := hands_one mid
    rw [yylex_of_not_due hheld hnot] at hsecond
    have hval : mid.lex.vars.yylval = eolToken := by
      rw [← hmid]
    have hboth := hfirst.trans hsecond
    rw [hval] at hboth
    refine ⟨_, hboth, rfl, EolState.haveBuffered_push e kind, ?_⟩
    rw [EolState.clear_push]
    unfold EolState.push
    by_cases hopen : kind = tkLbrace
    · rw [if_pos hopen, if_pos hopen]
      rfl
    · rw [if_neg hopen, if_neg hopen]
      by_cases hclose : kind = tkRbrace ∧ 0 < s'.eol.braceDepth
      · rw [if_pos (show kind = tkRbrace ∧ 0 < e.clear.braceDepth from hclose),
          if_pos (show kind = tkRbrace ∧ 0 < s'.eol.clear.braceDepth from hclose)]
        rfl
      · rw [if_neg (show ¬ (kind = tkRbrace ∧ 0 < e.clear.braceDepth) from hclose),
          if_neg (show ¬ (kind = tkRbrace ∧ 0 < s'.eol.clear.braceDepth) from hclose)]
        rfl
  · rw [if_neg hdue]
    have hfirst := hands_one s
    rw [yylex_of_not_due hnext hdue] at hfirst
    refine ⟨_, hfirst, rfl, ?_, EolState.clear_push s'.eol kind⟩
    exact (EolState.haveBuffered_push _ _).trans hready

/-! ### The stream of a text -/

/-- Tokens, with the terminators before them. -/
def withEols : EolState → List RawToken → List (ℕ × Token)
  | _, [] => []
  | e, r :: rs => ((if e.Due r.kind r.newline then [(tkEol, eolToken)] else [])
      ++ [(r.kind, r.val)]) ++ withEols (e.push r.kind) rs

/-- The wrapper after some tokens. -/
def EolState.pushAll (e : EolState) (ts : List RawToken) : EolState :=
  ts.foldl (fun e r => e.push r.kind) e

theorem withEols_append (e : EolState) (ts us : List RawToken) :
    withEols e (ts ++ us) = withEols e ts ++ withEols (e.pushAll ts) us := by
  induction ts generalizing e with
  | nil => rfl
  | cons r ts ih =>
    rw [List.cons_append, withEols, withEols, ih]
    exact (List.append_assoc _ _ _).symm

theorem withEols_clear (e : EolState) (ts : List RawToken) :
    withEols e.clear ts = withEols e ts := by
  induction ts generalizing e with
  | nil => rfl
  | cons r ts ih =>
    rw [withEols, withEols, ← EolState.clear_push, ih]
    rfl

theorem withEols_congr {e f : EolState} (h : e.clear = f.clear) (ts : List RawToken) :
    withEols e ts = withEols f ts := by
  rw [← withEols_clear e, h, withEols_clear]

theorem clear_pushAll (e : EolState) (ts : List RawToken) :
    (e.pushAll ts).clear = e.clear.pushAll ts := by
  induction ts generalizing e with
  | nil => rfl
  | cons r ts ih =>
    have h := ih (e.push r.kind)
    rwa [EolState.clear_push] at h

/-- A token of the scanner is the next real token, unless a body is open at the end. -/
theorem nextToken_real {s : FrontState} (hready : s.eol.haveBuffered = false)
    (h : ¬ ((rawNext s.lex).2.kind = 0 ∧ 0 < s.eol.braceDepth)) :
    nextToken s = (⟨(rawNext s.lex).1, s.eol⟩, (rawNext s.lex).2.kind,
      (rawNext s.lex).2.newline) := by
  unfold nextToken
  rw [hready]
  exact if_neg h

/-- **The tokens of the scanner** are handed over one by one. -/
theorem hands_tokens (m : ℕ) {s : FrontState} (hready : s.eol.haveBuffered = false)
    (hreal : ∀ r ∈ rawTokens m s.lex, r.kind ≠ 0) :
    ∃ t, Hands s (withEols s.eol (rawTokens m s.lex)) t ∧ t.lex = rawAfter m s.lex ∧
      t.eol.haveBuffered = false ∧ t.eol.clear = s.eol.clear.pushAll (rawTokens m s.lex) := by
  induction m generalizing s with
  | zero => exact ⟨s, ⟨0, rfl, rfl⟩, rfl, hready, rfl⟩
  | succ m ih =>
    have hkind : (rawNext s.lex).2.kind ≠ 0 := hreal _ List.mem_cons_self
    have hnext := nextToken_real hready fun h => hkind h.1
    obtain ⟨t, hfirst, hlex, hready', hclear⟩ := hands_token hnext hready
    have htail : ∀ r ∈ rawTokens m t.lex, r.kind ≠ 0 := by
      rw [hlex]
      exact fun r hr => hreal r (List.mem_cons_of_mem _ hr)
    obtain ⟨u, hrest, hlex', hready'', hclear'⟩ := ih hready' htail
    rw [hlex] at hrest hlex' hclear'
    rw [hclear] at hclear'
    refine ⟨u, ?_, hlex', hready'', hclear'⟩
    rw [rawTokens, withEols]
    have hsame : withEols t.eol (rawTokens m (rawNext s.lex).1)
        = withEols (s.eol.push (rawNext s.lex).2.kind) (rawTokens m (rawNext s.lex).1) :=
      withEols_congr (hclear.trans (EolState.clear_push _ _).symm) _
    rw [← hsame]
    exact hfirst.trans hrest

/-- The closing brace that is handed over where one is missing. -/
def missingBrace (p : LspPos) : RawToken := ⟨tkRbrace, false, ⟨tkRbrace, p, p, some (cstr "\x7d")⟩⟩

theorem due_rbrace (e : EolState) (newline : Bool) :
    e.Due tkRbrace newline ↔ e.Due tkRbrace false := by
  have hbegin : tokCanBeginStmt tkRbrace ≠ true := by decide
  simp only [EolState.Due, Bool.false_eq_true, false_and]
  refine and_congr_right fun _ => or_congr_left ?_
  exact ⟨fun h => hbegin h.2, False.elim⟩

theorem due_zero (e : EolState) (newline : Bool) : e.Due 0 newline ↔ e.prevCanEnd = true :=
  ⟨fun h => h.1, fun h => ⟨h, Or.inr (Or.inr rfl)⟩⟩

theorem braceDepth_clear (e : EolState) : e.clear.braceDepth = e.braceDepth := rfl

theorem braceDepth_push (e : EolState) (kind : ℕ) : (e.push kind).braceDepth =
    if kind = tkLbrace then e.braceDepth + 1
    else if kind = tkRbrace then e.braceDepth - 1 else e.braceDepth := by
  unfold EolState.push
  by_cases hopen : kind = tkLbrace
  · rw [if_pos hopen, if_pos hopen]
  · rw [if_neg hopen, if_neg hopen]
    by_cases hclose : kind = tkRbrace ∧ 0 < e.braceDepth
    · rw [if_pos hclose, if_pos hclose.1]
    · rw [if_neg hclose]
      by_cases hkind : kind = tkRbrace
      · rw [if_pos hkind]
        have : ¬ 0 < e.braceDepth := fun h => hclose ⟨hkind, h⟩
        simp only
        omega
      · rw [if_neg hkind]

/-- **Missing braces** are handed over at the end of the input, one for each open brace. -/
theorem hands_missing (d : ℕ) {s : FrontState} (hready : s.eol.haveBuffered = false)
    (hdepth : s.eol.braceDepth = d) (hend : (rawNext s.lex).2.kind = 0) :
    ∃ v t, Hands s (withEols s.eol (List.replicate d (missingBrace (rawNext s.lex).1.vars.pos)
        ++ [⟨0, false, v⟩])) t ∧ AtEnd t.lex ∧ t.eol.haveBuffered = false ∧
      t.eol.prevCanEnd = false ∧ t.eol.braceDepth = 0 ∧
      t.lex.vars.tokSpans = (rawNext s.lex).1.vars.tokSpans := by
  induction d generalizing s with
  | zero =>
    have hnext := nextToken_real hready fun h => absurd h.2 (by omega)
    obtain ⟨t, hfirst, hlex, hready', hclear⟩ := hands_token hnext hready
    have hsame (n : Bool) : s.eol.Due 0 n ↔ s.eol.Due 0 false := by rw [due_zero, due_zero]
    refine ⟨(rawNext s.lex).1.vars.yylval, t, ?_, ?_, hready', ?_, ?_, by rw [hlex]⟩
    · simp only [hend, hsame (rawNext s.lex).2.newline] at hfirst
      rw [List.replicate_zero, List.nil_append, withEols, withEols, List.append_nil]
      exact hfirst
    · rw [hlex]
      exact atEnd_of_kind_eq_zero hend
    · have h := congrArg EolState.prevCanEnd hclear
      rw [hend] at h
      exact h
    · have h := congrArg EolState.braceDepth hclear
      rw [hend, braceDepth_push] at h
      exact h.trans hdepth
  | succ d ih =>
    have hatEnd := atEnd_of_kind_eq_zero hend
    let p := (rawNext s.lex).1.vars.pos
    let l := { (rawNext s.lex).1 with
      vars := { (rawNext s.lex).1.vars with yylval := (missingBrace p).val } }
    have hnext : nextToken s = (⟨l, s.eol⟩, tkRbrace, (rawNext s.lex).2.newline) := by
      unfold nextToken
      rw [hready]
      have hopen : (rawNext s.lex).2.kind = 0 ∧ 0 < s.eol.braceDepth := ⟨hend, by omega⟩
      exact if_pos hopen
    obtain ⟨t, hfirst, hlex, hready', hclear⟩ := hands_token hnext hready
    have hdepth' : t.eol.braceDepth = d := by
      have h := congrArg EolState.braceDepth hclear
      rw [braceDepth_push, if_neg (by decide), if_pos rfl] at h
      have h : t.eol.braceDepth = s.eol.braceDepth - 1 := h
      omega
    have hl : AtEnd t.lex := by
      rw [hlex]
      exact hatEnd
    obtain ⟨hstay, hzero⟩ := rawNext_atEnd hl
    obtain ⟨v, u, hrest, hend', hready'', hcan, hdepth'', hspans⟩ := ih hready' hdepth' hzero
    have hpos : (rawNext t.lex).1.vars.pos = p := by
      rw [hstay, hlex]
      rfl
    rw [hpos] at hrest
    have hspans' : u.lex.vars.tokSpans = (rawNext s.lex).1.vars.tokSpans := by
      rw [hspans, hstay, hlex]
    refine ⟨v, u, ?_, hend', hready'', hcan, hdepth'', hspans'⟩
    rw [List.replicate_succ, List.cons_append, withEols]
    have hsame : withEols t.eol (List.replicate d (missingBrace p) ++ [⟨0, false, v⟩])
        = withEols (s.eol.push tkRbrace) (List.replicate d (missingBrace p) ++ [⟨0, false, v⟩]) :=
      withEols_congr (hclear.trans (EolState.clear_push _ _).symm) _
    have hdue : (if s.eol.Due tkRbrace (rawNext s.lex).2.newline then [(tkEol, eolToken)] else [])
        = if s.eol.Due tkRbrace false then [(tkEol, eolToken)] else [] := by
      simp only [due_rbrace s.eol (rawNext s.lex).2.newline]
    simp only [hdue] at hfirst
    have hkind : (missingBrace p).kind = tkRbrace := rfl
    rw [hkind, ← hsame]
    exact hfirst.trans hrest

/-- Braces that are opened and not closed; a stray closing brace closes nothing. -/
def openBraces (kinds : List ℕ) : ℕ :=
  kinds.foldl (fun d k => if k = tkLbrace then d + 1 else if k = tkRbrace then d - 1 else d) 0

theorem braceDepth_pushAll (e : EolState) (ts : List RawToken) : (e.pushAll ts).braceDepth =
    (ts.map (·.kind)).foldl
      (fun d k => if k = tkLbrace then d + 1 else if k = tkRbrace then d - 1 else d)
      e.braceDepth := by
  induction ts generalizing e with
  | nil => rfl
  | cons r ts ih =>
    have h := ih (e.push r.kind)
    rw [braceDepth_push] at h
    exact h

/-- The tokens of a text, up to the end of the input, with the closing braces it misses. -/
def completed (m : ℕ) (l : LexState) (v : Token) : List RawToken :=
  rawTokens m l ++ List.replicate (openBraces ((rawTokens m l).map (·.kind)))
    (missingBrace (rawNext (rawAfter m l)).1.vars.pos) ++ [⟨0, false, v⟩]

theorem handed_atEnd (n : ℕ) {s : FrontState} (hend : AtEnd s.lex)
    (hready : s.eol.haveBuffered = false) (hcan : s.eol.prevCanEnd = false)
    (hdepth : s.eol.braceDepth = 0) : (∀ k ∈ handed n s, k.1 = 0) ∧
      (yylexCalls n s).lex.vars.tokSpans = s.lex.vars.tokSpans := by
  induction n generalizing s with
  | zero => exact ⟨(fun k hk => by cases hk), rfl⟩
  | succ n ih =>
    obtain ⟨hstay, hzero⟩ := rawNext_atEnd hend
    have hnext := nextToken_real hready fun h => absurd h.2 (by omega)
    have hnot : ¬ s.eol.Due 0 (rawNext s.lex).2.newline := fun h =>
      Bool.false_ne_true (hcan.symm.trans h.1)
    rw [hzero] at hnext
    have hyylex := yylex_of_not_due hnext hnot
    obtain ⟨hkinds, hspans⟩ := ih (s := (yylex s).1) (by rw [hyylex, hstay]; exact hend)
      (by rw [hyylex]; exact (EolState.haveBuffered_push _ _).trans hready) (by rw [hyylex]; rfl) (by
        rw [hyylex]
        show (s.eol.push 0).braceDepth = 0
        rw [braceDepth_push, if_neg (by decide), if_neg (by decide)]
        exact hdepth)
    refine ⟨List.forall_mem_cons.mpr ⟨congrArg Prod.snd hyylex, hkinds⟩, hspans.trans ?_⟩
    rw [hyylex, hstay]

/-- The scanner has `m` tokens before the end of the input. -/
def HasTokens (s : LexState) (m : ℕ) : Prop :=
  (∀ r ∈ rawTokens m s, r.kind ≠ 0) ∧ (rawNext (rawAfter m s)).2.kind = 0

/-- **The stream of a text**, from a wrapper that has been reset. -/
theorem hands_completed {s : FrontState} {m : ℕ} (hm : HasTokens s.lex m)
    (hready : s.eol.haveBuffered = false) (hdepth : s.eol.braceDepth = 0) :
    ∃ v t, Hands s (withEols s.eol (completed m s.lex v)) t ∧ ∀ n, (∀ k ∈ handed n t, k.1 = 0) ∧
      (yylexCalls n t).lex.vars.tokSpans = (rawNext (rawAfter m s.lex)).1.vars.tokSpans := by
  obtain ⟨hreal, hzero⟩ := hm
  obtain ⟨t, hfirst, hlex, hready', hclear⟩ := hands_tokens m hready hreal
  have hdepth' : t.eol.braceDepth = openBraces ((rawTokens m s.lex).map (·.kind)) := by
    have h := congrArg EolState.braceDepth hclear
    rw [braceDepth_pushAll, braceDepth_clear, braceDepth_clear, hdepth] at h
    exact h
  obtain ⟨v, u, hrest, hend, hready'', hcan, hdepth'', hspans⟩ :=
    hands_missing _ hready' hdepth' (hlex ▸ hzero)
  rw [hlex] at hrest hspans
  refine ⟨v, u, ?_, fun n => ?_⟩
  swap
  · rw [← hspans]
    exact handed_atEnd n hend hready'' hcan hdepth''
  rw [completed, List.append_assoc, withEols_append]
  have hsame := withEols_congr (hclear.trans (clear_pushAll _ _).symm)
    (List.replicate (openBraces ((rawTokens m s.lex).map (·.kind)))
      (missingBrace (rawNext (rawAfter m s.lex)).1.vars.pos) ++ [⟨0, false, v⟩])
  rw [← hsame]
  exact hfirst.trans hrest

/-! ### Nothing is lost -/

theorem filter_withEols (e : EolState) (ts : List RawToken) (h : ∀ r ∈ ts, r.kind ≠ tkEol) :
    (withEols e ts).filter (fun t => t.1 != tkEol) = ts.map fun r => (r.kind, r.val) := by
  induction ts generalizing e with
  | nil => rfl
  | cons r ts ih =>
    have hr : (r.kind != tkEol) = true := bne_iff_ne.mpr (h r List.mem_cons_self)
    have hone : ((if e.Due r.kind r.newline then [(tkEol, eolToken)] else [])
        ++ [(r.kind, r.val)]).filter (fun t => t.1 != tkEol) = [(r.kind, r.val)] := by
      split_ifs
      · simp [hr]
      · simp [hr]
    rw [withEols, List.filter_append, hone, ih _ fun r hr => h r (List.mem_cons_of_mem _ hr)]
    rfl

/-- Between two calls: what is held back is not a terminator, and `prev` was handed over last. -/
structure AfterToken (s : FrontState) (prev : ℕ) : Prop where
  held : s.eol.haveBuffered = true → s.eol.bufferedKind ≠ tkEol
  canEnd : s.eol.prevCanEnd = true → tokCanEndStmt prev = true

theorem AfterToken.nextToken {s : FrontState} {prev : ℕ} (h : AfterToken s prev) :
    AfterToken (nextToken s).1 prev ∧ (nextToken s).2.1 ≠ tkEol := by
  unfold TaskjugglerLsp.nextToken
  by_cases hbuf : s.eol.haveBuffered = true
  · rw [if_pos hbuf]
    exact ⟨⟨fun hne => absurd hne Bool.false_ne_true, h.canEnd⟩, h.held hbuf⟩
  · rw [if_neg hbuf]
    simp only
    split_ifs
    · exact ⟨⟨h.held, h.canEnd⟩, (by decide : tkRbrace ≠ tkEol)⟩
    · exact ⟨⟨h.held, h.canEnd⟩, rawNext_kind_ne_eol s.lex⟩

/-- **A call** returns a terminator only behind a token that can end a statement. -/
theorem AfterToken.yylex {s : FrontState} {prev : ℕ} (h : AfterToken s prev) :
    AfterToken (yylex s).1 (yylex s).2 ∧
      ((yylex s).2 = tkEol → tokCanEndStmt prev = true) := by
  obtain ⟨hnext, hne⟩ := h.nextToken
  obtain ⟨⟨s', kind, newline⟩, hs⟩ : ∃ out, TaskjugglerLsp.nextToken s = out := ⟨_, rfl⟩
  rw [hs] at hnext hne
  by_cases hdue : s'.eol.Due kind newline
  · rw [yylex_of_due hs hdue]
    exact ⟨⟨fun _ => hne, fun hcan => absurd hcan Bool.false_ne_true⟩,
      fun _ => hnext.canEnd hdue.1⟩
  · rw [yylex_of_not_due hs hdue]
    refine ⟨⟨fun hbuf => ?_, fun hcan => hcan⟩, fun heol => absurd heol hne⟩
    rw [EolState.haveBuffered_push] at hbuf
    have hkind : (s'.eol.push kind).bufferedKind = s'.eol.bufferedKind := by
      unfold EolState.push
      split_ifs <;> rfl
    simp only [hkind]
    exact hnext.held hbuf

theorem AfterToken.handed (n : ℕ) {s : FrontState} {prev : ℕ} (h : AfterToken s prev) :
    (prev :: (handed n s).map (·.1)).IsChain
      fun a b => b = tkEol → tokCanEndStmt a = true := by
  induction n generalizing s prev with
  | zero => exact .singleton prev
  | succ n ih =>
    obtain ⟨hafter, heol⟩ := h.yylex
    exact List.isChain_cons_cons.mpr ⟨heol, ih hafter⟩

/-- **The wrapper is a faithful projection**: without the terminators, it hands over the tokens
of the scanner, then one closing brace for each open one, and then the end of the input. -/
theorem yylex_projection (s : FrontState) (input : CStr) :
    ∃ m n v, (∀ r ∈ rawTokens m (s.install input).lex, r.kind ≠ 0) ∧
      (rawNext (rawAfter m (s.install input).lex)).2.kind = 0 ∧
      AtEnd (rawNext (rawAfter m (s.install input).lex)).1 ∧
      (handed n (s.install input)).filter (fun t => t.1 != tkEol)
        = (rawTokens m (s.install input).lex).map (fun r => (r.kind, r.val))
          ++ List.replicate (openBraces ((rawTokens m (s.install input).lex).map (·.kind)))
            (tkRbrace, (missingBrace (rawNext (rawAfter m (s.install input).lex)).1.vars.pos).val)
          ++ [(0, v)] ∧
      (∀ k, ∀ t ∈ handed k (yylexCalls n (s.install input)), t.1 = 0) ∧
      ∀ k, (0 :: (handed k (s.install input)).map (·.1)).IsChain
        fun a b => b = tkEol → tokCanEndStmt a = true := by
  obtain ⟨m, hreal, hzero⟩ := exists_rawTokens (s.install input).lex
  obtain ⟨v, t, ⟨n, hlist, hstate⟩, hafter⟩ :=
    hands_completed (s := s.install input) ⟨hreal, hzero⟩ rfl rfl
  have hstart : AfterToken (s.install input) 0 :=
    ⟨fun h => absurd h Bool.false_ne_true, fun h => absurd h Bool.false_ne_true⟩
  refine ⟨m, n, v, hreal, hzero, atEnd_of_kind_eq_zero hzero, ?_, fun k => hstate ▸ (hafter k).1,
    fun k => hstart.handed k⟩
  rw [hlist, filter_withEols]
  · simp [completed, missingBrace]
  · intro r hr
    rcases List.mem_append.mp hr with hr | hr
    · rcases List.mem_append.mp hr with hr | hr
      · exact rawTokens_ne_eol m _ r hr
      · rw [List.eq_of_mem_replicate hr]
        exact (by decide : tkRbrace ≠ tkEol)
    · rw [List.mem_singleton.mp hr]
      exact (by decide : 0 ≠ tkEol)

end TaskjugglerLsp
