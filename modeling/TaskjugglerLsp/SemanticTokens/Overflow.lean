import TaskjugglerLsp.Grammar.Evaluation
import TaskjugglerLsp.Grammar.Tokens
import TaskjugglerLsp.SemanticTokens.Cover

/-!
# The room for semantic tokens

The array of `compute_semantic_tokens_data` has room for all entries of a parse, but the counter
of its integers is an `int`.

* `LexReached.numSemEntries_le`: what is counted for the array is not more than the bytes scanned.
* `semantic_tokens_fit`: every write is inside the array exactly if there are at most 429496729
  entries.
-/

namespace TaskjugglerLsp

open Lib Lib.Lr

/-! ### What is counted -/

/-- The lines of a token are not more than its bytes: the last of these is no line feed. -/
theorem Pushed.semEntries_le {input pre mid : CStr} {span : TokenSpan}
    (h : Pushed input span pre mid) (hcounts : span.Counts) (hstop : span.stop.character ≠ 0) :
    span.semEntries ≤ mid.length := by
  obtain ⟨last, hsource, -, hend⟩ := h.lengths
  have hlines : span.stop.line.toNat - span.start.line.toNat = mid.count 10 :=
    Nat.sub_eq_of_eq_add' (congrArg Prod.fst hend)
  have hle : mid.count 10 + 1 ≤ mid.length := by
    refine Nat.lt_of_le_of_ne List.count_le_length fun hall => hstop ?_
    -- a token of line feeds only ends where a line begins
    have hcolumn : span.stop.nat.2 = 0 := by
      rw [← h.stop_eq, ← List.dropLast_concat_getLast h.ne_nil,
        (List.count_eq_length.mp hall _ (List.getLast_mem h.ne_nil)).symm, ← List.append_assoc,
        bytePos_append_newline]
    rw [← UInt32.toNat_inj]
    exact hcolumn
  rw [TokenSpan.semEntries, hcounts.toNat_lines, hlines]
  split_ifs
  · exact hle
  · exact Nat.zero_le _

theorem Laid.semEntries_le {input pre : CStr} {spans : List TokenSpan} (h : Laid input pre spans)
    (hlen : input.length < 2 ^ 32) (hcounts : ∀ t ∈ spans, t.Counts)
    (hstop : ∀ t ∈ spans, t.stop.character ≠ 0) : semEntries spans ≤ pre.length := by
  induction h with
  | nil => exact Nat.zero_le _
  | skip more h ih =>
    rw [List.length_append]
    exact (ih hcounts hstop).trans (Nat.le_add_right _ _)
  | @push pre mid spans span h hstart hend hne hspanStart hspanEnd htext ih =>
    have hpushed : Pushed input span pre mid :=
      ⟨hstart, hend, hne, wrap_eq_bytePos hlen hstart.isPrefix hspanStart,
        wrap_eq_bytePos hlen hend.isPrefix hspanEnd, htext⟩
    have hmem : span ∈ spans ++ [span] := List.mem_append_right _ (List.mem_singleton.mpr rfl)
    have hrest := ih (fun t ht => hcounts t (List.mem_append_left _ ht))
      fun t ht => hstop t (List.mem_append_left _ ht)
    have hspan := hpushed.semEntries_le (hcounts span hmem) (hstop span hmem)
    rw [semEntries_concat, List.length_append]
    exact Nat.add_le_add hrest hspan

/-- **What is counted** is not more than what is scanned, and so it fits an `int`. -/
theorem LexReached.numSemEntries_le {src input : CStr} (hscan : yyScanString src = some input)
    {s : LexState} (h : LexReached input s) : s.vars.numSemEntries ≤ input.length := by
  have hsize := (yyScanString_spec hscan).2
  have hlen : input.length < 2 ^ 32 := by omega
  obtain ⟨before, since, hinv⟩ := lexReached_inv h
  have hle := hinv.laid.semEntries_le hlen (h.counts hscan) (lexReached_stop_pos hlen h)
  have hin : before.length ≤ input.length := by
    rw [hinv.eq, List.length_append, List.length_append]
    omega
  rw [h.countsSpans]
  exact hle.trans hin

/-! ### Parses -/

section Parses

variable {κ : Type*} [DecidableEq κ] {T : Tables κ NonTerm SemAction} {s t : ProgState}
  {text : CStr} {r : Result} {errors : ℕ} {out : ParseResult}

/-- Every write is inside the array exactly if the counter has room for all entries. -/
theorem Parses.computeSemanticTokensBuf_isSome_iff (hT : T.Sound grammar yyError)
    (hs : ParseHistory T s) (h : Parses T s text r errors t out) :
    (computeSemanticTokensBuf out.tokSpans out.numSemEntries).isSome ↔
      highlightedLines out.tokSpans ≤ maxEntries := by
  obtain ⟨input, hscan, hreached, hspans, hcount⟩ := h.reached hT hs
  rw [hspans, hcount, Option.isSome_iff_exists]
  constructor
  · rintro ⟨data, hdata⟩
    exact ((hreached.computeSemanticTokensBuf_iff hscan).mp hdata).1
  · intro hroom
    exact ⟨_, (hreached.computeSemanticTokensBuf_iff hscan).mpr ⟨hroom, rfl⟩⟩

/-- **The tokens of every parse** have no more entries than were counted while they were pushed,
and every write is inside the array that is allocated for these exactly if at most 429496729 lines
of tokens have a character. -/
theorem semantic_tokens_fit (hT : T.Sound grammar yyError) (hs : ParseHistory T s)
    (h : Parses T s text r errors t out) :
    highlightedLines out.tokSpans ≤ out.numSemEntries ∧ out.numSemEntries < 2 ^ 31 ∧
      ((computeSemanticTokensBuf out.tokSpans out.numSemEntries).isSome ↔
        highlightedLines out.tokSpans ≤ maxEntries) := by
  have hroom := h.computeSemanticTokensBuf_isSome_iff hT hs
  obtain ⟨input, hscan, hreached, hspans, hcount⟩ := h.reached hT hs
  have hfit := hreached.fits_buffer hscan t.front.lex.vars.tokSpans.length
  rw [List.take_length, hreached.length_computeSemanticTokensData hscan, ← hspans, ← hcount] at hfit
  have hsize := (yyScanString_spec hscan).2
  have hle := hreached.numSemEntries_le hscan
  rw [← hcount] at hle
  exact ⟨by omega, by omega, hroom⟩

/-- A comment over two lines, and a directive. -/
def commentedInclude : CStr := cstr "/* a\nb */ include \"c\""

theorem commentedInclude_parse : (treeUpTo coreTables 100 .boot commentedInclude).map (fun x =>
    (x.1.numSemEntries, highlightedLines x.1.tokSpans)) = some (4, 4) := by
  decide +kernel

theorem semantic_tokens_fit_commented : ∃ t out,
    Parses coreTables .boot commentedInclude .accept 0 t out ∧
      highlightedLines out.tokSpans = 4 ∧ out.numSemEntries = 4 ∧
      (computeSemanticTokensBuf out.tokSpans out.numSemEntries).isSome := by
  obtain ⟨doc, t, out, hparse, hcounts⟩ := exists_parsesTo commentedInclude_parse
  have hparses := hparse.parses coreTables_sound
  obtain ⟨hentries, hlines⟩ := Prod.mk.inj hcounts
  refine ⟨t, out, hparses, hlines, hentries, ?_⟩
  refine (semantic_tokens_fit coreTables_sound .boot hparses).2.2.mpr ?_
  rw [hlines]
  decide

end Parses

/-! ### Many comments -/

/-- So many lines with an empty comment. -/
def lineComments : ℕ → CStr
  | 0 => []
  | n + 1 => 35 :: 10 :: lineComments n

theorem length_lineComments (n : ℕ) : (lineComments n).length = 2 * n := by
  induction n with
  | zero => rfl
  | succ n ih =>
    rw [lineComments, List.length_cons, List.length_cons, ih]
    omega

theorem initialRules_line {text : CStr} (h : 10 ∈ text) (hmore : text ≠ [10]) :
    (lexRules .initial).find? (·.pattern text) = none := by
  rw [List.find?_eq_none]
  intro r hr hmatch
  have hfits := lexRules_fit .initial r hr _ hmatch
  cases ha : r.action with
  | newline => exact absurd (by rw [ha] at hfits; exact hfits.2) hmore
  | skip => exact absurd h (by rw [ha] at hfits; exact hfits.2)
  | lineComment => exact absurd h (by rw [ha] at hfits; exact hfits.2)
  | openFragment => exact absurd h (by rw [ha] at hfits; exact hfits.2.2)
  | append => exact absurd rfl (by rw [ha] at hfits; exact hfits.1)
  | appendNewline => exact absurd rfl (by rw [ha] at hfits; exact hfits.1)
  | closeComment => exact absurd rfl (by rw [ha] at hfits; exact hfits.1)
  | closeString => exact absurd rfl (by rw [ha] at hfits; exact hfits.1)
  | badNewline => exact absurd rfl (by rw [ha] at hfits; exact hfits.1)
  | emitKw => exact absurd h (by rw [ha] at hfits; exact hfits.2.1)
  | emitPlain => exact absurd h (by rw [ha] at hfits; exact hfits.2.1)

theorem isLongest_emptyComment (rest : CStr) :
    IsLongest (lexRules .initial) ⟨.seq (.lit (cstr "#")) (.many lineClass), .lineComment⟩ [35]
      (10 :: rest) := by
  refine ⟨by simp, rfl, fun more hne hmore => ?_⟩
  obtain ⟨b, more, rfl⟩ := List.exists_cons_of_ne_nil hne
  obtain ⟨rfl, -⟩ := List.cons_prefix_cons.mp hmore
  exact initialRules_line (by simp) (by simp)

theorem isLongest_lineFeed (rest : CStr) :
    IsLongest (lexRules .initial) ⟨.lit [10], .newline⟩ [10] rest := by
  refine ⟨by simp, rfl, fun more hne _ => ?_⟩
  exact initialRules_line (by simp) fun h => hne (List.cons.inj h).2

/-- The scanner is before an empty comment or behind it, and has recorded the others of `n`. -/
structure InComments (n : ℕ) (s : LexState) : Prop where
  cond : s.cond = .initial
  rest : ∃ k, highlightedLines s.vars.tokSpans + k = n ∧
    (s.rest = 10 :: lineComments k ∨ (s.rest = lineComments k ∧ s.vars.yycolumn = 0))

theorem highlightedLines_concat (spans : List TokenSpan) (t : TokenSpan) :
    highlightedLines (spans ++ [t]) = highlightedLines spans + t.highlightedLines := by
  rw [highlightedLines, List.map_append, List.sum_append]
  simp [highlightedLines]

theorem InComments.step {n : ℕ} {s : LexState} (h : InComments n s) :
    InComments n (lexer.step s).1 ∧
      ((lexer.step s).2 = none ∨ ((lexer.step s).2 = some 0 ∧ (lexer.step s).1.rest = [])) := by
  obtain ⟨cond, vars, rest⟩ := s
  obtain ⟨rfl, k, hcount, hrest | ⟨hrest, hcolumn⟩⟩ := h
  · obtain rfl : rest = [10] ++ lineComments k := hrest
    have hstep := lexer.step_of_isLongest (c := ⟨.initial, vars, [10] ++ lineComments k⟩) rfl
      (isLongest_lineFeed (lineComments k))
    rw [hstep]
    exact ⟨⟨rfl, k, hcount, Or.inr ⟨rfl, rfl⟩⟩, Or.inl rfl⟩
  · cases k with
    | zero =>
      obtain rfl : rest = [] := hrest
      exact ⟨⟨rfl, 0, hcount, Or.inr ⟨rfl, hcolumn⟩⟩, Or.inr ⟨rfl, rfl⟩⟩
    | succ k =>
      obtain rfl : rest = [35] ++ 10 :: lineComments k := hrest
      have hstep := lexer.step_of_isLongest (c := ⟨.initial, vars, [35] ++ 10 :: lineComments k⟩)
        rfl (isLongest_emptyComment (lineComments k))
      rw [hstep]
      refine ⟨⟨rfl, k, ?_, Or.inl rfl⟩, Or.inl rfl⟩
      have hcolumn : vars.yycolumn = 0 := hcolumn
      have hcount : highlightedLines vars.tokSpans + (k + 1) = n := hcount
      have hone : TokenSpan.highlightedLines ⟨tkLineComment, (vars.userAction [35]).tokStart,
          (vars.userAction [35]).pos, some [35]⟩ = 1 := by
        simp [TokenSpan.highlightedLines, TokenSpan.codeLengths, LexGlobals.userAction,
          LexGlobals.pos, hcolumn]
        decide
      change highlightedLines (vars.tokSpans ++ [_]) + k = n
      rw [highlightedLines_concat, hone]
      omega

theorem InComments.rawYylex {n : ℕ} {s : LexState} (h : InComments n s) :
    InComments n (rawYylex s).1 ∧ (rawYylex s).1.rest = [] ∧ (rawYylex s).2 = 0 := by
  obtain ⟨d, t, hsilent, hstep, htoken⟩ := lexer.next_spec s
  have hd := hsilent.invariant (fun c (hc : InComments n c) => hc.step.1) h
  obtain ⟨hnext, hnone | ⟨hzero, hrest⟩⟩ := hd.step
  · rw [hstep] at hnone
    cases hnone
  · rw [hstep] at hnext hzero hrest
    obtain rfl := Option.some.inj hzero
    refine ⟨hnext, hrest, ?_⟩
    rw [TaskjugglerLsp.rawYylex, htoken]
    rfl

/-- Only comments are left to scan, and the wrapper holds nothing back. -/
structure FrontState.Idle (n : ℕ) (s : FrontState) : Prop where
  lex : InComments n s.lex
  eol : s.eol.haveBuffered = false ∧ s.eol.prevCanEnd = false ∧ s.eol.braceDepth = 0

theorem FrontState.Idle.yylex {n : ℕ} {s : FrontState} (h : s.Idle n) :
    (yylex s).1.Idle n ∧ (yylex s).1.lex.rest = [] ∧ (yylex s).2 = 0 := by
  obtain ⟨hlex, hbuffered, hend, hdepth⟩ := h
  have hstart : InComments n { s.lex with vars := { s.lex.vars with pendingNewline := false } } :=
    ⟨hlex.cond, hlex.rest⟩
  obtain ⟨hnext, hrest, hzero⟩ := hstart.rawYylex
  obtain ⟨lex, hlexEq⟩ : ∃ lex, TaskjugglerLsp.rawYylex
      { s.lex with vars := { s.lex.vars with pendingNewline := false } } = (lex, 0) :=
    ⟨_, Prod.ext rfl hzero⟩
  rw [hlexEq] at hnext hrest
  have htoken : nextToken s = (⟨lex, s.eol⟩, 0, lex.vars.pendingNewline) := by
    rw [nextToken, hbuffered, if_neg Bool.false_ne_true, hlexEq]
    simp only
    rw [if_neg fun hopen => by omega]
  have hcall : TaskjugglerLsp.yylex s = (⟨lex, { s.eol with prevKind := 0, prevCanEnd := false }⟩, 0) := by
    rw [TaskjugglerLsp.yylex, htoken]
    simp only [hend]
    rw [if_neg fun hstmt => Bool.false_ne_true hstmt.1]
    rfl
  rw [hcall]
  exact ⟨⟨hnext, hbuffered, rfl, hdepth⟩, hrest, rfl⟩

section Parses

variable {κ : Type*} {T : Tables κ NonTerm SemAction}

/-- Two parses that have only comments to scan: once the first has recorded one, nothing is left
in the second. -/
def commentsRel (m n : ℕ) : Rel NonTerm FrontState GrammarState Yystype where
  lex last s t := s.Idle m ∧ t.Idle n ∧ (∀ k, last = some k → k = 0) ∧
    (s.lex.vars.tokSpans ≠ [] → t.lex.rest = [])
  value := SameValue
  vars := SameVars

theorem commentsRel_respected (m n : ℕ) :
    (commentsRel m n).Respected grammar (yyparser T) where
  next h := by
    obtain ⟨hs, -, hzero⟩ := h.1.yylex
    obtain ⟨ht, hrest, hzero'⟩ := h.2.1.yylex
    exact ⟨hzero.trans hzero'.symm, hs, ht, fun k hk => (Option.some.inj hk).symm.trans hzero,
      fun _ => hrest⟩
  drop h := ⟨h.1, h.2.1, (fun k hk => by cases hk), h.2.2.2⟩
  lval {k s t} h := fun hk _ => absurd (congrArg Symbol.tok (h.2.2.1 k rfl)) hk
  error := (sameRel_respected (T := T)).error
  shift := (sameRel_respected (T := T)).shift
  pop := (sameRel_respected (T := T)).pop
  run := (sameRel_respected (T := T)).run

end Parses

theorem idle_install (n : ℕ) : (FrontState.boot.install (lineComments n)).Idle n where
  lex := ⟨rfl, n, Nat.zero_add n, Or.inr ⟨rfl, rfl⟩⟩
  eol := ⟨rfl, rfl, rfl⟩

/-- A text of comments is parsed like one comment, step by step. -/
theorem Parses.comments {T : Tables (List (Item NonTerm)) NonTerm SemAction}
    (hT : T.Sound grammar yyError) {r : Result} {errors : ℕ} {t : ProgState} {out : ParseResult}
    (h : Parses T .boot (lineComments 1) r errors t out) (hne : out.tokSpans ≠ []) {n : ℕ}
    (hn : 2 * n + 2 < 2 ^ 31) :
    ∃ r errors t out, Parses T .boot (lineComments n) r errors t out ∧
      highlightedLines out.tokSpans = n := by
  obtain @⟨input, d, r, hscan, hrun⟩ := h
  obtain rfl : lineComments 1 = input := Option.some.inj hscan
  have hstart : (commentsRel 1 n).Confs
      (Parser.init (κ := List (Item NonTerm)) (FrontState.boot.install (lineComments 1))
        ProgState.boot.grammar.install)
      (Parser.init (FrontState.boot.install (lineComments n)) ProgState.boot.grammar.install) :=
    { stack := .nil
      lookahead := rfl
      errStatus := rfl
      errors := rfl
      lex := ⟨idle_install 1, idle_install n, (fun k hk => by cases hk), fun h => absurd rfl h⟩
      vars := sameVars_install _ _ }
  obtain ⟨d', hrun', hconfs⟩ := hstart.runs (commentsRel_respected 1 n) hT Parser.spelled_nil hrun
  have hsize : (lineComments n).length + 2 < 2 ^ 31 := by
    rw [length_lineComments]
    exact hn
  have hscan' := yyScanString_of_lt hsize
  refine ⟨r, _, _, _, .intro hscan' hrun', ?_⟩
  obtain ⟨-, ⟨⟨-, k, hcount, hrest⟩, -⟩, -, hend⟩ := hconfs.lex
  have hnil : d'.lex.lex.rest = [] := hend hne
  obtain rfl : k = 0 := by
    cases k with
    | zero => rfl
    | succ k => rcases hrest with hrest | ⟨hrest, -⟩ <;> (rw [hnil] at hrest; cases hrest)
  exact hcount

theorem lineComments_parse : (treeUpTo coreTables 100 .boot (lineComments 1)).map (fun x =>
    x.1.tokSpans.length) = some 1 := by
  decide +kernel

/-- **A text of comments** is parsed, and each of its lines is highlighted. -/
theorem exists_parses_lineComments {n : ℕ} (hn : 2 * n + 2 < 2 ^ 31) :
    ∃ r errors t out, Parses coreTables .boot (lineComments n) r errors t out ∧
      highlightedLines out.tokSpans = n := by
  obtain ⟨doc, t, out, hone, hlen⟩ := exists_parsesTo lineComments_parse
  have hne : out.tokSpans ≠ [] := fun h => by
    rw [h] at hlen
    cases hlen
  exact (hone.parses coreTables_sound).comments coreTables_sound hne hn

/-- With one comment more than the counter has room for, a write is outside the array. -/
theorem semantic_tokens_overflow :
    ¬ ∀ (text : CStr) (r : Result) (errors : ℕ) (t : ProgState) (out : ParseResult),
      Parses coreTables .boot text r errors t out →
        (computeSemanticTokensBuf out.tokSpans out.numSemEntries).isSome := by
  intro h
  obtain ⟨n, hn⟩ : ∃ n, n = maxEntries + 1 := ⟨_, rfl⟩
  have hsize : maxEntries = 429496729 := rfl
  obtain ⟨r, errors, t, out, hparses, hlines⟩ := exists_parses_lineComments (n := n) (by omega)
  have hle := (hparses.computeSemanticTokensBuf_isSome_iff coreTables_sound .boot).mp
    (h _ _ _ _ _ hparses)
  omega

end TaskjugglerLsp
