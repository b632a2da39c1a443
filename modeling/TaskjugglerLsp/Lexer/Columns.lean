import TaskjugglerLsp.Lexer.Spans
import TaskjugglerLsp.Lifecycle.TextUtf16

/-!
# Columns of texts that are not ASCII

The scanner counts bytes.  Between two tokens it stands between two characters
(`lexReached_boundary`): a match that ends in a character that is not ASCII is an
identifier or a line comment, and ends only where no such character follows.  So a span
begins at a character, and its column is the one of the protocol exactly if its line is
ASCII up to there.

`utf16_positions` puts this together with what edits do.
-/

namespace TaskjugglerLsp

open Lib

/-! ### Where matches end -/

/-- The ASCII bytes. -/
def asciiClass (b : UInt8) : Bool := byteIn 0 127 b

theorem asciiClass_iff (b : UInt8) : asciiClass b = true ↔ b.toNat < 128 := by
  simp only [asciiClass, byteIn, Bool.and_eq_true, decide_eq_true_eq, UInt8.le_iff_toNat_le]
  exact ⟨fun h => Nat.lt_succ_of_le h.2, fun h => ⟨Nat.zero_le _, Nat.le_of_lt_succ h⟩⟩

/-- The rule of identifiers. -/
def identRule : Rule UInt8 LexAction :=
  ⟨.seq (.one identStartClass) (.many identClass), .emitPlain tkIdent⟩

theorem keywords_ascii : ∀ kw ∈ keywords, ∀ b ∈ cstr kw.1, asciiClass b = true := by
  decide +kernel

open Pattern in
/-- Which rules match more than ASCII. -/
theorem initialRules_split : ∃ early late, initialRules = early ++ identRule :: late ∧
    (∀ r ∈ early, Over asciiClass r.pattern ∨
      ∃ w, (∀ b ∈ w, asciiClass b = true) ∧ r.pattern = seq (lit w) (many lineClass)) ∧
    ∀ r ∈ late, Over asciiClass r.pattern ∨ r.pattern = one lineClass := by
  have hlit {w : CStr} (hw : ∀ b ∈ w, asciiClass b = true) : Over asciiClass (lit w) := over_lit hw
  have hdigit : Over asciiClass (many1 digitClass) :=
    over_many1 (byteIn_of_le (by decide) (by decide))
  have hblank : Over asciiClass (many1 blankClass) := by
    refine over_many1 fun b hb => ?_
    simp only [blankClass, Bool.or_eq_true, beq_iff_eq] at hb
    rcases hb with (((rfl | rfl) | rfl) | rfl) | rfl <;> rfl
  have hfloat : Over asciiClass (seqs [many1 digitClass, lit (cstr "."), many1 digitClass]) := by
    refine over_seqs ?_
    simp only [List.forall_mem_cons]
    exact ⟨hdigit, hlit (by decide), hdigit, fun _ h => by cases h⟩
  have hdate : Over asciiClass datePattern :=
    over_datePattern.mono (byteIn_of_le (by decide) (by decide))
  have hduration : Over asciiClass durationPattern :=
    over_durationPattern.mono (byteIn_of_le (by decide) (by decide))
  refine ⟨_, _, rfl, ?_, ?_⟩
  · rw [List.forall_mem_append]
    constructor
    · simp only [List.forall_mem_cons]
      exact ⟨Or.inl hblank, Or.inl (hlit (by decide)), Or.inr ⟨_, by decide, rfl⟩,
        Or.inr ⟨_, by decide, rfl⟩, Or.inl (hlit (by decide)), Or.inl (hlit (by decide)),
        Or.inl (hlit (by decide)), Or.inl (hlit (by decide)), Or.inl hdate, Or.inl hduration,
        Or.inl hfloat, Or.inl hdigit, fun _ h => by cases h⟩
    · rw [List.forall_mem_map]
      exact fun kw hkw => Or.inl (hlit (keywords_ascii kw hkw))
  · simp only [List.forall_mem_cons]
    exact ⟨Or.inl (hlit (by decide)), Or.inl (hlit (by decide)), Or.inl (hlit (by decide)),
      Or.inl (hlit (by decide)), Or.inl (hlit (by decide)), Or.inl (hlit (by decide)),
      Or.inl (hlit (by decide)), Or.inl (hlit (by decide)), Or.inl (hlit (by decide)),
      Or.inl (hlit (by decide)), Or.inl (hlit (by decide)), Or.inl (hlit (by decide)),
      Or.inr trivial, fun _ h => by cases h⟩

theorem find?_split {rules early late : List (Rule UInt8 LexAction)} {r r' : Rule UInt8 LexAction}
    {text : CStr} (hsplit : rules = early ++ r' :: late)
    (h : rules.find? (·.pattern text) = some r) :
    r ∈ early ∨ r = r' ∨ r ∈ late ∧ r'.pattern text = false := by
  rw [hsplit, List.find?_append, List.find?_cons] at h
  cases he : early.find? (·.pattern text) with
  | some r1 =>
    rw [he, Option.some_or, Option.some.injEq] at h
    exact Or.inl (h ▸ List.mem_of_find?_eq_some he)
  | none =>
    rw [he, Option.none_or] at h
    cases hr' : r'.pattern text with
    | true =>
      rw [hr'] at h
      exact Or.inr (Or.inl (Option.some.inj h).symm)
    | false =>
      rw [hr'] at h
      exact Or.inr (Or.inr ⟨List.mem_of_find?_eq_some h, rfl⟩)

theorem high_of_not_ascii {b : UInt8} (h : ¬ asciiClass b = true) : byteIn 128 255 b = true := by
  rw [asciiClass_iff] at h
  simp only [byteIn, Bool.and_eq_true, decide_eq_true_eq, UInt8.le_iff_toNat_le]
  exact ⟨Nat.le_of_not_lt h, Nat.le_of_lt_succ b.toNat_lt⟩

open Pattern in
theorem seq_many_concat {P : Pattern UInt8} {q : UInt8 → Bool} {text : CStr} {b : UInt8}
    (h : seq P (many q) text = true) (hb : q b = true) :
    seq P (many q) (text ++ [b]) = true := by
  obtain ⟨ys, zs, rfl, hys, hzs⟩ := seq_eq_true.mp h
  refine seq_eq_true.mpr ⟨ys, zs ++ [b], by rw [List.append_assoc], hys, ?_⟩
  rw [many, List.all_append, Bool.and_eq_true]
  exact ⟨hzs, by simpa using hb⟩

open Pattern in
/-- **A match between two tokens** ends in an ASCII byte, or an ASCII byte follows. -/
theorem initialRules_end {r : Rule UInt8 LexAction} {text rest : CStr} {a : UInt8}
    (h : IsLongest initialRules r (text ++ [a]) rest) :
    asciiClass a = true ∨ ∀ b more, rest = b :: more → asciiClass b = true := by
  have hover {P : Pattern UInt8} (hP : Over asciiClass P) (hm : P (text ++ [a]) = true) :
      asciiClass a = true := hP _ hm a (by simp)
  -- the rule does not match one byte more
  have hlongest {b : UInt8} {more : CStr} (hrest : rest = b :: more) :
      r.pattern (text ++ [a] ++ [b]) = false := by
    have hnone := h.longest [b] (by simp) ⟨more, by rw [hrest]; rfl⟩
    rw [List.find?_eq_none] at hnone
    exact Bool.eq_false_iff.mpr (hnone r h.mem)
  obtain ⟨early, late, hsplit, hearly, hlate⟩ := initialRules_split
  rcases find?_split hsplit h.first with hr | rfl | ⟨hr, hident⟩
  · rcases hearly r hr with hascii | ⟨w, -, hcomment⟩
    · exact Or.inl (hover hascii h.matches)
    · refine Or.inr fun b more hrest => ?_
      by_contra hb
      have hline : lineClass b = true := by
        rw [lineClass, bne_iff_ne]
        rintro rfl
        exact hb rfl
      have hm := h.matches
      have hfalse := hlongest hrest
      rw [hcomment] at hm hfalse
      rw [seq_many_concat hm hline] at hfalse
      cases hfalse
  · refine Or.inr fun b more hrest => ?_
    by_contra hb
    have hclass : identClass b = true := by
      simp [identClass, identStartClass, high_of_not_ascii hb]
    have hfalse := hlongest hrest
    have hm : identRule.pattern (text ++ [a] ++ [b]) = true := seq_many_concat h.matches hclass
    rw [hm] at hfalse
    cases hfalse
  · rcases hlate r hr with hascii | hone
    · exact Or.inl (hover hascii h.matches)
    · -- the rule for any other byte
      have hm := h.matches
      rw [hone, one, Bool.and_eq_true, beq_iff_eq, List.length_append] at hm
      obtain rfl : text = [] := List.length_eq_zero_iff.mp (by simpa using hm.1)
      refine Or.inl ?_
      by_contra ha
      rw [Bool.eq_false_iff] at hident
      refine hident (seq_eq_true.mpr ⟨[a], [], rfl, ?_, rfl⟩)
      simp [one, identStartClass, high_of_not_ascii ha]

open Pattern in
/-- A match that completes a token, or breaks it off, is ASCII. -/
theorem closing_ascii {c : StartCondition} (hc : c ≠ .initial) {r : Rule UInt8 LexAction}
    (hr : r ∈ lexRules c) {text : CStr} (hm : r.pattern text = true) {g : LexGlobals}
    (hrun : (r.action.run c g text).1.1 = .initial) : ∀ b ∈ text, asciiClass b = true := by
  have hlit {w : CStr} (hw : ∀ b ∈ w, asciiClass b = true) (h : lit w text = true) :
      ∀ b ∈ text, asciiClass b = true := over_lit hw text h
  have hfragment {stop : CStr} {x : UInt8} {close : LexAction} (hstop : ∀ b ∈ stop, asciiClass b = true)
      (hr : r ∈ fragmentRules stop x close) : ∀ b ∈ text, asciiClass b = true := by
    simp only [fragmentRules, List.mem_cons, List.not_mem_nil, or_false] at hr
    rcases hr with rfl | rfl | rfl | rfl
    · exact hlit hstop hm
    · exact absurd hrun hc
    · exact absurd hrun hc
    · exact absurd hrun hc
  have hquote {q : UInt8} (hq : ∀ b ∈ [q], asciiClass b = true) (hr : r ∈ quoteRules q) :
      ∀ b ∈ text, asciiClass b = true := by
    simp only [quoteRules, List.mem_cons, List.not_mem_nil, or_false] at hr
    rcases hr with rfl | rfl | rfl | rfl
    · exact hlit hq hm
    · exact hlit (by decide) hm
    · exact absurd hrun hc
    · exact absurd hrun hc
  cases c with
  | initial => exact absurd rfl hc
  | blockComment => exact hfragment (by decide) hr
  | scissors => exact hfragment (by decide) hr
  | dquote => exact hquote (by decide) hr
  | squote => exact hquote (by decide) hr

/-- **Between two tokens** the scanner stands between two characters. -/
theorem lexReached_boundary {cs : List Char} {input : CStr} (hin : input <+: utf8 cs)
    {s : LexState} (h : LexReached input s) (hc : s.cond = .initial) :
    ∀ b more, s.rest = b :: more → ¬ IsContinuation b := by
  induction h with
  | start vars =>
    intro b more (hrest : input = b :: more)
    refine not_isContinuation (P := []) (by rwa [← hrest]) ?_
    intro P' a h
    simp at h
  | @step s hr ih =>
    obtain ⟨before, since, hinv⟩ := lexReached_inv hr
    obtain ⟨out, hout⟩ : ∃ out, lexer.step s = out := ⟨_, rfl⟩
    have hs := lexer.steps_step s
    rw [hout] at hs hc ⊢
    cases hs with
    | eof => exact fun b more hrest => by cases hrest
    | echo hrest hnone =>
      refine absurd hnone ((lexRules_cover_iff (by simp [hrest])).mpr ?_)
      rintro ⟨hquote | hquote, -⟩ <;> rw [hc] at hquote <;> cases hquote
    | @rule r text rest k g t hrest hlongest hact =>
      intro b more (hmore : rest = b :: more)
      obtain rfl : k = .initial := hc
      obtain ⟨text, a, rfl⟩ := (List.eq_nil_or_concat text).resolve_left hlongest.ne_nil
      rw [List.concat_eq_append] at hrest hlongest hact
      have hascii : asciiClass a = true ∨ asciiClass b = true := by
        by_cases hcond : s.cond = .initial
        · rw [hcond] at hlongest
          rcases initialRules_end hlongest with ha | hb
          · exact Or.inl ha
          · exact Or.inr (hb b more hmore)
        · have hrun : (r.action.run s.cond (s.vars.userAction (text ++ [a])) (text ++ [a])).1.1
              = .initial := congrArg (·.1.1) hact
          exact Or.inl (closing_ascii hcond hlongest.mem hlongest.matches hrun a (by simp))
      rcases hascii with ha | hb
      · have hsplit : before ++ since ++ text ++ [a] ++ b :: more = input := by
          rw [hinv.eq, hrest, hmore]
          simp only [List.append_assoc]
        refine not_isContinuation (P := before ++ since ++ text ++ [a]) (by rwa [hsplit]) ?_
        intro P' a' heq
        obtain ⟨-, ha'⟩ := List.append_inj' heq rfl
        rw [List.cons.injEq] at ha'
        rw [← ha'.1]
        exact (asciiClass_iff a).mp ha
      · rintro ⟨hlow, -⟩
        have := (asciiClass_iff b).mp hb
        omega
  | wrapper b t hr ih => exact ih hc

/-- A span begins at a character. -/
theorem exists_before_span {text : List Char} {input : CStr} (hin : input <+: utf8 text)
    {span : TokenSpan} {pre mid : CStr} (h : Pushed input span pre mid) :
    ∃ before, before <+: text ∧ utf8 before = pre := by
  obtain ⟨s, hs, hc, hsplit⟩ := h.stop
  obtain ⟨rest, hrest⟩ := h.stop'.isPrefix
  obtain ⟨b, mid', hmid⟩ := List.exists_cons_of_ne_nil h.ne_nil
  have hsrest : s.rest = b :: (mid' ++ rest) := by
    rw [hsplit, List.append_assoc, hmid] at hrest
    exact (List.append_cancel_left hrest).symm
  have hprefix : pre ++ b :: (mid' ++ rest) <+: utf8 text := by
    rwa [← hsrest, ← hsplit]
  exact exists_of_not_isContinuation hprefix (lexReached_boundary hin hs hc b _ hsrest)

/-! ### The column of a span -/

/-- The byte position is the one of the protocol exactly if the line is ASCII. -/
theorem utf16Pos_eq_bytePos_iff (before : List Char) :
    utf16Pos before = bytePos (utf8 before) ↔ Ascii (lastLine isNewlineChar before) := by
  have hline : (utf16Pos before).1 = (bytePos (utf8 before)).1 := by
    rw [bytePos, cursor_utf8]
    exact cursor_fst _ before _ _ rfl
  have hcolumn : (bytePos (utf8 before)).2 = (utf8 (lastLine isNewlineChar before)).length := by
    rw [bytePos, cursor_utf8, cursor_snd, utf8, List.length_flatMap]
  have hle := utf16_le_utf8 (lastLine isNewlineChar before)
  rw [← cursor_snd] at hle
  rw [← utf16Lag_eq_nil_iff, utf16Lag, List.drop_eq_nil_iff, ← hcolumn]
  constructor
  · intro h
    rw [h]
  · intro h
    exact Prod.ext hline (le_antisymm (hle.trans_eq hcolumn.symm) h)

/-- **Positions in UTF-16**: an edit replaces the characters that it addresses exactly if the
lags of its positions cancel around the new text, and the column of a span is the one of
the protocol exactly if its line is ASCII up to there. -/
theorem utf16_positions (text : List Char) :
    (∀ (pre mid post new : List Char) (range : LspRange), text = pre ++ mid ++ post →
      utf16Pos pre = range.start.nat → utf16Pos (pre ++ mid) = range.stop.nat →
      (applyIncrementalChange (utf8 text) range (utf8 new) = utf8 (pre ++ new ++ post) ↔
        utf8 new ++ utf16Lag (pre ++ mid) = utf16Lag pre ++ utf8 new)) ∧
    ∀ (input : CStr) (s : LexState), yyScanString (utf8 text) = some input → LexReached input s →
      ∀ span ∈ s.vars.tokSpans, ∃ before mid, before <+: text ∧
        Pushed input span (utf8 before) mid ∧
        (utf16Pos before = span.start.nat ↔ Ascii (lastLine isNewlineChar before)) := by
  refine ⟨?_, ?_⟩
  · rintro pre mid post new range rfl hs he
    exact applyIncrementalChange_utf16_iff hs he new
  · intro input s hscan hr span hspan
    obtain ⟨hin, hlen⟩ := yyScanString_spec hscan
    obtain ⟨pre, since, hinv⟩ := lexReached_inv hr
    obtain ⟨a, mid, -, hpushed⟩ := hinv.laid.pushed (by omega) span hspan
    obtain ⟨before, hbefore, rfl⟩ := exists_before_span hin hpushed
    exact ⟨before, mid, hbefore, hpushed, by
      rw [← hpushed.start_eq, utf16Pos_eq_bytePos_iff]⟩

/-- The text of a task that is named with a letter of two bytes. -/
def accented : List Char := "task é".toList

/-- Before that letter, edits and spans are right. -/
theorem utf16_positions_accented :
    (applyIncrementalChange (utf8 accented) ⟨⟨0, 5⟩, ⟨0, 5⟩⟩ (utf8 ['a'])
        = utf8 "task aé".toList ↔
      utf8 ['a'] ++ utf16Lag "task ".toList = utf16Lag "task ".toList ++ utf8 ['a']) ∧
    ∃ before mid, before <+: accented ∧
      Pushed (utf8 accented) ⟨tkIdent, ⟨0, 5⟩, ⟨0, 7⟩, some (utf8 ['é'])⟩ (utf8 before) mid ∧
      (utf16Pos before = (0, 5) ↔ Ascii (lastLine isNewlineChar before)) := by
  refine ⟨?_, ?_⟩
  · exact (utf16_positions accented).1 "task ".toList [] ['é'] ['a'] ⟨⟨0, 5⟩, ⟨0, 5⟩⟩ (by decide)
      (by decide) (by decide)
  · have hscan : yyScanString (utf8 accented) = some (utf8 accented) := by decide
    have hspan : ⟨tkIdent, ⟨0, 5⟩, ⟨0, 7⟩, some (utf8 ['é'])⟩ ∈
        (yylexCalls 2 (FrontState.boot.install (utf8 accented))).lex.vars.tokSpans := by
      decide +kernel
    exact (utf16_positions accented).2 _ _ hscan
      (LexReached.yylexCalls 2 (.start FrontState.boot.lex.vars)) _ hspan

/-- Behind that letter, an insertion cuts it in two, and the column of a span is too large. -/
theorem utf16_positions_lost :
    (¬ ∀ (text pre mid post new : List Char) (range : LspRange), text = pre ++ mid ++ post →
      utf16Pos pre = range.start.nat → utf16Pos (pre ++ mid) = range.stop.nat →
      applyIncrementalChange (utf8 text) range (utf8 new) = utf8 (pre ++ new ++ post)) ∧
    ¬ ∀ (text : List Char) (input : CStr) (s : LexState), yyScanString (utf8 text) = some input →
      LexReached input s → ∀ span ∈ s.vars.tokSpans, ∃ before mid, before <+: text ∧
        Pushed input span (utf8 before) mid ∧ utf16Pos before = span.start.nat := by
  refine ⟨fun h => ?_, fun h => ?_⟩
  · have hcut := h accented accented [] [] ['a'] ⟨⟨0, 6⟩, ⟨0, 6⟩⟩ (by decide) (by decide)
      (by decide)
    have hcode : applyIncrementalChange (utf8 accented) ⟨⟨0, 6⟩, ⟨0, 6⟩⟩ (utf8 ['a'])
        = cstr "task " ++ [195, 97, 169] := by decide
    rw [hcode] at hcut
    exact absurd hcut (by decide)
  · have hscan : yyScanString (utf8 "é a".toList) = some (utf8 "é a".toList) := by decide
    have hspan : ⟨tkIdent, ⟨0, 3⟩, ⟨0, 4⟩, some (cstr "a")⟩ ∈
        (yylexCalls 2 (FrontState.boot.install (utf8 "é a".toList))).lex.vars.tokSpans := by
      decide +kernel
    obtain ⟨before, mid, hin, hpushed, hcolumn⟩ := h _ _ _ hscan
      (LexReached.yylexCalls 2 (.start FrontState.boot.lex.vars)) _ hspan
    have hstart := hpushed.start_eq
    have hnone : ∀ before ∈ "é a".toList.inits, bytePos (utf8 before) = (0, 3) →
        utf16Pos before ≠ (0, 3) := by decide
    exact hnone before ((List.mem_inits _ _).mpr hin) hstart hcolumn

end TaskjugglerLsp
