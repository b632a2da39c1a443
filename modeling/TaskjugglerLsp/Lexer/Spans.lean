import TaskjugglerLsp.Lexer.Coverage
import TaskjugglerLsp.Positions

/-!
# The spans that the lexer records

The scanner takes its input piece by piece.  `LexInv` says how its variables stand to the
part that it has taken: the counters are the byte position, the spans are laid out over
that part one after the other (`Laid`), and the buffer holds the pieces of an unfinished
token that fitted (`bufferAll`).  Every match keeps it (`lexReached_inv`).

* `spans_ordered`: spans are not empty, strictly increasing and disjoint.
* `span_text_iff`: the text of a span is the source between its ends, unless it was put
  together in the buffer and is longer than that.
-/

namespace TaskjugglerLsp

open Lib

/-! ### What the rules match -/

/-- What a rule with that action matches, and in which start conditions it stands. -/
def LexAction.Fits (c : StartCondition) (text : CStr) : LexAction → Prop
  | newline => c = .initial ∧ text = [10]
  | appendNewline | badNewline => c ≠ .initial ∧ text = [10]
  | openFragment next => c = .initial ∧ next ≠ .initial ∧ 10 ∉ text
  | skip | lineComment => c = .initial ∧ 10 ∉ text
  | emitKw code | emitPlain code =>
    c = .initial ∧ 10 ∉ text ∧ code ≠ tkStr ∧ code ≠ tkMultiLineStr ∧ code ≠ tkBlockComment
  | append | closeComment => c ≠ .initial ∧ 10 ∉ text
  | closeString code => c ≠ .initial ∧ 10 ∉ text ∧ (code = tkStr ∨ code = tkMultiLineStr)

theorem not_mem_of_over {P : Pattern UInt8} (hP : P.Over lineClass) {text : CStr}
    (h : P text = true) : 10 ∉ text := by
  intro hmem
  have := hP text h 10 hmem
  simp [lineClass] at this

theorem lineClass_of {q : UInt8 → Bool} (h : q 10 = false) (b : UInt8) (hb : q b = true) :
    lineClass b = true := by
  rw [lineClass, bne_iff_ne]
  rintro rfl
  rw [h] at hb
  cases hb

theorem byteIn_of_le {lo hi lo' hi' : UInt8} (hlo : lo' ≤ lo) (hhi : hi ≤ hi') (b : UInt8)
    (h : byteIn lo hi b = true) : byteIn lo' hi' b = true := by
  simp only [byteIn, Bool.and_eq_true, decide_eq_true_eq] at h ⊢
  exact ⟨UInt8.le_trans hlo h.1, UInt8.le_trans h.2 hhi⟩

open Pattern in
theorem over_datePattern : Over (byteIn 43 58) datePattern := by
  have hdigits (n : ℕ) : Over (byteIn 43 58) (rep n digitClass) :=
    over_rep (byteIn_of_le (by decide) (by decide))
  have hdash : Over (byteIn 43 58) (lit [45]) := over_lit (by decide)
  have hcolon : Over (byteIn 43 58) (lit [58]) := over_lit (by decide)
  have hsign : Over (byteIn 43 58) (one fun b => b == 43 || b == 45) := by
    refine over_one fun b hb => ?_
    rcases Bool.or_eq_true_iff.mp hb with hb | hb <;> rw [eq_of_beq hb] <;> rfl
  have hnil : ∀ P ∈ ([] : List (Pattern UInt8)), Over (byteIn 43 58) P := fun _ h => by cases h
  unfold datePattern
  refine over_seqs ?_
  simp only [List.forall_mem_cons]
  refine ⟨hdigits 4, hdash, hdigits 2, hdash, hdigits 2, over_opt (over_seqs ?_),
    over_opt (over_seqs ?_), hnil⟩
  · simp only [List.forall_mem_cons]
    refine ⟨hdash, hdigits 2, hcolon, hdigits 2, over_opt (over_seqs ?_), hnil⟩
    simp only [List.forall_mem_cons]
    exact ⟨hcolon, hdigits 2, hnil⟩
  · simp only [List.forall_mem_cons]
    exact ⟨hdash, hsign, hdigits 4, hnil⟩

open Pattern in
theorem over_durationPattern : Over (byteIn 43 122) durationPattern := by
  have hsign : Over (byteIn 43 122) (one fun b => b == 43 || b == 45) := by
    refine over_one fun b hb => ?_
    rcases Bool.or_eq_true_iff.mp hb with hb | hb <;> rw [eq_of_beq hb] <;> rfl
  unfold durationPattern
  refine over_seqs ?_
  simp only [List.forall_mem_cons]
  refine ⟨over_opt hsign, over_many1 (byteIn_of_le (by decide) (by decide)), over_alts ?_,
    fun _ h => by cases h⟩
  simp only [List.forall_mem_cons]
  exact ⟨over_lit (by decide), over_lit (by decide), over_lit (by decide), over_lit (by decide),
    over_lit (by decide), over_lit (by decide), fun _ h => by cases h⟩

/-- No keyword contains a line feed, or is a string or a comment. -/
theorem keywords_ok : ∀ kw ∈ keywords, (∀ b ∈ cstr kw.1, lineClass b = true) ∧
    kw.2 ≠ tkStr ∧ kw.2 ≠ tkMultiLineStr ∧ kw.2 ≠ tkBlockComment := by
  decide +kernel

open Pattern in
theorem initialRules_fit : ∀ r ∈ initialRules, ∀ text, r.pattern text = true →
    r.action.Fits .initial text := by
  have hlit {w : CStr} (hw : ∀ b ∈ w, lineClass b = true) (text : CStr)
      (h : lit w text = true) : 10 ∉ text := not_mem_of_over (over_lit hw) h
  have hplain {w : CStr} {code : ℕ} (hw : ∀ b ∈ w, lineClass b = true)
      (hcode : code ≠ tkStr ∧ code ≠ tkMultiLineStr ∧ code ≠ tkBlockComment) (text : CStr)
      (h : lit w text = true) : (LexAction.emitPlain code).Fits .initial text :=
    ⟨rfl, hlit hw text h, hcode⟩
  have hcomment {w : CStr} (hw : ∀ b ∈ w, lineClass b = true) :
      Over lineClass (seq (lit w) (many lineClass)) :=
    over_seq (over_lit hw) (over_many fun _ h => h)
  have hfloat : Over lineClass (seqs [many1 digitClass, lit (cstr "."), many1 digitClass]) := by
    refine over_seqs ?_
    simp only [List.forall_mem_cons]
    exact ⟨over_many1 (lineClass_of rfl), over_lit (by decide), over_many1 (lineClass_of rfl),
      fun _ h => by cases h⟩
  have hident : Over lineClass (seq (one identStartClass) (many identClass)) :=
    over_seq (over_one (lineClass_of rfl)) (over_many (lineClass_of rfl))
  have hnil : ∀ r ∈ ([] : List (Rule UInt8 LexAction)), ∀ text, r.pattern text = true →
      r.action.Fits .initial text := fun _ h => by cases h
  unfold initialRules
  rw [List.forall_mem_append, List.forall_mem_append]
  refine ⟨⟨?_, ?_⟩, ?_⟩
  · simp only [List.forall_mem_cons]
    refine ⟨fun text h => ⟨rfl, not_mem_of_over (over_many1 (lineClass_of rfl)) h⟩,
      fun text h => ⟨rfl, eq_of_beq h⟩,
      fun text h => ⟨rfl, not_mem_of_over (hcomment (by decide)) h⟩,
      fun text h => ⟨rfl, not_mem_of_over (hcomment (by decide)) h⟩,
      fun text h => ⟨rfl, by decide, hlit (by decide) text h⟩,
      fun text h => ⟨rfl, by decide, hlit (by decide) text h⟩,
      fun text h => ⟨rfl, by decide, hlit (by decide) text h⟩,
      fun text h => ⟨rfl, by decide, hlit (by decide) text h⟩,
      fun text h => ⟨rfl, not_mem_of_over (over_datePattern.mono (lineClass_of rfl)) h, by decide⟩,
      fun text h => ⟨rfl, not_mem_of_over (over_durationPattern.mono (lineClass_of rfl)) h, by decide⟩,
      fun text h => ⟨rfl, not_mem_of_over hfloat h, by decide⟩,
      fun text h => ⟨rfl, not_mem_of_over (over_many1 (lineClass_of rfl)) h, by decide⟩, hnil⟩
  · rw [List.forall_mem_map]
    intro kw hkw text h
    exact ⟨rfl, hlit (keywords_ok kw hkw).1 text h, (keywords_ok kw hkw).2⟩
  · simp only [List.forall_mem_cons]
    exact ⟨fun text h => ⟨rfl, not_mem_of_over hident h, by decide⟩,
      hplain (by decide) (by decide), hplain (by decide) (by decide),
      hplain (by decide) (by decide), hplain (by decide) (by decide),
      hplain (by decide) (by decide), hplain (by decide) (by decide),
      hplain (by decide) (by decide), hplain (by decide) (by decide),
      hplain (by decide) (by decide), hplain (by decide) (by decide),
      hplain (by decide) (by decide), hplain (by decide) (by decide),
      fun text h => ⟨rfl, not_mem_of_over (over_one fun _ h => h) h, by decide⟩, hnil⟩

open Pattern in
theorem fragmentRules_fit {stop : CStr} {x : UInt8} {close : LexAction} {c : StartCondition}
    (hc : c ≠ .initial) (hx : x ≠ 10)
    (hclose : ∀ text, lit stop text = true → close.Fits c text) :
    ∀ r ∈ fragmentRules stop x close, ∀ text, r.pattern text = true → r.action.Fits c text := by
  have hx' : Over lineClass (lit [x]) := over_lit (by simpa [lineClass] using hx)
  unfold fragmentRules
  simp only [List.forall_mem_cons]
  refine ⟨hclose, fun text h => ⟨hc, eq_of_beq h⟩, fun text h => ⟨hc, ?_⟩,
    fun text h => ⟨hc, not_mem_of_over hx' h⟩, fun _ h => by cases h⟩
  exact not_mem_of_over (over_many1 (lineClass_of (by simp [lineClassBut]))) h

open Pattern in
theorem quoteRules_fit {q : UInt8} {c : StartCondition} (hc : c ≠ .initial) (hq : q ≠ 10) :
    ∀ r ∈ quoteRules q, ∀ text, r.pattern text = true → r.action.Fits c text := by
  have hq' : Over lineClass (lit [q]) := over_lit (by simpa [lineClass] using hq)
  have hescape : Over lineClass (seq (lit [92]) (one lineClass)) :=
    over_seq (over_lit (by decide)) (over_one fun _ h => h)
  unfold quoteRules
  simp only [List.forall_mem_cons]
  refine ⟨fun text h => ⟨hc, not_mem_of_over hq' h, Or.inl rfl⟩,
    fun text h => ⟨hc, eq_of_beq h⟩, fun text h => ⟨hc, not_mem_of_over hescape h⟩,
    fun text h => ⟨hc, ?_⟩, fun _ h => by cases h⟩
  exact not_mem_of_over (over_many1 (lineClass_of (by simp [quotedClass]))) h

/-- **Every rule fits** its action and its start condition. -/
theorem lexRules_fit (c : StartCondition) : ∀ r ∈ lexRules c, ∀ text, r.pattern text = true →
    r.action.Fits c text := by
  cases c with
  | initial => exact initialRules_fit
  | blockComment =>
    refine fragmentRules_fit (by decide) (by decide) fun text h => ⟨by decide, ?_⟩
    exact not_mem_of_over (Pattern.over_lit (by decide)) h
  | scissors =>
    refine fragmentRules_fit (by decide) (by decide) fun text h => ⟨by decide, ?_, Or.inr rfl⟩
    exact not_mem_of_over (Pattern.over_lit (by decide)) h
  | dquote | squote => exact quoteRules_fit (by decide) (by decide)

/-! ### Positions -/

/-- The counters are the position after `pre`. -/
structure LexGlobals.At (g : LexGlobals) (pre : CStr) : Prop where
  line_pos : 0 < g.yylineno
  pos_eq : (g.yylineno - 1, g.yycolumn) = bytePos pre

section At

variable {g : LexGlobals} {pre text : CStr}

theorem LexGlobals.At.pos (h : g.At pre) : g.pos = .wrap (bytePos pre) := by
  rw [← h.pos_eq]
  rfl

theorem bytePos_append_line (pre : CStr) {text : CStr} (ht : 10 ∉ text) :
    bytePos (pre ++ text) = ((bytePos pre).1, (bytePos pre).2 + text.length) := by
  have hbare : ∀ b ∈ text, isNewline b = false := by
    intro b hb
    rw [isNewline, beq_eq_false_iff_ne]
    rintro rfl
    exact ht hb
  rw [bytePos, cursor_append, cursor_bare hbare, List.map_const', List.sum_replicate,
    Nat.nsmul_eq_mul, Nat.mul_one]

theorem bytePos_append_newline (pre : CStr) :
    bytePos (pre ++ [10]) = ((bytePos pre).1 + 1, 0) := by
  rw [bytePos, cursor_append]
  rfl

theorem LexGlobals.At.userAction (h : g.At pre) (ht : 10 ∉ text) :
    (g.userAction text).At (pre ++ text) ∧
      (g.userAction text).tokStart = .wrap (bytePos pre) := by
  have hcount : text.countP (· == 10) = 0 := by
    rw [List.countP_eq_zero]
    intro b hb heq
    rw [eq_of_beq heq] at hb
    exact ht hb
  refine ⟨⟨?_, ?_⟩, ?_⟩
  · exact Nat.lt_of_lt_of_le h.line_pos (Nat.le_add_right _ _)
  · rw [bytePos_append_line pre ht, ← h.pos_eq]
    simp only [LexGlobals.userAction, hcount, Nat.add_zero]
  · rw [← h.pos_eq]
    simp only [LexGlobals.userAction, hcount, Nat.add_zero]
    rfl

theorem LexGlobals.At.newline (h : g.At pre) :
    { g.userAction [10] with yycolumn := 0 }.At (pre ++ [10]) := by
  have hpos := h.line_pos
  have hline : g.yylineno - 1 = (bytePos pre).1 := congrArg Prod.fst h.pos_eq
  refine ⟨Nat.lt_of_lt_of_le hpos (Nat.le_add_right _ _), ?_⟩
  rw [bytePos_append_newline, ← hline]
  refine Prod.ext ?_ rfl
  change g.yylineno + 1 - 1 = g.yylineno - 1 + 1
  omega

end At

/-! ### What has been pushed -/

/-- Tokens of that kind are put together in the buffer. -/
def IsMultiFragment (kind : ℕ) : Prop :=
  kind = tkStr ∨ kind = tkMultiLineStr ∨ kind = tkBlockComment

/-- A piece of a token: one line feed, or something within a line. -/
def IsFragment (piece : CStr) : Prop := piece = [10] ∨ (piece ≠ [] ∧ 10 ∉ piece)

/-- What the buffer keeps of some pieces. -/
def bufferAll (pieces : List CStr) : CStr :=
  pieces.foldl (fun buf piece =>
    if buf.length + piece.length < strBufSize - 1 then buf ++ piece else buf) []

/-- The text that a span of the source `mid` has. -/
inductive SpanText (span : TokenSpan) (mid : CStr) : Prop
  | single (hline : 10 ∉ mid) (hkind : ¬ IsMultiFragment span.tokenKind)
      (ht : span.text = none ∨ span.text = some mid)
  | pieces {pieces : List CStr} (hkind : IsMultiFragment span.tokenKind)
      (hmid : mid = pieces.flatten) (hpieces : ∀ piece ∈ pieces, IsFragment piece)
      (ht : span.text = some (bufferAll pieces))

/-- Between two tokens, the scanner has taken `pre`. -/
def LexStop (input pre : CStr) : Prop :=
  ∃ s, LexReached input s ∧ s.cond = .initial ∧ input = pre ++ s.rest

/-- The spans lie one after the other on `pre`. -/
inductive Laid (input : CStr) : CStr → List TokenSpan → Prop
  | nil : Laid input [] []
  | skip {pre : CStr} {spans : List TokenSpan} (more : CStr) (h : Laid input pre spans) :
      Laid input (pre ++ more) spans
  | push {pre mid : CStr} {spans : List TokenSpan} {span : TokenSpan} (h : Laid input pre spans)
      (hstop : LexStop input pre) (hend : LexStop input (pre ++ mid)) (hne : mid ≠ [])
      (hstart : span.start = .wrap (bytePos pre)) (hspanEnd : span.stop = .wrap (bytePos (pre ++ mid)))
      (htext : SpanText span mid) : Laid input (pre ++ mid) (spans ++ [span])

/-- What the scanner has taken of an unfinished token. -/
inductive Pending (input before rest : CStr) (c : StartCondition) (g : LexGlobals) : CStr → Prop
  | none (hc : c = .initial) : Pending input before rest c g []
  | pieces {pieces : List CStr} (hc : c ≠ .initial) (hstop : LexStop input before)
      (hpieces : ∀ piece ∈ pieces, IsFragment piece)
      (hstart : g.mfragStart = .wrap (bytePos before)) (hbuf : g.strBuf = bufferAll pieces) :
      Pending input before rest c g pieces.flatten
  | broken (hc : c = .dquote ∨ c = .squote) (hrest : rest = [] ∨ ∃ more, rest = 10 :: more)
      (since : CStr) : Pending input before rest c g since

/-- **How the variables stand to the input**: `before` is laid out, and `since` belongs to an
unfinished token. -/
structure LexInv (input before since : CStr) (s : LexState) : Prop where
  eq : input = before ++ since ++ s.rest
  at_pos : s.vars.At (before ++ since)
  laid : Laid input before s.vars.tokSpans
  pending : Pending input before s.rest s.cond s.vars since

/-! ### One match -/

section Match

variable {input before since : CStr} {s : LexState}

theorem LexGlobals.At.congr {g g' : LexGlobals} {pre : CStr} (h : g.At pre)
    (hline : g'.yylineno = g.yylineno) (hcolumn : g'.yycolumn = g.yycolumn) : g'.At pre :=
  ⟨hline ▸ h.line_pos, by rw [hline, hcolumn, h.pos_eq]⟩

theorem LexInv.between {pre rest : CStr} {g : LexGlobals} (heq : input = pre ++ rest)
    (hat : g.At pre) (hlaid : Laid input pre g.tokSpans) :
    LexInv input pre [] ⟨.initial, g, rest⟩ where
  eq := by rw [List.append_nil, heq]
  at_pos := by rwa [List.append_nil]
  laid := hlaid
  pending := .none rfl

theorem Pending.since_nil {rest : CStr} {g : LexGlobals}
    (h : Pending input before rest .initial g since) : since = [] := by
  cases h with
  | none => rfl
  | pieces hc => exact absurd rfl hc
  | broken hc => rcases hc with hc | hc <;> cases hc

theorem strAppend_eq (g : LexGlobals) (text : CStr) :
    g.strAppend text = { g with strBuf :=
      if g.strBuf.length + text.length < strBufSize - 1 then g.strBuf ++ text else g.strBuf } := by
  unfold LexGlobals.strAppend
  split_ifs <;> rfl

theorem bufferAll_concat (pieces : List CStr) (piece : CStr) :
    bufferAll (pieces ++ [piece])
      = if (bufferAll pieces).length + piece.length < strBufSize - 1
        then bufferAll pieces ++ piece else bufferAll pieces := by
  rw [bufferAll, List.foldl_append]
  rfl

theorem LexInv.eof (h : LexInv input before since s) (hrest : s.rest = []) :
    LexInv input (before ++ since) []
      ⟨(lexer.eof s.cond s.vars).1.1, (lexer.eof s.cond s.vars).1.2, []⟩ := by
  have heq := h.eq
  rw [hrest] at heq
  obtain ⟨cond, vars, rest⟩ := s
  have hlaid := h.laid.skip since
  have hat := h.at_pos
  cases cond with
  | initial => exact .between heq hat hlaid
  | blockComment | scissors | dquote | squote =>
    exact .between heq (hat.congr rfl rfl) hlaid

/-- The default rule: a stray backslash in a quoted string. -/
theorem LexInv.echo (h : LexInv input before since s) {a : UInt8} {rest : CStr}
    (hrest : s.rest = a :: rest) (hstray : StrayBackslash s) :
    LexInv input before (since ++ [a]) ⟨s.cond, lexer.echo s.vars [a], rest⟩ := by
  obtain ⟨hcond, htail⟩ := hstray
  have ha : a = 92 ∧ (rest = [] ∨ ∃ more, rest = 10 :: more) := by
    rw [hrest] at htail
    rcases htail with h | ⟨more, h⟩ <;> rw [List.cons.injEq] at h
    · exact ⟨h.1, Or.inl h.2⟩
    · exact ⟨h.1, Or.inr ⟨more, h.2⟩⟩
  obtain ⟨rfl, htail⟩ := ha
  obtain ⟨hat, -⟩ := h.at_pos.userAction (show 10 ∉ ([92] : CStr) by decide)
  constructor
  · rw [h.eq, hrest]
    simp
  · rw [← List.append_assoc]
    exact hat.congr rfl rfl
  · exact h.laid
  · exact .broken hcond htail _

theorem action_of_broken {r : Rule UInt8 LexAction} {text more : CStr} {c : StartCondition}
    (hc : c = .dquote ∨ c = .squote) (hr : r ∈ lexRules c) (h : r.pattern text = true)
    (hne : text ≠ []) (hpre : text <+: 10 :: more) : r.action = .badNewline := by
  have hquote : ∀ q : UInt8, q ≠ 10 → r ∈ quoteRules q → r.action = .badNewline := by
    intro q hq hr
    obtain ⟨b, text, rfl⟩ := List.exists_cons_of_ne_nil hne
    obtain ⟨rfl, -⟩ := List.cons_prefix_cons.mp hpre
    simp only [quoteRules, List.mem_cons, List.not_mem_nil, or_false] at hr
    rcases hr with rfl | rfl | rfl | rfl
    · have := eq_of_beq h
      rw [List.cons.injEq] at this
      exact absurd this.1.symm hq
    · rfl
    · obtain ⟨ys, zs, heq, hys, -⟩ := Pattern.seq_eq_true.mp h
      rw [eq_of_beq hys, List.singleton_append, List.cons.injEq] at heq
      exact absurd heq.1 (by decide)
    · simp [Pattern.many1, quotedClass] at h
  rcases hc with rfl | rfl
  · exact hquote 34 (by decide) hr
  · exact hquote 39 (by decide) hr

/-- What `emit_plain` pushes. -/
theorem emitPlain_spec (g : LexGlobals) (code : ℕ) (yytext : CStr) :
    (g.emitPlain code yytext).1.yylineno = g.yylineno ∧
    (g.emitPlain code yytext).1.yycolumn = g.yycolumn ∧
    ((g.emitPlain code yytext).1.tokSpans = g.tokSpans ∨
      ∃ text, (text = none ∨ text = some yytext) ∧
        (g.emitPlain code yytext).1.tokSpans = g.tokSpans ++ [⟨code, g.tokStart, g.pos, text⟩]) := by
  unfold LexGlobals.emitPlain
  simp only
  split_ifs
  · exact ⟨rfl, rfl, Or.inr ⟨some yytext, Or.inr rfl, rfl⟩⟩
  · exact ⟨rfl, rfl, Or.inr ⟨none, Or.inl rfl, rfl⟩⟩
  · exact ⟨rfl, rfl, Or.inl rfl⟩

theorem LexInv.push_match (h : LexInv input before [] s) (hstop : LexStop input before)
    {text : CStr} (hend : LexStop input (before ++ text)) (ht : 10 ∉ text) (hne : text ≠ [])
    (kind : ℕ) (hkind : ¬ IsMultiFragment kind) {spanText : Option CStr}
    (hspan : spanText = none ∨ spanText = some text) :
    Laid input (before ++ text) (s.vars.tokSpans
      ++ [⟨kind, (s.vars.userAction text).tokStart, (s.vars.userAction text).pos, spanText⟩]) := by
  have hpos := h.at_pos
  rw [List.append_nil] at hpos
  obtain ⟨hat, hstart⟩ := hpos.userAction ht
  exact .push h.laid hstop hend hne hstart hat.pos (.single ht hkind hspan)

theorem LexInv.rule_initial (h : LexInv input before [] s) (hr : LexReached input s)
    (hc : s.cond = .initial) {text rest : CStr} (hrest : s.rest = text ++ rest) (hne : text ≠ [])
    {a : LexAction} (hfits : a.Fits .initial text)
    (hnext : LexReached input
      ⟨(lexer.act s.cond s.vars a text).1.1, (lexer.act s.cond s.vars a text).1.2, rest⟩) :
    ∃ before' since', LexInv input before' since'
      ⟨(lexer.act s.cond s.vars a text).1.1, (lexer.act s.cond s.vars a text).1.2, rest⟩ := by
  have heq : input = before ++ text ++ rest := by
    rw [h.eq, hrest, List.append_nil, List.append_assoc]
  have hstop : LexStop input before := ⟨s, hr, hc, by rw [h.eq, List.append_nil]⟩
  have hat := h.at_pos
  rw [List.append_nil] at hat
  rw [hc] at hnext ⊢
  cases a with
  | skip =>
    exact ⟨before ++ text, [], .between heq (hat.userAction hfits.2).1 (h.laid.skip text)⟩
  | newline =>
    obtain ⟨-, rfl⟩ := hfits
    exact ⟨before ++ [10], [], .between heq (hat.newline.congr rfl rfl) (h.laid.skip [10])⟩
  | lineComment =>
    have hpush := h.push_match hstop ⟨_, hnext, rfl, heq⟩ hfits.2 hne tkLineComment
      (by unfold IsMultiFragment; decide) (Or.inr rfl)
    exact ⟨before ++ text, [], .between heq ((hat.userAction hfits.2).1.congr rfl rfl) hpush⟩
  | openFragment next =>
    obtain ⟨-, hnext, ht⟩ := hfits
    obtain ⟨hat', hstart⟩ := hat.userAction ht
    refine ⟨before, [text].flatten, ?_⟩
    constructor
    · rw [List.flatten_singleton]
      exact heq
    · rw [List.flatten_singleton]
      refine hat'.congr ?_ ?_ <;> simp [lexer, LexAction.run, strAppend_eq]
    · have hspans : (lexer.act .initial s.vars (.openFragment next) text).1.2.tokSpans
          = s.vars.tokSpans := by
        simp [lexer, LexAction.run, strAppend_eq, LexGlobals.userAction]
      rw [hspans]
      exact h.laid
    · refine .pieces hnext hstop ?_ ?_ ?_
      · intro piece hpiece
        rw [List.mem_singleton.mp hpiece]
        exact Or.inr ⟨hne, ht⟩
      · simpa [lexer, LexAction.run, strAppend_eq] using hstart
      · simp [lexer, LexAction.run, strAppend_eq, bufferAll]
  | emitKw code =>
    obtain ⟨-, ht, hkind⟩ := hfits
    have hpush := h.push_match hstop ⟨_, hnext, rfl, heq⟩ ht hne code
      (by unfold IsMultiFragment; tauto) (Or.inr rfl)
    exact ⟨before ++ text, [], .between heq ((hat.userAction ht).1.congr rfl rfl) hpush⟩
  | emitPlain code =>
    obtain ⟨-, ht, hkind⟩ := hfits
    obtain ⟨hline, hcolumn, hspans⟩ := emitPlain_spec (s.vars.userAction text) code text
    refine ⟨before ++ text, [], .between heq ((hat.userAction ht).1.congr hline hcolumn) ?_⟩
    rcases hspans with hspans | ⟨spanText, hspan, hspans⟩
    · change Laid input (before ++ text) ((s.vars.userAction text).emitPlain code text).1.tokSpans
      rw [hspans]
      exact h.laid.skip text
    · change Laid input (before ++ text) ((s.vars.userAction text).emitPlain code text).1.tokSpans
      rw [hspans]
      exact h.push_match hstop ⟨_, hnext, rfl, heq⟩ ht hne code (by unfold IsMultiFragment; tauto)
        hspan
  | append => exact absurd rfl hfits.1
  | appendNewline => exact absurd rfl hfits.1
  | closeComment => exact absurd rfl hfits.1
  | closeString => exact absurd rfl hfits.1
  | badNewline => exact absurd rfl hfits.1

theorem LexInv.rule_pieces {pieces : List CStr} (h : LexInv input before pieces.flatten s)
    (hc : s.cond ≠ .initial) (hstop : LexStop input before)
    (hpieces : ∀ piece ∈ pieces, IsFragment piece)
    (hstart : s.vars.mfragStart = .wrap (bytePos before)) (hbuf : s.vars.strBuf = bufferAll pieces)
    {text rest : CStr} (hrest : s.rest = text ++ rest) (hne : text ≠ [])
    {a : LexAction} (hfits : a.Fits s.cond text)
    (hnext : LexReached input
      ⟨(lexer.act s.cond s.vars a text).1.1, (lexer.act s.cond s.vars a text).1.2, rest⟩) :
    ∃ before' since', LexInv input before' since'
      ⟨(lexer.act s.cond s.vars a text).1.1, (lexer.act s.cond s.vars a text).1.2, rest⟩ := by
  have hmid : before ++ (pieces ++ [text]).flatten = before ++ pieces.flatten ++ text := by
    rw [List.flatten_append, List.flatten_singleton, List.append_assoc]
  have heq : input = before ++ (pieces ++ [text]).flatten ++ rest := by
    rw [h.eq, hrest, hmid, List.append_assoc _ text]
  have hpieces' : IsFragment text → ∀ piece ∈ pieces ++ [text], IsFragment piece := by
    intro ht piece hpiece
    rcases List.mem_append.mp hpiece with hpiece | hpiece
    · exact hpieces piece hpiece
    · rwa [List.mem_singleton.mp hpiece]
  have hbuf' : (s.vars.userAction text |>.strAppend text).strBuf
      = bufferAll (pieces ++ [text]) := by
    rw [strAppend_eq, bufferAll_concat, ← hbuf]
    rfl
  have hmfrag : (s.vars.userAction text |>.strAppend text).mfragStart = .wrap (bytePos before) := by
    rw [strAppend_eq]
    exact hstart
  have hspans : (s.vars.userAction text |>.strAppend text).tokSpans = s.vars.tokSpans := by
    rw [strAppend_eq]
    rfl
  have hat : 10 ∉ text → (s.vars.userAction text |>.strAppend text).At
      (before ++ (pieces ++ [text]).flatten) := by
    intro ht
    rw [hmid]
    refine (h.at_pos.userAction ht).1.congr ?_ ?_ <;> rw [strAppend_eq]
  have hall : (pieces ++ [text]).flatten ≠ [] := by
    rw [List.flatten_append, List.flatten_singleton]
    exact List.append_ne_nil_of_right_ne_nil _ hne
  -- the token is complete
  have hclose : ∀ kind, IsMultiFragment kind → 10 ∉ text →
      LexStop input (before ++ (pieces ++ [text]).flatten) →
      Laid input (before ++ (pieces ++ [text]).flatten) (s.vars.tokSpans
        ++ [⟨kind, (s.vars.userAction text |>.strAppend text).mfragStart,
          (s.vars.userAction text |>.strAppend text).pos,
          some (s.vars.userAction text |>.strAppend text).strBuf⟩]) := by
    intro kind hkind ht hend
    exact .push h.laid hstop hend hall hmfrag (hat ht).pos
      (.pieces hkind rfl (hpieces' (Or.inr ⟨hne, ht⟩)) (congrArg some hbuf'))
  cases a with
  | append =>
    refine ⟨before, (pieces ++ [text]).flatten, heq, hat hfits.2, ?_, ?_⟩
    · change Laid input before (s.vars.userAction text |>.strAppend text).tokSpans
      rw [hspans]
      exact h.laid
    · exact .pieces hc hstop (hpieces' (Or.inr ⟨hne, hfits.2⟩)) hmfrag hbuf'
  | appendNewline =>
    obtain ⟨-, rfl⟩ := hfits
    refine ⟨before, (pieces ++ [[10]]).flatten, heq, ?_, ?_, ?_⟩
    · rw [hmid]
      refine h.at_pos.newline.congr ?_ rfl
      change (s.vars.userAction [10] |>.strAppend [10]).yylineno = _
      rw [strAppend_eq]
    · change Laid input before (s.vars.userAction [10] |>.strAppend [10]).tokSpans
      rw [hspans]
      exact h.laid
    · exact .pieces hc hstop (hpieces' (Or.inl rfl)) hmfrag hbuf'
  | closeComment =>
    refine ⟨_, [], .between heq ((hat hfits.2).congr rfl rfl) ?_⟩
    change Laid input _ ((s.vars.userAction text |>.strAppend text).tokSpans ++ [_])
    rw [hspans]
    exact hclose tkBlockComment (Or.inr (Or.inr rfl)) hfits.2 ⟨_, hnext, rfl, heq⟩
  | closeString code =>
    obtain ⟨-, ht, hcode⟩ := hfits
    refine ⟨_, [], .between heq ((hat ht).congr rfl rfl) ?_⟩
    change Laid input _ ((s.vars.userAction text |>.strAppend text).tokSpans ++ [_])
    rw [hspans]
    exact hclose code (by unfold IsMultiFragment; tauto) ht ⟨_, hnext, rfl, heq⟩
  | badNewline =>
    obtain ⟨-, rfl⟩ := hfits
    refine ⟨_, [], .between heq ?_ (h.laid.skip _)⟩
    rw [hmid]
    exact h.at_pos.newline.congr rfl rfl
  | skip => exact absurd hfits.1 hc
  | newline => exact absurd hfits.1 hc
  | lineComment => exact absurd hfits.1 hc
  | openFragment => exact absurd hfits.1 hc
  | emitKw => exact absurd hfits.1 hc
  | emitPlain => exact absurd hfits.1 hc

theorem LexInv.rule_broken (h : LexInv input before since s) {text rest : CStr}
    (hrest : s.rest = text ++ rest) {a : LexAction} (ha : a = .badNewline)
    (hfits : a.Fits s.cond text) :
    ∃ before' since', LexInv input before' since'
      ⟨(lexer.act s.cond s.vars a text).1.1, (lexer.act s.cond s.vars a text).1.2, rest⟩ := by
  subst ha
  obtain ⟨-, rfl⟩ := hfits
  have heq : input = before ++ since ++ [10] ++ rest := by
    rw [h.eq, hrest, List.append_assoc _ [10]]
  refine ⟨before ++ since ++ [10], [], .between heq (h.at_pos.newline.congr rfl rfl) ?_⟩
  rw [List.append_assoc]
  exact h.laid.skip _

/-- **One match** keeps the invariant. -/
theorem LexInv.step (h : LexInv input before since s) (hr : LexReached input s) :
    ∃ before' since', LexInv input before' since' (lexer.step s).1 := by
  obtain ⟨out, hout⟩ : ∃ out, lexer.step s = out := ⟨_, rfl⟩
  have hs := lexer.steps_step s
  have hnext := hr.step
  rw [hout] at hs hnext ⊢
  cases hs with
  | @eof k g t hrest heof =>
    have := h.eof hrest
    rw [heof] at this
    exact ⟨_, _, this⟩
  | @echo a rest hrest hnone =>
    have hstray : StrayBackslash s := by
      by_contra hstray
      exact (lexRules_cover_iff (by simp [hrest])).mpr hstray hnone
    exact ⟨_, _, h.echo hrest hstray⟩
  | @rule r text rest k g t hrest hlongest hact =>
    have hfits := lexRules_fit s.cond r hlongest.mem text hlongest.matches
    have hk : k = (lexer.act s.cond s.vars r.action text).1.1 := by rw [hact]
    have hg : g = (lexer.act s.cond s.vars r.action text).1.2 := by rw [hact]
    subst hk hg
    have hp := h.pending
    cases hp with
    | none hc =>
      rw [hc] at hfits
      exact h.rule_initial hr hc hrest hlongest.ne_nil hfits hnext
    | pieces hc hstop hpieces hstart hbuf =>
      exact h.rule_pieces hc hstop hpieces hstart hbuf hrest hlongest.ne_nil hfits hnext
    | broken hc htail =>
      rcases htail with hnil | ⟨more, htail⟩
      · rw [hnil] at hrest
        exact absurd (List.append_eq_nil_iff.mp hrest.symm).1 hlongest.ne_nil
      · have hpre : text <+: 10 :: more := ⟨rest, by rw [← hrest, htail]⟩
        have ha := action_of_broken hc hlongest.mem hlongest.matches hlongest.ne_nil hpre
        exact h.rule_broken hrest ha hfits

end Match

/-- **The variables stand to the input** as they should in every state of a scan. -/
theorem lexReached_inv {input : CStr} {s : LexState} (h : LexReached input s) :
    ∃ before since, LexInv input before since s := by
  induction h with
  | start vars => exact ⟨[], [], .between rfl ⟨Nat.one_pos, rfl⟩ .nil⟩
  | step hr ih =>
    obtain ⟨before, since, h⟩ := ih
    exact h.step hr
  | wrapper b t _ ih =>
    obtain ⟨before, since, h⟩ := ih
    refine ⟨before, since, h.eq, h.at_pos.congr rfl rfl, h.laid, ?_⟩
    cases h.pending with
    | none hc => exact .none hc
    | pieces hc hstop hpieces hstart hbuf => exact .pieces hc hstop hpieces hstart hbuf
    | broken hc hrest => exact .broken hc hrest _

/-! ### The spans of a scan -/

/-- The source of a span: what stands between its two positions. -/
def SpanSource (src : CStr) (span : TokenSpan) (mid : CStr) : Prop :=
  ∃ pre post, src = pre ++ mid ++ post ∧ bytePos pre = span.start.nat ∧
    bytePos (pre ++ mid) = span.stop.nat

theorem SpanSource.unique {src mid mid' : CStr} {span : TokenSpan} (h : SpanSource src span mid)
    (h' : SpanSource src span mid') : mid = mid' := by
  obtain ⟨pre, post, hsrc, hs, he⟩ := h
  obtain ⟨pre', post', hsrc', hs', he'⟩ := h'
  have hin : pre <+: src := ⟨mid ++ post, by rw [hsrc, List.append_assoc]⟩
  have hin' : pre' <+: src := ⟨mid' ++ post', by rw [hsrc', List.append_assoc]⟩
  obtain rfl := cursor_inj one_pos_width hin hin' (hs.trans hs'.symm)
  exact List.append_cancel_left (cursor_inj one_pos_width ⟨post, hsrc.symm⟩ ⟨post', hsrc'.symm⟩
    (he.trans he'.symm))

/-- A span that was pushed when the scanner had taken its end. -/
structure Pushed (input : CStr) (span : TokenSpan) (pre mid : CStr) : Prop where
  stop : LexStop input pre
  stop' : LexStop input (pre ++ mid)
  ne_nil : mid ≠ []
  start_eq : bytePos pre = span.start.nat
  stop_eq : bytePos (pre ++ mid) = span.stop.nat
  text : SpanText span mid

theorem LexStop.isPrefix {input pre : CStr} (h : LexStop input pre) : pre <+: input := by
  obtain ⟨s, -, -, heq⟩ := h
  exact ⟨s.rest, heq.symm⟩

theorem wrap_eq_bytePos {input pre : CStr} {p : LspPos} (hlen : input.length < 2 ^ 32)
    (hpre : pre <+: input) (h : p = .wrap (bytePos pre)) : bytePos pre = p.nat :=
  (LspPos.wrap_eq_iff (fits32_bytePos (hpre.length_le.trans_lt hlen)) p).mp h.symm

theorem Laid.pushed {input pre : CStr} {spans : List TokenSpan} (h : Laid input pre spans)
    (hlen : input.length < 2 ^ 32) :
    ∀ span ∈ spans, ∃ a mid, a ++ mid <+: pre ∧ Pushed input span a mid := by
  induction h with
  | nil => exact fun span hspan => by cases hspan
  | skip more h ih =>
    intro span hspan
    obtain ⟨a, mid, hin, hpushed⟩ := ih span hspan
    exact ⟨a, mid, hin.trans (List.prefix_append _ _), hpushed⟩
  | push h hstop hend hne hstart hspanEnd htext ih =>
    intro span hspan
    rcases List.mem_append.mp hspan with hspan | hspan
    · obtain ⟨a, mid, hin, hpushed⟩ := ih span hspan
      exact ⟨a, mid, hin.trans (List.prefix_append _ _), hpushed⟩
    · obtain rfl := List.mem_singleton.mp hspan
      exact ⟨_, _, List.prefix_rfl, hstop, hend, hne, wrap_eq_bytePos hlen hstop.isPrefix hstart,
        wrap_eq_bytePos hlen hend.isPrefix hspanEnd, htext⟩

/-- The first span ends at or before the start of the second, and starts before it. -/
def SpanBefore (x y : TokenSpan) : Prop :=
  ¬ Before y.start.nat x.stop.nat ∧ Before x.start.nat y.start.nat

theorem Laid.pairwise {input pre : CStr} {spans : List TokenSpan} (h : Laid input pre spans)
    (hlen : input.length < 2 ^ 32) : spans.Pairwise SpanBefore := by
  induction h with
  | nil => exact .nil
  | skip more h ih => exact ih
  | @push pre mid spans span h hstop hend hne hstart hspanEnd htext ih =>
    rw [List.pairwise_append]
    refine ⟨ih, List.pairwise_singleton _ _, fun x hx y hy => ?_⟩
    obtain rfl := List.mem_singleton.mp hy
    obtain ⟨a, m, hin, hpushed⟩ := h.pushed hlen x hx
    have ham : a <+: a ++ m := List.prefix_append _ _
    have hm := List.length_pos_iff.mpr hpushed.ne_nil
    have hle := hin.length_le
    rw [List.length_append] at hle
    rw [SpanBefore, ← hpushed.start_eq, ← hpushed.stop_eq,
      ← wrap_eq_bytePos hlen hstop.isPrefix hstart, before_bytePos_iff List.prefix_rfl hin,
      before_bytePos_iff (ham.trans hin) List.prefix_rfl, List.length_append]
    omega

/-- What is scanned is a part of the source, and short enough for its counters. -/
theorem yyScanString_spec {src input : CStr} (h : yyScanString src = some input) :
    input <+: src ∧ input.length + 2 < 2 ^ 31 := by
  unfold yyScanString at h
  simp only at h
  split at h
  case isTrue hn =>
    rw [Option.some.injEq] at h
    subst h
    refine ⟨List.take_prefix _ _, ?_⟩
    rw [List.length_take]
    omega
  case isFalse => cases h

theorem yyScanString_of_lt {src : CStr} (h : src.length + 2 < 2 ^ 31) :
    yyScanString src = some src := by
  have hsize : (src.length : ℤ).bmod (2 ^ 32) = src.length := Int.bmod_eq_of_le (by omega) (by omega)
  unfold yyScanString
  simp only [hsize]
  rw [if_pos (by omega), Int.toNat_natCast, List.take_length]

theorem LexReached.laid_spans {src input : CStr} {s : LexState}
    (hscan : yyScanString src = some input) (h : LexReached input s) :
    (∀ span ∈ s.vars.tokSpans, Before span.start.nat span.stop.nat) ∧
      s.vars.tokSpans.Pairwise SpanBefore := by
  obtain ⟨before, since, hinv⟩ := lexReached_inv h
  have hlen : input.length < 2 ^ 32 := by
    have := (yyScanString_spec hscan).2
    omega
  refine ⟨fun span hspan => ?_, hinv.laid.pairwise hlen⟩
  obtain ⟨a, mid, hin, hpushed⟩ := hinv.laid.pushed hlen span hspan
  rw [← hpushed.start_eq, ← hpushed.stop_eq,
    before_bytePos_iff (List.prefix_append a mid) List.prefix_rfl, List.length_append]
  have := List.length_pos_iff.mpr hpushed.ne_nil
  omega

/-- **The spans of a parse are in order**: at any moment of it, they are not empty, strictly
increasing, and each ends at or before the start of the next. -/
theorem spans_ordered {src input : CStr} {s : LexState} (hscan : yyScanString src = some input)
    (h : LexReached input s) :
    (∀ span ∈ s.vars.tokSpans, Before span.start.nat span.stop.nat) ∧
      s.vars.tokSpans.Pairwise SpanBefore :=
  h.laid_spans hscan

/-! ### The text of a span -/

theorem length_bufferAll_lt (pieces : List CStr) : (bufferAll pieces).length < strBufSize - 1 := by
  induction pieces using List.reverseRecOn with
  | nil => decide
  | append_singleton pieces piece ih =>
    rw [bufferAll_concat]
    split
    case isTrue h => rwa [List.length_append]
    case isFalse => exact ih

theorem bufferAll_eq_flatten_iff (pieces : List CStr) :
    bufferAll pieces = pieces.flatten ↔ pieces.flatten.length < strBufSize - 1 := by
  refine ⟨fun h => h ▸ length_bufferAll_lt pieces, ?_⟩
  induction pieces using List.reverseRecOn with
  | nil => exact fun _ => rfl
  | append_singleton pieces piece ih =>
    intro h
    rw [List.flatten_append, List.flatten_singleton, List.length_append] at h
    rw [bufferAll_concat, ih (by omega), if_pos h, List.flatten_append, List.flatten_singleton]

/-- **The text of a span is its source** exactly if the span was matched at once or is at most
4094 bytes long. -/
theorem span_text_iff {src input : CStr} {s : LexState} (hscan : yyScanString src = some input)
    (h : LexReached input s) {span : TokenSpan} (hspan : span ∈ s.vars.tokSpans) {text : CStr}
    (ht : span.text = some text) :
    ∃ mid, SpanSource src span mid ∧
      (text = mid ↔ (IsMultiFragment span.tokenKind → mid.length ≤ 4094)) := by
  obtain ⟨before, since, hinv⟩ := lexReached_inv h
  obtain ⟨hin, hsize⟩ := yyScanString_spec hscan
  obtain ⟨a, mid, -, hpushed⟩ := hinv.laid.pushed (by omega) span hspan
  obtain ⟨post, hpost⟩ := hpushed.stop'.isPrefix.trans hin
  refine ⟨mid, ⟨a, post, hpost.symm, hpushed.start_eq, hpushed.stop_eq⟩, ?_⟩
  cases hpushed.text with
  | single _ hkind ht' =>
    rw [ht] at ht'
    rcases ht' with ht' | ht'
    · cases ht'
    · exact iff_of_true (Option.some.inj ht') fun hm => absurd hm hkind
  | @pieces pieces hkind hmid _ ht' =>
    rw [ht, Option.some.injEq] at ht'
    rw [ht', hmid, bufferAll_eq_flatten_iff]
    have hbound : pieces.flatten.length < strBufSize - 1 ↔ pieces.flatten.length ≤ 4094 :=
      Nat.lt_succ_iff
    rw [hbound]
    exact ⟨fun hle _ => hle, fun hle => hle hkind⟩

/-- The spans of a task header are in order. -/
theorem spans_ordered_header :
    (∀ span ∈ (yylexCalls 4 (FrontState.boot.install (cstr "task a \"b\""))).lex.vars.tokSpans,
      Before span.start.nat span.stop.nat) ∧
    (yylexCalls 4 (FrontState.boot.install (cstr "task a \"b\""))).lex.vars.tokSpans.Pairwise
      SpanBefore := by
  have hscan : yyScanString (cstr "task a \"b\"") = some (cstr "task a \"b\"") := by decide
  exact spans_ordered hscan (LexReached.yylexCalls 4 (.start FrontState.boot.lex.vars))

/-- The keyword of a task header keeps its text. -/
theorem span_text_header :
    ∃ mid, SpanSource (cstr "task a \"b\"") ⟨kwTask, ⟨0, 0⟩, ⟨0, 4⟩, some (cstr "task")⟩ mid ∧
      (cstr "task" = mid ↔ (IsMultiFragment kwTask → mid.length ≤ 4094)) := by
  have hscan : yyScanString (cstr "task a \"b\"") = some (cstr "task a \"b\"") := by decide
  have hspan : ⟨kwTask, ⟨0, 0⟩, ⟨0, 4⟩, some (cstr "task")⟩ ∈
      (yylexCalls 4 (FrontState.boot.install (cstr "task a \"b\""))).lex.vars.tokSpans := by
    decide +kernel
  exact span_text_iff hscan (LexReached.yylexCalls 4 (.start FrontState.boot.lex.vars)) hspan rfl

/-! ### A long string -/

theorem keywords_head : ∀ kw ∈ keywords, (cstr kw.1).head?.any identStartClass = true := by
  decide +kernel

open Pattern in
/-- A match that begins with a mark is that byte, a line comment, or the begin of a comment. -/
theorem initialRules_mark {b : UInt8} (hblank : blankClass b = false) (hdigit : digitClass b = false)
    (hsign : (b == 43 || b == 45) = false) (hletter : identStartClass b = false) :
    ∀ r ∈ initialRules, ∀ rest, r.pattern (b :: rest) = true →
      rest = [] ∨ b = 35 ∨ (b = 47 ∧ (rest.head? = some 47 ∨ rest = [42])) := by
  have hlit {w : CStr} (hw : w.length = 1) (rest : CStr) (h : lit w (b :: rest) = true) :
      rest = [] := by
    rw [← eq_of_beq h, List.length_cons] at hw
    exact List.length_eq_zero_iff.mp (by omega)
  have hbegin {p : UInt8 → Bool} {P : Pattern UInt8} (hP : Begins p P) (hp : p b = false)
      (rest : CStr) (h : P (b :: rest) = true) : rest = [] := by
    rw [hP b rest h] at hp
    cases hp
  have hclass {p : UInt8 → Bool} (hp : p b = false) (rest : CStr)
      (h : many1 p (b :: rest) = true) : rest = [] :=
    hbegin (begins_of_over (over_many1 fun _ h => h)) hp rest h
  have hcomment {c : UInt8} {w : CStr} {Q : Pattern UInt8} (rest : CStr)
      (h : seq (lit (c :: w)) Q (b :: rest) = true) : b = c ∧ w <+: rest := by
    obtain ⟨ys, zs, heq, hys, -⟩ := seq_eq_true.mp h
    rw [eq_of_beq hys, List.cons_append, List.cons.injEq] at heq
    exact ⟨heq.1, ⟨zs, heq.2.symm⟩⟩
  have hline (rest : CStr) (h : seq (lit (cstr "//")) (many lineClass) (b :: rest) = true) :
      b = 47 ∧ (rest.head? = some 47 ∨ rest = [42]) := by
    obtain ⟨hb, more, rfl⟩ := hcomment rest h
    exact ⟨hb, Or.inl rfl⟩
  have hfragment (rest : CStr) (h : lit (cstr "/*") (b :: rest) = true) :
      b = 47 ∧ (rest.head? = some 47 ∨ rest = [42]) := by
    obtain ⟨hb, hrest⟩ := List.cons.inj (eq_of_beq h)
    exact ⟨hb, Or.inr hrest⟩
  have hscissors (rest : CStr) (h : lit (cstr "-8<-") (b :: rest) = true) : rest = [] := by
    rw [(List.cons.inj (eq_of_beq h)).1] at hsign
    cases hsign
  have hdigits (n : ℕ) : Begins digitClass (rep n digitClass) :=
    begins_of_over (over_rep fun _ h => h)
  have hdate : Begins digitClass datePattern := begins_seq (hdigits 4) fun h => by cases h
  have hfirst : Begins (fun b => b == 43 || b == 45 || digitClass b)
      (opt (one fun b => b == 43 || b == 45)) :=
    begins_opt (begins_of_over (over_one fun b h => by simp [h]))
  have hnumber {P : Pattern UInt8} : Begins (fun b => b == 43 || b == 45 || digitClass b)
      (seq (many1 digitClass) P) :=
    begins_seq (begins_of_over (over_many1 fun b h => by simp [h])) fun h => by cases h
  have hduration := begins_seq hfirst fun _ => hnumber (P :=
    seqs [alts [lit (cstr "min"), lit (cstr "h"), lit (cstr "d"), lit (cstr "w"), lit (cstr "m"),
      lit (cstr "y")]])
  have hnumber' : (b == 43 || b == 45 || digitClass b) = false := by rw [hsign, hdigit]; rfl
  have hident : Begins identStartClass (seq (one identStartClass) (many identClass)) :=
    begins_seq (begins_of_over (over_one fun _ h => h)) fun h => by cases h
  have hone {p : UInt8 → Bool} (rest : CStr) (h : one p (b :: rest) = true) : rest = [] := by
    simp only [one, List.length_cons, Bool.and_eq_true, beq_iff_eq] at h
    exact List.length_eq_zero_iff.mp (by omega)
  have hbyte {w : CStr} (hw : w.length = 1) (rest : CStr) (h : lit w (b :: rest) = true) :
      rest = [] ∨ b = 35 ∨ (b = 47 ∧ (rest.head? = some 47 ∨ rest = [42])) := Or.inl (hlit hw rest h)
  have hnil : ∀ r ∈ ([] : List (Rule UInt8 LexAction)), ∀ rest, r.pattern (b :: rest) = true →
      rest = [] ∨ b = 35 ∨ (b = 47 ∧ (rest.head? = some 47 ∨ rest = [42])) := fun _ h => by cases h
  unfold initialRules
  rw [List.forall_mem_append, List.forall_mem_append]
  refine ⟨⟨?_, ?_⟩, ?_⟩
  · simp only [List.forall_mem_cons]
    exact ⟨fun rest h => Or.inl (hclass hblank rest h), hbyte rfl,
      fun rest h => Or.inr (Or.inl (hcomment rest h).1),
      fun rest h => Or.inr (Or.inr (hline rest h)),
      fun rest h => Or.inr (Or.inr (hfragment rest h)),
      fun rest h => Or.inl (hscissors rest h), hbyte rfl, hbyte rfl,
      fun rest h => Or.inl (hbegin hdate hdigit rest h),
      fun rest h => Or.inl (hbegin hduration hnumber' rest h),
      fun rest h => Or.inl (hbegin hnumber hnumber' rest h),
      fun rest h => Or.inl (hclass hdigit rest h), hnil⟩
  · rw [List.forall_mem_map]
    intro kw hkw rest h
    have hhead := keywords_head kw hkw
    rw [← eq_of_beq h, List.head?_cons, Option.any_some, hletter] at hhead
    cases hhead
  · simp only [List.forall_mem_cons]
    exact ⟨fun rest h => Or.inl (hbegin hident hletter rest h), hbyte rfl, hbyte rfl, hbyte rfl,
      hbyte rfl, hbyte rfl, hbyte rfl, hbyte rfl, hbyte rfl, hbyte rfl, hbyte rfl, hbyte rfl,
      hbyte rfl, fun rest h => Or.inl (hone rest h), hnil⟩

theorem initialRules_quote : ∀ r ∈ initialRules, ∀ rest, r.pattern (34 :: rest) = true →
    rest = [] := by
  intro r hr rest h
  rcases initialRules_mark rfl rfl rfl rfl r hr rest h with hnil | hb | ⟨hb, -⟩
  · exact hnil
  · cases hb
  · cases hb

/-- A string of so many letters. -/
def longString (n : ℕ) : CStr := 34 :: (List.replicate n 97 ++ [34])

theorem isLongest_quote (rest : CStr) :
    IsLongest (lexRules .initial) ⟨.lit (cstr "\""), .openFragment .dquote⟩ [34] rest := by
  refine ⟨by simp, rfl, fun more hne _ => ?_⟩
  rw [List.find?_eq_none]
  intro r hr h
  exact hne (initialRules_quote r hr more h)

theorem isLongest_letters {n : ℕ} (hn : 0 < n) :
    IsLongest (lexRules .dquote) ⟨.many1 (quotedClass 34), .append⟩ (List.replicate n 97) [34] := by
  obtain ⟨m, rfl⟩ := Nat.exists_eq_add_one.mpr hn
  have hclass : quotedClass 34 97 = true := by decide
  have hquote : quotedClass 34 34 = false := by decide
  have hescape (more : CStr) : Pattern.seq (.lit [92]) (.one lineClass) (97 :: more) = false := by
    rw [Bool.eq_false_iff]
    intro h
    obtain ⟨ys, zs, heq, hys, -⟩ := Pattern.seq_eq_true.mp h
    rw [eq_of_beq hys, List.singleton_append, List.cons.injEq] at heq
    exact absurd heq.1 (by decide)
  refine ⟨by simp, ?_, fun more hne hmore => ?_⟩
  · simp [lexRules, quoteRules, Pattern.lit, Pattern.many1, List.replicate_succ, hclass, hescape]
  · obtain rfl : more = [34] := by
      obtain ⟨b, more, rfl⟩ := List.exists_cons_of_ne_nil hne
      obtain ⟨rfl, hnil⟩ := List.cons_prefix_cons.mp hmore
      rw [List.prefix_nil.mp hnil]
    simp [lexRules, quoteRules, Pattern.lit, Pattern.many1, List.replicate_succ, hquote, hescape]

theorem isLongest_endQuote :
    IsLongest (lexRules .dquote) ⟨.lit [34], .closeString tkStr⟩ [34] [] :=
  ⟨by simp, rfl, fun _ hne hmore => absurd (List.prefix_nil.mp hmore) hne⟩

theorem LexReached.rule {input text rest : CStr} {c : StartCondition} {g : LexGlobals}
    {r : Rule UInt8 LexAction} (h : LexReached input ⟨c, g, text ++ rest⟩)
    (hlongest : IsLongest (lexRules c) r text rest) :
    LexReached input ⟨(r.action.run c (g.userAction text) text).1.1,
      (r.action.run c (g.userAction text) text).1.2, rest⟩ := by
  have hstep := h.step
  have hrule := lexer.step_of_isLongest (c := ⟨c, g, text ++ rest⟩) rfl hlongest
  rw [hrule] at hstep
  exact hstep

/-- The buffer takes the quotes, and not what stands between them. -/
theorem longString_span {n : ℕ} (hn : 4094 ≤ n) :
    ∃ s, LexReached (longString n) s ∧
      ⟨tkStr, .wrap (bytePos []), .wrap (bytePos (longString n)), some [34, 34]⟩
        ∈ s.vars.tokSpans := by
  have hletters : 10 ∉ (List.replicate n 97 : CStr) := fun h => by
    cases List.eq_of_mem_replicate h
  have hat0 : FrontState.boot.lex.vars.install.At [] := ⟨Nat.one_pos, rfl⟩
  have h0 : LexReached (longString n) ⟨.initial, FrontState.boot.lex.vars.install, longString n⟩ :=
    .start FrontState.boot.lex.vars
  obtain ⟨g1, hg1⟩ : ∃ g, g = { FrontState.boot.lex.vars.install.userAction [34] with
    mfragStart := ⟨0, 0⟩, strBuf := [34] } := ⟨_, rfl⟩
  have h1 : LexReached (longString n) ⟨.dquote, g1, List.replicate n 97 ++ [34]⟩ := by
    rw [hg1]
    exact h0.rule (isLongest_quote (List.replicate n 97 ++ [34]))
  have hat1 : g1.At [34] := by
    rw [hg1]
    exact (hat0.userAction (by decide)).1.congr rfl rfl
  obtain ⟨g2, hg2⟩ : ∃ g, g = g1.userAction (List.replicate n 97) := ⟨_, rfl⟩
  have happend : g2.strAppend (List.replicate n 97) = g2 := by
    rw [LexGlobals.strAppend, if_neg]
    rw [hg2, hg1, List.length_replicate]
    simp only [LexGlobals.userAction, List.length_singleton, strBufSize]
    omega
  have h2 : LexReached (longString n) ⟨.dquote, g2, [34]⟩ := by
    have h := h1.rule (isLongest_letters (by omega))
    rw [← hg2] at h
    rw [← happend]
    exact h
  have hat2 : g2.At ([34] ++ List.replicate n 97) := hg2 ▸ (hat1.userAction hletters).1
  have hat3 := (hat2.userAction (show 10 ∉ ([34] : CStr) by decide)).1
  have h3 := h2.rule isLongest_endQuote
  refine ⟨_, h3, ?_⟩
  have hpos : (g2.userAction [34]).pos = .wrap (bytePos (longString n)) := by
    rw [hat3.pos]
    rfl
  have hspans : g2.tokSpans = [] ∧ g2.mfragStart = ⟨0, 0⟩ ∧ g2.strBuf = [34] := by
    rw [hg2, hg1]
    exact ⟨rfl, rfl, rfl⟩
  have hclose : (g2.userAction [34]).strAppend [34]
      = { g2.userAction [34] with strBuf := [34, 34] } := by
    have hbuf : (g2.userAction [34]).strBuf = [34] := hspans.2.2
    rw [LexGlobals.strAppend, hbuf, if_pos (by decide)]
    rfl
  simp only [LexAction.run, hclose, LexGlobals.emitKwMfragText, LexGlobals.pushTokSpan]
  refine List.mem_append_right _ (List.mem_singleton.mpr ?_)
  have hstart : (g2.userAction [34]).mfragStart = ⟨0, 0⟩ := hspans.2.1
  rw [← hpos, hstart]
  rfl

theorem length_longString (n : ℕ) : (longString n).length = n + 2 := by
  rw [longString, List.length_cons, List.length_append, List.length_replicate]
  rfl

/-- A string of 4096 bytes loses what stands between its quotes. -/
theorem span_text_lost :
    ¬ ∀ (src input : CStr) (s : LexState), yyScanString src = some input → LexReached input s →
      ∀ span ∈ s.vars.tokSpans, ∀ text, span.text = some text → SpanSource src span text := by
  intro h
  obtain ⟨n, hn⟩ : ∃ n, n = 4094 := ⟨_, rfl⟩
  have hlen := length_longString n
  obtain ⟨s, hs, hspan⟩ := longString_span hn.ge
  have hscan : yyScanString (longString n) = some (longString n) :=
    yyScanString_of_lt (by rw [hlen, hn]; decide)
  have hlost := h _ _ s hscan hs _ hspan _ rfl
  have hfits : Fits32 (bytePos (longString n)) := fits32_bytePos (by omega)
  have hall : SpanSource (longString n)
      ⟨tkStr, .wrap (bytePos []), .wrap (bytePos (longString n)), some [34, 34]⟩
      (longString n) :=
    ⟨[], [], by simp, rfl, (LspPos.wrap_eq_iff hfits _).mp rfl⟩
  have hshort := congrArg List.length (hlost.unique hall)
  rw [hlen, hn] at hshort
  cases hshort

end TaskjugglerLsp
