import TaskjugglerLsp.Lexer.Spans
import TaskjugglerLsp.SemanticTokens.Encode

/-!
# The room for semantic tokens

The buffer of `compute_semantic_tokens_data` has room for the entries that `g_push_tok_span` has
counted, which goes by the kinds and the lines of the tokens; what is emitted goes by `classify`
and by the text.

* `emitSpan_spec`: a token has no more entries than are counted for it.
* `LexReached.countsSpans`: what has been counted.
* `LexReached.fits_buffer`: the buffer is large enough for every scan.
-/

namespace TaskjugglerLsp

open Lib

/-- What `g_push_tok_span` counts for a token. -/
def TokenSpan.semEntries (t : TokenSpan) : ℕ :=
  if isSemHighlighted t.tokenKind then (t.stop.line - t.start.line + 1).toNat else 0

/-- What it counts for some tokens. -/
def semEntries (spans : List TokenSpan) : ℕ := (spans.map (·.semEntries)).sum

theorem semEntries_concat (spans : List TokenSpan) (t : TokenSpan) :
    semEntries (spans ++ [t]) = semEntries spans + t.semEntries := by
  rw [semEntries, List.map_append, List.sum_append]
  simp [semEntries]

/-! ### What is emitted -/

theorem isSemHighlighted_of_classify {kind : ℕ} {x : UInt32 × UInt32} (h : classify kind = some x) :
    isSemHighlighted kind = true := by
  by_contra hskip
  have hkinds : kind = tkLbrace ∨ kind = tkRbrace ∨ kind = tkBang ∨ kind = tkDot ∨
      kind = tkComma := by
    unfold isSemHighlighted at hskip
    simp only [Bool.and_eq_true, bne_iff_ne, not_and_or, not_not] at hskip
    tauto
  rw [classify, if_pos hkinds] at h
  cases h

section Emit

variable {tokenType modifiers : UInt32} {e : Emitted}

theorem pushRelativeEntry_spec (tokenType modifiers : UInt32) (e : Emitted) (line character length : UInt32) :
    e.buf <+: (pushRelativeEntry tokenType modifiers e line character length).buf ∧
      (pushRelativeEntry tokenType modifiers e line character length).buf.length
        ≤ e.buf.length + 5 := by
  simp only [pushRelativeEntry, pushEntry]
  split
  · exact ⟨List.prefix_rfl, Nat.le_add_right _ _⟩
  · rw [List.length_append]
    exact ⟨List.prefix_append _ _, Nat.le_refl _⟩

theorem emitLines_spec (tokenType modifiers : UInt32) (n : ℕ) (line character : UInt32) (p : CStr) (e : Emitted) :
    e.buf <+: (emitLines tokenType modifiers n line character p e).buf ∧
      (emitLines tokenType modifiers n line character p e).buf.length ≤ e.buf.length + 5 * n := by
  induction n generalizing line character p e with
  | zero => exact ⟨List.prefix_rfl, Nat.le_refl _⟩
  | succ n ih =>
    rw [emitLines]
    obtain ⟨hpush, hone⟩ := pushRelativeEntry_spec tokenType modifiers
      e line character (UInt32.ofNat (p.takeWhile (· != 10)).length)
    by_cases hempty : UInt32.ofNat (p.takeWhile (· != 10)).length = 0
    · simp only [if_pos hempty]
      obtain ⟨hpre, hlen⟩ := ih (line + 1) 0 (if 10 ∈ p then (p.dropWhile (· != 10)).tail else p) e
      exact ⟨hpre, by omega⟩
    · simp only [if_neg hempty]
      obtain ⟨hpre, hlen⟩ := ih (line + 1) 0 (if 10 ∈ p then (p.dropWhile (· != 10)).tail else p)
        (pushRelativeEntry tokenType modifiers e line character
          (UInt32.ofNat (p.takeWhile (· != 10)).length))
      exact ⟨hpush.trans hpre, by omega⟩

theorem prefix_emitSpan (e : Emitted) (t : TokenSpan) : e.buf <+: (emitSpan e t).buf := by
  unfold emitSpan
  split
  case h_2 => exact List.prefix_rfl
  case h_1 tokenType modifiers _ =>
    unfold emitToken
    split_ifs with hline
    · exact (pushRelativeEntry_spec tokenType modifiers e _ _ _).1
    · exact (emitLines_spec tokenType modifiers _ _ _ _ e).1.trans
        (pushRelativeEntry_spec tokenType modifiers _ _ _ _).1

theorem prefix_foldl_emitSpan (e : Emitted) (spans : List TokenSpan) :
    e.buf <+: (spans.foldl emitSpan e).buf := by
  induction spans generalizing e with
  | nil => exact List.prefix_rfl
  | cons t spans ih => exact (prefix_emitSpan e t).trans (ih _)

/-- The lines of a token fit the counter. -/
def TokenSpan.Counts (t : TokenSpan) : Prop :=
  t.start.line ≤ t.stop.line ∧ t.stop.line.toNat + 1 < 2 ^ 32

theorem TokenSpan.Counts.toNat_lines {t : TokenSpan} (h : t.Counts) :
    (t.stop.line - t.start.line + 1).toNat = t.stop.line.toNat - t.start.line.toNat + 1 := by
  obtain ⟨hle, hlt⟩ := h
  rw [UInt32.toNat_add, UInt32.toNat_sub_of_le _ _ hle, show (1 : UInt32).toNat = 1 from rfl,
    Nat.mod_eq_of_lt (by omega)]

/-- **A token has no more entries** than are counted for it. -/
theorem emitSpan_spec {t : TokenSpan} (h : t.Counts) :
    (emitSpan e t).buf.length ≤ e.buf.length + 5 * t.semEntries := by
  unfold emitSpan
  split
  case h_2 => exact Nat.le_add_right _ _
  case h_1 tokenType modifiers hkind =>
    rw [TokenSpan.semEntries, if_pos (isSemHighlighted_of_classify hkind), h.toNat_lines]
    unfold emitToken
    split_ifs with hline
    · have hone := (pushRelativeEntry_spec tokenType modifiers
        e t.start.line t.start.character (t.stop.character - t.start.character)).2
      omega
    · have hlen := (emitLines_spec tokenType modifiers
        (t.stop.line.toNat - t.start.line.toNat) t.start.line t.start.character
        (t.text.getD []) e).2
      simp only
      generalize emitLines tokenType modifiers _ _ _ _ e = e' at hlen
      exact (pushRelativeEntry_spec tokenType modifiers e' _ _ _).2.trans (by omega)

theorem foldl_emitSpan_spec {spans : List TokenSpan} (h : ∀ t ∈ spans, t.Counts) :
    (spans.foldl emitSpan e).buf.length ≤ e.buf.length + 5 * semEntries spans := by
  induction spans generalizing e with
  | nil => exact Nat.le_add_right _ _
  | cons t spans ih =>
    rw [List.forall_mem_cons] at h
    have hlen := emitSpan_spec (e := e) h.1
    have hlen' := ih (e := emitSpan e t) h.2
    have hsum : semEntries (t :: spans) = t.semEntries + semEntries spans := by
      rw [semEntries, List.map_cons, List.sum_cons, semEntries]
    rw [List.foldl_cons]
    omega

end Emit

/-! ### What is counted -/

/-- The count is that of the spans. -/
def LexGlobals.CountsSpans (g : LexGlobals) : Prop := g.numSemEntries = semEntries g.tokSpans

theorem LexGlobals.CountsSpans.push {g : LexGlobals} (h : g.CountsSpans) (kind : ℕ)
    (start stop : LspPos) (text : Option CStr) :
    (g.pushTokSpan kind start stop text).CountsSpans := by
  unfold LexGlobals.CountsSpans LexGlobals.pushTokSpan at *
  rw [semEntries_concat, ← h, TokenSpan.semEntries]
  simp only
  split_ifs <;> rfl

theorem LexGlobals.CountsSpans.strAppend {g : LexGlobals} (h : g.CountsSpans) (text : CStr) :
    (g.strAppend text).CountsSpans := by
  unfold LexGlobals.strAppend
  split_ifs
  · exact h
  · exact h

theorem LexGlobals.CountsSpans.emitPlain {g : LexGlobals} (h : g.CountsSpans) (code : ℕ)
    (text : CStr) : (g.emitPlain code text).1.CountsSpans := by
  have hpushed : ∀ pushed : LexGlobals, pushed.CountsSpans → ∀ t : Token,
      LexGlobals.CountsSpans { pushed with yylval := t } := fun pushed hpushed t => hpushed
  unfold LexGlobals.emitPlain
  refine hpushed _ ?_ _
  split_ifs
  · exact h.push _ _ _ _
  · exact h.push _ _ _ _
  · exact h

/-- An action counts what it pushes. -/
theorem LexAction.countsSpans {a : LexAction} {g : LexGlobals} (h : g.CountsSpans)
    (c : StartCondition) (text : CStr) : (a.run c g text).1.2.CountsSpans := by
  cases a with
  | skip => exact h
  | newline => exact h
  | lineComment => exact h.push _ _ _ _
  | openFragment next =>
    exact LexGlobals.CountsSpans.strAppend
      (g := { g with mfragStart := g.tokStart, strBuf := [] }) h text
  | append => exact h.strAppend text
  | appendNewline => exact h.strAppend text
  | closeComment => exact (h.strAppend text).push _ _ _ _
  | closeString code => exact (h.strAppend text).push _ _ _ _
  | badNewline => exact LexGlobals.CountsSpans.emitPlain (g := { g with yycolumn := 0 }) h _ _
  | emitKw code => exact h.push _ _ _ _
  | emitPlain code => exact h.emitPlain _ _

theorem LexReached.countsSpans {input : CStr} {s : LexState} (h : LexReached input s) :
    s.vars.CountsSpans := by
  induction h with
  | start vars => rfl
  | wrapper b t _ ih => exact ih
  | @step s _ ih =>
    unfold Scanner.step
    split
    · simp only [lexer]
      split
      · exact ih
      · exact ih.emitPlain _ _
    · split
      · exact LexAction.countsSpans (g := s.vars.userAction _) ih _ _
      · exact ih

theorem LexReached.counts {src input : CStr} (hscan : yyScanString src = some input) {s : LexState}
    (h : LexReached input s) : ∀ t ∈ s.vars.tokSpans, t.Counts := by
  intro t ht
  obtain ⟨before, since, hinv⟩ := lexReached_inv h
  have hlen := (yyScanString_spec hscan).2
  obtain ⟨a, mid, -, hpushed⟩ := hinv.laid.pushed (by omega) t ht
  have hstart := hpushed.start_eq
  have hstop := hpushed.stop_eq
  have hbytes : (bytePos (a ++ mid)).1 ≤ 0 + (a ++ mid).length := (cursor_le (0, 0) (a ++ mid)).1
  have hin := hpushed.stop'.isPrefix.length_le
  have hline : t.start.line.toNat ≤ t.stop.line.toNat := by
    rcases (h.laid_spans hscan).1 t ht with hlt | ⟨heq, -⟩
    · exact hlt.le
    · exact heq.le
  have hlast : t.stop.line.toNat = (bytePos (a ++ mid)).1 := congrArg Prod.fst hstop.symm
  refine ⟨UInt32.le_iff_toNat_le.mpr hline, ?_⟩
  rw [hlast]
  omega

/-- **The buffer is large enough**, at any moment of a parse: it grows token by token, and in the
end has not more than five integers for each entry that has been counted. -/
theorem LexReached.fits_buffer {src input : CStr} (hscan : yyScanString src = some input)
    {s : LexState} (h : LexReached input s) (k : ℕ) :
    (computeSemanticTokensData (s.vars.tokSpans.take k)).length ≤ 5 * s.vars.numSemEntries := by
  have hgrow := prefix_foldl_emitSpan ((s.vars.tokSpans.take k).foldl emitSpan ⟨[], 0, 0⟩)
    (s.vars.tokSpans.drop k)
  rw [← List.foldl_append, List.take_append_drop] at hgrow
  refine hgrow.length_le.trans ?_
  rw [h.countsSpans]
  simpa using foldl_emitSpan_spec (e := ⟨[], 0, 0⟩) (h.counts hscan)

end TaskjugglerLsp
