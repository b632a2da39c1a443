import TaskjugglerLsp.Lib.CountedArray
import TaskjugglerLsp.SemanticTokens.Capacity

/-!
# The array of semantic tokens

`compute_semantic_tokens_data` writes its integers into an array with room for the entries that
were counted while the tokens were pushed, at a counter that is an `int`.

* `computeSemanticTokensBuf_eq`: the array gets the integers of `computeSemanticTokensData` if there
  is room for them and their number fits the counter; if not, a write falls outside.
* `LexReached.computeSemanticTokensBuf_eq`: for the tokens of a scan there is room.
-/

namespace TaskjugglerLsp

open Lib

/-! ### The writes -/

/-- The array with its counter, and the origin of the entry before. -/
structure SemBuffer where
  out : CountedArray UInt32
  prevLine : UInt32
  prevChar : UInt32

namespace SemBuffer

/-- `push_entry`, into the array. -/
def pushEntry (out : CountedArray UInt32)
    (deltaLine deltaStart length tokenType modifiers : UInt32) : Option (CountedArray UInt32) :=
  if length = 0 then some out
  else out.storeAll [deltaLine, deltaStart, length, tokenType, modifiers]

/-- `push_relative_entry`, into the array. -/
def pushRelativeEntry (tokenType modifiers : UInt32) (b : SemBuffer)
    (line character length : UInt32) : Option SemBuffer :=
  let deltaLine := line - b.prevLine
  let deltaStart := if deltaLine = 0 then character - b.prevChar else character
  (pushEntry b.out deltaLine deltaStart length tokenType modifiers).map
    fun out => ⟨out, line, character⟩

/-- The loop of `emit_token` over the lines of a token but the last, into the array. -/
def emitLines (tokenType modifiers : UInt32) :
    ℕ → UInt32 → UInt32 → CStr → SemBuffer → Option SemBuffer
  | 0, _, _, _, b => some b
  | n + 1, line, character, p, b =>
    let segLen := UInt32.ofNat (p.takeWhile (· != 10)).length
    let pushed := if segLen = 0 then some b
      else pushRelativeEntry tokenType modifiers b line character segLen
    let p := if 10 ∈ p then (p.dropWhile (· != 10)).tail else p
    pushed.bind (emitLines tokenType modifiers n (line + 1) 0 p)

/-- `emit_token`, into the array. -/
def emitToken (tokenType modifiers : UInt32) (b : SemBuffer) (s : TokenSpan) : Option SemBuffer :=
  if s.start.line = s.stop.line then
    pushRelativeEntry tokenType modifiers b s.start.line s.start.character
      (s.stop.character - s.start.character)
  else
    let n := s.stop.line.toNat - s.start.line.toNat
    (emitLines tokenType modifiers n s.start.line s.start.character (s.text.getD []) b).bind
      fun b => pushRelativeEntry tokenType modifiers b (if n = 0 then s.start.line else s.stop.line)
        (if n = 0 then s.start.character else 0) s.stop.character

/-- One round of the loop, into the array. -/
def emitSpan (b : SemBuffer) (s : TokenSpan) : Option SemBuffer :=
  match classify s.tokenKind with
  | some (tokenType, modifiers) => emitToken tokenType modifiers b s
  | none => some b

end SemBuffer

/-- **`compute_semantic_tokens_data`**, as it writes: there is no result if a write falls outside
the array that is allocated for the counted entries. -/
def computeSemanticTokensBuf (spans : List TokenSpan) (numSemEntries : ℕ) : Option (List UInt32) :=
  let cap := numSemEntries * 5
  (spans.foldlM SemBuffer.emitSpan
    ⟨⟨List.replicate (if 0 < cap then cap else 1) 0, 0⟩, 0, 0⟩).map
      fun b => b.out.cells.take b.out.count.toNat

/-! ### What is in the array -/

/-- The array holds what has been emitted. -/
structure SemBuffer.Holds (b : SemBuffer) (cap : ℕ) (e : Emitted) : Prop where
  out : b.out.Holds cap e.buf
  prevLine : b.prevLine = e.prevLine
  prevChar : b.prevChar = e.prevChar
  entries : 5 ∣ e.buf.length

/-- What is emitted is in the array if there is room and its number fits the counter; else there is
no result. -/
def Stored (cap : ℕ) (e : Emitted) (r : Option SemBuffer) : Prop :=
  (e.buf.length < 2 ^ 31 ∧ ∃ b, r = some b ∧ b.Holds cap e) ∨
    ((cap < e.buf.length ∨ 2 ^ 31 ≤ e.buf.length) ∧ r = none)

section Stored

variable {cap : ℕ} {e e' : Emitted} {b : SemBuffer} {r : Option SemBuffer}
  {tokenType modifiers : UInt32}

theorem Stored.bind (h : Stored cap e r) {f : SemBuffer → Option SemBuffer}
    (hgrows : e.buf <+: e'.buf)
    (hf : ∀ b, b.Holds cap e → e.buf.length < 2 ^ 31 → Stored cap e' (f b)) :
    Stored cap e' (r.bind f) := by
  rcases h with ⟨hlt, b, rfl, hb⟩ | ⟨hover, rfl⟩
  · exact hf b hb hlt
  · exact Or.inr ⟨hover.imp hgrows.length_le.trans_lt' hgrows.length_le.trans', rfl⟩

theorem SemBuffer.Holds.stored (h : b.Holds cap e) (hlt : e.buf.length < 2 ^ 31) :
    Stored cap e (some b) :=
  Or.inl ⟨hlt, b, rfl, h⟩

theorem SemBuffer.Holds.pushRelativeEntry (h : b.Holds cap e) (hlt : e.buf.length < 2 ^ 31)
    (line character length : UInt32) :
    Stored cap (TaskjugglerLsp.pushRelativeEntry tokenType modifiers e line character length)
      (SemBuffer.pushRelativeEntry tokenType modifiers b line character length) := by
  have hfive : 5 ∣ (TaskjugglerLsp.pushRelativeEntry tokenType modifiers e line character
      length).buf.length :=
    five_dvd_pushRelativeEntry h.entries line character length
  unfold SemBuffer.pushRelativeEntry SemBuffer.pushEntry
  unfold TaskjugglerLsp.pushRelativeEntry TaskjugglerLsp.pushEntry at hfive ⊢
  simp only [h.prevLine, h.prevChar]
  split
  case isTrue hempty => exact Or.inl ⟨hlt, _, rfl, h.out, rfl, rfl, h.entries⟩
  case isFalse hne =>
    simp only [if_neg hne] at hfive
    rw [List.length_append] at hfive
    obtain ⟨hfits, hover⟩ := CountedArray.storeAll_spec h.out hlt [line - e.prevLine,
      if line - e.prevLine = 0 then character - e.prevChar else character, length, tokenType,
      modifiers]
    rw [← List.length_append] at hfits hover hfive
    by_cases hroom : e.buf.length + 5 ≤ cap ∧ e.buf.length + 5 < 2 ^ 31
    · obtain ⟨out, hout, hholds⟩ := hfits (by simpa using hroom.1) (by simpa using hroom.2)
      rw [hout]
      exact Or.inl ⟨by simpa using hroom.2, _, rfl, hholds, rfl, rfl, hfive⟩
    · -- the limit is not a number of whole entries
      simp only [List.length_append, List.length_cons, List.length_nil] at hover hfive
      rw [hover (by omega)]
      exact Or.inr ⟨by simp only [List.length_append, List.length_cons, List.length_nil]; omega, rfl⟩

theorem SemBuffer.Holds.emitLines (h : b.Holds cap e) (hlt : e.buf.length < 2 ^ 31) (n : ℕ)
    (line character : UInt32) (p : CStr) :
    Stored cap (TaskjugglerLsp.emitLines tokenType modifiers n line character p e)
      (SemBuffer.emitLines tokenType modifiers n line character p b) := by
  induction n generalizing line character p e b with
  | zero => exact h.stored hlt
  | succ n ih =>
    rw [TaskjugglerLsp.emitLines, SemBuffer.emitLines]
    by_cases hempty : UInt32.ofNat (p.takeWhile (· != 10)).length = 0
    · simp only [if_pos hempty]
      exact ih h hlt _ _ _
    · simp only [if_neg hempty]
      exact (h.pushRelativeEntry hlt _ _ _).bind (emitLines_spec tokenType modifiers n _ _ _ _).1
        fun b hb hlt => ih hb hlt _ _ _

theorem SemBuffer.Holds.emitToken (h : b.Holds cap e) (hlt : e.buf.length < 2 ^ 31)
    (t : TokenSpan) :
    Stored cap (TaskjugglerLsp.emitToken tokenType modifiers e t)
      (SemBuffer.emitToken tokenType modifiers b t) := by
  unfold SemBuffer.emitToken TaskjugglerLsp.emitToken
  by_cases hline : t.start.line = t.stop.line
  · rw [if_pos hline, if_pos hline]
    exact h.pushRelativeEntry hlt _ _ _
  · rw [if_neg hline, if_neg hline]
    exact (h.emitLines hlt _ _ _ _).bind (pushRelativeEntry_spec tokenType modifiers _ _ _ _).1
      fun b hb hlt => hb.pushRelativeEntry hlt _ _ _

theorem SemBuffer.Holds.emitSpan (h : b.Holds cap e) (hlt : e.buf.length < 2 ^ 31)
    (t : TokenSpan) : Stored cap (TaskjugglerLsp.emitSpan e t) (SemBuffer.emitSpan b t) := by
  unfold SemBuffer.emitSpan TaskjugglerLsp.emitSpan
  cases classify t.tokenKind with
  | none => exact h.stored hlt
  | some x => exact h.emitToken hlt t

theorem SemBuffer.Holds.emitSpans (h : b.Holds cap e) (hlt : e.buf.length < 2 ^ 31)
    (spans : List TokenSpan) :
    Stored cap (spans.foldl TaskjugglerLsp.emitSpan e) (spans.foldlM SemBuffer.emitSpan b) := by
  induction spans generalizing e b with
  | nil => exact h.stored hlt
  | cons t spans ih =>
    rw [List.foldl_cons, List.foldlM_cons]
    exact (h.emitSpan hlt t).bind (prefix_foldl_emitSpan _ spans) fun b hb hlt => ih hb hlt

end Stored

/-- **The array gets all integers** as long as there is room for them and the counter fits them; else
a write falls outside. -/
theorem computeSemanticTokensBuf_eq (spans : List TokenSpan) (numSemEntries : ℕ) :
    computeSemanticTokensBuf spans numSemEntries =
      if (computeSemanticTokensData spans).length ≤ 5 * numSemEntries ∧
        (computeSemanticTokensData spans).length < 2 ^ 31
      then some (computeSemanticTokensData spans) else none := by
  have hfive := five_dvd_computeSemanticTokensData spans
  have hnew : SemBuffer.Holds ⟨⟨List.replicate (if 0 < numSemEntries * 5 then
      numSemEntries * 5 else 1) 0, 0⟩, 0, 0⟩ _ ⟨[], 0, 0⟩ :=
    ⟨CountedArray.holds_new 0 _, rfl, rfl, dvd_zero 5⟩
  -- the one cell of an empty array has no room for an entry
  have hroom : (computeSemanticTokensData spans).length
        ≤ (if 0 < numSemEntries * 5 then numSemEntries * 5 else 1) ↔
      (computeSemanticTokensData spans).length ≤ 5 * numSemEntries := by
    split_ifs <;> omega
  have hstored := hnew.emitSpans (by decide) spans
  unfold computeSemanticTokensBuf
  simp only
  rcases hstored with ⟨hlt, b, hb, hholds⟩ | ⟨hover, hnone⟩
  · have hread : b.out.cells.take b.out.count.toNat = computeSemanticTokensData spans := by
      rw [hholds.out.count_eq, Int.toNat_natCast, hholds.out.take_cells, computeSemanticTokensData]
    have hle : (computeSemanticTokensData spans).length ≤ 5 * numSemEntries :=
      hroom.mp hholds.out.length_le
    rw [hb, Option.map_some, hread]
    exact (if_pos ⟨hle, hlt⟩).symm
  · rw [hnone, Option.map_none, if_neg]
    rintro ⟨hle, hlt⟩
    exact hover.elim (Nat.not_lt.mpr (hroom.mpr hle)) (Nat.not_le.mpr hlt)

/-! ### A scan -/

theorem LexReached.computeSemanticTokensBuf_eq {src input : CStr}
    (hscan : yyScanString src = some input) {s : LexState} (h : LexReached input s) :
    computeSemanticTokensBuf s.vars.tokSpans s.vars.numSemEntries =
      if (computeSemanticTokensData s.vars.tokSpans).length < 2 ^ 31 then
        some (computeSemanticTokensData s.vars.tokSpans) else none := by
  have hfits := h.fits_buffer hscan s.vars.tokSpans.length
  rw [List.take_length] at hfits
  rw [TaskjugglerLsp.computeSemanticTokensBuf_eq]
  simp only [hfits, true_and]

end TaskjugglerLsp
