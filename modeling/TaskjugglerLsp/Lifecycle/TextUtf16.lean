import TaskjugglerLsp.Lifecycle.TextClamping

/-!
# Edits of texts that are not ASCII

A position counts UTF-16 code units; a scan for it counts bytes, of which a character
that is not ASCII has more.  So the scan stops early in its line, and the rest of the
line up to the position is the `utf16Lag`.

`applyIncrementalChange_utf16_iff` says when an edit still replaces the characters that
it addresses: exactly if the two lags cancel around the new text.
-/

namespace TaskjugglerLsp

open Lib

/-- What a scan for the position after `pre` leaves of `pre`: the bytes of the last line
beyond as many as the line has code units. -/
def utf16Lag (pre : List Char) : CStr :=
  (utf8 (lastLine isNewlineChar pre)).drop (utf16Pos pre).2

/-- There is no lag exactly if the line is ASCII up to the position. -/
theorem utf16Lag_eq_nil_iff (pre : List Char) :
    utf16Lag pre = [] ↔ Ascii (lastLine isNewlineChar pre) := by
  rw [utf16Lag, List.drop_eq_nil_iff, utf16Pos, cursor_snd, utf8_le_utf16_iff]
  rfl

theorem exists_lands_utf16 (pre : List Char) :
    ∃ X, X ++ utf16Lag pre = utf8 pre ∧ bytePos X = utf16Pos pre := by
  have hle : (utf16Pos pre).2 ≤ (utf8 (lastLine isNewlineChar pre)).length := by
    rw [utf16Pos, cursor_snd]
    exact utf16_le_utf8 _
  refine ⟨utf8 (linesBefore isNewlineChar pre)
    ++ (utf8 (lastLine isNewlineChar pre)).take (utf16Pos pre).2, ?_, ?_⟩
  · rw [utf16Lag, List.append_assoc, List.take_append_drop, ← utf8_append,
      linesBefore_append_lastLine]
  · have hbare : ∀ b ∈ (utf8 (lastLine isNewlineChar pre)).take (utf16Pos pre).2,
        isNewline b = false := by
      intro b hb
      obtain ⟨c, hc, hbc⟩ := List.mem_flatMap.mp (List.mem_of_mem_take hb)
      exact utf8EncodeChar_other (lastLine_bare pre c hc) b hbc
    rw [bytePos, cursor_append, cursor_utf8, cursor_linesBefore, cursor_bare hbare,
      List.map_const', List.sum_replicate, List.length_take, Nat.min_eq_left hle,
      Nat.nsmul_eq_mul, Nat.mul_one, Nat.zero_add]
    exact Prod.ext (cursor_fst utf16Size pre _ _ rfl) rfl

/-- **An edit replaces the characters that it addresses** exactly if the lags of its positions
cancel around the new text. -/
theorem applyIncrementalChange_utf16_iff {pre mid post : List Char} {range : LspRange}
    (hs : utf16Pos pre = range.start.nat) (he : utf16Pos (pre ++ mid) = range.stop.nat)
    (new : List Char) :
    applyIncrementalChange (utf8 (pre ++ mid ++ post)) range (utf8 new)
        = utf8 (pre ++ new ++ post) ↔
      utf8 new ++ utf16Lag (pre ++ mid) = utf16Lag pre ++ utf8 new := by
  obtain ⟨X, hX, hXpos⟩ := exists_lands_utf16 pre
  obtain ⟨Y, hY, hYpos⟩ := exists_lands_utf16 (pre ++ mid)
  have htext : utf8 (pre ++ mid ++ post) = Y ++ (utf16Lag (pre ++ mid) ++ utf8 post) := by
    rw [utf8_append, ← hY, List.append_assoc]
  have htext' : utf8 (pre ++ mid ++ post) = X ++ (utf16Lag pre ++ utf8 mid ++ utf8 post) := by
    rw [utf8_append, utf8_append, ← hX]
    simp only [List.append_assoc]
  have hYin : Lands (utf8 (pre ++ mid ++ post)) range.stop Y :=
    ⟨htext ▸ List.prefix_append _ _, Or.inl (hYpos.trans he)⟩
  have hXin : Lands (utf8 (pre ++ mid ++ post)) range.start X :=
    ⟨htext' ▸ List.prefix_append _ _, Or.inl (hXpos.trans hs)⟩
  have hle : X.length ≤ Y.length := by
    by_contra hlt
    have hb := (before_bytePos_iff hYin.pre hXin.pre).mpr (Nat.lt_of_not_le hlt)
    rw [hXpos, hYpos] at hb
    have hin : pre <+: pre ++ mid := List.prefix_append _ _
    have hlen := (before_cursor_iff isNewlineChar utf16Size_pos List.prefix_rfl hin).mp hb
    rw [List.length_append] at hlen
    omega
  rw [applyIncrementalChange_lands (utf8 new) hXin hYin (Or.inl hle), max_eq_right hle]
  rw [htext, List.drop_left, utf8_append, utf8_append, ← hX]
  simp only [← List.append_assoc, List.append_cancel_right_eq]
  simp only [List.append_assoc, List.append_cancel_left_eq]

end TaskjugglerLsp
