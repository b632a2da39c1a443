import Mathlib.Algebra.Order.Group.Nat
import TaskjugglerLsp.Lifecycle.TextChanges

/-!
# Positions beyond the end of their line

The protocol takes a character beyond the end of a line for the end of that line.  The
scans of `apply_incremental_change` do not: they stop at the byte that the character
counts to, if the line has it, and otherwise run on to the end of the text
(`TextLine.lands`).  What a scan passes over on the way is the `overrun` of its
position.

`clamps_iff` says when an edit comes out as if its positions were clamped: exactly if
the two overruns cancel around the new text.
-/

namespace TaskjugglerLsp

open Lib

/-! ### Where the scans land -/

/-- A scan for `p` stops after the prefix `X`: it has the position there, or nowhere. -/
structure Lands (src : CStr) (p : LspPos) (X : CStr) : Prop where
  pre : X <+: src
  stop : bytePos X = p.nat ∨
    X = src ∧ ∀ pre, pre <+: src → LspPos.wrap (bytePos pre) ≠ p

theorem Lands.scanTo {src X : CStr} {p : LspPos} (h : Lands src p X) :
    scanTo p src ⟨0, 0⟩ = X.length := by
  rcases h.stop with hhit | ⟨hall, hmiss⟩
  · obtain ⟨rest, rfl⟩ := h.pre
    exact scanTo_hit X rest (0, 0) hhit
  · rw [hall]
    exact scanTo_miss src (0, 0) hmiss

/-- The second scan, from where the first has stopped. -/
theorem Lands.scanTo_from {X rest Y : CStr} {p q : LspPos} (hX : bytePos X = p.nat)
    (hY : Lands (X ++ rest) q Y) (hle : X.length ≤ Y.length) :
    TaskjugglerLsp.scanTo q rest p = Y.length - X.length := by
  obtain ⟨mid, rfl⟩ := List.prefix_of_prefix_length_le ⟨rest, rfl⟩ hY.pre hle
  rw [List.length_append, Nat.add_sub_cancel_left, ← p.wrap_nat, ← hX]
  rcases hY.stop with hhit | ⟨hall, hmiss⟩
  · obtain ⟨post, hpost⟩ := hY.pre
    rw [List.append_assoc] at hpost
    rw [← List.append_cancel_left hpost]
    refine scanTo_hit mid post _ ?_
    rw [← hhit]
    exact (cursor_append isNewline _ (0, 0) X mid).symm
  · rw [List.append_cancel_left hall]
    refine scanTo_miss rest _ fun pre hpre => ?_
    have h := hmiss (X ++ pre) ((List.prefix_append_right_inj X).mpr hpre)
    rwa [bytePos, cursor_append] at h

/-- **What the edit makes of the text**, if its first scan stops first or runs to the end. -/
theorem applyIncrementalChange_lands {src X Y : CStr} {range : LspRange} (new : CStr)
    (hX : Lands src range.start X) (hY : Lands src range.stop Y)
    (hle : X.length ≤ Y.length ∨ X = src) :
    applyIncrementalChange src range new = X ++ new ++ src.drop (max X.length Y.length) := by
  have htake : src.take X.length = X := (List.prefix_iff_eq_take.mp hX.pre).symm
  have hcase : X = src ∨ bytePos X = range.start.nat ∧ X.length ≤ Y.length := by
    rcases hX.stop with hhit | ⟨hall, -⟩
    · rcases hle with hle | hall
      · exact Or.inr ⟨hhit, hle⟩
      · exact Or.inl hall
    · exact Or.inl hall
  simp only [applyIncrementalChange, hX.scanTo, htake]
  rcases hcase with hall | ⟨hhit, hlen⟩
  · have hYlen := hY.pre.length_le
    subst hall
    rw [ List.drop_length, scanTo, Nat.add_zero, max_eq_left hYlen, List.drop_length]
  · clear htake
    obtain ⟨rest, rfl⟩ := hX.pre
    rw [List.drop_left, hY.scanTo_from hhit hlen, Nat.add_sub_cancel' hlen, max_eq_right hlen]

/-! ### Lines and their ends -/

/-- Every position of the text is a position of the protocol: a pair of 32-bit numbers. -/
def Addressable (text : List Char) : Prop := ∀ pre, pre <+: utf8 text → Fits32 (bytePos pre)

theorem addressable_of_length_lt {text : List Char} (h : (utf8 text).length < 2 ^ 32) :
    Addressable text := by
  intro pre hpre
  have hlen := hpre.length_le
  exact fits32_bytePos (by omega)

/-- The characters of a line without the carriage return that belongs to its line end. -/
def withoutCr (content post : List Char) : List Char :=
  if post ≠ [] ∧ content.getLast? = some '\r' then content.dropLast else content

/-- A line of a text, by its number. -/
structure TextLine (text : List Char) (n : ℕ) where
  pre : List Char
  content : List Char
  post : List Char
  isLine : IsLine isNewlineChar text n pre content post

namespace TextLine

variable {text : List Char} {n : ℕ} (l : TextLine text n)

/-- The length of the line in UTF-16 code units. -/
def length : ℕ := ((withoutCr l.content l.post).map utf16Size).sum

/-- The position, moved to the end of the line if it is beyond it. -/
def clamp (p : LspPos) : LspPos :=
  if l.length < p.character.toNat then ⟨p.line, UInt32.ofNat l.length⟩ else p

/-- The text up to a byte of the line. -/
def upTo (k : ℕ) : CStr := utf8 l.pre ++ (utf8 l.content).take k

/-- What a scan passes over beyond the end of the line: up to the byte that the
character counts to, and everything that follows if the line has no such byte. -/
def overrun (p : LspPos) : CStr :=
  if p.character.toNat ≤ l.length then []
  else if p.character.toNat ≤ (utf8 l.content).length then
    ((utf8 l.content).drop l.length).take (p.character.toNat - l.length)
  else (utf8 l.content).drop l.length ++ utf8 l.post

theorem length_le : l.length ≤ (utf8 l.content).length := by
  refine le_trans ?_ (utf16_le_utf8 l.content)
  unfold length withoutCr
  split
  · exact List.Sublist.sum_le_sum ((List.dropLast_sublist l.content).map utf16Size)
      fun _ _ => Nat.zero_le _
  · exact le_rfl

theorem text_eq : utf8 text = utf8 l.pre ++ utf8 l.content ++ utf8 l.post := by
  rw [← utf8_append, ← utf8_append, ← l.isLine.eq]

theorem upTo_prefix (k : ℕ) : l.upTo k <+: utf8 text := by
  refine ⟨(utf8 l.content).drop k ++ utf8 l.post, ?_⟩
  rw [upTo, l.text_eq, ← List.append_assoc, List.append_assoc (utf8 l.pre),
    List.take_append_drop]

theorem length_upTo {k : ℕ} (hk : k ≤ (utf8 l.content).length) :
    (l.upTo k).length = (utf8 l.pre).length + k := by
  rw [upTo, List.length_append, List.length_take, Nat.min_eq_left hk]

theorem bytePos_upTo {k : ℕ} (hk : k ≤ (utf8 l.content).length) :
    bytePos (l.upTo k) = (n, k) := by
  rw [upTo, bytePos, l.isLine.utf8.cursor_take, List.map_const', List.sum_replicate,
    List.length_take, Nat.min_eq_left hk, Nat.nsmul_eq_mul, Nat.mul_one]

theorem clamp_nat (p : LspPos) : (l.clamp p).nat = (p.nat.1, min l.length p.nat.2) := by
  unfold clamp
  split
  case isTrue h =>
    have hlt : l.length < 2 ^ 32 := h.trans p.character.toNat_lt
    simp only [LspPos.nat, UInt32.toNat_ofNat', Nat.mod_eq_of_lt hlt]
    rw [min_eq_left h.le]
  case isFalse h => rw [LspPos.nat, min_eq_right (Nat.le_of_not_lt h)]

end TextLine

/-- A text has one line of each number. -/
theorem TextLine.unique {text : List Char} {n k : ℕ} (l : TextLine text n) (m : TextLine text k)
    (h : n = k) : l.content = m.content ∧ l.length = m.length := by
  subst h
  obtain ⟨-, hcontent, hpost⟩ := l.isLine.unique m.isLine
  exact ⟨hcontent, by rw [TextLine.length, TextLine.length, hcontent, hpost]⟩

section Endpoint

variable {text : List Char} {p : LspPos} (l : TextLine text p.line.toNat)

/-- The text up to the position, moved to the end of the line if it is beyond it. -/
def TextLine.kept (p : LspPos) : CStr := l.upTo (min l.length p.nat.2)

theorem TextLine.kept_prefix : l.kept p <+: utf8 text := l.upTo_prefix _

theorem TextLine.bytePos_kept : bytePos (l.kept p) = (l.clamp p).nat := by
  rw [l.clamp_nat, TextLine.kept, l.bytePos_upTo ((min_le_left _ _).trans l.length_le)]
  rfl

theorem TextLine.lands_clamp : Lands (utf8 text) (l.clamp p) (l.kept p) :=
  ⟨l.kept_prefix, Or.inl l.bytePos_kept⟩

theorem TextLine.overrun_within (hc : p.character.toNat ≤ (utf8 l.content).length) :
    l.kept p ++ l.overrun p = l.upTo p.character.toNat := by
  have hp : p.nat.2 = p.character.toNat := rfl
  unfold overrun kept
  by_cases hin : p.character.toNat ≤ l.length
  · rw [if_pos hin, List.append_nil, hp, min_eq_right hin]
  · rw [if_neg hin, if_pos hc, hp, min_eq_left (by omega), upTo, upTo, List.append_assoc,
      ← List.take_add]
    congr 2
    omega

theorem TextLine.overrun_beyond (hc : (utf8 l.content).length < p.character.toNat) :
    l.kept p ++ l.overrun p = utf8 text := by
  have hlen := l.length_le
  have hp : p.nat.2 = p.character.toNat := rfl
  unfold overrun kept
  rw [if_neg (by omega), if_neg (by omega), hp, min_eq_left (by omega), upTo, List.append_assoc,
    ← List.append_assoc (List.take _ _), List.take_append_drop, l.text_eq, List.append_assoc]

/-- **A scan passes over the overrun** of its position. -/
theorem TextLine.lands (ha : Addressable text) :
    Lands (utf8 text) p (l.kept p ++ l.overrun p) := by
  rcases Nat.lt_or_ge (utf8 l.content).length p.character.toNat with hc | hc
  · rw [l.overrun_beyond hc]
    refine ⟨List.prefix_rfl, Or.inr ⟨rfl, fun pre hpre he => ?_⟩⟩
    -- a prefix with that position would end on the line, beyond its last byte
    have hpos := (LspPos.wrap_eq_iff (ha pre hpre) p).mp he
    obtain ⟨k, hk, rfl⟩ := l.isLine.utf8.prefix_on one_pos_width hpre (congrArg Prod.fst hpos)
    have hk' := l.bytePos_upTo hk
    rw [TextLine.upTo, hpos] at hk'
    have : p.character.toNat = k := (Prod.mk.inj hk').2
    omega
  · rw [l.overrun_within hc]
    exact ⟨l.upTo_prefix _, Or.inl (l.bytePos_upTo hc)⟩

end Endpoint

/-! ### When an edit is clamped -/

/-- The edit comes out as if both positions were clamped, and what follows the line of the
end position stays. -/
structure Clamps (text : List Char) (range : LspRange) (new : CStr)
    (l : TextLine text range.start.line.toNat) (m : TextLine text range.stop.line.toNat) : Prop where
  same : applyIncrementalChange (utf8 text) range new
    = applyIncrementalChange (utf8 text) ⟨l.clamp range.start, m.clamp range.stop⟩ new
  keeps : utf8 m.post <:+ applyIncrementalChange (utf8 text) range new

section Range

variable {text : List Char} {range : LspRange} (l : TextLine text range.start.line.toNat)
  (m : TextLine text range.stop.line.toNat)

theorem clamp_ordered (hord : ¬ Before range.stop.nat range.start.nat) :
    ¬ Before (m.clamp range.stop).nat (l.clamp range.start).nat := by
  rw [l.clamp_nat, m.clamp_nat]
  unfold Before at *
  rintro (hlt | ⟨heq, hlt⟩)
  · exact hord (Or.inl hlt)
  · rw [(l.unique m heq.symm).2] at hlt
    refine hord (Or.inr ⟨heq, ?_⟩)
    simp only at hlt
    omega

theorem length_kept_le (hord : ¬ Before range.stop.nat range.start.nat) :
    (l.kept range.start).length ≤ (m.kept range.stop).length := by
  have h := clamp_ordered l m hord
  rw [← l.bytePos_kept, ← m.bytePos_kept,
    before_bytePos_iff m.kept_prefix l.kept_prefix] at h
  exact Nat.le_of_not_lt h

/-- What the edit with clamped positions makes of the text. -/
theorem applyIncrementalChange_clamp (hord : ¬ Before range.stop.nat range.start.nat)
    (new : CStr) :
    applyIncrementalChange (utf8 text) ⟨l.clamp range.start, m.clamp range.stop⟩ new
      = l.kept range.start ++ new ++ (utf8 text).drop (m.kept range.stop).length := by
  have hlow := length_kept_le l m hord
  rw [applyIncrementalChange_lands new l.lands_clamp m.lands_clamp (Or.inl hlow),
    max_eq_right hlow]

/-- The text beyond the end line outlives an edit with clamped positions. -/
theorem post_suffix (new : CStr) :
    utf8 m.post <:+ l.kept range.start ++ new ++ (utf8 text).drop (m.kept range.stop).length := by
  have hk : min m.length range.stop.nat.2 ≤ (utf8 m.content).length :=
    (min_le_left _ _).trans m.length_le
  refine List.IsSuffix.trans ?_ (List.suffix_append _ _)
  rw [TextLine.kept, m.length_upTo hk, m.text_eq, List.drop_append_of_le_length
    (by rw [List.length_append]; omega)]
  exact List.suffix_append _ _

/-- The end scan stops first only if the start runs to the end of the text from an earlier line. -/
theorem length_kept_lt (ha : Addressable text) (hord : ¬ Before range.stop.nat range.start.nat)
    (h : (m.kept range.stop ++ m.overrun range.stop).length
      < (l.kept range.start ++ l.overrun range.start).length) :
    (l.kept range.start).length < (m.kept range.stop).length ∧
      l.kept range.start ++ l.overrun range.start = utf8 text := by
  -- the start runs to the end of the text, and the end does not
  have hstart : (utf8 l.content).length < range.start.character.toNat := by
    by_contra hc
    have hhit := l.bytePos_upTo (Nat.le_of_not_lt hc)
    rw [← l.overrun_within (Nat.le_of_not_lt hc)] at hhit
    rcases (m.lands ha).stop with hstop | ⟨hall, -⟩
    · have hb := (before_bytePos_iff (m.lands ha).pre (l.lands ha).pre).mpr h
      rw [hstop, hhit] at hb
      exact hord hb
    · rw [hall] at h
      have := (l.lands ha).pre.length_le
      omega
  have hall := l.overrun_beyond hstart
  have hstop : range.stop.character.toNat ≤ (utf8 m.content).length := by
    by_contra hc
    rw [m.overrun_beyond (Nat.lt_of_not_le hc), hall] at h
    exact lt_irrefl _ h
  -- so the end is on a later line
  have hline : range.start.line.toNat < range.stop.line.toNat := by
    rcases Nat.lt_trichotomy range.start.line.toNat range.stop.line.toNat with hlt | heq | hgt
    · exact hlt
    · rw [(l.unique m heq).1] at hstart
      exact absurd (Or.inr ⟨heq.symm, hstop.trans_lt hstart⟩) hord
    · exact absurd (Or.inl hgt) hord
  refine ⟨?_, hall⟩
  rw [← before_bytePos_iff l.kept_prefix m.kept_prefix, l.bytePos_kept, m.bytePos_kept, l.clamp_nat,
    m.clamp_nat]
  exact Or.inl hline

end Range

/-- **An edit is clamped** exactly if the overruns of its positions cancel around the new text. -/
theorem clamps_iff {text : List Char} (ha : Addressable text) (range : LspRange) (new : CStr)
    (l : TextLine text range.start.line.toNat) (m : TextLine text range.stop.line.toNat)
    (hord : ¬ Before range.stop.nat range.start.nat) :
    Clamps text range new l m ↔
      l.overrun range.start ++ new = new ++ m.overrun range.stop := by
  have hlow := length_kept_le l m hord
  have hX := l.lands ha
  have hY := m.lands ha
  have hclamp := applyIncrementalChange_clamp l m hord new
  have hsame : Clamps text range new l m ↔ applyIncrementalChange (utf8 text) range new
      = l.kept range.start ++ new ++ (utf8 text).drop (m.kept range.stop).length := by
    rw [← hclamp]
    refine ⟨fun h => h.same, fun h => ⟨h, ?_⟩⟩
    rw [h, hclamp]
    exact post_suffix l m new
  rw [hsame]
  rcases Nat.lt_or_ge (m.kept range.stop ++ m.overrun range.stop).length
      (l.kept range.start ++ l.overrun range.start).length with hlt | hge
  · -- both sides fail for their lengths
    obtain ⟨hkept, hall⟩ := length_kept_lt l m ha hord hlt
    have happly := applyIncrementalChange_lands new hX hY (Or.inr hall)
    rw [hall] at happly hlt
    have htext := congrArg List.length hall
    rw [List.length_append] at htext hlt
    rw [happly, max_eq_left hY.pre.length_le, List.drop_length]
    constructor
    · intro h
      have := congrArg List.length h
      simp only [List.length_append, List.length_nil, List.length_drop] at this
      omega
    · intro h
      have := congrArg List.length h
      simp only [List.length_append] at this
      omega
  · have happly := applyIncrementalChange_lands new hX hY (Or.inl hge)
    obtain ⟨rest, hrest⟩ := hY.pre
    have hdrop : (utf8 text).drop (m.kept range.stop).length = m.overrun range.stop ++ rest := by
      rw [← hrest, List.append_assoc, List.drop_left]
    have hdrop' : (utf8 text).drop (m.kept range.stop ++ m.overrun range.stop).length = rest := by
      rw [← hrest, List.drop_left]
    rw [happly, max_eq_right hge, hdrop, hdrop']
    simp only [← List.append_assoc, List.append_cancel_right_eq]
    simp only [List.append_assoc, List.append_cancel_left_eq]

/-- Two lines of one letter. -/
def twoLines : List Char := ['a', '\n', 'b']

def twoLines.first : TextLine twoLines 0 where
  pre := []
  content := ['a']
  post := ['\n', 'b']
  isLine := ⟨rfl, fun _ => rfl, by decide, Or.inr ⟨'\n', ['b'], rfl, rfl⟩⟩

def twoLines.second : TextLine twoLines 1 where
  pre := ['a', '\n']
  content := ['b']
  post := []
  isLine := ⟨rfl, fun _ => rfl, by decide, Or.inl rfl⟩

/-- Beyond the end of the last line, an insertion is clamped. -/
theorem clamps_last_line :
    Clamps twoLines ⟨⟨1, 5⟩, ⟨1, 5⟩⟩ (cstr "x") twoLines.second twoLines.second := by
  have hlen : (utf8 twoLines).length < 2 ^ 32 := by decide
  refine (clamps_iff (addressable_of_length_lt hlen) ⟨⟨1, 5⟩, ⟨1, 5⟩⟩ (cstr "x") twoLines.second
    twoLines.second ?_).mpr (by decide)
  exact fun h => h.ne rfl

/-- Beyond the end of the first line, it goes to the end of the text. -/
theorem not_clamps_first_line :
    ¬ ∀ (text : List Char) (range : LspRange) (new : CStr)
      (l : TextLine text range.start.line.toNat) (m : TextLine text range.stop.line.toNat),
      ¬ Before range.stop.nat range.start.nat → Clamps text range new l m := by
  intro h
  have hclamps := h twoLines ⟨⟨0, 5⟩, ⟨0, 5⟩⟩ (cstr "x") twoLines.first twoLines.first
    fun hb => hb.ne rfl
  have hcode : applyIncrementalChange (utf8 twoLines) ⟨⟨0, 5⟩, ⟨0, 5⟩⟩ (cstr "x")
      = cstr "a\nbx" := by decide
  have hclamped : applyIncrementalChange (utf8 twoLines)
      ⟨twoLines.first.clamp ⟨0, 5⟩, twoLines.first.clamp ⟨0, 5⟩⟩ (cstr "x") = cstr "ax\nb" := by
    decide
  have hsame := hclamps.same
  rw [hcode] at hsame
  exact absurd (hsame.trans hclamped) (by decide)

end TaskjugglerLsp
