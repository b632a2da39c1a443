import TaskjugglerLsp.Lib.Utf8
import TaskjugglerLsp.Parser

/-!
# Positions in a text

The position after a text, counted in bytes (`bytePos`) and in the UTF-16 code units of
the protocol (`utf16Pos`), and their relation to the 32-bit numbers of an `LspPos`.
-/

namespace TaskjugglerLsp

open Lib

/-- What is said of every character of a text is decided from the first to the last. -/
instance instDecidableForallMemText (cs : List Char) (p : Char → Prop) [DecidablePred p] :
    Decidable (∀ c ∈ cs, p c) :=
  List.decidableBAll p cs

/-- Line and character of a position, as numbers. -/
def LspPos.nat (p : LspPos) : ℕ × ℕ := (p.line.toNat, p.character.toNat)

/-- The position of a line and a column; the counters of the scans wrap around. -/
def LspPos.wrap (p : ℕ × ℕ) : LspPos := ⟨UInt32.ofNat p.1, UInt32.ofNat p.2⟩

@[simp] theorem LspPos.wrap_nat (p : LspPos) : LspPos.wrap p.nat = p := by
  simp [LspPos.wrap, LspPos.nat]

theorem LspPos.nat_lt (p : LspPos) : p.nat.1 < 2 ^ 32 ∧ p.nat.2 < 2 ^ 32 :=
  ⟨p.line.toNat_lt, p.character.toNat_lt⟩

/-- The rank of a position. -/
def LspPos.key (p : LspPos) : ℕ := p.line.toNat * 2 ^ 32 + p.character.toNat

theorem LspPos.key_inj {p q : LspPos} (h : p.key = q.key) : p = q := by
  have hp := p.character.toNat_lt
  have hq := q.character.toNat_lt
  unfold LspPos.key at h
  have hline : p.line = q.line := UInt32.toNat_inj.mp (by omega)
  have hchar : p.character = q.character := UInt32.toNat_inj.mp (by omega)
  cases p
  cases q
  exact congrArg₂ LspPos.mk hline hchar

theorem LspPos.before_nat_iff_key (p q : LspPos) : Before p.nat q.nat ↔ p.key < q.key := by
  have hp := p.character.toNat_lt
  have hq := q.character.toNat_lt
  unfold Before LspPos.nat LspPos.key
  omega

/-- Line and column fit the counters. -/
def Fits32 (p : ℕ × ℕ) : Prop := p.1 < 2 ^ 32 ∧ p.2 < 2 ^ 32

theorem LspPos.wrap_eq_iff {p : ℕ × ℕ} (h : Fits32 p) (q : LspPos) :
    LspPos.wrap p = q ↔ p = q.nat := by
  constructor
  · rintro rfl
    simp only [LspPos.wrap, LspPos.nat, UInt32.toNat_ofNat']
    rw [Nat.mod_eq_of_lt h.1, Nat.mod_eq_of_lt h.2]
  · rintro rfl
    exact q.wrap_nat

/-- The byte position after a text. -/
abbrev bytePos (xs : CStr) : ℕ × ℕ := cursor isNewline (fun _ => 1) (0, 0) xs

/-- The position after a text of characters, in UTF-16 code units. -/
abbrev utf16Pos (cs : List Char) : ℕ × ℕ := cursor isNewlineChar utf16Size (0, 0) cs

theorem one_pos_width (b : UInt8) : 0 < (fun _ : UInt8 => 1) b := Nat.one_pos

theorem before_bytePos_iff {xs ys src : CStr} (hx : xs <+: src) (hy : ys <+: src) :
    Before (bytePos xs) (bytePos ys) ↔ xs.length < ys.length :=
  before_cursor_iff isNewline one_pos_width hx hy

theorem cursor_le (p : ℕ × ℕ) (xs : CStr) :
    (cursor isNewline (fun _ => 1) p xs).1 ≤ p.1 + xs.length ∧
      (cursor isNewline (fun _ => 1) p xs).2 ≤ p.2 + xs.length := by
  induction xs generalizing p with
  | nil => exact ⟨le_rfl, le_rfl⟩
  | cons b xs ih =>
    obtain ⟨hline, hcolumn⟩ := ih (advance isNewline (fun _ => 1) p b)
    have hstep : (advance isNewline (fun _ => 1) p b).1 ≤ p.1 + 1 ∧
        (advance isNewline (fun _ => 1) p b).2 ≤ p.2 + 1 := by
      unfold advance
      split <;> simp
    rw [cursor_cons, List.length_cons]
    omega

/-- The positions of a text of less than 4 GiB fit. -/
theorem fits32_bytePos {src : CStr} (h : src.length < 2 ^ 32) : Fits32 (bytePos src) := by
  have hle := cursor_le (0, 0) src
  simp only [Nat.zero_add] at hle
  exact ⟨hle.1.trans_lt h, hle.2.trans_lt h⟩

end TaskjugglerLsp
