import TaskjugglerLsp.Lib.Decimal
import Mathlib.Data.List.TakeWhile
import Mathlib.Data.Nat.Digits.Lemmas
import TaskjugglerLsp.Parser

/-!
# Encoding semantic tokens

`semantic_tokens.c`: the token spans of a document as a flat array, five integers
to an entry, each position relative to the entry before.  What is written is a function
of the spans (`docsnap_sem_tokens` computes it once), and the result id is the
version of the parse in decimal.
-/

namespace TaskjugglerLsp

/-! ### The entries -/

/-- `classify`: the type and the modifiers of a token kind, if it is highlighted. -/
def classify (kind : ℕ) : Option (UInt32 × UInt32) :=
  if kind = tkLbrace ∨ kind = tkRbrace ∨ kind = tkBang ∨ kind = tkDot ∨ kind = tkComma then none
  else if kind = tkLineComment ∨ kind = tkBlockComment then some (1, 0)
  else if kind = tkStr ∨ kind = tkMultiLineStr then some (2, 0)
  else if kind = tkDate ∨ kind = tkDuration then some (3, 0)
  else if kind = tkIdent then some (4, 0)
  else if kind = kwProject ∨ kind = kwTask ∨ kind = kwResource ∨ kind = kwAccount ∨ kind = kwShift then
    some (0, 0)
  else if kwProject ≤ kind ∧ kind ≤ kwYearlyworkingdays then some (5, 0)
  else none

/-- The buffer so far, and the origin of the entry before. -/
structure Emitted where
  buf : List UInt32
  prevLine : UInt32
  prevChar : UInt32

/-- `push_entry`: an entry of length zero is dropped. -/
def pushEntry (buf : List UInt32) (deltaLine deltaStart length tokenType modifiers : UInt32) :
    List UInt32 :=
  if length = 0 then buf else buf ++ [deltaLine, deltaStart, length, tokenType, modifiers]

/-- `push_relative_entry`. -/
def pushRelativeEntry (tokenType modifiers : UInt32) (e : Emitted)
    (line character length : UInt32) : Emitted :=
  let deltaLine := line - e.prevLine
  let deltaStart := if deltaLine = 0 then character - e.prevChar else character
  ⟨pushEntry e.buf deltaLine deltaStart length tokenType modifiers, line, character⟩

/-- The loop of `emit_token` over the lines of a token but the last, on its variant. -/
def emitLines (tokenType modifiers : UInt32) : ℕ → UInt32 → UInt32 → CStr → Emitted → Emitted
  | 0, _, _, _, e => e
  | n + 1, line, character, p, e =>
    let segLen := UInt32.ofNat (p.takeWhile (· != 10)).length
    let e := if segLen = 0 then e
      else pushRelativeEntry tokenType modifiers e line character segLen
    let p := if 10 ∈ p then (p.dropWhile (· != 10)).tail else p
    emitLines tokenType modifiers n (line + 1) 0 p e

/-- `emit_token`: one entry for each line of the token. -/
def emitToken (tokenType modifiers : UInt32) (e : Emitted) (s : TokenSpan) : Emitted :=
  if s.start.line = s.stop.line then
    pushRelativeEntry tokenType modifiers e s.start.line s.start.character
      (s.stop.character - s.start.character)
  else
    let n := s.stop.line.toNat - s.start.line.toNat
    let e := emitLines tokenType modifiers n s.start.line s.start.character (s.text.getD []) e
    -- the loop leaves the column at 0, unless it has not run
    pushRelativeEntry tokenType modifiers e (if n = 0 then s.start.line else s.stop.line)
      (if n = 0 then s.start.character else 0) s.stop.character

/-- One round of `compute_semantic_tokens_data`. -/
def emitSpan (e : Emitted) (s : TokenSpan) : Emitted :=
  match classify s.tokenKind with
  | some (tokenType, modifiers) => emitToken tokenType modifiers e s
  | none => e

/-- The integers of `compute_semantic_tokens_data`, in the order of its writes.  The `int` that
counts them and the array are in `computeSemanticTokensBuf`. -/
def computeSemanticTokensData (spans : List TokenSpan) : List UInt32 :=
  (spans.foldl emitSpan ⟨[], 0, 0⟩).buf

theorem five_dvd_pushRelativeEntry {tokenType modifiers : UInt32} {e : Emitted}
    (h : 5 ∣ e.buf.length) (line character length : UInt32) :
    5 ∣ (pushRelativeEntry tokenType modifiers e line character length).buf.length := by
  simp only [pushRelativeEntry, pushEntry]
  split
  · exact h
  · rw [List.length_append]
    exact Nat.dvd_add h (dvd_refl 5)

theorem five_dvd_emitLines {tokenType modifiers : UInt32} (n : ℕ) (line character : UInt32)
    (p : CStr) {e : Emitted} (h : 5 ∣ e.buf.length) :
    5 ∣ (emitLines tokenType modifiers n line character p e).buf.length := by
  induction n generalizing line character p e with
  | zero => exact h
  | succ n ih =>
    rw [emitLines]
    apply ih
    split
    · exact h
    · exact five_dvd_pushRelativeEntry h _ _ _

theorem five_dvd_emitSpan {e : Emitted} (h : 5 ∣ e.buf.length) (s : TokenSpan) :
    5 ∣ (emitSpan e s).buf.length := by
  unfold emitSpan
  split
  · unfold emitToken
    split
    · exact five_dvd_pushRelativeEntry h _ _ _
    · exact five_dvd_pushRelativeEntry (five_dvd_emitLines _ _ _ _ h) _ _ _
  · exact h

/-- **Entries are five integers each.** -/
theorem five_dvd_computeSemanticTokensData (spans : List TokenSpan) :
    5 ∣ (computeSemanticTokensData spans).length := by
  have hfold : ∀ (spans : List TokenSpan) (e : Emitted), 5 ∣ e.buf.length →
      5 ∣ (spans.foldl emitSpan e).buf.length := by
    intro spans
    induction spans with
    | nil => exact fun e h => h
    | cons s spans ih => exact fun e h => ih _ (five_dvd_emitSpan h s)
  exact hfold spans _ (by decide)

/-! ### Result ids -/

/-- The digit `n` of a decimal number. -/
def digitByte (n : ℕ) : UInt8 := UInt8.ofNat (48 + n)

/-- What `%PRIu64` prints. -/
def decimal (n : ℕ) : CStr := if n = 0 then [48] else (Nat.digits 10 n).reverse.map digitByte

/-- `isspace`, in the C locale. -/
def isSpace (c : UInt8) : Bool := c == 32 || (9 ≤ c && c ≤ 13)

/-- `isdigit`. -/
def isDigit (c : UInt8) : Bool := 48 ≤ c && c ≤ 57

/-- The value of some decimal digits. -/
def digitsValue (digits : CStr) : ℕ := digits.foldl (fun n c => n * 10 + (c.toNat - 48)) 0

/-- `strtoull(s, NULL, 10)`: what is out of range is the largest value. -/
def strtoull (s : CStr) : UInt64 :=
  let s := s.dropWhile isSpace
  let value := fun (digits : CStr) => digitsValue (digits.takeWhile isDigit)
  let clamp := fun (n : ℕ) (x : UInt64) => if n < 2 ^ 64 then x else 18446744073709551615
  match s with
  | 45 :: s => clamp (value s) (0 - UInt64.ofNat (value s))
  | 43 :: s => clamp (value s) (UInt64.ofNat (value s))
  | s => clamp (value s) (UInt64.ofNat (value s))

theorem digitByte_spec : ∀ n : Fin 10, isDigit (digitByte n) = true ∧
    (digitByte n).toNat - 48 = n ∧ isSpace (digitByte n) = false ∧ digitByte n ≠ 45 ∧
      digitByte n ≠ 43 := by
  decide

theorem exists_of_mem_decimal {n : ℕ} {c : UInt8} (h : c ∈ decimal n) :
    ∃ d : Fin 10, c = digitByte d :=
  Lib.Decimal.exists_of_mem_text h

theorem isDigit_of_mem_decimal {n : ℕ} {c : UInt8} (h : c ∈ decimal n) : isDigit c = true :=
  Lib.Decimal.isDigit_of_mem_text h

theorem decimal_ne_nil (n : ℕ) : decimal n ≠ [] := Lib.Decimal.text_ne_nil n

theorem digitsValue_decimal (n : ℕ) : digitsValue (decimal n) = n := Lib.Decimal.value_text n

/-- **A result id names its version.** -/
theorem strtoull_decimal (v : UInt64) : strtoull (decimal v.toNat) = v := by
  have hdigits : ∀ c ∈ decimal v.toNat, isDigit c = true := fun c hc => isDigit_of_mem_decimal hc
  have hne := decimal_ne_nil v.toNat
  have hvalue := digitsValue_decimal v.toNat
  cases hs : decimal v.toNat with
  | nil => exact absurd hs hne
  | cons c rest =>
    obtain ⟨d, hc⟩ := exists_of_mem_decimal (c := c) (by rw [hs]; exact List.mem_cons_self)
    obtain ⟨-, -, hspace, h45, h43⟩ := digitByte_spec d
    rw [← hc] at hspace h45 h43
    rw [hs] at hvalue hdigits
    unfold strtoull
    rw [List.dropWhile_cons_of_neg (by rw [hspace]; exact Bool.false_ne_true)]
    have hgen : digitsValue ((c :: rest).takeWhile isDigit) = v.toNat := by
      rw [List.takeWhile_eq_self_iff.mpr hdigits, hvalue]
    simp only
    split
    · rename_i heq
      exact absurd (List.cons.inj heq).1 h45
    · rename_i heq
      exact absurd (List.cons.inj heq).1 h43
    · rw [hgen, if_pos v.toNat_lt, UInt64.ofNat_toNat]

end TaskjugglerLsp
