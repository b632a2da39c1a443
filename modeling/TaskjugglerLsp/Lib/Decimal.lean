import Mathlib.Data.Nat.Digits.Lemmas

/-!
# Decimal numbers

The bytes of a number in decimal, and the value of some digits.

* `value_text`: the value of a number's digits is the number;
* `length_text_le`: how many digits there are at most;
* `head_text`: only zero starts with a zero.
-/

namespace TaskjugglerLsp.Lib.Decimal

/-- The digit `n`. -/
def digit (n : ℕ) : UInt8 := UInt8.ofNat (48 + n)

/-- A number in decimal. -/
def text (n : ℕ) : List UInt8 := if n = 0 then [48] else (Nat.digits 10 n).reverse.map digit

/-- Whether a byte is a digit. -/
def isDigit (c : UInt8) : Bool := 48 ≤ c && c ≤ 57

/-- The value of some digits. -/
def value (digits : List UInt8) : ℕ := digits.foldl (fun n c => n * 10 + (c.toNat - 48)) 0

theorem digit_spec : ∀ n : Fin 10, isDigit (digit n) = true ∧ (digit n).toNat - 48 = n ∧
    (digit n = 48 → n = 0) := by
  decide

theorem exists_of_mem_text {n : ℕ} {c : UInt8} (h : c ∈ text n) : ∃ d : Fin 10, c = digit d := by
  unfold text at h
  split at h
  · exact ⟨0, List.mem_singleton.mp h⟩
  · obtain ⟨d, hd, rfl⟩ := List.mem_map.mp h
    exact ⟨⟨d, Nat.digits_lt_base (by decide) (List.mem_reverse.mp hd)⟩, rfl⟩

theorem isDigit_of_mem_text {n : ℕ} {c : UInt8} (h : c ∈ text n) : isDigit c = true := by
  obtain ⟨d, rfl⟩ := exists_of_mem_text h
  exact (digit_spec d).1

theorem text_ne_nil (n : ℕ) : text n ≠ [] := by
  intro h
  unfold text at h
  split at h
  · cases h
  · rename_i hn
    rw [List.map_eq_nil_iff, List.reverse_eq_nil_iff, Nat.digits_eq_nil_iff_eq_zero] at h
    exact hn h

theorem value_reverse {digits : List ℕ} (h : ∀ d ∈ digits, d < 10) :
    value (digits.reverse.map digit) = Nat.ofDigits 10 digits := by
  induction digits with
  | nil => rfl
  | cons d digits ih =>
    have hd := (digit_spec ⟨d, h d List.mem_cons_self⟩).2.1
    have hrest := ih fun x hx => h x (List.mem_cons_of_mem _ hx)
    unfold value at hrest ⊢
    rw [List.reverse_cons, List.map_append, List.foldl_append, hrest, Nat.ofDigits_cons]
    simp only [List.map_cons, List.map_nil, List.foldl_cons, List.foldl_nil]
    rw [show (digit d).toNat - 48 = d from hd]
    omega

/-- **A number is the value** of its digits. -/
theorem value_text (n : ℕ) : value (text n) = n := by
  unfold text
  split
  · rename_i h
    rw [h]
    rfl
  · rw [value_reverse fun d hd => Nat.digits_lt_base (by decide) hd, Nat.ofDigits_digits]

theorem length_text_le {n k : ℕ} (hk : 0 < k) (h : n < 10 ^ k) : (text n).length ≤ k := by
  unfold text
  split
  · exact hk
  · rw [List.length_map, List.length_reverse]
    exact (Nat.digits_length_le_iff (by decide) n).mpr h

/-- **Only zero starts with a zero.** -/
theorem head_text {n : ℕ} (h : (text n).head? = some 48) : text n = [48] := by
  unfold text at h ⊢
  split at h
  · rename_i hn
    rw [if_pos hn]
  · rename_i hn
    have hne := Nat.digits_ne_nil_iff_ne_zero (b := 10) |>.mpr hn
    rw [List.head?_map, List.head?_reverse, List.getLast?_eq_getLast_of_ne_nil hne,
      Option.map_some, Option.some.injEq] at h
    have hlt := Nat.digits_lt_base (b := 10) (by decide) (List.getLast_mem hne)
    have hzero := (digit_spec ⟨_, hlt⟩).2.2 h
    exact absurd (Fin.mk.inj hzero) (Nat.getLast_digit_ne_zero 10 hn)

end TaskjugglerLsp.Lib.Decimal
