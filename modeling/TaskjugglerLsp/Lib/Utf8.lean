import TaskjugglerLsp.Lib.TextCursor

/-!
# UTF-8 and UTF-16

The UTF-8 encoding of a text (`utf8`), its cursor, and the number of UTF-16 code units.
A text has no more code units than bytes (`utf16_le_utf8`), and as many only if it is
ASCII (`utf8_le_utf16_iff`).  A cut of the bytes
falls between two characters unless a continuation byte follows it (`utf8_cut`).
-/

namespace TaskjugglerLsp.Lib

/-- The UTF-8 encoding of a text. -/
def utf8 (cs : List Char) : List UInt8 := cs.flatMap String.utf8EncodeChar

@[simp] theorem utf8_nil : utf8 [] = [] := rfl

@[simp] theorem utf8_append (cs ds : List Char) : utf8 (cs ++ ds) = utf8 cs ++ utf8 ds :=
  List.flatMap_append

@[simp] theorem utf8_cons (c : Char) (cs : List Char) :
    utf8 (c :: cs) = String.utf8EncodeChar c ++ utf8 cs := rfl

/-- The number of UTF-16 code units of a character. -/
def utf16Size (c : Char) : ℕ := if c.toNat ≤ 0xFFFF then 1 else 2

theorem utf16Size_pos (c : Char) : 0 < utf16Size c := by
  unfold utf16Size
  split <;> decide

theorem utf16Size_le (c : Char) : utf16Size c ≤ (String.utf8EncodeChar c).length := by
  unfold utf16Size String.utf8EncodeChar
  simp only [Char.toNat_val]
  split_ifs <;> first | omega | simp

/-- Exactly the ASCII characters are as long in both encodings. -/
theorem utf16Size_eq_iff (c : Char) :
    utf16Size c = (String.utf8EncodeChar c).length ↔ c.toNat ≤ 127 := by
  unfold utf16Size String.utf8EncodeChar
  simp only [Char.toNat_val]
  split_ifs <;> simp <;> omega

/-- The line feed of a byte text. -/
def isNewline (b : UInt8) : Bool := b == 10

/-- The line feed of a text. -/
def isNewlineChar (c : Char) : Bool := c == '\n'

theorem utf8EncodeChar_newline {c : Char} (h : isNewlineChar c = true) :
    ∃ b, String.utf8EncodeChar c = [b] ∧ isNewline b = true := by
  obtain rfl := beq_iff_eq.mp h
  exact ⟨10, rfl, rfl⟩

theorem utf8EncodeChar_other {c : Char} (h : isNewlineChar c = false) :
    ∀ b ∈ String.utf8EncodeChar c, isNewline b = false := by
  have hne : ∀ n : ℕ, n < 256 → n ≠ 10 → isNewline (UInt8.ofNat n) = false := by
    intro n hn h10
    rw [isNewline, beq_eq_false_iff_ne]
    intro he
    have := congrArg UInt8.toNat he
    simp at this
    omega
  have hc : c.val.toNat ≠ 10 := by
    intro he
    have hceq : c = '\n' := Char.ext (UInt32.toNat.inj he)
    rw [hceq] at h
    cases h
  intro b hb
  unfold String.utf8EncodeChar at hb
  simp only at hb
  split_ifs at hb with h1 h2 h3 <;> simp only [List.mem_cons, List.not_mem_nil, or_false] at hb
  · rw [hb]
    exact hne _ (by omega) hc
  · rcases hb with rfl | rfl <;> exact hne _ (by omega) (by omega)
  · rcases hb with rfl | rfl | rfl <;> exact hne _ (by omega) (by omega)
  · rcases hb with rfl | rfl | rfl | rfl <;> exact hne _ (by omega) (by omega)

/-- The cursor of the bytes counts the bytes of the characters. -/
theorem cursor_utf8 (p : ℕ × ℕ) (cs : List Char) :
    cursor isNewline (fun _ => 1) p (utf8 cs)
      = cursor isNewlineChar (fun c => (String.utf8EncodeChar c).length) p cs := by
  rw [utf8, cursor_flatMap (fun _ => utf8EncodeChar_newline) fun _ => utf8EncodeChar_other]
  exact cursor_congr (fun c _ => by simp) p

theorem IsLine.utf8 {text pre content post : List Char} {n : ℕ}
    (h : IsLine isNewlineChar text n pre content post) :
    IsLine isNewline (Lib.utf8 text) n (Lib.utf8 pre) (Lib.utf8 content) (Lib.utf8 post) :=
  h.flatMap (fun _ => utf8EncodeChar_newline) fun _ => utf8EncodeChar_other

theorem utf16_le_utf8 (cs : List Char) : (cs.map utf16Size).sum ≤ (utf8 cs).length := by
  induction cs with
  | nil => exact le_rfl
  | cons c cs ih =>
    have := utf16Size_le c
    rw [List.map_cons, List.sum_cons, utf8_cons, List.length_append]
    omega

theorem utf8_le_utf16_iff (cs : List Char) :
    (utf8 cs).length ≤ (cs.map utf16Size).sum ↔ ∀ c ∈ cs, c.toNat ≤ 127 := by
  induction cs with
  | nil => exact ⟨fun _ c hc => absurd hc List.not_mem_nil, fun _ => le_rfl⟩
  | cons c cs ih =>
    have hc := utf16Size_le c
    have hcs := utf16_le_utf8 cs
    have hiff := utf16Size_eq_iff c
    rw [utf8_cons, List.length_append, List.map_cons, List.sum_cons]
    constructor
    · intro h d hd
      rcases List.mem_cons.mp hd with rfl | hd
      · exact hiff.mp (by omega)
      · exact ih.mp (by omega) d hd
    · intro h
      have h1 := hiff.mpr (h c List.mem_cons_self)
      have h2 := ih.mpr fun d hd => h d (List.mem_cons_of_mem c hd)
      omega

/-! ### Cuts -/

/-- A byte that continues a character. -/
def IsContinuation (b : UInt8) : Prop := 128 ≤ b.toNat ∧ b.toNat < 192

theorem utf8EncodeChar_tail {c : Char} {a : UInt8} {rest : List UInt8}
    (h : String.utf8EncodeChar c = a :: rest) (hne : rest ≠ []) :
    128 ≤ a.toNat ∧ ∀ b ∈ rest, IsContinuation b := by
  have hcont : ∀ n : ℕ, IsContinuation (UInt8.ofNat (n % 64 + 128)) := by
    intro n
    have : n % 64 < 64 := Nat.mod_lt _ (by decide)
    unfold IsContinuation
    rw [UInt8.toNat_ofNat']
    omega
  unfold String.utf8EncodeChar at h
  simp only at h
  split_ifs at h <;> rw [List.cons.injEq] at h <;> obtain ⟨ha, rfl⟩ := h
  · exact absurd rfl hne
  all_goals
    refine ⟨?_, by simp only [List.forall_mem_cons, hcont, List.not_mem_nil, false_implies,
      implies_true, and_self]⟩
    rw [← ha, UInt8.toNat_ofNat']
    omega

/-- **A cut of the bytes** falls between two characters, or within one: then its bytes are large,
and a continuation byte follows. -/
theorem utf8_cut {P Q : List UInt8} {cs : List Char} (h : P ++ Q = utf8 cs) :
    (∃ cs1 cs2, cs = cs1 ++ cs2 ∧ utf8 cs1 = P ∧ utf8 cs2 = Q) ∨
      (∃ P' a, P = P' ++ [a] ∧ 128 ≤ a.toNat) ∧ ∃ b Q', Q = b :: Q' ∧ IsContinuation b := by
  induction cs generalizing P with
  | nil =>
    obtain ⟨rfl, rfl⟩ := List.append_eq_nil_iff.mp h
    exact Or.inl ⟨[], [], rfl, rfl, rfl⟩
  | cons c cs ih =>
    rw [utf8_cons] at h
    rcases List.append_eq_append_iff.mp h with ⟨mid, hc, hQ⟩ | ⟨mid, hP, hcs⟩
    · -- the cut is within the first character, or at one of its ends
      rcases List.eq_nil_or_concat P with rfl | ⟨P', a, rfl⟩
      · exact Or.inl ⟨[], c :: cs, rfl, rfl, h.symm⟩
      · cases mid with
        | nil =>
          rw [List.append_nil] at hc
          exact Or.inl ⟨[c], cs, rfl, by rw [utf8_cons, hc, utf8_nil, List.append_nil], hQ.symm⟩
        | cons b mid =>
          rw [List.concat_eq_append] at hc
          refine Or.inr ⟨⟨P', a, List.concat_eq_append, ?_⟩, b, mid ++ utf8 cs, hQ, ?_⟩
          · cases P' with
            | nil => exact (utf8EncodeChar_tail hc (by simp)).1
            | cons x P' => exact ((utf8EncodeChar_tail hc (by simp)).2 a (by simp)).1
          · cases P' with
            | nil => exact (utf8EncodeChar_tail hc (by simp)).2 b (by simp)
            | cons x P' => exact (utf8EncodeChar_tail hc (by simp)).2 b (by simp)
    · rcases ih hcs.symm with ⟨cs1, cs2, rfl, rfl, hQ⟩ | ⟨⟨P', a, hmid, ha⟩, htail⟩
      · exact Or.inl ⟨c :: cs1, cs2, rfl, by rw [utf8_cons, hP], hQ⟩
      · exact Or.inr ⟨⟨String.utf8EncodeChar c ++ P', a, by rw [hP, hmid, List.append_assoc], ha⟩,
          htail⟩

/-- No character begins with a continuation byte. -/
theorem not_isContinuation_head {cs : List Char} {b : UInt8} {more : List UInt8}
    (h : utf8 cs = b :: more) : ¬ IsContinuation b := by
  cases cs with
  | nil => cases h
  | cons c cs =>
    rw [utf8_cons] at h
    unfold String.utf8EncodeChar at h
    unfold IsContinuation
    simp only at h
    split_ifs at h <;> rw [List.cons_append, List.cons.injEq] at h <;>
      rw [← h.1, UInt8.toNat_ofNat'] <;> omega

/-- After a byte of its own, or at the beginning of the text, a character begins. -/
theorem not_isContinuation {P more : List UInt8} {b : UInt8} {cs : List Char}
    (h : P ++ b :: more <+: utf8 cs) (hP : ∀ P' a, P = P' ++ [a] → a.toNat < 128) :
    ¬ IsContinuation b := by
  obtain ⟨rest, hrest⟩ := h
  rw [List.append_assoc] at hrest
  rcases utf8_cut hrest with ⟨cs1, cs2, -, -, hcs2⟩ | ⟨⟨P', a, hPa, ha⟩, -⟩
  · exact not_isContinuation_head hcs2
  · have := hP P' a hPa
    omega

/-- Where no continuation byte follows, the cut falls between two characters. -/
theorem exists_of_not_isContinuation {P more : List UInt8} {b : UInt8} {cs : List Char}
    (h : P ++ b :: more <+: utf8 cs) (hb : ¬ IsContinuation b) :
    ∃ before, before <+: cs ∧ utf8 before = P := by
  obtain ⟨rest, hrest⟩ := h
  rw [List.append_assoc] at hrest
  rcases utf8_cut hrest with ⟨cs1, cs2, rfl, hcs1, -⟩ | ⟨-, b', Q', hQ, hb'⟩
  · exact ⟨cs1, List.prefix_append _ _, hcs1⟩
  · rw [List.cons_append, List.cons.injEq] at hQ
    exact absurd (hQ.1 ▸ hb') hb

end TaskjugglerLsp.Lib
