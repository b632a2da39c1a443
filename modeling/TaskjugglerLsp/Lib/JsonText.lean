import TaskjugglerLsp.Lib.Decimal
import TaskjugglerLsp.Lib.Utf8

/-!
# JSON texts

A JSON text is a list of bytes in UTF-8.  `parse` reads one: the whole grammar, with white space,
every escape and every number, and nothing behind the value.  A character outside of ASCII stands
for itself, and a number is read as its sign, its digits and a power of ten.

* `render`: the shortest text of a value;
* `stringBody_quoted`, `number_render`: strings and numbers are read back;
* `isUtf8_render`: where the strings of a value are UTF-8, its text is;
* `parse_render`: then the value is read back from its text.
-/

namespace TaskjugglerLsp.Lib.JsonText

/-- A number: its sign, its digits without the point, and the power of ten. -/
structure Number where
  negative : Bool
  mantissa : ℕ
  exponent : ℤ
  deriving DecidableEq, Repr

inductive Value where
  | null
  | bool (b : Bool)
  | num (n : Number)
  | str (s : List UInt8)
  | arr (items : List Value)
  | obj (fields : List (List UInt8 × Value))

/-! ### Writing -/

/-- A hexadecimal digit. -/
def hexDigit (n : UInt8) : UInt8 := if n < 10 then 48 + n else 87 + n

/-- A byte in a string. -/
def escaped (c : UInt8) : List UInt8 :=
  if c = 34 then [92, 34]
  else if c = 92 then [92, 92]
  else if c < 32 then [92, 117, 48, 48, hexDigit (c >>> 4), hexDigit (c &&& 15)]
  else [c]

/-- A string, in quotes. -/
def quoted (s : List UInt8) : List UInt8 := 34 :: (s.flatMap escaped ++ [34])

def Number.render (n : Number) : List UInt8 :=
  (if n.negative then [45] else []) ++ Decimal.text n.mantissa ++
    if n.exponent = 0 then []
    else 101 :: ((if n.exponent < 0 then [45] else []) ++ Decimal.text n.exponent.natAbs)

mutual

/-- The shortest text of a value. -/
def render : Value → List UInt8
  | .null => [110, 117, 108, 108]
  | .bool true => [116, 114, 117, 101]
  | .bool false => [102, 97, 108, 115, 101]
  | .num n => n.render
  | .str s => quoted s
  | .arr items => 91 :: (renderItems items ++ [93])
  | .obj fields => 123 :: (renderFields fields ++ [125])

/-- The items of an array. -/
def renderItems : List Value → List UInt8
  | [] => []
  | v :: items => render v ++ renderMoreItems items

/-- The items behind the first. -/
def renderMoreItems : List Value → List UInt8
  | [] => []
  | v :: items => 44 :: (render v ++ renderMoreItems items)

/-- The fields of an object. -/
def renderFields : List (List UInt8 × Value) → List UInt8
  | [] => []
  | (key, v) :: fields => quoted key ++ 58 :: (render v ++ renderMoreFields fields)

/-- The fields behind the first. -/
def renderMoreFields : List (List UInt8 × Value) → List UInt8
  | [] => []
  | (key, v) :: fields => 44 :: (quoted key ++ 58 :: (render v ++ renderMoreFields fields))

end

/-! ### Reading -/

def isWs (c : UInt8) : Bool := c == 32 || c == 9 || c == 10 || c == 13

/-- What stands behind the white space. -/
def skipWs (s : List UInt8) : List UInt8 := s.dropWhile isWs

def hexValue (c : UInt8) : Option ℕ :=
  if 48 ≤ c ∧ c ≤ 57 then some (c.toNat - 48)
  else if 65 ≤ c ∧ c ≤ 70 then some (c.toNat - 55)
  else if 97 ≤ c ∧ c ≤ 102 then some (c.toNat - 87)
  else none

/-- Four hexadecimal digits. -/
def hex4 : List UInt8 → Option (ℕ × List UInt8)
  | a :: b :: c :: d :: s => do
    let a ← hexValue a
    let b ← hexValue b
    let c ← hexValue c
    let d ← hexValue d
    some (((a * 16 + b) * 16 + c) * 16 + d, s)
  | _ => none

/-- The UTF-8 encoding of a code point. -/
def encodePoint (n : ℕ) : List UInt8 := String.utf8EncodeChar (Char.ofNat n)

/-- The escape of a code unit: two units of a surrogate pair are one code point. -/
def unicodeEscape (s : List UInt8) : Option (List UInt8 × List UInt8) := do
  let (high, s) ← hex4 s
  if 0xD800 ≤ high ∧ high < 0xDC00 then
    if s.take 2 = [92, 117] then do
      let (low, s) ← hex4 (s.drop 2)
      if 0xDC00 ≤ low ∧ low < 0xE000 then
        some (encodePoint (0x10000 + (high - 0xD800) * 0x400 + (low - 0xDC00)), s)
      else none
    else none
  else if 0xDC00 ≤ high ∧ high < 0xE000 then none
  else some (encodePoint high, s)

/-- The escapes of one letter. -/
def simpleEscape (c : UInt8) : Option UInt8 :=
  if c = 34 ∨ c = 92 ∨ c = 47 then some c
  else if c = 98 then some 8
  else if c = 102 then some 12
  else if c = 110 then some 10
  else if c = 114 then some 13
  else if c = 116 then some 9
  else none

/-- What stands behind a backslash. -/
def escape : List UInt8 → Option (List UInt8 × List UInt8)
  | [] => none
  | c :: s => if c = 117 then unicodeEscape s else (simpleEscape c).map fun b => ([b], s)

/-- A string behind its quote, of at most so many characters. -/
def stringBody : ℕ → List UInt8 → Option (List UInt8 × List UInt8)
  | 0, _ => none
  | _ + 1, [] => none
  | n + 1, c :: s =>
    if c = 34 then some ([], s)
    else if c < 32 then none
    else do
      let (bytes, s) ← if c = 92 then escape s else some ([c], s)
      let (more, s) ← stringBody n s
      some (bytes ++ more, s)

/-- A string. -/
def string : List UInt8 → Option (List UInt8 × List UInt8)
  | [] => none
  | c :: s => if c = 34 then stringBody (s.length + 1) s else none

/-- Some digits, at least one. -/
def digits (s : List UInt8) : Option (List UInt8 × List UInt8) :=
  if s.takeWhile Decimal.isDigit = [] then none
  else some (s.takeWhile Decimal.isDigit, s.dropWhile Decimal.isDigit)

/-- A minus. -/
def minus : List UInt8 → Bool × List UInt8
  | [] => (false, [])
  | c :: s => if c = 45 then (true, s) else (false, c :: s)

/-- A minus or a plus. -/
def sign : List UInt8 → Bool × List UInt8
  | [] => (false, [])
  | c :: s => if c = 43 then (false, s) else minus (c :: s)

/-- The digits behind a point, if there is one. -/
def fraction : List UInt8 → Option (List UInt8 × List UInt8)
  | [] => some ([], [])
  | c :: s => if c = 46 then digits s else some ([], c :: s)

/-- The power of ten, if there is one. -/
def exponent : List UInt8 → Option (ℤ × List UInt8)
  | [] => some (0, [])
  | c :: s =>
    if c = 101 ∨ c = 69 then do
      let (negative, s) := sign s
      let (ds, s) ← digits s
      some (if negative then -(Decimal.value ds : ℤ) else Decimal.value ds, s)
    else some (0, c :: s)

/-- A number: the digits before the point start with a zero only if there are no others. -/
def number (s : List UInt8) : Option (Number × List UInt8) := do
  let (negative, s) := minus s
  let (whole, s) ← digits s
  if whole.head? = some 48 ∧ whole ≠ [48] then none
  else do
    let (part, s) ← fraction s
    let (power, s) ← exponent s
    some (⟨negative, Decimal.value (whole ++ part), power - part.length⟩, s)

mutual

/-- A value, of at most so many levels. -/
def value : ℕ → List UInt8 → Option (Value × List UInt8)
  | 0, _ => none
  | n + 1, s =>
    match skipWs s with
    | [] => none
    | c :: s =>
      if c = 34 then (string (c :: s)).map fun (t, s) => (.str t, s)
      else if c = 91 then
        if (skipWs s).head? = some 93 then some (.arr [], (skipWs s).tail)
        else (items n s).map fun (vs, s) => (.arr vs, s)
      else if c = 123 then
        if (skipWs s).head? = some 125 then some (.obj [], (skipWs s).tail)
        else (fields n s).map fun (fs, s) => (.obj fs, s)
      else if c = 110 ∧ s.take 3 = [117, 108, 108] then some (.null, s.drop 3)
      else if c = 116 ∧ s.take 3 = [114, 117, 101] then some (.bool true, s.drop 3)
      else if c = 102 ∧ s.take 4 = [97, 108, 115, 101] then some (.bool false, s.drop 4)
      else (number (c :: s)).map fun (m, s) => (.num m, s)

/-- The items of an array and its end. -/
def items : ℕ → List UInt8 → Option (List Value × List UInt8)
  | 0, _ => none
  | n + 1, s => do
    let (v, s) ← value n s
    match skipWs s with
    | [] => none
    | c :: s =>
      if c = 44 then (items n s).map fun (vs, s) => (v :: vs, s)
      else if c = 93 then some ([v], s)
      else none

/-- The fields of an object and its end. -/
def fields : ℕ → List UInt8 → Option (List (List UInt8 × Value) × List UInt8)
  | 0, _ => none
  | n + 1, s => do
    let (key, s) ← string (skipWs s)
    if (skipWs s).head? = some 58 then do
      let (v, s) ← value n (skipWs s).tail
      match skipWs s with
      | [] => none
      | c :: s =>
        if c = 44 then (fields n s).map fun (fs, s) => ((key, v) :: fs, s)
        else if c = 125 then some ([(key, v)], s)
        else none
    else none

end

/-- Whether some bytes are the encoding of a text. -/
def IsUtf8 (s : List UInt8) : Prop := ∃ cs, s = utf8 cs

theorem isValidUTF8_iff {s : List UInt8} : s.toByteArray.IsValidUTF8 ↔ IsUtf8 s := by
  constructor
  · rintro ⟨cs, h⟩
    exact ⟨cs, List.toByteArray_inj.mp h⟩
  · rintro ⟨cs, h⟩
    exact ⟨cs, List.toByteArray_inj.mpr h⟩

instance (s : List UInt8) : Decidable (IsUtf8 s) := decidable_of_iff _ isValidUTF8_iff

/-- **A JSON text** is one value and white space, in UTF-8. -/
def parse (s : List UInt8) : Option Value :=
  if IsUtf8 s then
    match value (s.length + 1) s with
    | some (v, rest) => if skipWs rest = [] then some v else none
    | none => none
  else none

/-! ### Strings are read back -/

theorem escape_control : ∀ n : Fin 32, escaped (UInt8.ofNat n) =
      [92, 117, 48, 48, hexDigit (UInt8.ofNat n >>> 4), hexDigit (UInt8.ofNat n &&& 15)] ∧
    hexValue (hexDigit (UInt8.ofNat n >>> 4)) = some (n.val / 16) ∧
    hexValue (hexDigit (UInt8.ofNat n &&& 15)) = some (n.val % 16) ∧
    encodePoint n.val = [UInt8.ofNat n] := by
  decide +kernel

/-- A control character is read back from its escape. -/
theorem escape_escaped {c : UInt8} (hc : c < 32) (rest : List UInt8) :
    ∃ e, escaped c = 92 :: e ∧ escape (e ++ rest) = some ([c], rest) := by
  have hlt : c.toNat < 32 := UInt8.lt_iff_toNat_lt.mp hc
  have hof : UInt8.ofNat c.toNat = c := UInt8.ofNat_toNat
  have h := escape_control ⟨c.toNat, hlt⟩
  rw [show UInt8.ofNat ((⟨c.toNat, hlt⟩ : Fin 32) : ℕ) = c from hof] at h
  obtain ⟨he, ha, hb, hencode⟩ := h
  refine ⟨_, he, ?_⟩
  have hzero : hexValue 48 = some 0 := by decide
  have hhex : hex4 (48 :: 48 :: hexDigit (c >>> 4) :: hexDigit (c &&& 15) :: rest)
      = some (c.toNat, rest) := by
    simp only [hex4, hzero, ha, hb, Option.bind_eq_bind, Option.bind_some, Option.some.injEq,
      Prod.mk.injEq, and_true]
    omega
  show unicodeEscape (48 :: 48 :: hexDigit (c >>> 4) :: hexDigit (c &&& 15) :: rest) = _
  rw [unicodeEscape, hhex]
  simp only [Option.bind_eq_bind, Option.bind_some]
  rw [if_neg (by omega), if_neg (by omega), hencode]

/-- **The characters of a string** are read back. -/
theorem stringBody_quoted (s rest : List UInt8) {n : ℕ} (hn : s.length < n) :
    stringBody n (s.flatMap escaped ++ 34 :: rest) = some (s, rest) := by
  induction s generalizing n with
  | nil =>
    obtain ⟨n, rfl⟩ : ∃ k, n = k + 1 := ⟨n - 1, by omega⟩
    rfl
  | cons c s ih =>
    rw [List.length_cons] at hn
    obtain ⟨n, rfl⟩ : ∃ k, n = k + 1 := ⟨n - 1, by omega⟩
    have hmore := ih (n := n) (by omega)
    rw [List.flatMap_cons, List.append_assoc]
    by_cases hquote : c = 34
    · subst hquote
      simp [escaped, stringBody, escape, simpleEscape, hmore]
    by_cases hslash : c = 92
    · subst hslash
      simp [escaped, stringBody, escape, simpleEscape, hmore]
    by_cases hcontrol : c < 32
    · obtain ⟨e, he, hescape⟩ := escape_escaped hcontrol (s.flatMap escaped ++ 34 :: rest)
      rw [he, List.cons_append, stringBody, if_neg (by decide), if_neg (by decide), if_pos rfl,
        hescape]
      simp [hmore]
    · have hplain : escaped c = [c] := by
        rw [escaped, if_neg hquote, if_neg hslash, if_neg hcontrol]
      rw [hplain, List.singleton_append, stringBody, if_neg hquote, if_neg hcontrol,
        if_neg hslash]
      simp [hmore]

theorem escaped_ne_nil (c : UInt8) : escaped c ≠ [] := by
  unfold escaped
  split_ifs <;> simp

theorem length_le_length_flatMap_escaped (s : List UInt8) :
    s.length ≤ (s.flatMap escaped).length := by
  induction s with
  | nil => exact Nat.le_refl _
  | cons c s ih =>
    have := List.length_pos_iff.mpr (escaped_ne_nil c)
    rw [List.flatMap_cons, List.length_append, List.length_cons]
    omega

theorem string_quoted (s rest : List UInt8) : string (quoted s ++ rest) = some (s, rest) := by
  have hlen := length_le_length_flatMap_escaped s
  have hsplit : s.flatMap escaped ++ [34] ++ rest = s.flatMap escaped ++ 34 :: rest := by simp
  rw [quoted, List.cons_append, string, if_pos rfl, hsplit]
  refine stringBody_quoted s rest ?_
  rw [List.length_append]
  omega

/-! ### Numbers are read back -/

/-- What may stand behind a number. -/
def Stops (rest : List UInt8) : Prop :=
  ∀ c ∈ rest.head?, Decimal.isDigit c = false ∧ c ≠ 46 ∧ c ≠ 101 ∧ c ≠ 69

/-- Digits end where there is no digit. -/
theorem digits_append {ds rest : List UInt8} (hne : ds ≠ [])
    (hds : ∀ c ∈ ds, Decimal.isDigit c = true)
    (hrest : ∀ c ∈ rest.head?, Decimal.isDigit c = false) :
    digits (ds ++ rest) = some (ds, rest) := by
  have htake : (ds ++ rest).takeWhile Decimal.isDigit = ds := by
    rw [List.takeWhile_append_of_pos hds]
    cases rest with
    | nil => simp
    | cons c rest =>
      rw [List.takeWhile_cons_of_neg (by simpa using hrest c rfl), List.append_nil]
  have hdrop : (ds ++ rest).dropWhile Decimal.isDigit = rest := by
    rw [List.dropWhile_append_of_pos hds]
    cases rest with
    | nil => rfl
    | cons c rest => rw [List.dropWhile_cons_of_neg (by simpa using hrest c rfl)]
  rw [digits, htake, hdrop, if_neg hne]

theorem digits_text (n : ℕ) {rest : List UInt8}
    (hrest : ∀ c ∈ rest.head?, Decimal.isDigit c = false) :
    digits (Decimal.text n ++ rest) = some (Decimal.text n, rest) :=
  digits_append (Decimal.text_ne_nil n) (fun _ => Decimal.isDigit_of_mem_text) hrest

/-- A number does not start with a sign. -/
theorem exists_cons_text (n : ℕ) (rest : List UInt8) :
    ∃ c more, Decimal.text n ++ rest = c :: more ∧ c ≠ 45 ∧ c ≠ 43 := by
  obtain ⟨c, ds, hds⟩ := List.exists_cons_of_ne_nil (Decimal.text_ne_nil n)
  have hdigit : Decimal.isDigit c = true :=
    Decimal.isDigit_of_mem_text (n := n) (by rw [hds]; exact List.mem_cons_self)
  refine ⟨c, ds ++ rest, by rw [hds]; rfl, ?_, ?_⟩
  · rintro rfl
    cases hdigit
  · rintro rfl
    cases hdigit

theorem minus_text (b : Bool) (n : ℕ) (rest : List UInt8) :
    minus ((if b then [45] else []) ++ (Decimal.text n ++ rest)) = (b, Decimal.text n ++ rest) := by
  obtain ⟨c, more, htext, hminus, -⟩ := exists_cons_text n rest
  cases b with
  | true => rfl
  | false =>
    show minus (Decimal.text n ++ rest) = _
    rw [htext, minus, if_neg hminus]

theorem sign_text (b : Bool) (n : ℕ) (rest : List UInt8) :
    sign ((if b then [45] else []) ++ (Decimal.text n ++ rest)) = (b, Decimal.text n ++ rest) := by
  obtain ⟨c, more, htext, hminus, hplus⟩ := exists_cons_text n rest
  cases b with
  | true => rfl
  | false =>
    show sign (Decimal.text n ++ rest) = _
    rw [htext, sign, if_neg hplus, minus, if_neg hminus]

/-- **A number is read back.** -/
theorem number_render (n : Number) {rest : List UInt8} (hrest : Stops rest) :
    number (n.render ++ rest) = some (n, rest) := by
  obtain ⟨negative, mantissa, power⟩ := n
  have hdigit : ∀ c ∈ rest.head?, Decimal.isDigit c = false := fun c hc => (hrest c hc).1
  have hlead : ¬ ((Decimal.text mantissa).head? = some 48 ∧ Decimal.text mantissa ≠ [48]) :=
    fun h => h.2 (Decimal.head_text h.1)
  by_cases hpower : power = 0
  · subst hpower
    have hfraction : fraction rest = some ([], rest) := by
      cases rest with
      | nil => rfl
      | cons c rest => rw [fraction, if_neg (hrest c rfl).2.1]
    have hexponent : exponent rest = some (0, rest) := by
      cases rest with
      | nil => rfl
      | cons c rest => rw [exponent, if_neg (not_or.mpr (hrest c rfl).2.2)]
    rw [Number.render, if_pos rfl, List.append_nil, List.append_assoc, number, minus_text]
    simp only [digits_text mantissa hdigit, Option.bind_eq_bind, Option.bind_some, if_neg hlead,
      hfraction, hexponent, List.append_nil, Decimal.value_text]
    rfl
  · obtain ⟨below, hbelow⟩ : ∃ below : Bool, below = true ↔ power < 0 :=
      ⟨decide (power < 0), decide_eq_true_iff⟩
    have hrender : Number.render ⟨negative, mantissa, power⟩ ++ rest =
        (if negative then [45] else []) ++ (Decimal.text mantissa ++ 101 ::
          ((if below then [45] else []) ++ (Decimal.text power.natAbs ++ rest))) := by
      simp [Number.render, hpower, hbelow]
    have hexp : ∀ c ∈ (101 :: ((if below then [45] else []) ++
        (Decimal.text power.natAbs ++ rest)) : List UInt8).head?, Decimal.isDigit c = false := by
      intro c hc
      obtain rfl := Option.some.inj hc
      rfl
    have hvalue : (if below = true then -(power.natAbs : ℤ) else power.natAbs) = power := by
      by_cases hneg : power < 0
      · rw [if_pos (hbelow.mpr hneg)]
        omega
      · rw [if_neg (mt hbelow.mp hneg)]
        omega
    have hfraction : ∀ t, fraction (101 :: t) = some ([], 101 :: t) := by
      intro t
      rw [fraction, if_neg (by decide)]
    have hexponent : exponent (101 :: ((if below then [45] else []) ++
        (Decimal.text power.natAbs ++ rest))) = some (power, rest) := by
      rw [exponent, if_pos (.inl rfl), sign_text]
      simp only [digits_text power.natAbs hdigit, Option.bind_eq_bind, Option.bind_some,
        Decimal.value_text, hvalue]
    rw [hrender, number, minus_text]
    simp only [digits_text mantissa hexp, Option.bind_eq_bind, Option.bind_some, if_neg hlead,
      hfraction, hexponent, List.append_nil, Decimal.value_text]
    simp

/-! ### Values are read back -/

theorem skipWs_cons {c : UInt8} (hc : isWs c = false) (s : List UInt8) : skipWs (c :: s) = c :: s :=
  List.dropWhile_cons_of_neg (by rw [hc]; exact Bool.false_ne_true)

theorem exists_cons_number (n : Number) : ∃ c more, n.render = c :: more ∧ isWs c = false ∧
    c ≠ 93 ∧ c ≠ 34 ∧ c ≠ 91 ∧ c ≠ 123 ∧ c ≠ 110 ∧ c ≠ 116 ∧ c ≠ 102 := by
  unfold Number.render
  cases n.negative with
  | true => exact ⟨45, _, rfl, by decide⟩
  | false =>
    obtain ⟨c, ds, hds⟩ := List.exists_cons_of_ne_nil (Decimal.text_ne_nil n.mantissa)
    obtain ⟨d, hd⟩ : ∃ d : Fin 10, c = Decimal.digit d :=
      Decimal.exists_of_mem_text (n := n.mantissa) (by rw [hds]; exact List.mem_cons_self)
    have hfirst : ∀ d : Fin 10, isWs (Decimal.digit d) = false ∧ Decimal.digit d ≠ 93 ∧
        Decimal.digit d ≠ 34 ∧ Decimal.digit d ≠ 91 ∧ Decimal.digit d ≠ 123 ∧
        Decimal.digit d ≠ 110 ∧ Decimal.digit d ≠ 116 ∧ Decimal.digit d ≠ 102 := by
      decide
    rw [hds]
    exact ⟨c, _, rfl, hd ▸ hfirst d⟩

theorem exists_cons_render (v : Value) :
    ∃ c more, render v = c :: more ∧ isWs c = false ∧ c ≠ 93 := by
  cases v with
  | null => exact ⟨110, _, rfl, by decide⟩
  | bool b =>
    cases b with
    | true => exact ⟨116, _, rfl, by decide⟩
    | false => exact ⟨102, _, rfl, by decide⟩
  | num n =>
    obtain ⟨c, more, hc, hws, hend, -⟩ := exists_cons_number n
    exact ⟨c, more, by rw [render, hc], hws, hend⟩
  | str s => exact ⟨34, _, by rw [render, quoted], by decide⟩
  | arr items => exact ⟨91, _, by rw [render], by decide⟩
  | obj fields => exact ⟨123, _, by rw [render], by decide⟩

theorem stops_cons {c : UInt8} (h : c = 44 ∨ c = 93 ∨ c = 125) (s : List UInt8) : Stops (c :: s) := by
  intro d hd
  obtain rfl := Option.some.inj hd
  rcases h with rfl | rfl | rfl <;> decide

/-- What is short enough is read back on so many levels. -/
structure ReadsBack (n : ℕ) : Prop where
  value : ∀ v rest, (render v).length ≤ n → Stops rest →
    value n (render v ++ rest) = some (v, rest)
  items : ∀ v vs rest, (renderItems (v :: vs)).length < n →
    items n (renderItems (v :: vs) ++ 93 :: rest) = some (v :: vs, rest)
  fields : ∀ key v fs rest, (renderFields ((key, v) :: fs)).length < n →
    fields n (renderFields ((key, v) :: fs) ++ 125 :: rest) = some ((key, v) :: fs, rest)

section Step

variable {n : ℕ} (h : ReadsBack n)

include h

theorem ReadsBack.value_succ (v : Value) (rest : List UInt8) (hn : (render v).length ≤ n + 1)
    (hrest : Stops rest) : JsonText.value (n + 1) (render v ++ rest) = some (v, rest) := by
  obtain ⟨c, more, hc, hws, -⟩ := exists_cons_render v
  have hskip : skipWs (render v ++ rest) = render v ++ rest := by
    rw [hc, List.cons_append, skipWs_cons hws]
  rw [JsonText.value, hskip]
  cases v with
  | null => rfl
  | bool b => cases b <;> rfl
  | num m =>
    obtain ⟨c, more, hc, -, -, h34, h91, h123, h110, h116, h102⟩ := exists_cons_number m
    have hnumber := number_render m hrest
    rw [hc] at hnumber
    rw [render, hc, List.cons_append]
    simp only [h34, h91, h123, h110, h116, h102, false_and, if_false]
    rw [← List.cons_append, hnumber]
    rfl
  | str s =>
    have hstring := string_quoted s rest
    rw [quoted] at hstring
    rw [render, quoted]
    simp only [List.cons_append, if_true] at hstring ⊢
    rw [hstring]
    rfl
  | arr vs =>
    cases vs with
    | nil => rfl
    | cons w vs =>
      obtain ⟨c, more, hc, hws, h93⟩ := exists_cons_render w
      rw [render, List.length_cons, List.length_append] at hn
      have hitems := h.items w vs rest
        (by simp only [List.length_cons, List.length_nil] at hn; omega)
      have hopen : skipWs (renderItems (w :: vs) ++ [93] ++ rest) =
          renderItems (w :: vs) ++ [93] ++ rest := by
        rw [renderItems, hc]
        exact skipWs_cons hws _
      have hhead : (renderItems (w :: vs) ++ [93] ++ rest).head? ≠ some 93 := by
        rw [renderItems, hc]
        simpa using h93
      rw [render]
      simp only [List.cons_append, if_true, hopen, if_neg hhead]
      rw [List.append_assoc, List.singleton_append, hitems]
      rfl
  | obj fs =>
    cases fs with
    | nil => rfl
    | cons f fs =>
      obtain ⟨key, w⟩ := f
      rw [render, List.length_cons, List.length_append] at hn
      have hfields := h.fields key w fs rest
        (by simp only [List.length_cons, List.length_nil] at hn; omega)
      have hopen : skipWs (renderFields ((key, w) :: fs) ++ [125] ++ rest) =
          renderFields ((key, w) :: fs) ++ [125] ++ rest := by
        rw [renderFields, quoted]
        exact skipWs_cons (by decide) _
      have hhead : (renderFields ((key, w) :: fs) ++ [125] ++ rest).head? ≠ some 125 := by
        rw [renderFields, quoted]
        simp
      rw [render]
      simp only [List.cons_append, if_true, hopen, if_neg hhead]
      rw [List.append_assoc, List.singleton_append, hfields]
      rfl

theorem ReadsBack.items_succ (v : Value) (vs : List Value) (rest : List UInt8)
    (hn : (renderItems (v :: vs)).length < n + 1) :
    JsonText.items (n + 1) (renderItems (v :: vs) ++ 93 :: rest) = some (v :: vs, rest) := by
  rw [renderItems, List.length_append] at hn
  rw [renderItems, List.append_assoc, JsonText.items]
  cases vs with
  | nil =>
    rw [renderMoreItems, List.nil_append,
      h.value v _ (by omega) (stops_cons (.inr (.inl rfl)) rest)]
    rfl
  | cons w vs =>
    obtain ⟨c, more, hc, -⟩ := exists_cons_render v
    have hpos : 0 < (render v).length := by
      rw [hc]
      exact Nat.succ_pos _
    have hmore : renderMoreItems (w :: vs) = 44 :: renderItems (w :: vs) := by
      rw [renderMoreItems, renderItems]
    rw [hmore, List.length_cons] at hn
    rw [hmore, List.cons_append, h.value v _ (by omega) (stops_cons (.inl rfl) _)]
    show (JsonText.items n (renderItems (w :: vs) ++ 93 :: rest)).map _ = _
    rw [h.items w vs rest (by omega)]
    rfl

theorem ReadsBack.fields_succ (key : List UInt8) (v : Value) (fs : List (List UInt8 × Value))
    (rest : List UInt8) (hn : (renderFields ((key, v) :: fs)).length < n + 1) :
    JsonText.fields (n + 1) (renderFields ((key, v) :: fs) ++ 125 :: rest) =
      some ((key, v) :: fs, rest) := by
  rw [renderFields, List.length_append, List.length_cons, List.length_append] at hn
  have hkey : ∀ s, skipWs (quoted key ++ s) = quoted key ++ s := fun s => skipWs_cons (by decide) _
  rw [renderFields, List.append_assoc, JsonText.fields, hkey, string_quoted]
  simp only [Option.bind_eq_bind, Option.bind_some, List.cons_append]
  have hcolon : ∀ s, skipWs (58 :: s) = 58 :: s := skipWs_cons (by decide)
  rw [hcolon]
  simp only [List.head?_cons, if_true, List.tail_cons]
  cases fs with
  | nil =>
    rw [renderMoreFields, List.append_nil,
      h.value v _ (by omega) (stops_cons (.inr (.inr rfl)) rest)]
    rfl
  | cons f fs =>
    obtain ⟨key', w⟩ := f
    have hmore : renderMoreFields ((key', w) :: fs) = 44 :: renderFields ((key', w) :: fs) := by
      rw [renderMoreFields, renderFields]
    rw [hmore, List.length_cons] at hn
    rw [hmore, List.append_assoc, List.cons_append,
      h.value v _ (by omega) (stops_cons (.inl rfl) _)]
    show (JsonText.fields n (renderFields ((key', w) :: fs) ++ 125 :: rest)).map _ = _
    rw [h.fields key' w fs rest (by omega)]
    rfl

end Step

/-- **What is short enough is read back.** -/
theorem readsBack (n : ℕ) : ReadsBack n := by
  induction n with
  | zero =>
    constructor
    case value =>
      intro v rest hn
      obtain ⟨c, more, hc, -⟩ := exists_cons_render v
      rw [hc] at hn
      cases hn
    case items => exact fun v vs rest hn => absurd hn (Nat.not_lt_zero _)
    case fields => exact fun key v fs rest hn => absurd hn (Nat.not_lt_zero _)
  | succ n ih =>
    constructor
    case value => exact fun v rest => ih.value_succ v rest
    case items => exact fun v vs rest => ih.items_succ v vs rest
    case fields => exact fun key v fs rest => ih.fields_succ key v fs rest

/-! ### Texts in UTF-8 -/

theorem IsUtf8.append {s t : List UInt8} (hs : IsUtf8 s) (ht : IsUtf8 t) : IsUtf8 (s ++ t) := by
  obtain ⟨cs, rfl⟩ := hs
  obtain ⟨ds, rfl⟩ := ht
  exact ⟨cs ++ ds, (utf8_append cs ds).symm⟩

theorem encodePoint_ascii : ∀ n : Fin 128, encodePoint n.val = [UInt8.ofNat n.val] := by
  decide +kernel

theorem isUtf8_of_ascii {s : List UInt8} (h : ∀ c ∈ s, c < 128) : IsUtf8 s := by
  induction s with
  | nil => exact ⟨[], rfl⟩
  | cons c s ih =>
    rw [List.forall_mem_cons] at h
    have hlt : c.toNat < 128 := UInt8.lt_iff_toNat_lt.mp h.1
    have hchar : utf8 [Char.ofNat c.toNat] = [c] := by
      have := encodePoint_ascii ⟨c.toNat, hlt⟩
      rw [UInt8.ofNat_toNat] at this
      rw [utf8_cons, utf8_nil, List.append_nil]
      exact this
    exact IsUtf8.append ⟨[Char.ofNat c.toNat], hchar.symm⟩ (ih h.2)

theorem isUtf8_of_all {s : List UInt8} (h : s.all (· < 128) = true) : IsUtf8 s := by
  rw [List.all_eq_true] at h
  exact isUtf8_of_ascii fun c hc => of_decide_eq_true (h c hc)

theorem IsUtf8.cons {c : UInt8} {s : List UInt8} (hs : IsUtf8 s) (hc : c < 128) :
    IsUtf8 (c :: s) := by
  have hfirst : IsUtf8 [c] := by
    refine isUtf8_of_ascii ?_
    intro d hd
    rwa [List.mem_singleton.mp hd]
  exact hfirst.append hs

theorem escaped_ascii : ∀ n : Fin 128, ∀ c ∈ escaped (UInt8.ofNat n.val), c < 128 := by
  decide +kernel

/-- The bytes of a character are one of ASCII, or none is. -/
theorem utf8EncodeChar_ascii (c : Char) :
    (∃ n : Fin 128, String.utf8EncodeChar c = [UInt8.ofNat n.val]) ∨
      ∀ b ∈ String.utf8EncodeChar c, 128 ≤ b := by
  cases hlist : String.utf8EncodeChar c with
  | nil => exact .inr fun b hb => by cases hb
  | cons a rest =>
    by_cases hrest : rest = []
    · subst hrest
      unfold String.utf8EncodeChar at hlist
      simp only at hlist
      split_ifs at hlist with hsmall
      · exact .inl ⟨⟨c.val.toNat, by omega⟩, hlist.symm⟩
      all_goals cases hlist
    · obtain ⟨hfirst, htail⟩ := utf8EncodeChar_tail hlist hrest
      refine .inr fun b hb => ?_
      rw [UInt8.le_iff_toNat_le]
      rcases List.mem_cons.mp hb with rfl | hb
      · exact hfirst
      · exact (htail b hb).1

/-- **Escapes keep UTF-8.** -/
theorem IsUtf8.escaped {s : List UInt8} (h : IsUtf8 s) :
    IsUtf8 (s.flatMap JsonText.escaped) := by
  obtain ⟨cs, rfl⟩ := h
  induction cs with
  | nil => exact ⟨[], rfl⟩
  | cons c cs ih =>
    rw [utf8_cons, List.flatMap_append]
    refine IsUtf8.append ?_ ih
    rcases utf8EncodeChar_ascii c with ⟨n, hn⟩ | hhigh
    · rw [hn, List.flatMap_singleton]
      exact isUtf8_of_ascii (escaped_ascii n)
    · have hsame : ∀ b ∈ String.utf8EncodeChar c, JsonText.escaped b = [b] := by
        intro b hb
        have hge := hhigh b hb
        have hne : b ≠ 34 ∧ b ≠ 92 ∧ ¬ b < 32 := by
          refine ⟨?_, ?_, ?_⟩
          · rintro rfl
            exact absurd hge (by decide)
          · rintro rfl
            exact absurd hge (by decide)
          · intro hlt
            exact absurd (UInt8.lt_of_lt_of_le hlt (by decide : (32 : UInt8) ≤ 128)) (by
              exact UInt8.not_lt.mpr hge)
        rw [JsonText.escaped, if_neg hne.1, if_neg hne.2.1, if_neg hne.2.2]
      rw [List.flatMap_congr hsame, List.flatMap_singleton']
      exact ⟨[c], by rw [utf8_cons, utf8_nil, List.append_nil]⟩

theorem isUtf8_quoted {s : List UInt8} (h : IsUtf8 s) : IsUtf8 (quoted s) :=
  (h.escaped.append (isUtf8_of_all rfl)).cons (by decide)

theorem isUtf8_digits (n : ℕ) : IsUtf8 (Decimal.text n) := by
  refine isUtf8_of_ascii fun c hc => ?_
  obtain ⟨d, rfl⟩ := Decimal.exists_of_mem_text hc
  have hlow : ∀ d : Fin 10, Decimal.digit d < 128 := by decide
  exact hlow d

theorem isUtf8_number (n : Number) : IsUtf8 n.render := by
  have hsign : ∀ p : Prop, [Decidable p] → IsUtf8 (if p then [45] else []) := by
    intro p _
    split_ifs
    · exact isUtf8_of_all rfl
    · exact ⟨[], rfl⟩
  unfold Number.render
  refine ((hsign _).append (isUtf8_digits _)).append ?_
  split_ifs
  · exact ⟨[], rfl⟩
  · exact ((isUtf8_of_all rfl).append (isUtf8_digits _)).cons (by decide)
  · exact (IsUtf8.append ⟨[], rfl⟩ (isUtf8_digits _)).cons (by decide)

mutual

/-- Whether the strings of a value are UTF-8. -/
def Value.Encoded : Value → Prop
  | .null => True
  | .bool _ => True
  | .num _ => True
  | .str s => IsUtf8 s
  | .arr items => EncodedItems items
  | .obj fields => EncodedFields fields

def EncodedItems : List Value → Prop
  | [] => True
  | v :: items => v.Encoded ∧ EncodedItems items

def EncodedFields : List (List UInt8 × Value) → Prop
  | [] => True
  | (key, v) :: fields => IsUtf8 key ∧ v.Encoded ∧ EncodedFields fields

end

mutual

/-- **The text of a value is UTF-8** where its strings are. -/
theorem isUtf8_render : ∀ v : Value, v.Encoded → IsUtf8 (render v)
  | .null, _ => isUtf8_of_all rfl
  | .bool true, _ => isUtf8_of_all rfl
  | .bool false, _ => isUtf8_of_all rfl
  | .num n, _ => isUtf8_number n
  | .str s, h => isUtf8_quoted h
  | .arr [], _ => isUtf8_of_all rfl
  | .arr (v :: items), h =>
    (((isUtf8_render v h.1).append (isUtf8_renderMoreItems items h.2)).append
      (isUtf8_of_all rfl)).cons (by decide)
  | .obj [], _ => isUtf8_of_all rfl
  | .obj ((key, v) :: fields), h =>
    (((isUtf8_quoted h.1).append (((isUtf8_render v h.2.1).append
      (isUtf8_renderMoreFields fields h.2.2)).cons (by decide))).append
      (isUtf8_of_all rfl)).cons (by decide)

theorem isUtf8_renderMoreItems : ∀ items : List Value, EncodedItems items →
    IsUtf8 (renderMoreItems items)
  | [], _ => ⟨[], rfl⟩
  | v :: items, h =>
    ((isUtf8_render v h.1).append (isUtf8_renderMoreItems items h.2)).cons (by decide)

theorem isUtf8_renderMoreFields : ∀ fields : List (List UInt8 × Value), EncodedFields fields →
    IsUtf8 (renderMoreFields fields)
  | [], _ => ⟨[], rfl⟩
  | (key, v) :: fields, h =>
    ((isUtf8_quoted h.1).append (((isUtf8_render v h.2.1).append
      (isUtf8_renderMoreFields fields h.2.2)).cons (by decide))).cons (by decide)

end

/-- **A value is what its text is parsed to**, if its strings are UTF-8. -/
theorem parse_render {v : Value} (h : v.Encoded) : parse (render v) = some v := by
  have hstops : Stops [] := by
    intro c hc
    cases hc
  have hvalue := (readsBack ((render v).length + 1)).value v [] (Nat.le_succ _) hstops
  rw [List.append_nil] at hvalue
  rw [parse, if_pos (isUtf8_render v h), hvalue]
  rfl

end TaskjugglerLsp.Lib.JsonText
