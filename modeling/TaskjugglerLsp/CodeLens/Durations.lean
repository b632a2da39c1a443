import TaskjugglerLsp.CodeLens.WorkingDays
import TaskjugglerLsp.Lexer.Spans

/-!
# The range of a duration

Which numbers a duration may have, so that the variables that it goes through stay in their types.

* `parse_duration`: what is read from a duration of the lexer.
* `duration_in_range_iff`: the largest number.
-/

namespace TaskjugglerLsp

open Lib

/-! ### The digits -/

/-- A sign and digits: the number that is written behind the sign. -/
def writtenNumber (text : CStr) : ℕ := digitsValue ((splitSign text).2.takeWhile isDigit)

/-- The values in the loop over the digits: each product, and `value` behind it. -/
def digitValues : CStr → ℤ → List ℤ
  | [], _ => []
  | c :: s, value =>
    if isDigit c then
      value * 10 :: (value * 10 + (c.toNat - 48)) :: digitValues s (value * 10 + (c.toNat - 48))
    else []

theorem digit_cast {c : UInt8} (hc : isDigit c = true) (n : ℕ) :
    (n : ℤ) * 10 + (c.toNat - 48) = ((n * 10 + (c.toNat - 48) : ℕ) : ℤ) := by
  have hle : 48 ≤ c.toNat := by
    have h := (Bool.and_eq_true_iff.mp hc).1
    exact UInt8.le_iff_toNat_le.mp (of_decide_eq_true h)
  push_cast [hle]
  rfl

/-- Digits are appended to a number. -/
def appendDigits (n : ℕ) (digits : CStr) : ℕ :=
  digits.foldl (fun n c => n * 10 + (c.toNat - 48)) n

theorem digitLoop_eq (s : CStr) (n : ℕ) :
    digitLoop s n = (↑(appendDigits n (s.takeWhile isDigit)), s.dropWhile isDigit) := by
  induction s generalizing n with
  | nil => rfl
  | cons c s ih =>
    rw [digitLoop]
    by_cases hc : isDigit c = true
    · rw [if_pos hc, digit_cast hc, ih, List.takeWhile_cons_of_pos hc, List.dropWhile_cons_of_pos hc]
      rfl
    · rw [if_neg hc, List.takeWhile_cons_of_neg hc, List.dropWhile_cons_of_neg hc]
      rfl

/-- **The values only grow** up to the last one. -/
theorem digitValues_le (s : CStr) (n : ℕ) : (n : ℤ) ≤ (digitLoop s n).1 ∧
    ∀ v ∈ digitValues s n, 0 ≤ v ∧ v ≤ (digitLoop s n).1 := by
  induction s generalizing n with
  | nil => exact ⟨le_refl _, fun v hv => by cases hv⟩
  | cons c s ih =>
    rw [digitLoop, digitValues]
    by_cases hc : isDigit c = true
    · obtain ⟨hle, hall⟩ := ih (n * 10 + (c.toNat - 48))
      rw [if_pos hc, if_pos hc, digit_cast hc]
      refine ⟨by omega, fun v hv => ?_⟩
      rcases List.mem_cons.mp hv with rfl | hv
      · omega
      · rcases List.mem_cons.mp hv with rfl | hv
        · omega
        · exact hall v hv
    · rw [if_neg hc, if_neg hc]
      exact ⟨le_refl _, fun v hv => by cases hv⟩

/-- The number that is read is among the values. -/
theorem digitLoop_mem {s : CStr} (h : s.takeWhile isDigit ≠ []) (n : ℕ) :
    (digitLoop s n).1 ∈ digitValues s n := by
  induction s generalizing n with
  | nil => exact absurd rfl h
  | cons c s ih =>
    by_cases hc : isDigit c = true
    · rw [digitLoop, digitValues, if_pos hc, if_pos hc, digit_cast hc]
      refine List.mem_cons_of_mem _ ?_
      by_cases hs : s.takeWhile isDigit = []
      · rw [digitLoop_eq, hs]
        exact List.mem_cons_self
      · exact List.mem_cons_of_mem _ (ih hs _)
    · rw [List.takeWhile_cons_of_neg hc] at h
      exact absurd rfl h

/-! ### The rule of the lexer -/

/-- The units of the rule. -/
def unitTexts : List CStr :=
  [cstr "min", cstr "h", cstr "d", cstr "w", cstr "m", cstr "y"]

theorem unitTexts_ok : ∀ u ∈ unitTexts, (canonUnit u).isSome = true ∧ u.takeWhile isDigit = [] := by
  decide

open Pattern in
/-- **A duration** is a sign or none, digits, and a unit. -/
theorem exists_parts {text : CStr} (h : durationPattern text = true) :
    ∃ sign digits u, text = sign ++ (digits ++ u) ∧ (sign = [] ∨ sign = [43] ∨ sign = [45]) ∧
      digits ≠ [] ∧ (∀ c ∈ digits, isDigit c = true) ∧ u ∈ unitTexts := by
  obtain ⟨sign, rest, rfl, hsign, hrest⟩ := seq_eq_true.mp h
  obtain ⟨digits, rest', rfl, hdigits, hrest'⟩ := seq_eq_true.mp hrest
  obtain ⟨u, rest'', rfl, hu, hnil⟩ := seq_eq_true.mp hrest'
  obtain rfl := List.isEmpty_iff.mp hnil
  obtain ⟨hne, hall⟩ := Bool.and_eq_true_iff.mp hdigits
  refine ⟨sign, digits, u, by rw [List.append_nil], ?_, ?_, List.all_eq_true.mp hall, ?_⟩
  · rcases Bool.or_eq_true_iff.mp hsign with hnil | hone
    · exact Or.inl (List.isEmpty_iff.mp hnil)
    · obtain ⟨hlen, hclass⟩ := Bool.and_eq_true_iff.mp hone
      obtain ⟨b, rfl⟩ := List.length_eq_one_iff.mp (eq_of_beq hlen)
      have hb := List.all_eq_true.mp hclass b List.mem_cons_self
      simp only [Bool.or_eq_true, beq_iff_eq] at hb
      rcases hb with rfl | rfl
      · exact Or.inr (Or.inl rfl)
      · exact Or.inr (Or.inr rfl)
  · intro hnil
    rw [hnil] at hne
    cases hne
  · obtain ⟨P, hP, hPu⟩ := List.any_eq_true.mp hu
    simp only [List.mem_cons, List.not_mem_nil, or_false] at hP
    rcases hP with rfl | rfl | rfl | rfl | rfl | rfl <;> rw [eq_of_beq hPu] <;> decide

theorem splitSign_digits {digits rest : CStr} (hne : digits ≠ [])
    (hall : ∀ c ∈ digits, isDigit c = true) :
    splitSign (digits ++ rest) = (1, digits ++ rest) := by
  obtain ⟨c, more, rfl⟩ := List.exists_cons_of_ne_nil hne
  have hc := hall c List.mem_cons_self
  unfold splitSign
  split
  case h_1 heq =>
    obtain ⟨rfl, -⟩ := List.cons.inj heq
    exact absurd hc (by decide)
  case h_2 heq =>
    obtain ⟨rfl, -⟩ := List.cons.inj heq
    exact absurd hc (by decide)
  case h_3 => rfl

/-- **What is read from a duration**: the number that is written, with its sign. -/
theorem parse_duration {text : CStr} (h : durationPattern text = true) :
    (splitSign text).2.takeWhile isDigit ≠ [] ∧ ((splitSign text).1 = 1 ∨ (splitSign text).1 = -1) ∧
    ∃ unit, parseCompactDuration (some text)
      = some ((splitSign text).1 * writtenNumber text, unit) := by
  obtain ⟨sign, digits, u, rfl, hsign, hne, hall, hu⟩ := exists_parts h
  obtain ⟨hunit, hstop⟩ := unitTexts_ok u hu
  obtain ⟨unit, hunit⟩ := Option.isSome_iff_exists.mp hunit
  have htake : (digits ++ u).takeWhile isDigit = digits := by
    rw [List.takeWhile_append_of_pos hall, hstop, List.append_nil]
  have hdrop : (digits ++ u).dropWhile isDigit = u := by
    have happ := List.takeWhile_append_dropWhile (p := isDigit) (l := digits ++ u)
    rw [htake] at happ
    exact List.append_cancel_left happ
  obtain ⟨σ, hsplit, hσ⟩ : ∃ σ, splitSign (sign ++ (digits ++ u)) = (σ, digits ++ u) ∧
      (σ = 1 ∨ σ = -1) := by
    rcases hsign with rfl | rfl | rfl
    · refine ⟨1, ?_, Or.inl rfl⟩
      rw [List.nil_append]
      exact splitSign_digits hne hall
    · exact ⟨1, rfl, Or.inl rfl⟩
    · exact ⟨-1, rfl, Or.inr rfl⟩
  have hguard : ((digits ++ u).head?.any isDigit) = true := by
    obtain ⟨c, more, rfl⟩ := List.exists_cons_of_ne_nil hne
    exact hall c List.mem_cons_self
  rw [writtenNumber, parseCompactDuration, hsplit]
  refine ⟨by rwa [htake], hσ, unit, ?_⟩
  have hloop := digitLoop_eq (digits ++ u) 0
  rw [htake, hdrop] at hloop
  simp only [Option.bind_eq_bind, Option.bind_some, hsplit, hguard, guard_true, htake]
  rw [show (0 : ℤ) = ((0 : ℕ) : ℤ) from rfl, hloop]
  simp only [hunit, Option.bind_some]
  rfl

/-! ### Dates -/

/-- A date that `parse_tjp_date` reads. -/
def IsDate (t : ℤ) : Prop := ∃ text, parseTjpDate text = some t

theorem appendDigits_lt {digits : CStr} (h : ∀ c ∈ digits, isDigit c = true) (n : ℕ) :
    appendDigits n digits < (n + 1) * 10 ^ digits.length := by
  induction digits generalizing n with
  | nil => simp [appendDigits]
  | cons c digits ih =>
    obtain ⟨hc, hdigits⟩ := List.forall_mem_cons.mp h
    have hle : c.toNat ≤ 57 :=
      UInt8.le_iff_toNat_le.mp (of_decide_eq_true (Bool.and_eq_true_iff.mp hc).2)
    calc appendDigits n (c :: digits) = appendDigits (n * 10 + (c.toNat - 48)) digits := rfl
      _ < (n * 10 + (c.toNat - 48) + 1) * 10 ^ digits.length := ih hdigits _
      _ ≤ (n + 1) * 10 * 10 ^ digits.length := Nat.mul_le_mul_right _ (by omega)
      _ = (n + 1) * 10 ^ (c :: digits).length := by
        rw [List.length_cons, Nat.pow_succ', Nat.mul_assoc]

theorem digitsValue_take_lt (w : ℕ) (s : CStr) :
    digitsValue ((s.take w).takeWhile isDigit) < 10 ^ w := by
  have hdigits : ∀ c ∈ (s.take w).takeWhile isDigit, isDigit c = true :=
    fun c hc => List.mem_takeWhile_imp hc
  have hlength : ((s.take w).takeWhile isDigit).length ≤ w :=
    ((List.takeWhile_prefix _).length_le).trans (List.length_take_le _ _)
  have hlt := appendDigits_lt hdigits 0
  rw [Nat.zero_add, Nat.one_mul] at hlt
  exact hlt.trans_le (Nat.pow_le_pow_right (by decide) hlength)

theorem scanInt_lt {w : ℕ} {s rest : CStr} {v : ℤ} (h : scanInt w s = some (v, rest)) :
    -10 ^ w < v ∧ v < 10 ^ w := by
  have hread (sign : ℤ) (hsign : sign = 1 ∨ sign = -1) (m : ℕ) (hm : m ≤ w) (s : CStr)
      (h : (if (s.take m).takeWhile isDigit = [] then none else
        some (sign * ↑(digitsValue ((s.take m).takeWhile isDigit)),
          s.drop ((s.take m).takeWhile isDigit).length)) = some (v, rest)) :
      -10 ^ w < v ∧ v < 10 ^ w := by
    split_ifs at h with hnil
    have hlt : (digitsValue ((s.take m).takeWhile isDigit) : ℤ) < 10 ^ w := by
      have hlt := (digitsValue_take_lt m s).trans_le (Nat.pow_le_pow_right (by decide) hm)
      exact_mod_cast hlt
    obtain ⟨rfl, -⟩ := Prod.mk.inj (Option.some.inj h)
    rcases hsign with rfl | rfl <;> omega
  unfold scanInt at h
  dsimp only at h
  split at h
  case h_1 => exact hread (-1) (Or.inr rfl) (w - 1) (Nat.sub_le _ _) _ h
  case h_2 => exact hread 1 (Or.inl rfl) (w - 1) (Nat.sub_le _ _) _ h
  case h_3 => exact hread 1 (Or.inl rfl) w (Nat.le_refl _) _ h

theorem daysBefore_le (leap : Bool) : ∀ mon < 12, 0 ≤ daysBefore leap mon ∧
    daysBefore leap mon ≤ 335 := by
  cases leap <;> decide

/-- **A date** is not far from now. -/
theorem IsDate.bound {t : ℤ} (h : IsDate t) : -2 ^ 40 < t ∧ t < 2 ^ 40 := by
  obtain ⟨text, h⟩ := h
  obtain ⟨s, rfl, h⟩ := Option.bind_eq_some_iff.mp h
  obtain ⟨⟨year, s1⟩, hyear, h⟩ := Option.bind_eq_some_iff.mp h
  obtain ⟨-, -, h⟩ := Option.bind_eq_some_iff.mp h
  obtain ⟨⟨month, s2⟩, hmonth, h⟩ := Option.bind_eq_some_iff.mp h
  obtain ⟨-, -, h⟩ := Option.bind_eq_some_iff.mp h
  obtain ⟨⟨day, s3⟩, hday, h⟩ := Option.bind_eq_some_iff.mp h
  obtain ⟨-, -, h⟩ := Option.bind_eq_some_iff.mp h
  obtain rfl := Option.some.inj h
  have hyear := scanInt_lt hyear
  have hmonth := scanInt_lt hmonth
  have hday := scanInt_lt hday
  have hmon : ((month - 1) % 12).toNat < 12 := by omega
  unfold timegm
  dsimp only
  generalize hdays : daysBefore _ ((month - 1) % 12).toNat = before
  have hbefore : 0 ≤ before ∧ before ≤ 335 := by
    rw [← hdays]
    exact daysBefore_le _ _ hmon
  norm_num at hyear hmonth hday ⊢
  omega

/-! ### Ranges -/

/-- An `int`. -/
def FitsInt (v : ℤ) : Prop := -2 ^ 31 ≤ v ∧ v < 2 ^ 31

/-- A `long`, or a `time_t`. -/
def FitsLong (v : ℤ) : Prop := -2 ^ 63 ≤ v ∧ v < 2 ^ 63

instance (v : ℤ) : Decidable (FitsInt v) := inferInstanceAs (Decidable (_ ∧ _))

/-- **What `duration` computes** from `value` stays in its types. -/
structure CalendarInRange (value : ℤ) (unit : DurUnit) : Prop where
  days : FitsLong (durationToCalendarDays value unit) ∧
    FitsLong |durationToCalendarDays value unit|
  walk (base : ℤ) (hbase : IsDate base) (direction : Direction)
    (hpos : 0 < |durationToCalendarDays value unit|) :
    FitsLong (|durationToCalendarDays value unit| - 1) ∧
      FitsLong (direction.sign * (|durationToCalendarDays value unit| - 1)) ∧
      FitsLong (direction.sign * (|durationToCalendarDays value unit| - 1)
        * calendarSecondsPerDay) ∧
      FitsLong (walkCalendarDaysInclusive base |durationToCalendarDays value unit| direction)

/-- **What `length` computes** from `value` stays in its types, in every round of its loops. -/
structure WorkingInRange (value : ℤ) (unit : DurUnit) : Prop where
  days : FitsLong (lengthToWorkingDays value unit) ∧ FitsLong |lengthToWorkingDays value unit|
  first (base : ℤ) (hbase : IsDate base) (direction : Direction) (cur : ℤ)
    (h : Visits isWeekend (stepDay · direction) base cur) : FitsLong cur
  second (base : ℤ) (hbase : IsDate base) (direction : Direction)
    (hpos : 0 < |lengthToWorkingDays value unit|) (cur : ℤ)
    (hcur : Visits isWeekend (stepDay · direction) base cur) (s : WalkState)
    (h : Visits WalkState.goesOn (walkRound direction)
      ⟨cur, |lengthToWorkingDays value unit| - 1⟩ s) : FitsLong s.cur ∧ FitsLong s.remaining
  walk (base : ℤ) (hbase : IsDate base) (direction : Direction) :
    FitsLong (walkWorkingDaysInclusive base |lengthToWorkingDays value unit| direction)

/-- **No variable overflows** from the text of a duration to the inferred date. -/
structure DurationInRange (text : CStr) : Prop where
  digits : ∀ v ∈ digitValues (splitSign text).2 0, FitsInt v
  value {value : ℤ} {unit : DurUnit} (h : parseCompactDuration (some text) = some (value, unit)) :
    FitsInt value
  calendar {value : ℤ} {unit : DurUnit}
    (h : parseCompactDuration (some text) = some (value, unit)) : CalendarInRange value unit
  working {value : ℤ} {unit : DurUnit}
    (h : parseCompactDuration (some text) = some (value, unit)) : WorkingInRange value unit

theorem durationToCalendarDays_le {value : ℤ} (h : FitsInt value) (unit : DurUnit) :
    |durationToCalendarDays value unit| ≤ 2 ^ 31 * 365 := by
  obtain ⟨hlow, hhigh⟩ := h
  rw [abs_le]
  cases unit <;> simp only [durationToCalendarDays] <;> omega

theorem lengthToWorkingDays_le {value : ℤ} (h : FitsInt value) (unit : DurUnit) :
    |lengthToWorkingDays value unit| ≤ 2 ^ 31 * 260 := by
  obtain ⟨hlow, hhigh⟩ := h
  rw [abs_le]
  cases unit with
  | min | hour =>
    rw [lengthToWorkingDays]
    split_ifs <;> omega
  | day | week | month | year =>
    rw [lengthToWorkingDays]
    omega

theorem calendarInRange {value : ℤ} (h : FitsInt value) (unit : DurUnit) :
    CalendarInRange value unit := by
  have hle := durationToCalendarDays_le h unit
  have hdays := abs_le.mp hle
  have hnonneg := abs_nonneg (durationToCalendarDays value unit)
  refine ⟨⟨?_, ?_⟩, fun base hbase direction hpos => ?_⟩
  · unfold FitsLong
    omega
  · unfold FitsLong
    omega
  · have hbound := hbase.bound
    rw [walkCalendarDaysInclusive, if_neg (by omega)]
    unfold FitsLong
    generalize |durationToCalendarDays value unit| = days at hle hpos
    cases direction <;> simp only [Direction.sign, calendarSecondsPerDay] <;> omega

theorem stepDay_near (t : ℤ) (direction : Direction) :
    t - 86400 ≤ stepDay t direction ∧ stepDay t direction ≤ t + 86400 := by
  cases direction <;> simp only [stepDay, Direction.sign, calendarSecondsPerDay] <;> omega

theorem firstLoop_near {base cur : ℤ} {direction : Direction}
    (h : Visits isWeekend (stepDay · direction) base cur) : |cur - base| ≤ 2 * 86400 := by
  have hbase := toWeekday_le direction (dayOf base)
  have hnear : |cur - base| + 86400 * toWeekday direction (dayOf cur)
      ≤ 86400 * toWeekday direction (dayOf base) := by
    refine h.invariant (I := fun t => |t - base| + 86400 * toWeekday direction (dayOf t)
      ≤ 86400 * toWeekday direction (dayOf base)) (by simp) fun t ht hc => ?_
    rw [isWeekend_eq_true] at hc
    have hlt := toWeekday_step direction hc
    rw [dayOf_stepDay]
    have hstep : |stepDay t direction - base| ≤ |t - base| + 86400 := by
      have h1 := stepDay_near t direction
      have h2 := abs_le.mp (le_refl |t - base|)
      rw [abs_le]
      omega
    omega
  omega

theorem secondLoop_near {cur remaining : ℤ} {direction : Direction} (hpos : 0 ≤ remaining)
    {s : WalkState} (h : Visits WalkState.goesOn (walkRound direction) ⟨cur, remaining⟩ s) :
    |s.cur - cur| ≤ 86400 * (3 * remaining + 3) ∧ 0 ≤ s.remaining ∧ s.remaining ≤ remaining := by
  have hle := toWeekday_le direction (dayOf cur + direction.sign)
  have hstart : (toGo direction ⟨cur, remaining⟩ : ℤ) ≤ 3 * remaining + 3 := by
    rw [toGo]
    dsimp only
    omega
  have hnear : |s.cur - cur| + 86400 * toGo direction s ≤ 86400 * toGo direction ⟨cur, remaining⟩ ∧
      0 ≤ s.remaining ∧ s.remaining ≤ remaining := by
    refine h.invariant (I := fun s => |s.cur - cur| + 86400 * toGo direction s
      ≤ 86400 * toGo direction ⟨cur, remaining⟩ ∧ 0 ≤ s.remaining ∧ s.remaining ≤ remaining)
      ⟨by simp, hpos, le_refl _⟩ fun t ht hc => ?_
    obtain ⟨hgone, hlow, hhigh⟩ := ht
    have hround := toGo_walkRound direction hc
    have hleft : 0 < t.remaining := of_decide_eq_true hc
    have hstep : |(walkRound direction t).cur - cur| ≤ |t.cur - cur| + 86400 := by
      have h1 := stepDay_near t.cur direction
      have h2 := abs_le.mp (le_refl |t.cur - cur|)
      show |stepDay t.cur direction - cur| ≤ _
      rw [abs_le]
      omega
    have hrest : 0 ≤ (walkRound direction t).remaining ∧
        (walkRound direction t).remaining ≤ t.remaining := by
      unfold walkRound
      dsimp only
      split_ifs <;> omega
    exact ⟨by omega, hrest.1, hrest.2.trans hhigh⟩
  exact ⟨by omega, hnear.2⟩

/-- The day that the two loops end with is one that they visit. -/
theorem visits_of_walk {n : ℕ} {base days t : ℤ} {direction : Direction} (hpos : 0 < days)
    (h : walkWorkingDaysUpTo n base days direction = some t) :
    ∃ cur s, Visits isWeekend (stepDay · direction) base cur ∧
      Visits WalkState.goesOn (walkRound direction) ⟨cur, days - 1⟩ s ∧ s.cur = t := by
  rw [walkWorkingDaysUpTo, if_neg (not_le.mpr hpos)] at h
  obtain ⟨cur, hcur, h⟩ := Option.bind_eq_some_iff.mp h
  obtain ⟨s, hs, h⟩ := Option.bind_eq_some_iff.mp h
  exact ⟨cur, s, (visits_of_loopUpTo hcur).1, (visits_of_loopUpTo hs).1, Option.some.inj h⟩

theorem workingInRange {value : ℤ} (h : FitsInt value) (unit : DurUnit) :
    WorkingInRange value unit := by
  have hle := lengthToWorkingDays_le h unit
  have hdays := abs_le.mp hle
  have hnonneg := abs_nonneg (lengthToWorkingDays value unit)
  have hsecond (base : ℤ) (hbase : IsDate base) (direction : Direction)
      (hpos : 0 < |lengthToWorkingDays value unit|) (cur : ℤ)
      (hcur : Visits isWeekend (stepDay · direction) base cur) (s : WalkState)
      (hs : Visits WalkState.goesOn (walkRound direction)
        ⟨cur, |lengthToWorkingDays value unit| - 1⟩ s) : FitsLong s.cur ∧ FitsLong s.remaining := by
    have hbound := hbase.bound
    have hnear := abs_le.mp (firstLoop_near hcur)
    obtain ⟨hfar, hlow, hhigh⟩ := secondLoop_near (by omega) hs
    have hfar := abs_le.mp hfar
    generalize |lengthToWorkingDays value unit| = days at *
    unfold FitsLong
    omega
  refine ⟨⟨?_, ?_⟩, fun base hbase direction cur hcur => ?_, hsecond,
    fun base hbase direction => ?_⟩
  · unfold FitsLong
    omega
  · unfold FitsLong
    omega
  · have hbound := hbase.bound
    have hnear := abs_le.mp (firstLoop_near hcur)
    unfold FitsLong
    omega
  · have hbound := hbase.bound
    have hstay : FitsLong base := by
      unfold FitsLong
      omega
    rw [walkWorkingDaysInclusive]
    cases hwalk : walkWorkingDaysUpTo _ base |lengthToWorkingDays value unit| direction with
    | none => exact hstay
    | some t =>
      by_cases hpos : 0 < |lengthToWorkingDays value unit|
      · obtain ⟨cur, s, hcur, hs, rfl⟩ := visits_of_walk hpos hwalk
        exact (hsecond base hbase direction hpos cur hcur s hs).1
      · rw [walkWorkingDaysUpTo, if_pos (not_lt.mp hpos)] at hwalk
        exact Option.some.inj hwalk ▸ hstay

/-- **The duration of a token** stays in range exactly if its number is an `int`; what is read is
that number with its sign. -/
theorem duration_in_range_iff {text : CStr} (hlex : durationPattern text = true) :
    (DurationInRange text ↔ writtenNumber text ≤ 2147483647) ∧
    ∃ unit, parseCompactDuration (some text)
      = some ((splitSign text).1 * writtenNumber text, unit) := by
  obtain ⟨hdigits, hsign, unit, hparse⟩ := parse_duration hlex
  have hread : (digitLoop (splitSign text).2 0).1 = writtenNumber text := by
    rw [show (0 : ℤ) = ((0 : ℕ) : ℤ) from rfl, digitLoop_eq]
    rfl
  refine ⟨⟨fun h => ?_, fun h => ?_⟩, unit, hparse⟩
  · have hlast := h.digits _ (digitLoop_mem hdigits 0)
    rw [Nat.cast_zero, hread] at hlast
    have hlt := hlast.2
    omega
  · have hfits : FitsInt ((splitSign text).1 * writtenNumber text) := by
      unfold FitsInt
      rcases hsign with hsign | hsign <;> rw [hsign] <;> omega
    have hvalue {value : ℤ} {unit' : DurUnit}
        (h' : parseCompactDuration (some text) = some (value, unit')) : FitsInt value := by
      rw [hparse, Option.some.injEq, Prod.mk.injEq] at h'
      exact h'.1 ▸ hfits
    refine ⟨fun v hv => ?_, hvalue, fun h' => calendarInRange (hvalue h') _,
      fun h' => workingInRange (hvalue h') _⟩
    obtain ⟨hlow, hhigh⟩ := (digitValues_le (splitSign text).2 0).2 v hv
    rw [Nat.cast_zero, hread] at hhigh
    unfold FitsInt
    omega

/-- The number of `5w` is an `int`. -/
theorem duration_in_range_weeks : DurationInRange (cstr "5w") :=
  (duration_in_range_iff (show durationPattern (cstr "5w") = true by decide +kernel)).1.mpr
    (by decide +kernel)

/-- Ten digits may be too many. -/
theorem duration_overflows :
    ¬ ∀ text, durationPattern text = true → DurationInRange text := by
  intro h
  have hrange := (h (cstr "2147483648d") (by decide +kernel)).digits 2147483648 (by decide +kernel)
  exact absurd hrange.2 (by decide)

end TaskjugglerLsp
