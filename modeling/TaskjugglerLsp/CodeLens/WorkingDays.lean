import Mathlib.Data.Int.Interval
import Mathlib.Data.Int.ConditionallyCompleteOrder
import Mathlib.Data.Finset.Card
import TaskjugglerLsp.CodeLens

/-!
# The walk over working days

How many weekdays lie between a date and the one that a walk finds, counted in the closed
interval.

* `exists_walk`: the loops of a walk end.
* `walk_working_days`: where a walk ends, and that it can be walked back.
-/

namespace TaskjugglerLsp

open Lib

/-! ### Weekdays -/

/-- A day of the week from Monday to Friday. -/
def IsWeekday (day : ℤ) : Prop := tmWday day ≠ 0 ∧ tmWday day ≠ 6

instance (day : ℤ) : Decidable (IsWeekday day) := inferInstanceAs (Decidable (_ ∧ _))

theorem isWeekend_eq_false {t : ℤ} : isWeekend t = false ↔ IsWeekday (dayOf t) := by
  simp [isWeekend, IsWeekday]

theorem isWeekend_eq_true {t : ℤ} : isWeekend t = true ↔ ¬ IsWeekday (dayOf t) := by
  rw [← isWeekend_eq_false, Bool.not_eq_false]

/-- **The weekdays between two days**, in the closed interval. -/
noncomputable def weekdaysBetween (a b : ℤ) : ℕ := {day ∈ Finset.Icc a b ∪ Finset.Icc b a | IsWeekday day}.card

theorem weekdaysBetween_comm (a b : ℤ) : weekdaysBetween a b = weekdaysBetween b a := by
  rw [weekdaysBetween, weekdaysBetween, Finset.union_comm]

theorem weekdaysBetween_self (a : ℤ) : weekdaysBetween a a = if IsWeekday a then 1 else 0 := by
  rw [weekdaysBetween, Finset.union_self, Finset.Icc_self, Finset.filter_singleton]
  split_ifs <;> rfl

/-- The day behind the `k`-th step of a walk. -/
def walked (a : ℤ) (direction : Direction) (k : ℕ) : ℤ := a + direction.sign * k

/-- Behind one more step there is one more weekday, if it is one. -/
theorem weekdaysBetween_succ (a : ℤ) (direction : Direction) (k : ℕ) :
    weekdaysBetween a (walked a direction (k + 1)) = weekdaysBetween a (walked a direction k) +
      if IsWeekday (walked a direction (k + 1)) then 1 else 0 := by
  have hset : Finset.Icc a (walked a direction (k + 1)) ∪ Finset.Icc (walked a direction (k + 1)) a
      = insert (walked a direction (k + 1))
        (Finset.Icc a (walked a direction k) ∪ Finset.Icc (walked a direction k) a) := by
    ext day
    simp only [Finset.mem_insert, Finset.mem_union, Finset.mem_Icc]
    cases direction <;> simp only [walked, Direction.sign] <;> omega
  have hnew : walked a direction (k + 1) ∉
      Finset.Icc a (walked a direction k) ∪ Finset.Icc (walked a direction k) a := by
    simp only [Finset.mem_union, Finset.mem_Icc]
    cases direction <;> simp only [walked, Direction.sign] <;> omega
  rw [weekdaysBetween, hset, Finset.filter_insert]
  split_ifs
  · rw [Finset.card_insert_of_notMem fun h => hnew (Finset.mem_of_mem_filter _ h)]
    rfl
  · rfl

/-- **A walk is determined** by the number of weekdays: of two weekdays on the same side of a day,
the nearer one has fewer weekdays in between. -/
theorem walked_inj {a : ℤ} {direction : Direction} {k j : ℕ}
    (hk : IsWeekday (walked a direction k)) (hj : IsWeekday (walked a direction j))
    (h : weekdaysBetween a (walked a direction k) = weekdaysBetween a (walked a direction j)) :
    k = j := by
  have hmono : Monotone fun k => weekdaysBetween a (walked a direction k) :=
    monotone_nat_of_le_succ fun k => by
      rw [weekdaysBetween_succ]
      exact Nat.le_add_right _ _
  -- the farther weekday is counted by the farther walk only
  have hlt {k j : ℕ} (hj : IsWeekday (walked a direction j)) (hkj : k < j) :
      weekdaysBetween a (walked a direction k) < weekdaysBetween a (walked a direction j) := by
    obtain ⟨i, rfl⟩ : ∃ i, j = i + 1 := ⟨j - 1, by omega⟩
    rw [weekdaysBetween_succ, if_pos hj]
    exact Nat.lt_succ_of_le (hmono (by omega))
  rcases Nat.lt_trichotomy k j with hkj | rfl | hjk
  · exact absurd h (hlt hj hkj).ne
  · rfl
  · exact absurd h (hlt hk hjk).ne'

/-! ### The loops -/

/-- The date behind the `k`-th step of a walk. -/
def walkedDate (base : ℤ) (direction : Direction) (k : ℕ) : ℤ :=
  base + direction.sign * k * calendarSecondsPerDay

theorem dayOf_walkedDate (base : ℤ) (direction : Direction) (k : ℕ) :
    dayOf (walkedDate base direction k) = walked (dayOf base) direction k :=
  Int.add_mul_ediv_right _ _ (by decide)

theorem stepDay_walkedDate (base : ℤ) (direction : Direction) (k : ℕ) :
    stepDay (walkedDate base direction k) direction = walkedDate base direction (k + 1) := by
  simp only [stepDay, walkedDate, Nat.cast_add, Nat.cast_one]
  ring

/-- The steps from a day to a weekday. -/
def toWeekday : Direction → ℤ → ℕ
  | .forward, day => if tmWday day = 6 then 2 else if tmWday day = 0 then 1 else 0
  | .backward, day => if tmWday day = 0 then 2 else if tmWday day = 6 then 1 else 0

theorem toWeekday_le (direction : Direction) (day : ℤ) : toWeekday direction day ≤ 2 := by
  cases direction <;> rw [toWeekday] <;> split_ifs <;> decide

/-- A step on a weekend leads to a weekday. -/
theorem toWeekday_step (direction : Direction) {day : ℤ} (h : ¬ IsWeekday day) :
    toWeekday direction (day + direction.sign) < toWeekday direction day := by
  have hday : tmWday day = 0 ∨ tmWday day = 6 := by
    rwa [IsWeekday, ← not_or, not_not] at h
  unfold tmWday at hday
  cases direction with
  | forward =>
    rw [toWeekday, toWeekday, Direction.sign, tmWday, tmWday]
    split_ifs <;> omega
  | backward =>
    rw [toWeekday, toWeekday, Direction.sign, tmWday, tmWday]
    split_ifs <;> omega

theorem walked_succ (a : ℤ) (direction : Direction) (k : ℕ) :
    walked a direction (k + 1) = walked a direction k + direction.sign := by
  simp only [walked, Nat.cast_add, Nat.cast_one]
  ring

/-- How far a walk is: `k` steps, with `remaining` of `days` weekdays still to find. -/
structure WalkedTo (base days : ℤ) (direction : Direction) (cur remaining : ℤ) (k : ℕ) :
    Prop where
  cur : cur = walkedDate base direction k
  count : (weekdaysBetween (dayOf base) (walked (dayOf base) direction k) : ℤ) + remaining = days

/-- Only the last day of a walk may be a weekday. -/
def WalkedToFirst (base : ℤ) (direction : Direction) (cur : ℤ) : Prop :=
  ∃ k, cur = walkedDate base direction k ∧
    weekdaysBetween (dayOf base) (walked (dayOf base) direction k)
      = if IsWeekday (walked (dayOf base) direction k) then 1 else 0

theorem walkedToFirst_start (base : ℤ) (direction : Direction) :
    WalkedToFirst base direction base := by
  refine ⟨0, by simp [walkedDate], ?_⟩
  rw [show walked (dayOf base) direction 0 = dayOf base by simp [walked]]
  exact weekdaysBetween_self _

theorem WalkedToFirst.step {base cur : ℤ} {direction : Direction}
    (h : WalkedToFirst base direction cur) (hc : isWeekend cur = true) :
    WalkedToFirst base direction (stepDay cur direction) ∧
      toWeekday direction (dayOf (stepDay cur direction)) < toWeekday direction (dayOf cur) := by
  obtain ⟨k, rfl, hcount⟩ := h
  rw [isWeekend_eq_true, dayOf_walkedDate] at hc
  rw [if_neg hc] at hcount
  rw [stepDay_walkedDate, dayOf_walkedDate, dayOf_walkedDate, walked_succ]
  refine ⟨⟨k + 1, rfl, ?_⟩, toWeekday_step direction hc⟩
  rw [weekdaysBetween_succ, hcount, Nat.zero_add]

/-- **The first loop** ends at the first weekday. -/
theorem exists_firstWeekday (base days : ℤ) (direction : Direction) {n : ℕ} (hn : 3 ≤ n) :
    ∃ cur, loopUpTo isWeekend (stepDay · direction) n base = some cur ∧
      ∃ k, WalkedTo base days direction cur (days - 1) k ∧ isWeekend cur = false := by
  have hmeasure : toWeekday direction (dayOf base) < n :=
    (toWeekday_le direction (dayOf base)).trans_lt hn
  obtain ⟨cur, hcur, ⟨k, rfl, hcount⟩, hend⟩ := loopUpTo_of_measure
    (fun t => toWeekday direction (dayOf t)) (walkedToFirst_start base direction) (fun _ h hc => h.step hc) hmeasure
  refine ⟨_, hcur, k, ⟨rfl, ?_⟩, hend⟩
  rw [isWeekend_eq_false, dayOf_walkedDate] at hend
  rw [hcount, if_pos hend]
  omega

/-- The walk at the head of the second loop. -/
def WalkedOn (base days : ℤ) (direction : Direction) (s : WalkState) : Prop :=
  0 ≤ s.remaining ∧ (isWeekend s.cur = true → 0 < s.remaining) ∧
    ∃ k, WalkedTo base days direction s.cur s.remaining k

/-- What the second loop has to go, at most. -/
def toGo (direction : Direction) (s : WalkState) : ℕ :=
  3 * s.remaining.toNat + (toWeekday direction (dayOf s.cur + direction.sign) + 1)

theorem dayOf_stepDay (t : ℤ) (direction : Direction) :
    dayOf (stepDay t direction) = dayOf t + direction.sign :=
  Int.add_mul_ediv_right _ _ (by decide)

theorem toGo_walkRound (direction : Direction) {s : WalkState} (hc : s.goesOn = true) :
    toGo direction (walkRound direction s) < toGo direction s := by
  have hpos : 0 < s.remaining := of_decide_eq_true hc
  have hle := toWeekday_le direction (dayOf s.cur + direction.sign + direction.sign)
  rw [toGo, toGo, walkRound]
  simp only [dayOf_stepDay]
  split_ifs with hweekend
  · rw [isWeekend_eq_true, dayOf_stepDay] at hweekend
    have hlt := toWeekday_step direction hweekend
    omega
  · omega

theorem WalkedOn.walkRound {base days : ℤ} {direction : Direction} {s : WalkState}
    (h : WalkedOn base days direction s) (hc : s.goesOn = true) :
    WalkedOn base days direction (walkRound direction s) := by
  obtain ⟨-, -, k, hcur, hcount⟩ := h
  have hpos : 0 < s.remaining := of_decide_eq_true hc
  have hnext : stepDay s.cur direction = walkedDate base direction (k + 1) := by
    rw [hcur, stepDay_walkedDate]
  have hmore := weekdaysBetween_succ (dayOf base) direction k
  unfold TaskjugglerLsp.walkRound
  by_cases hweekend : isWeekend (stepDay s.cur direction) = true
  · simp only [if_pos hweekend]
    refine ⟨hpos.le, fun _ => hpos, k + 1, hnext, ?_⟩
    rw [isWeekend_eq_true, hnext, dayOf_walkedDate] at hweekend
    rw [if_neg hweekend] at hmore
    rw [hmore]
    exact hcount
  · simp only [if_neg hweekend]
    refine ⟨Int.le_sub_one_of_lt hpos, fun h => absurd h hweekend, k + 1, hnext, ?_⟩
    rw [Bool.not_eq_true, isWeekend_eq_false, hnext, dayOf_walkedDate] at hweekend
    rw [if_pos hweekend] at hmore
    show (weekdaysBetween _ _ : ℤ) + (s.remaining - 1) = days
    omega

/-- **The walk ends** at the weekday where the days are used up. -/
theorem exists_walk (base : ℤ) {days : ℤ} (hdays : 1 ≤ days) (direction : Direction) {n : ℕ}
    (hn : 3 * days.toNat + 3 ≤ n) :
    ∃ k, walkWorkingDaysUpTo n base days direction = some (walkedDate base direction k) ∧
      IsWeekday (walked (dayOf base) direction k) ∧
      (weekdaysBetween (dayOf base) (walked (dayOf base) direction k) : ℤ) = days := by
  obtain ⟨cur, hfirst, k, hwalked, hweekday⟩ :=
    exists_firstWeekday base days direction (n := n) (by omega)
  have hstart : WalkedOn base days direction ⟨cur, days - 1⟩ := by
    refine ⟨by show 0 ≤ days - 1; omega, fun h => ?_, k, hwalked⟩
    rw [hweekday] at h
    cases h
  have hmeasure : toGo direction ⟨cur, days - 1⟩ < n := by
    have hle := toWeekday_le direction (dayOf cur + direction.sign)
    show 3 * (days - 1).toNat + (toWeekday direction (dayOf cur + direction.sign) + 1) < n
    omega
  obtain ⟨s, hs, ⟨hpos, hweekend, j, hcur, hcount⟩, hend⟩ := loopUpTo_of_measure (toGo direction)
    hstart (fun _ h hc => ⟨h.walkRound hc, toGo_walkRound direction hc⟩) hmeasure
  have hzero : s.remaining = 0 := by
    have hnot : ¬ 0 < s.remaining := of_decide_eq_false hend
    omega
  refine ⟨j, ?_, ?_, ?_⟩
  · rw [walkWorkingDaysUpTo, if_neg (by omega), hfirst]
    show (loopUpTo _ _ n _ >>= _) = _
    rw [hs]
    exact congrArg some hcur
  · rw [← dayOf_walkedDate, ← hcur, ← isWeekend_eq_false, Bool.eq_false_iff]
    intro h
    exact absurd (hweekend h) (by omega)
  · rw [← hcount, hzero, Int.add_zero]

/-! ### Walks -/

def Direction.opposite : Direction → Direction
  | forward => backward
  | backward => forward

theorem walkedDate_back (base : ℤ) (direction : Direction) (k : ℕ) :
    walkedDate (walkedDate base direction k) direction.opposite k = base := by
  cases direction <;> simp only [walkedDate, Direction.opposite, Direction.sign] <;> ring

/-- **Walks over working days**: the loops end at a weekday, in the direction of the walk, so that
the closed interval has the given number of weekdays; and from a weekday, the walk back ends where
it began. -/
theorem walk_working_days (base : ℤ) {days : ℤ} (hdays : 1 ≤ days) (direction : Direction) :
    (∃ n, walkWorkingDaysUpTo n base days direction
      = some (walkWorkingDaysInclusive base days direction)) ∧
    isWeekend (walkWorkingDaysInclusive base days direction) = false ∧
    0 ≤ direction.sign * (walkWorkingDaysInclusive base days direction - base) ∧
    (weekdaysBetween (dayOf base) (dayOf (walkWorkingDaysInclusive base days direction)) : ℤ)
      = days ∧
    (isWeekend base = false → walkWorkingDaysInclusive
      (walkWorkingDaysInclusive base days direction) days direction.opposite = base) := by
  have hwalk (base : ℤ) (direction : Direction) : ∃ k, walkWorkingDaysUpTo (3 * days.toNat + 3)
      base days direction = some (walkWorkingDaysInclusive base days direction) ∧
      walkWorkingDaysInclusive base days direction = walkedDate base direction k ∧
      IsWeekday (walked (dayOf base) direction k) ∧
      (weekdaysBetween (dayOf base) (walked (dayOf base) direction k) : ℤ) = days := by
    obtain ⟨k, hk, hweekday, hcount⟩ := exists_walk base hdays direction (Nat.le_refl _)
    have hresult : walkWorkingDaysInclusive base days direction = walkedDate base direction k := by
      rw [walkWorkingDaysInclusive, hk, Option.getD_some]
    exact ⟨k, by rw [hk, hresult], hresult, hweekday, hcount⟩
  obtain ⟨k, hend, hresult, hweekday, hcount⟩ := hwalk base direction
  refine ⟨⟨_, hend⟩, ?_⟩
  rw [hresult]
  refine ⟨?_, ?_, ?_, fun hbase => ?_⟩
  · rwa [isWeekend_eq_false, dayOf_walkedDate]
  · cases direction <;> simp only [walkedDate, Direction.sign, calendarSecondsPerDay] <;> omega
  · rw [dayOf_walkedDate]
    exact hcount
  · obtain ⟨j, -, hback, hweekday', hcount'⟩ := hwalk (walkedDate base direction k)
      direction.opposite
    have hhome : walked (dayOf (walkedDate base direction k)) direction.opposite k = dayOf base := by
      rw [← dayOf_walkedDate, walkedDate_back]
    have hcountback : weekdaysBetween (dayOf (walkedDate base direction k))
        (walked (dayOf (walkedDate base direction k)) direction.opposite k) = days := by
      rw [hhome, dayOf_walkedDate, weekdaysBetween_comm]
      exact hcount
    have hjk : j = k := by
      refine walked_inj hweekday' ?_ (Int.natCast_inj.mp (hcount'.trans hcountback.symm))
      rw [hhome]
      exact isWeekend_eq_false.mp hbase
    rw [hback, hjk, walkedDate_back]

/-- From a Wednesday, twelve working days forward and back. -/
theorem walk_working_days_wednesday :
    isWeekend (walkWorkingDaysInclusive (19725 * 86400) 12 .forward) = false ∧
    walkWorkingDaysInclusive (walkWorkingDaysInclusive (19725 * 86400) 12 .forward) 12 .backward
      = 19725 * 86400 := by
  have h := walk_working_days (19725 * 86400) (show (1 : ℤ) ≤ 12 by decide) .forward
  exact ⟨h.2.1, h.2.2.2.2 (by decide)⟩

end TaskjugglerLsp
