import TaskjugglerLsp.Grammar.Actions
import TaskjugglerLsp.Lib.Loop

/-!
# Code lenses

`code_lens.c`: behind a `length` or `duration` of a task that starts or ends on a given date, the
other date is shown.  `time_t` and `long` are integers here; `CodeLens/Durations.lean` says where
the variables of the program stay in their types.
-/

namespace TaskjugglerLsp

open Lib

/-! ### Durations -/

/-- A unit of a duration. -/
inductive DurUnit where
  | min
  | hour
  | day
  | week
  | month
  | year
  deriving DecidableEq

/-- `canon_unit`. -/
def canonUnit (s : CStr) : Option DurUnit :=
  if s = cstr "min" then some .min
  else if s = cstr "h" then some .hour
  else if s = cstr "d" then some .day
  else if s = cstr "w" then some .week
  else if s = cstr "m" then some .month
  else if s = cstr "y" then some .year
  else none

/-- The loop over the digits: `value`, and what is behind them. -/
def digitLoop : CStr → ℤ → ℤ × CStr
  | [], value => (value, [])
  | c :: s, value =>
    if isDigit c then digitLoop s (value * 10 + (c.toNat - 48)) else (value, c :: s)

/-- A sign, and what is behind it. -/
def splitSign : CStr → ℤ × CStr
  | 43 :: s => (1, s)
  | 45 :: s => (-1, s)
  | s => (1, s)

/-- `parse_compact_duration`. -/
def parseCompactDuration (text : Option CStr) : Option (ℤ × DurUnit) := do
  let (sign, s) := splitSign (← text)
  guard (s.head?.any isDigit)
  let (value, s) := digitLoop s 0
  let unit ← canonUnit s
  return (sign * value, unit)

/-- `strtol` to the base 10, stored in an `int`; out of range values are not modelled. -/
def strtolValue (s : CStr) : ℤ :=
  let (sign, s) := splitSign (s.dropWhile isSpace)
  sign * (digitLoop s 0).1

/-- `parse_dur_val_at`. -/
def parseDurValAt (spans : List TokenSpan) (start : ℕ) : Option (ℤ × DurUnit) := do
  let t ← spans[start]?
  if t.tokenKind = tkDuration then parseCompactDuration t.text
  else if t.tokenKind = tkInteger ∨ t.tokenKind = tkFloat then
    let u ← spans[start + 1]?
    guard (u.tokenKind = tkIdent)
    let unit ← u.text.bind canonUnit
    let text ← t.text
    return (strtolValue text, unit)
  else none

/-- `duration_to_calendar_days`. -/
def durationToCalendarDays (value : ℤ) : DurUnit → ℤ
  | .min | .hour => 0
  | .day => value
  | .week => value * 7
  | .month => value * 30
  | .year => value * 365

/-- `length_to_working_days`. -/
def lengthToWorkingDays (value : ℤ) : DurUnit → ℤ
  | .min | .hour => if 0 < value then 1 else if value < 0 then -1 else 0
  | .day => value
  | .week => value * 5
  | .month => value * 22
  | .year => value * 260

/-! ### Walks -/

/-- The direction of a walk. -/
inductive Direction where
  | forward
  | backward
  deriving DecidableEq

/-- `+1` or `-1`. -/
def Direction.sign : Direction → ℤ
  | forward => 1
  | backward => -1

/-- `CALENDAR_SECONDS_PER_DAY`. -/
def calendarSecondsPerDay : ℤ := 86400

/-- `step_day`. -/
def stepDay (t : ℤ) (direction : Direction) : ℤ := t + direction.sign * calendarSecondsPerDay

/-- The number of a day; day 0 is the first of January 1970. -/
def dayOf (t : ℤ) : ℤ := t / calendarSecondsPerDay

/-- The day of the week of a day, where Sunday is 0; day 0 is a Thursday. -/
def tmWday (day : ℤ) : ℤ := (day + 4) % 7

/-- `is_weekend`. -/
def isWeekend (t : ℤ) : Bool := tmWday (dayOf t) = 0 || tmWday (dayOf t) = 6

/-- The variables of the second loop of a walk. -/
structure WalkState where
  cur : ℤ
  remaining : ℤ
  deriving DecidableEq

/-- A round of this loop. -/
def walkRound (direction : Direction) (s : WalkState) : WalkState :=
  let cur := stepDay s.cur direction
  ⟨cur, if isWeekend cur then s.remaining else s.remaining - 1⟩

/-- There are days left to walk. -/
def WalkState.goesOn (s : WalkState) : Bool := 0 < s.remaining

/-- `walk_working_days_inclusive`, where each loop makes at most so many rounds. -/
def walkWorkingDaysUpTo (n : ℕ) (base days : ℤ) (direction : Direction) : Option ℤ :=
  if days ≤ 0 then some base
  else do
    let cur ← loopUpTo isWeekend (stepDay · direction) n base
    let s ← loopUpTo WalkState.goesOn (walkRound direction) n ⟨cur, days - 1⟩
    return s.cur

/-- `walk_working_days_inclusive`; its loops end within these rounds (`exists_walk`). -/
def walkWorkingDaysInclusive (base days : ℤ) (direction : Direction) : ℤ :=
  (walkWorkingDaysUpTo (3 * days.toNat + 3) base days direction).getD base

/-- `walk_calendar_days_inclusive`. -/
def walkCalendarDaysInclusive (base days : ℤ) (direction : Direction) : ℤ :=
  if days ≤ 0 then base
  else base + direction.sign * (days - 1) * calendarSecondsPerDay

/-! ### Lenses -/

/-- A lens: where it is, the direction of its arrow, and the date that it shows. -/
structure CodeLens where
  range : LspRange
  direction : Direction
  date : ℤ
  deriving DecidableEq

/-- The date of `format_inferred_date_title`. -/
def inferredDate (kind : ℕ) (value : ℤ) (unit : DurUnit) (base : ℤ) (direction : Direction) : ℤ :=
  if kind = kw "duration" then
    walkCalendarDaysInclusive base (durationToCalendarDays value unit).natAbs direction
  else walkWorkingDaysInclusive base (lengthToWorkingDays value unit).natAbs direction

/-- The date that a task has, and the direction to the other one. -/
def NodeCell.knownDate (owner : NodeCell) : Option (ℤ × Direction) :=
  match owner.startDate with
  | some base => some (base, .forward)
  | none => owner.endDate.map (·, .backward)

/-- The lens at a token, if there is one. -/
def codeLensAt (heap : List NodeCell) (spans : List TokenSpan) (owners : List (Option ℕ)) (i : ℕ) :
    Option CodeLens := do
  let t ← spans[i]?
  guard (t.tokenKind = kw "length" ∨ t.tokenKind = kw "duration")
  let owner ← owners[i]?.join
  guard ((heap.getD owner .new).info.keyword = kwTask)
  let (base, direction) ← (heap.getD owner .new).knownDate
  let (value, unit) ← parseDurValAt spans (i + 1)
  guard (value ≠ 0)
  return ⟨⟨t.start, t.stop⟩, direction, inferredDate t.tokenKind value unit base direction⟩

/-- **`build_code_lens_json`** of the output of a parse, as a list of lenses. -/
def buildCodeLenses (out : ParseResult) : List CodeLens :=
  (List.range out.tokSpans.length).filterMap (codeLensAt out.heap out.tokSpans out.tokOwners)

end TaskjugglerLsp
