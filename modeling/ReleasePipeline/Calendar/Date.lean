import ReleasePipeline.Text.Digit
import ReleasePipeline.Text.Quoted

/-! Dates of the Gregorian calendar and their ISO 8601 text. -/
namespace ReleasePipeline

/-- A date by its year, month and day, all counted from one. -/
structure Date where
  year : Nat
  month : Nat
  day : Nat
deriving DecidableEq, Repr, Inhabited

/-- Why numbers or a text are no date. -/
inductive DateError where
  | year (n : Nat)
  | month
  | day
  | format (text : String)
deriving DecidableEq, Repr

namespace DateError

def message : DateError → String
  | year n => s!"year {n} is out of range"
  | month => "month must be in 1..12"
  | day => "day is out of range for month"
  | format text => s!"Invalid isoformat string: {Text.quoted text}"

end DateError

namespace Date

/-- A year with 29 days in February. -/
def isLeap (year : Nat) : Bool := year % 4 = 0 && (year % 100 ≠ 0 || year % 400 = 0)

/-- The days of a month; zero where there is no such month. -/
def daysInMonth (year month : Nat) : Nat :=
  match month with
  | 2 => if isLeap year then 29 else 28
  | 4 | 6 | 9 | 11 => 30
  | 1 | 3 | 5 | 7 | 8 | 10 | 12 => 31
  | _ => 0

/-- The date of three numbers, with years from 1 to 9999. -/
def ofNumbers (year month day : Nat) : Except DateError Date :=
  if year = 0 || 9999 < year then .error (.year year)
  else if month = 0 || 12 < month then .error .month
  else if day = 0 || daysInMonth year month < day then .error .day
  else .ok ⟨year, month, day⟩

/-- The number in decimal digits, with zeros in front up to `width`. -/
def padded (width n : Nat) : String :=
  let ds := Nat.toDigits 10 n
  String.ofList (List.replicate (width - ds.length) '0' ++ ds)

/-- The date as `YYYY-MM-DD`. -/
def iso (d : Date) : String := s!"{padded 4 d.year}-{padded 2 d.month}-{padded 2 d.day}"

/-- The weekday of the first of January, Monday being zero. -/
def firstWeekday (year : Nat) : Nat :=
  let past := year - 1
  (past * 365 + past / 4 - past / 100 + past / 400) % 7

/-- The date `days` days after the first of the month `month`, looking at `months` months. -/
def afterFirst (year : Nat) : (months month days : Nat) → Except DateError Date
  | 0, _, days => ofNumbers (year + 1) 1 (days + 1)
  | months + 1, month, days =>
    if days < daysInMonth year month then ofNumbers year month (days + 1)
    else afterFirst year months (month + 1) (days - daysInMonth year month)

/-- The date of a day of an ISO week. Week 1 is the one with the first Thursday of the year, and a
year has a week 53 when it begins on a Thursday, or on a Wednesday if it is a leap year. -/
def ofWeek? (year week day : Nat) : Option (Except DateError Date) :=
  let w := firstWeekday year
  let weeks := if w = 3 || (w = 2 && isLeap year) then 53 else 52
  if week = 0 || weeks < week || day = 0 || 7 < day then none
  else if year = 0 then some (.error .month)
  else
    let first : Int := if w ≤ 3 then -(w : Int) else 7 - w
    let days : Int := first + 7 * (week - 1 : Nat) + (day - 1 : Nat)
    some (if days < 0 then ofNumbers (year - 1) 12 (32 + days).toNat
      else afterFirst year 12 1 days.toNat)

/-- Reads `count` ASCII digits. -/
def takeNumber? (count : Nat) (cs : List Char) : Option (Nat × List Char) :=
  let ds := cs.take count
  if ds.length = count && ds.all Char.isDigit then
    some (Text.digitsValue ds, cs.drop count)
  else none

/-- Reads a hyphen where the text has hyphens between its parts. -/
def takeHyphen? (wanted : Bool) (cs : List Char) : Option (List Char) :=
  if wanted then
    match cs with
    | '-' :: rest => some rest
    | _ => none
  else some cs

/-- The date of an ISO 8601 calendar or week date, with or without hyphens. The length of the text
decides whether it can be one; what follows the digits of a text without hyphens is not read. -/
def read? (text : String) : Option (Except DateError Date) := do
  unless [7, 8, 10].contains text.utf8ByteSize do none
  let (year, rest) ← takeNumber? 4 text.toList
  let hyphens := rest.head? = some '-'
  let rest := if hyphens then rest.drop 1 else rest
  match rest with
  | 'W' :: rest =>
    let (week, rest) ← takeNumber? 2 rest
    if rest.isEmpty then ofWeek? year week 1
    else
      let rest ← takeHyphen? hyphens rest
      let (day, _) ← takeNumber? 1 rest
      ofWeek? year week day
  | rest =>
    let (month, rest) ← takeNumber? 2 rest
    let rest ← takeHyphen? hyphens rest
    let (day, _) ← takeNumber? 2 rest
    some (ofNumbers year month day)

/-- The date that a text writes. -/
def ofIso (text : String) : Except DateError Date := (read? text).getD (.error (.format text))

end Date

end ReleasePipeline
