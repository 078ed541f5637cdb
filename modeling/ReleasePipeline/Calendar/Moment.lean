import ReleasePipeline.Calendar.Date

/-! Times of day and moments, the values that a configuration file may hold beside dates. -/
namespace ReleasePipeline

/-- A time of day with microseconds. -/
structure TimeOfDay where
  hour : Nat
  minute : Nat
  second : Nat
  micro : Nat
deriving DecidableEq, Repr, Inhabited

/-- A date and a time of day, at an offset in seconds from universal time if one is known. -/
structure Moment where
  date : Date
  time : TimeOfDay
  offset : Option Int
deriving DecidableEq, Repr, Inhabited

/-- Why numbers are no moment. -/
inductive MomentError where
  | date (e : DateError)
  | hour
  | minute
  | second
  | offset (seconds : Int)
deriving DecidableEq, Repr

/-- A span of time as the message of an offset error names it. -/
def spanText (seconds : Int) : String :=
  let days := seconds.fdiv 86400
  let rest := seconds.fmod 86400
  let parts := (if days = 0 then [] else [s!"days={days}"]) ++
    (if rest = 0 then [] else [s!"seconds={rest}"])
  let body := if parts.isEmpty then "0" else String.intercalate ", " parts
  s!"datetime.timedelta({body})"

namespace MomentError

def message : MomentError → String
  | date e => e.message
  | hour => "hour must be in 0..23"
  | minute => "minute must be in 0..59"
  | second => "second must be in 0..59"
  | offset seconds =>
    "offset must be a timedelta strictly between -timedelta(hours=24) and timedelta(hours=24), " ++
      s!"not {spanText seconds}."

end MomentError

namespace TimeOfDay

/-- The time of four numbers. -/
def ofNumbers (hour minute second micro : Nat) : Except MomentError TimeOfDay :=
  if 23 < hour then .error .hour
  else if 59 < minute then .error .minute
  else if 59 < second then .error .second
  else .ok ⟨hour, minute, second, micro⟩

/-- The time as `HH:MM:SS`, followed by six decimals unless they are zero. -/
def iso (t : TimeOfDay) : String :=
  s!"{Date.padded 2 t.hour}:{Date.padded 2 t.minute}:{Date.padded 2 t.second}" ++
    (if t.micro = 0 then "" else s!".{Date.padded 6 t.micro}")

end TimeOfDay

namespace Moment

/-- An offset as `+HH:MM`, followed by its seconds unless they are zero. -/
def offsetIso (seconds : Int) : String :=
  let n := seconds.natAbs
  let sign := if seconds < 0 then "-" else "+"
  s!"{sign}{Date.padded 2 (n / 3600)}:{Date.padded 2 (n / 60 % 60)}" ++
    (if n % 60 = 0 then "" else s!":{Date.padded 2 (n % 60)}")

/-- The moment with `sep` between date and time and its offset at the end. -/
def isoWith (sep : String) (m : Moment) : String :=
  m.date.iso ++ sep ++ m.time.iso ++ (m.offset.map offsetIso).getD ""

/-- The moment with a `T` between date and time. -/
def iso (m : Moment) : String := m.isoWith "T"

/-- An offset is less than a day in both directions. -/
def checkOffset (seconds : Int) : Except MomentError Int :=
  if seconds.natAbs < 86400 then .ok seconds else .error (.offset seconds)

end Moment

end ReleasePipeline
