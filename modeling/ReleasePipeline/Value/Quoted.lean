import ReleasePipeline.Decimal.Numeral
import ReleasePipeline.Value.Basic
import ReleasePipeline.Text.Search

/-! The form in which messages show a value. -/
namespace ReleasePipeline

/-- A byte inside quotes. -/
def quotedByte (quote : Char) (b : UInt8) : List Char :=
  let c := Char.ofNat b.toNat
  if c = quote || c = '\\' then ['\\', c]
  else if c = '\t' then ['\\', 't']
  else if c = '\n' then ['\\', 'n']
  else if c = '\r' then ['\\', 'r']
  else if b < 0x20 || 0x7f ≤ b then '\\' :: 'x' :: Text.hexPadded 2 b.toNat
  else [c]

/-- Bytes as a quoted text with a `b` in front. -/
def quotedBytes (bs : List UInt8) : String :=
  let quote := Text.quoteFor (bs.map fun b => Char.ofNat b.toNat)
  String.ofList ('b' :: quote :: bs.flatMap (quotedByte quote) ++ [quote])

namespace TimeOfDay

/-- The numbers of a time, without the seconds and the microseconds when both are zero and without
the microseconds when they are. -/
def numbers (t : TimeOfDay) : List Nat :=
  [t.hour, t.minute] ++ (if t.second = 0 && t.micro = 0 then [] else [t.second]) ++
    (if t.micro = 0 then [] else [t.micro])

end TimeOfDay

namespace Moment

/-- The offset as messages name it. -/
def offsetQuoted (seconds : Int) : String :=
  if seconds = 0 then "datetime.timezone.utc" else s!"datetime.timezone({spanText seconds})"

/-- The moment as messages name it. -/
def quoted (m : Moment) : String :=
  let numbers := [m.date.year, m.date.month, m.date.day] ++ m.time.numbers
  let parts := numbers.map toString ++
    (m.offset.map fun o => s!"tzinfo={offsetQuoted o}").toList
  "datetime.datetime(" ++ String.intercalate ", " parts ++ ")"

end Moment

namespace Value

mutual

/-- The value as messages show it. -/
def quoted : Value → String
  | null => "None"
  | bool true => "True"
  | bool false => "False"
  | int n => toString n
  | float x => Decimal.floatText x
  | string s => Text.quoted s
  | date d => s!"datetime.date({d.year}, {d.month}, {d.day})"
  | moment m => m.quoted
  | time t => "datetime.time(" ++ String.intercalate ", " (t.numbers.map toString) ++ ")"
  | bytes bs => quotedBytes bs
  | list items => "[" ++ String.intercalate ", " (quotedItems items) ++ "]"
  | table entries => "\x7b" ++ String.intercalate ", " (quotedEntries entries) ++ "\x7d"
  | set [] => "set()"
  | set items => "\x7b" ++ String.intercalate ", " (quotedItems items) ++ "\x7d"
  | pair key value => "(" ++ key.quoted ++ ", " ++ value.quoted ++ ")"
  | shared _ value => value.quoted
  | loop _ => "[...]"

/-- The items of a list as messages show them. -/
def quotedItems : List Value → List String
  | [] => []
  | v :: vs => v.quoted :: quotedItems vs

/-- The entries of a table as messages show them. -/
def quotedEntries : List (Value × Value) → List String
  | [] => []
  | (k, v) :: rest => (k.quoted ++ ": " ++ v.quoted) :: quotedEntries rest

end

mutual

/-- Every number in the value is short enough to be written. -/
def isWritable : Value → Bool
  | int n => Decimal.isWritable n
  | list items => allWritable items
  | set items => allWritable items
  | table entries => entriesWritable entries
  | pair key value => key.isWritable && value.isWritable
  | shared _ value => value.isWritable
  | _ => true

/-- Every number in the items of a list is short enough to be written. -/
def allWritable : List Value → Bool
  | [] => true
  | v :: vs => v.isWritable && allWritable vs

/-- Every number in the entries of a table is short enough to be written. -/
def entriesWritable : List (Value × Value) → Bool
  | [] => true
  | (k, v) :: rest => k.isWritable && v.isWritable && entriesWritable rest

end

/-- The value inside a text: a string as it is, anything else as messages show it. -/
def inText : Value → String
  | string s => s
  | date d => d.iso
  | moment m => m.isoWith " "
  | time t => t.iso
  | v => v.quoted

end Value

end ReleasePipeline
