import ReleasePipeline.Text.Digit
import ReleasePipeline.Text.Search

/-! Tags, which say what kind of value a node holds, and the tags of plain scalars. -/
namespace ReleasePipeline.Yaml

/-- A tag. -/
inductive Tag where
  | null
  | bool
  | int
  | float
  | binary
  | timestamp
  | string
  | list
  | table
  | set
  /-- A list of tables with one entry each. -/
  | pairs
  /-- The key of tables whose entries belong to the table of the key. -/
  | merge
  /-- The key of the value that stands for its table. -/
  | value
  | other (name : String)
deriving DecidableEq, Repr, Inhabited

namespace Tag

/-- What the names of the common tags begin with. -/
def commonStart : String := "tag:yaml.org,2002:"

/-- The common tags by the rest of their names. -/
def common : List (String × Tag) :=
  [("null", null), ("bool", bool), ("int", int), ("float", float), ("binary", binary),
   ("timestamp", timestamp), ("str", string), ("seq", list), ("map", table), ("set", set),
   ("omap", pairs), ("pairs", pairs), ("merge", merge), ("value", value)]

/-- The tag of a name. -/
def ofName (name : String) : Tag :=
  match Text.dropStart? commonStart.toList name.toList with
  | some rest => ((common.find? fun (n, _) => n.toList = rest).map (·.2)).getD (other name)
  | none => other name

end Tag

/-- The words for truth values. -/
def boolWords : List (String × Bool) :=
  [("yes", true), ("no", false), ("true", true), ("false", false), ("on", true), ("off", false)]

/-- A word in lower case, in upper case or with a capital, as truth values may be written. -/
def isCased (word : String) (cs : List Char) : Bool :=
  let lower := word.toList
  let upper := lower.map Char.toUpper
  cs = lower || cs = upper || cs = upper.take 1 ++ lower.drop 1

/-- A digit or an underscore. -/
def isDigitOrLine (c : Char) : Bool := c.isDigit || c = '_'

/-- The text without a sign at its beginning. -/
def dropSign : List Char → List Char
  | '+' :: cs | '-' :: cs => cs
  | cs => cs

/-- A part of a numeral to the base of sixty. -/
def isSixty : List Char → Bool
  | [d] => d.isDigit
  | [d, e] => '0' ≤ d && d ≤ '5' && e.isDigit
  | _ => false

/-- A text of at least one character, all of which satisfy `p`. -/
def isRun (p : Char → Bool) (cs : List Char) : Bool := !cs.isEmpty && cs.all p

/-- A decimal, binary, octal or hexadecimal numeral or one to the base of sixty. -/
def isIntegerText (cs : List Char) : Bool :=
  match dropSign cs with
  | ['0'] => true
  | '0' :: 'b' :: ds => isRun (fun c => c = '0' || c = '1' || c = '_') ds
  | '0' :: 'x' :: ds => isRun (fun c => (Text.hexValue? c).isSome || c = '_') ds
  | '0' :: ds => ds.all fun c => ('0' ≤ c && c ≤ '7') || c = '_'
  | d :: ds =>
    match Text.splitChars ':' ds with
    | first :: sixties => Text.isLeadingDigit d && first.all isDigitOrLine && sixties.all isSixty
    | [] => false
  | [] => false

/-- An exponent of ten with its sign, or nothing. -/
def isExponent : List Char → Bool
  | [] => true
  | e :: sign :: ds => (e = 'e' || e = 'E') && (sign = '+' || sign = '-') && isRun Char.isDigit ds
  | _ => false

/-- The digits after the point of a float, with its exponent. -/
def isFraction (cs : List Char) : Bool := isExponent (cs.dropWhile isDigitOrLine)

/-- Digits and underscores of which the first is a digit. -/
def isDigitRun : List Char → Bool
  | d :: ds => d.isDigit && ds.all isDigitOrLine
  | [] => false

/-- A float: a numeral with a point, or one of the words for infinity and for no number. -/
def isFloatText (cs : List Char) : Bool :=
  match Text.cutAt? ['.'] (dropSign cs) with
  | none => false
  | some ([], after) =>
    isCased "inf" after ||
      (cs.head? = some '.' && ([['n', 'a', 'n'], ['N', 'a', 'N'], ['N', 'A', 'N']].contains after ||
        (isDigitRun (after.take 1) && isFraction after)))
  | some (before, after) =>
    match Text.splitChars ':' before with
    | first :: sixties =>
      isDigitRun first && sixties.all isSixty &&
        if sixties.isEmpty then isFraction after else after.all isDigitOrLine
    | [] => false

/-- The parts of a timestamp as they are written. -/
structure Timestamp where
  year : List Char
  month : List Char
  day : List Char
  /-- Hour, minute, second and the digits after the point. -/
  clock : Option (List Char × List Char × List Char × List Char) := none
  /-- The sign, the hours and the minutes of the offset. -/
  zone : Option (Bool × List Char × List Char) := none

namespace Timestamp

/-- Takes `least` to `most` digits. -/
def takeDigits? (least most : Nat) (cs : List Char) : Option (List Char × List Char) :=
  let ds := (cs.take most).takeWhile Char.isDigit
  if least ≤ ds.length then some (ds, cs.drop ds.length) else none

/-- Takes one character. -/
def takeChar? (c : Char) : List Char → Option (List Char)
  | x :: rest => if x = c then some rest else none
  | [] => none

/-- The offset from universal time at the end of a timestamp. -/
def zone? (cs : List Char) : Option (Bool × List Char × List Char) :=
  match cs.dropWhile fun c => c = ' ' || c = '\t' with
  | ['Z'] => some (false, ['0'], ['0'])
  | sign :: rest => do
    if sign ≠ '+' && sign ≠ '-' then none
    let (hours, rest) ← takeDigits? 1 2 rest
    match rest with
    | [] => return (sign = '-', hours, ['0'])
    | rest =>
      let (minutes, rest) ← takeDigits? 2 2 (← takeChar? ':' rest)
      if rest.isEmpty then return (sign = '-', hours, minutes) else none
  | [] => none

/-- Reads the time of a timestamp that begins with this date. -/
def readClock? (t : Timestamp) (cs : List Char) : Option Timestamp := do
  let (hour, rest) ← takeDigits? 1 2 cs
  let (minute, rest) ← takeDigits? 2 2 (← takeChar? ':' rest)
  let (second, rest) ← takeDigits? 2 2 (← takeChar? ':' rest)
  let (fraction, rest) := match rest with
    | '.' :: rest => (rest.takeWhile Char.isDigit, rest.dropWhile Char.isDigit)
    | rest => ([], rest)
  let t := { t with clock := some (hour, minute, second, fraction) }
  match rest with
  | [] => return t
  | rest => return { t with zone := some (← zone? rest) }

/-- Reads a timestamp. -/
def read? (cs : List Char) : Option Timestamp := do
  let (year, rest) ← takeDigits? 4 4 cs
  let (month, rest) ← takeDigits? 1 2 (← takeChar? '-' rest)
  let (day, rest) ← takeDigits? 1 2 (← takeChar? '-' rest)
  let t : Timestamp := { year, month, day }
  match rest with
  | [] => return t
  | c :: rest =>
    if c = 'T' || c = 't' then t.readClock? rest
    else if c = ' ' || c = '\t' then
      t.readClock? (rest.dropWhile fun c => c = ' ' || c = '\t')
    else none

end Timestamp

/-- A timestamp whose date, when it stands alone, has two digits for the month and the day. -/
def isTimestampText (cs : List Char) : Bool :=
  match Timestamp.read? cs with
  | some t => t.clock.isSome || cs.length = 10
  | none => false

/-- The text without a line feed at its end. -/
def dropFinalBreak (cs : List Char) : List Char := (Text.dropEnd? ['\n'] cs).getD cs

/-- The tag that a scalar has by its form when it stands without quotes. -/
def Tag.ofPlain (text : String) : Tag :=
  let all := text.toList
  let cs := if all = ['\n'] then all else dropFinalBreak all
  if boolWords.any fun (w, _) => isCased w cs then .bool
  else if isFloatText cs then .float
  else if isIntegerText cs then .int
  else if cs = ['<', '<'] then .merge
  else if cs.isEmpty || cs = ['~'] || isCased "null" cs then .null
  else if isTimestampText cs then .timestamp
  else if cs = ['='] then .value
  else if [['!'], ['&'], ['*']].contains cs then .other (Tag.commonStart ++ "yaml")
  else .string

end ReleasePipeline.Yaml
