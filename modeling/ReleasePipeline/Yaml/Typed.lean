import ReleasePipeline.Value.Quoted
import ReleasePipeline.Text.Blank
import ReleasePipeline.Yaml.Fault
import ReleasePipeline.Yaml.Tag

/-! The values of scalars under their tags. -/
namespace ReleasePipeline.Yaml

/-- The value of a digit to the base. -/
def digitOf? (base : Nat) (c : Char) : Option Nat :=
  ((Text.digitValue? c).or (Text.hexValue? c)).filter (· < base)

/-- The text without the letter of its base at the beginning. -/
def dropBase (base : Nat) : List Char → List Char
  | '0' :: c :: cs =>
    let letter := if base = 16 then 'x' else if base = 8 then 'o' else 'b'
    if base ≠ 10 && c.toLower = letter then cs else '0' :: c :: cs
  | cs => cs

/-- The whole number that a text names to a base. There may be blanks around it and a sign. -/
def readInteger (base : Nat) (text : List Char) : Except ReadError Int :=
  let all := Text.stripChars text
  let ds := dropBase base (dropSign all)
  let digits := ds.takeWhile fun c => (digitOf? base c).isSome
  if base = 10 && Decimal.maxDigits < digits.length then
    .error (.numeral (.reading digits.length))
  else if digits.isEmpty || digits.length < ds.length then
    .error (.noInteger base (String.ofList text))
  else
    let n := digits.foldl (fun n c => base * n + (digitOf? base c).getD 0) 0
    .ok (if all.head? = some '-' then -(n : Int) else n)

/-- The number of a text without its sign. -/
def readMagnitude (cs : List Char) : Except ReadError Int :=
  match cs with
  | [] => .error .noDigits
  | ['0'] => .ok 0
  | '0' :: 'b' :: ds => readInteger 2 ds
  | '0' :: 'x' :: ds => readInteger 16 ds
  | '0' :: ds => readInteger 8 ('0' :: ds)
  | cs => do
    if cs.contains ':' then
      let parts ← (Text.splitChars ':' cs).mapM (readInteger 10)
      return parts.foldl (fun n p => 60 * n + p) 0
    else readInteger 10 cs

/-- The whole number that a scalar writes. -/
def integerOf (text : String) : Except ReadError Int := do
  let cs := text.toList.filter (· ≠ '_')
  if cs.isEmpty then throw .noDigits
  let n ← readMagnitude (dropSign cs)
  return if cs.head? = some '-' then -n else n

/-- The words for floats that no numeral writes. -/
def floatWords : List (String × Float) :=
  [("inf", Decimal.infinity), ("infinity", Decimal.infinity), ("nan", Decimal.notANumber)]

/-- The exponent of ten at the end of a float. -/
def exponentOf? (cs : List Char) : Option Int :=
  match cs with
  | [] => some 0
  | 'e' :: rest =>
    let ds := dropSign rest
    if isRun Text.isDigit ds then
      let n : Nat := Text.digitsValue ds
      some (if rest.head? = some '-' then -(n : Int) else n)
    else none
  | _ => none

/-- The float that digits with a point and an exponent write. -/
def floatOf? (cs : List Char) : Option Float := do
  match floatWords.find? fun (w, _) => w.toList = cs with
  | some (_, x) => return x
  | none =>
    let whole := cs.takeWhile Text.isDigit
    let rest := cs.dropWhile Text.isDigit
    let (fraction, rest) := match rest with
      | '.' :: rest => (rest.takeWhile Text.isDigit, rest.dropWhile Text.isDigit)
      | rest => ([], rest)
    if whole.isEmpty && fraction.isEmpty then none
    return Decimal.floatOfDigits whole fraction (← exponentOf? rest)

/-- The float that a text names. There may be blanks around it and a sign. -/
def readFloat (text : List Char) : Except ReadError Float :=
  let all := Text.stripChars text
  match floatOf? (dropSign all) with
  | some x => .ok (if all.head? = some '-' then -x else x)
  | none => .error (.noFloat (String.ofList text))

/-- The float that a scalar writes. -/
def floatOf (text : String) : Except ReadError Float := do
  let all := (text.toList.filter (· ≠ '_')).map Char.toLower
  if all.isEmpty then throw .noDigits
  let cs := dropSign all
  let x ←
    if cs = ".inf".toList then pure Decimal.infinity
    else if cs = ".nan".toList then pure Decimal.notANumber
    else if cs.contains ':' then do
      let parts ← (Text.splitChars ':' cs).mapM readFloat
      let places := parts.reverse.zipIdx.map fun (x, i) => x * Decimal.nearestFloat (Nat.pow 60 i) 0
      pure (places.foldl (· + ·) 0.0)
    else readFloat cs
  return if all.head? = some '-' then -x else x

/-- The truth value that a scalar writes. -/
def boolOf (text : String) : Except ReadError Bool :=
  match boolWords.find? fun (w, _) => w = Text.lowerAscii text with
  | some (_, b) => .ok b
  | none => .error .noBool

/-- The first six digits after a point, as a number of millionths. -/
def microOf (ds : List Char) : Nat := Text.digitsValue ((ds ++ List.replicate 6 '0').take 6)

/-- The date or the moment of a timestamp. -/
def Timestamp.value (t : Timestamp) : Except MomentError Value := do
  let n := Text.digitsValue
  let date := (Date.ofNumbers (n t.year) (n t.month) (n t.day)).mapError MomentError.date
  match t.clock with
  | none => return .date (← date)
  | some (hour, minute, second, fraction) =>
    let offset ← t.zone.mapM fun (negative, hours, minutes) =>
      let seconds : Int := 3600 * n hours + 60 * n minutes
      Moment.checkOffset (if negative then -seconds else seconds)
    let date ← date
    let time ← TimeOfDay.ofNumbers (n hour) (n minute) (n second) (microOf fraction)
    return .moment ⟨date, time, offset⟩

/-- The value of a digit to the base of 64. -/
def base64Value? (c : Char) : Option Nat :=
  if 'A' ≤ c && c ≤ 'Z' then some (c.toNat - 65)
  else if 'a' ≤ c && c ≤ 'z' then some (c.toNat - 71)
  else if '0' ≤ c && c ≤ '9' then some (c.toNat + 4)
  else if c = '+' then some 62
  else if c = '/' then some 63
  else none

/-- The bytes of a text in base 64. `group` holds the digits since the last three bytes, at most
three, and `pads` counts the equals signs since the last digit. Other characters are skipped, and
what follows a full group with its equals signs is not read. -/
def base64Bytes? (group : List Nat) (pads : Nat) : List Char → Option (List UInt8)
  | [] => if group.isEmpty then some [] else none
  | c :: rest =>
    if c = '=' then
      if 2 ≤ group.length && 4 ≤ group.length + pads + 1 then some []
      else base64Bytes? group (if 2 ≤ group.length then pads + 1 else pads) rest
    else match base64Value? c, group with
      | none, _ => base64Bytes? group pads rest
      | some v, [] => base64Bytes? [v] 0 rest
      | some v, [a] => (base64Bytes? [a, v] 0 rest).map (UInt8.ofNat (4 * a + v / 16) :: ·)
      | some v, [_, b] =>
        (base64Bytes? [0, b, v] 0 rest).map (UInt8.ofNat (b % 16 * 16 + v / 4) :: ·)
      | some v, _ :: _ :: d :: _ =>
        (base64Bytes? [] 0 rest).map (UInt8.ofNat (d % 4 * 64 + v) :: ·)

/-- The value of a scalar under a tag. -/
def scalarValue (tag : Tag) (text : String) (place : Place) : Except ReadError Value :=
  match tag with
  | .null => .ok .null
  | .bool => (boolOf text).map .bool
  | .int => (integerOf text).map .int
  | .float => (floatOf text).map .float
  | .binary =>
    if text.toList.all fun c => c.toNat < 128 then
      match base64Bytes? [] 0 text.toList with
      | some bytes => .ok (.bytes bytes)
      | none => .error (.fault .base64 place)
    else .error (.fault .base64 place)
  | .timestamp =>
    match Timestamp.read? (dropFinalBreak text.toList) with
    | some t => t.value.mapError .moment
    | none => .error .noTimestamp
  | .string => .ok (.string text)
  | _ => .error (.fault .unknownTag place)

end ReleasePipeline.Yaml
