import ReleasePipeline.Text.Search
import ReleasePipeline.Toml.Fault
import ReleasePipeline.Value.Basic

/-! The strings, numbers, dates and times of TOML. -/
namespace ReleasePipeline.Toml

/-- White space inside a line. -/
def isSpace (c : Char) : Bool := c = ' ' || c = '\t'

/-- White space with line feeds. -/
def isSpaceOrNewline (c : Char) : Bool := isSpace c || c = '\n'

/-- A control character other than a tab. -/
def isControl (c : Char) : Bool := (c.toNat < 0x20 && c ≠ '\t') || c.toNat = 0x7f

/-- A control character that a text of several lines may not hold. -/
def isControlInLines (c : Char) : Bool := isControl c && c ≠ '\n'

/-- Reads up to `mark` and over it. The control characters `bad` may not stand before it. -/
def readUntil (mark : List Char) (bad : Char → Bool) (cs : List Char) :
    Except Failure (List Char × List Char) :=
  match Text.cutAt? mark cs with
  | none => .error (.fault (.closing (String.ofList mark)) [])
  | some (before, after) =>
    match before.find? bad with
    | some c => .error (.fault (.invalidCharacter c) (cs.dropWhile fun x => !bad x))
    | none => .ok (before, after)

/-- Reads the hexadecimal digits of an escape. -/
def readHex (count : Nat) (cs : List Char) : Except Failure (Char × List Char) :=
  let ds := cs.take count
  match ds.mapM Text.hexValue? with
  | none => .error (.fault .hexValue cs)
  | some values =>
    if ds.length ≠ count then .error (.fault .hexValue cs)
    else
      let n := values.foldl (fun n d => 16 * n + d) 0
      if n < 0xd800 || (0xe000 ≤ n && n < 0x110000) then .ok (Char.ofNat n, cs.drop count)
      else .error (.fault .notScalar (cs.drop count))

/-- The character of a simple escape. -/
def simpleEscape? : Char → Option Char
  | 'b' => some '\x08'
  | 't' => some '\t'
  | 'n' => some '\n'
  | 'f' => some '\x0c'
  | 'r' => some '\r'
  | '"' => some '"'
  | '\\' => some '\\'
  | _ => none

/-- Reads what follows a backslash. In a text of several lines a backslash at the end of a line takes
away the line end and the white space after it. -/
def readEscape (inLines : Bool) (cs : List Char) : Except Failure (List Char × List Char) :=
  match cs with
  | [] => .error (.fault .backslash [])
  | c :: rest =>
    if inLines && c = '\n' then .ok ([], rest.dropWhile isSpaceOrNewline)
    else if inLines && isSpace c then
      match rest.dropWhile isSpace with
      | [] => .ok ([], [])
      | '\n' :: rest => .ok ([], rest.dropWhile isSpaceOrNewline)
      | rest => .error (.fault .backslash rest)
    else if c = 'u' then do
      let (x, rest) ← readHex 4 rest
      return ([x], rest)
    else if c = 'U' then do
      let (x, rest) ← readHex 8 rest
      return ([x], rest)
    else match simpleEscape? c with
      | some x => .ok ([x], rest)
      | none => .error (.fault .backslash rest)

/-- Reads a string with escapes up to its closing quotes, one of them or three for a text of several
lines. -/
def readBasic (inLines : Bool) (fuel : Nat) (cs : List Char) :
    Except Failure (List Char × List Char) :=
  match fuel, cs with
  | fuel + 1, c :: rest =>
    if c = '"' && !inLines then .ok ([], rest)
    else if c = '"' && rest.take 2 = ['"', '"'] then .ok ([], rest.drop 2)
    else if c = '\\' then do
      let (x, rest) ← readEscape inLines rest
      let (xs, rest) ← readBasic inLines fuel rest
      return (x ++ xs, rest)
    else if (if inLines then isControlInLines c else isControl c) then
      .error (.fault (.illegalCharacter c) (c :: rest))
    else do
      let (xs, rest) ← readBasic inLines fuel rest
      return (c :: xs, rest)
  | _, _ => .error (.fault .unterminated [])

/-- The one or two quotes that may stand before the closing ones of a text of several lines. -/
def takeQuotes (quote : Char) (s : List Char) (cs : List Char) : List Char × List Char :=
  match cs with
  | a :: b :: rest =>
    if a = quote && b = quote then (s ++ [quote, quote], rest)
    else if a = quote then (s ++ [quote], b :: rest)
    else (s, cs)
  | [a] => if a = quote then (s ++ [quote], []) else (s, cs)
  | [] => (s, [])

/-- The text after its first line feed, if it begins with one. -/
def dropNewline (cs : List Char) : List Char :=
  match cs with
  | '\n' :: rest => rest
  | cs => cs

/-- Reads a string between double quotes, or between three of them. -/
def readDoubleQuoted (cs : List Char) : Except Failure (List Char × List Char) :=
  match cs with
  | '"' :: '"' :: rest => do
    let rest := dropNewline rest
    let (s, rest) ← readBasic true (rest.length + 1) rest
    return takeQuotes '"' s rest
  | cs => readBasic false (cs.length + 1) cs

/-- Reads a string between single quotes, or between three of them. -/
def readSingleQuoted (cs : List Char) : Except Failure (List Char × List Char) :=
  match cs with
  | '\'' :: '\'' :: rest => do
    let (s, rest) ← readUntil ['\'', '\'', '\''] isControlInLines (dropNewline rest)
    return takeQuotes '\'' s rest
  | cs => readUntil ['\''] isControl cs

/-- Digits with single underscores between them, of which the first is given. -/
def takeDigits (isDigit : Char → Bool) (fuel : Nat) (cs : List Char) : List Char × List Char :=
  match fuel, cs with
  | fuel + 1, '_' :: c :: rest =>
    if isDigit c then
      let (ds, rest) := takeDigits isDigit fuel rest
      (c :: ds, rest)
    else ([], cs)
  | fuel + 1, c :: rest =>
    if isDigit c then
      let (ds, rest) := takeDigits isDigit fuel rest
      (c :: ds, rest)
    else ([], cs)
  | _, _ => ([], cs)

/-- Digits that begin with one. -/
def takeDigits? (isDigit : Char → Bool) (cs : List Char) : Option (List Char × List Char) :=
  match cs with
  | c :: rest =>
    if isDigit c then
      let (ds, rest) := takeDigits isDigit rest.length rest
      some (c :: ds, rest)
    else none
  | [] => none

/-- An integer in another base, after its leading zero. -/
def takeBased? (cs : List Char) : Option (Value × List Char) :=
  let number (base : Nat) (isDigit : Char → Bool) (rest : List Char) : Option (Value × List Char) :=
    (takeDigits? isDigit rest).map fun (ds, rest) =>
      let n : Nat := ds.foldl (fun n c => base * n + (Text.hexValue? c).getD 0) 0
      (.int n, rest)
  match cs with
  | 'x' :: rest => number 16 (fun c => (Text.hexValue? c).isSome) rest
  | 'b' :: rest => number 2 (fun c => c = '0' || c = '1') rest
  | 'o' :: rest => number 8 (fun c => '0' ≤ c && c ≤ '7') rest
  | _ => none

/-- The fraction of a number after its point. -/
def takeFraction? (cs : List Char) : Option (List Char × List Char) :=
  match cs with
  | '.' :: rest => takeDigits? Char.isDigit rest
  | _ => none

/-- A sign, if there is one; true for a minus. -/
def takeSign (cs : List Char) : Bool × List Char :=
  match cs with
  | '-' :: rest => (true, rest)
  | '+' :: rest => (false, rest)
  | rest => (false, rest)

/-- The power of ten of a number after the letter `e`. -/
def takeExponent? (cs : List Char) : Option (Int × List Char) :=
  match cs with
  | e :: rest =>
    if e = 'e' || e = 'E' then
      let (negative, rest) := takeSign rest
      (takeDigits? Char.isDigit rest).map fun (ds, rest) =>
        let n : Int := Text.digitsValue ((ds.dropWhile (· = '0')).take 30)
        (if negative then -n else n, rest)
    else none
  | [] => none

/-- Reads a decimal number, none if there is none. -/
def takeDecimal? (cs : List Char) : Option (Except Failure (Value × List Char)) := do
  let (negative, cs) := takeSign cs
  let (whole, cs) ← match cs with
    | '0' :: rest => some (['0'], rest)
    | cs => takeDigits? Char.isDigit cs
  let fraction? := takeFraction? cs
  let cs := (fraction?.map (·.2)).getD cs
  let exponent? := takeExponent? cs
  let cs := (exponent?.map (·.2)).getD cs
  if fraction?.isNone && exponent?.isNone then
    return match Decimal.readNatural whole with
      | .error e => .error (.numeral e)
      | .ok n => .ok (.int (if negative then -(n : Int) else n), cs)
  else
    let fraction := (fraction?.map (·.1)).getD []
    let x := Decimal.floatOfDigits whole fraction ((exponent?.map (·.1)).getD 0)
    return .ok (.float (if negative then -x else x), cs)

/-- Reads a number, none if there is none. -/
def takeNumber? (cs : List Char) : Option (Except Failure (Value × List Char)) :=
  match cs with
  | '0' :: rest =>
    match takeBased? rest with
    | some r => some (.ok r)
    | none => takeDecimal? cs
  | cs => takeDecimal? cs

/-- Reads a number of `count` digits between two bounds. -/
def takeBounded? (count low high : Nat) (cs : List Char) : Option (Nat × List Char) :=
  let ds := cs.take count
  let n := Text.digitsValue ds
  if ds.length = count && ds.all Char.isDigit && low ≤ n && n ≤ high then some (n, cs.drop count)
  else none

/-- Reads a given character. -/
def takeChar? (wanted : Char → Bool) (cs : List Char) : Option (List Char) :=
  match cs with
  | c :: rest => if wanted c then some rest else none
  | [] => none

/-- The microseconds after a time: up to six digits, and more that are left out. -/
def takeMicros (cs : List Char) : Nat × List Char :=
  match cs with
  | '.' :: rest =>
    let ds := rest.takeWhile Char.isDigit
    if ds.isEmpty then (0, cs)
    else
      let six := (ds ++ List.replicate 6 '0').take 6
      (Text.digitsValue six, rest.dropWhile Char.isDigit)
  | _ => (0, cs)

/-- Reads a time of day. -/
def takeTime? (cs : List Char) : Option (TimeOfDay × List Char) := do
  let (hour, cs) ← takeBounded? 2 0 23 cs
  let cs ← takeChar? (· = ':') cs
  let (minute, cs) ← takeBounded? 2 0 59 cs
  let cs ← takeChar? (· = ':') cs
  let (second, cs) ← takeBounded? 2 0 59 cs
  let (micro, cs) := takeMicros cs
  return (⟨hour, minute, second, micro⟩, cs)

/-- Reads the offset of a time from universal time, in seconds. -/
def takeOffset? (cs : List Char) : Option (Int × List Char) :=
  match cs with
  | c :: rest =>
    if c = 'Z' || c = 'z' then some (0, rest)
    else if c = '+' || c = '-' then do
      let (hours, rest) ← takeBounded? 2 0 23 rest
      let rest ← takeChar? (· = ':') rest
      let (minutes, rest) ← takeBounded? 2 0 59 rest
      let seconds : Int := 3600 * hours + 60 * minutes
      return (if c = '-' then -seconds else seconds, rest)
    else none
  | [] => none

/-- Reads a date or a moment, none if there is neither. The error is a day that the month lacks. -/
def takeDate? (cs : List Char) : Option (Except Failure (Value × List Char)) := do
  let (year, rest) ← takeBounded? 4 0 9999 cs
  let rest ← takeChar? (· = '-') rest
  let (month, rest) ← takeBounded? 2 1 12 rest
  let rest ← takeChar? (· = '-') rest
  let (day, rest) ← takeBounded? 2 1 31 rest
  match Date.ofNumbers year month day with
  | .error _ => return .error (.fault .date cs)
  | .ok date =>
    let time? := (takeChar? (fun c => c = 'T' || c = 't' || c = ' ') rest).bind takeTime?
    match time? with
    | none => return .ok (.date date, rest)
    | some (time, rest) =>
      match takeOffset? rest with
      | some (offset, rest) => return .ok (.moment ⟨date, time, some offset⟩, rest)
      | none => return .ok (.moment ⟨date, time, none⟩, rest)

/-- The words that stand for values: truth values and the floats that are no numbers. -/
def words : List (String × Value) :=
  [("true", .bool true), ("false", .bool false)]

/-- The words for the floats that are no numbers. -/
def floatWords : List (String × Value) :=
  let inf := Decimal.infinity
  let nan := Decimal.notANumber
  [("inf", .float inf), ("nan", .float nan), ("-inf", .float (-inf)), ("+inf", .float inf),
   ("-nan", .float nan), ("+nan", .float nan)]

/-- Reads one of some words. -/
def takeWord? (words : List (String × Value)) (cs : List Char) : Option (Value × List Char) :=
  words.findSome? fun (w, v) => (Text.dropStart? w.toList cs).map fun rest => (v, rest)

end ReleasePipeline.Toml
