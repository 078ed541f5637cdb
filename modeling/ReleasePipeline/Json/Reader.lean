import ReleasePipeline.Decimal.Numeral
import ReleasePipeline.Text.Search
import ReleasePipeline.Value.Basic

/-! Reading JSON texts. -/
namespace ReleasePipeline.Json

/-- What a JSON text lacks or has too much of. -/
inductive Fault where
  | byteOrderMark
  | value
  | propertyName
  | colon
  | comma
  | extraData
  | unterminatedString
  | controlCharacter
  | escape
  | unicodeEscape
deriving DecidableEq, Repr

namespace Fault

def message : Fault → String
  | byteOrderMark => "Unexpected UTF-8 BOM (decode using utf-8-sig)"
  | value => "Expecting value"
  | propertyName => "Expecting property name enclosed in double quotes"
  | colon => "Expecting ':' delimiter"
  | comma => "Expecting ',' delimiter"
  | extraData => "Extra data"
  | unterminatedString => "Unterminated string starting at"
  | controlCharacter => "Invalid control character at"
  | escape => "Invalid \\escape"
  | unicodeEscape => "Invalid \\uXXXX escape"

end Fault

/-- Why a text is not read. -/
inductive ReadError where
  /-- A fault at a line and a column, both counted from one. -/
  | fault (f : Fault) (line column : Nat)
  /-- A number is too long. -/
  | numeral (e : Decimal.NumeralError)
  /-- An escape for half of a surrogate pair. The texts here hold whole characters only. -/
  | surrogate
deriving DecidableEq, Repr

/-- A fault and the text from its place on. -/
inductive Failure where
  | fault (f : Fault) (rest : List Char)
  | numeral (e : Decimal.NumeralError)
  | surrogate
deriving Repr

/-- The white space between tokens. -/
def isSpace (c : Char) : Bool := c = ' ' || c = '\t' || c = '\n' || c = '\r'

/-- The text after its white space. -/
def skipSpace (cs : List Char) : List Char := cs.dropWhile isSpace

/-- The character of a simple escape. -/
def simpleEscape? : Char → Option Char
  | '"' => some '"'
  | '\\' => some '\\'
  | '/' => some '/'
  | 'b' => some '\x08'
  | 'f' => some '\x0c'
  | 'n' => some '\n'
  | 'r' => some '\r'
  | 't' => some '\t'
  | _ => none

/-- The number of four hexadecimal digits. -/
def hex4? : List Char → Option Nat
  | [a, b, c, d] => do
    let a ← Text.hexValue? a
    let b ← Text.hexValue? b
    let c ← Text.hexValue? c
    let d ← Text.hexValue? d
    return 4096 * a + 256 * b + 16 * c + d
  | _ => none

/-- The character of a code point that is no surrogate, in front of the text behind it. -/
def charOf (n : Nat) (rest : List Char) : Except Failure (Char × List Char) :=
  if n.isValidChar then .ok (Char.ofNat n, rest) else .error .surrogate

/-- Reads the digits of an escape after `u`. Two escapes in a row that are the halves of one character
are read together, but not at the end of the text. -/
def readUnicodeEscape (cs : List Char) : Except Failure (Char × List Char) :=
  let rest := cs.drop 4
  if cs.length ≤ 4 then .error (.fault .unicodeEscape ('u' :: cs))
  else match hex4? (cs.take 4) with
    | none => .error (.fault .unicodeEscape ('u' :: cs))
    | some n =>
      match rest with
      | '\\' :: 'u' :: more =>
        if 0xd800 ≤ n && n < 0xdc00 && 4 < more.length then
          match hex4? (more.take 4) with
          | none => .error (.fault .unicodeEscape ('u' :: more))
          | some m =>
            if 0xdc00 ≤ m && m < 0xe000 then
              charOf (0x10000 + (n - 0xd800) * 1024 + (m - 0xdc00)) (more.drop 4)
            else charOf n rest
        else charOf n rest
      | _ => charOf n rest

/-- Reads the characters of a string up to its closing quote. `start` is the text from the opening
quote on. -/
def readString (start : List Char) (fuel : Nat) (cs : List Char) : Except Failure (List Char × List Char) :=
  match fuel, cs with
  | fuel + 1, c :: rest =>
    if c = '"' then .ok ([], rest)
    else if c = '\\' then
      match rest with
      | [] => .error (.fault .unterminatedString start)
      | 'u' :: digits => do
        let (x, rest) ← readUnicodeEscape digits
        let (xs, rest) ← readString start fuel rest
        return (x :: xs, rest)
      | e :: rest =>
        match simpleEscape? e with
        | none => .error (.fault .escape (c :: e :: rest))
        | some x => do
          let (xs, rest) ← readString start fuel rest
          return (x :: xs, rest)
    else if c.toNat < 0x20 then .error (.fault .controlCharacter (c :: rest))
    else do
      let (xs, rest) ← readString start fuel rest
      return (c :: xs, rest)
  | _, _ => .error (.fault .unterminatedString start)

/-- The digits of a fraction after a point, if there is one. -/
def takeFraction (cs : List Char) : List Char × List Char :=
  match cs with
  | '.' :: rest =>
    let ds := rest.takeWhile Char.isDigit
    if ds.isEmpty then ([], cs) else (ds, rest.dropWhile Char.isDigit)
  | _ => ([], cs)

/-- The power of ten after the letter `e`, if there is one. -/
def takeExponent (cs : List Char) : Option Int × List Char :=
  match cs with
  | e :: rest =>
    if e = 'e' || e = 'E' then
      let (negative, digits) := match rest with
        | '-' :: more => (true, more)
        | '+' :: more => (false, more)
        | more => (false, more)
      let ds := digits.takeWhile Char.isDigit
      if ds.isEmpty then (none, cs)
      else
        let n : Int := Text.digitsValue (ds.dropWhile (· = '0') |>.take 30)
        (some (if negative then -n else n), digits.dropWhile Char.isDigit)
    else (none, cs)
  | [] => (none, cs)

/-- Whether a minus stands in front, and the text after it. -/
def takeSign (cs : List Char) : Bool × List Char :=
  match cs with
  | '-' :: rest => (true, rest)
  | rest => (false, rest)

/-- The digits of a whole number, if there is one: a zero alone, or any that begin with another
digit. -/
def takeWhole? (cs : List Char) : Option (List Char × List Char) :=
  match cs with
  | '0' :: rest => some (['0'], rest)
  | c :: rest =>
    if '1' ≤ c && c ≤ '9' then some (cs.takeWhile Char.isDigit, rest.dropWhile Char.isDigit)
    else none
  | [] => none

/-- Reads a number. One with a fraction or an exponent is a float. -/
def readNumber (start : List Char) : Except Failure (Value × List Char) :=
  let (negative, cs) := takeSign start
  match takeWhole? cs with
  | none => .error (.fault .value start)
  | some (whole, cs) =>
    let (fraction, cs) := takeFraction cs
    let (exponent, cs) := takeExponent cs
    if fraction.isEmpty && exponent.isNone then
      match Decimal.readNatural whole with
      | .error e => .error (.numeral e)
      | .ok n => .ok (.int (if negative then -(n : Int) else n), cs)
    else
      let x := Decimal.floatOfDigits whole fraction (exponent.getD 0)
      .ok (.float (if negative then -x else x), cs)

/-- The words that stand for values. -/
def words : List (String × Value) :=
  [("null", .null), ("true", .bool true), ("false", .bool false), ("NaN", .float Decimal.notANumber),
   ("Infinity", .float Decimal.infinity), ("-Infinity", .float (-Decimal.infinity))]

/-- Reads one of the words. -/
def takeWord? (cs : List Char) : Option (Value × List Char) :=
  words.findSome? fun (w, v) => (Text.dropStart? w.toList cs).map fun rest => (v, rest)

mutual

/-- Reads a value that begins at once. -/
def readValue (fuel : Nat) (cs : List Char) : Except Failure (Value × List Char) :=
  match fuel with
  | 0 => .error (.fault .value cs)
  | fuel + 1 =>
    match cs with
    | '"' :: rest => do
      let (s, rest) ← readString cs (rest.length + 1) rest
      return (.string (String.ofList s), rest)
    | '[' :: rest =>
      match skipSpace rest with
      | ']' :: rest => .ok (.list [], rest)
      | rest => do
        let (items, rest) ← readItems fuel rest
        return (.list items, rest)
    | '\x7b' :: rest =>
      match skipSpace rest with
      | '\x7d' :: rest => .ok (.table [], rest)
      | rest => do
        let (members, rest) ← readMembers fuel rest
        return (.table (Table.ofEntries members), rest)
    | cs => ((takeWord? cs).map Except.ok).getD (readNumber cs)

/-- Reads the items of a list from the first one to the closing bracket. -/
def readItems (fuel : Nat) (cs : List Char) : Except Failure (List Value × List Char) :=
  match fuel with
  | 0 => .error (.fault .value cs)
  | fuel + 1 => do
    let (v, rest) ← readValue fuel cs
    match skipSpace rest with
    | ']' :: rest => return ([v], rest)
    | ',' :: rest =>
      let (vs, rest) ← readItems fuel (skipSpace rest)
      return (v :: vs, rest)
    | rest => .error (.fault .comma rest)

/-- Reads the members of a table from the first name to the closing brace. -/
def readMembers (fuel : Nat) (cs : List Char) : Except Failure (List (Value × Value) × List Char) :=
  match fuel with
  | 0 => .error (.fault .value cs)
  | fuel + 1 =>
    match cs with
    | '"' :: rest => do
      let (name, rest) ← readString cs (rest.length + 1) rest
      match skipSpace rest with
      | ':' :: rest =>
        let (v, rest) ← readValue fuel (skipSpace rest)
        let member := (Value.string (String.ofList name), v)
        match skipSpace rest with
        | '\x7d' :: rest => return ([member], rest)
        | ',' :: rest =>
          let (members, rest) ← readMembers fuel (skipSpace rest)
          return (member :: members, rest)
        | rest => .error (.fault .comma rest)
      | rest => .error (.fault .colon rest)
    | cs => .error (.fault .propertyName cs)

end

/-- Reads a whole text: one value between white space. -/
def readDocument (cs : List Char) : Except Failure Value :=
  match cs with
  | '\ufeff' :: _ => .error (.fault .byteOrderMark cs)
  | cs => do
    let (v, rest) ← readValue (2 * cs.length + 2) (skipSpace cs)
    match skipSpace rest with
    | [] => return v
    | rest => .error (.fault .extraData rest)

/-- The line and the column, counted from one, of the place after `before`. -/
def position (before : List Char) : Nat × Nat :=
  (before.count '\n' + 1, (before.reverse.takeWhile (· ≠ '\n')).length + 1)

/-- The value that a JSON text writes. -/
def read (text : String) : Except ReadError Value :=
  let cs := text.toList
  (readDocument cs).mapError fun
    | .numeral e => .numeral e
    | .surrogate => .surrogate
    | .fault f rest =>
      let (line, column) := position (cs.take (cs.length - rest.length))
      .fault f line column

end ReleasePipeline.Json
