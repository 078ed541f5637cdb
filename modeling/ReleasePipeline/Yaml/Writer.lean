import ReleasePipeline.Calendar.Date
import ReleasePipeline.Decimal.Numeral
import ReleasePipeline.Value.Basic
import ReleasePipeline.Yaml.Sheet
import ReleasePipeline.Yaml.Tag

/-! Writing values as YAML texts: collections as blocks, scalars as plain as they can be. -/
namespace ReleasePipeline.Yaml

/-- Why a value is not written. -/
inductive WriteError where
  /-- YAML has no form for a time of day. -/
  | noForm
  /-- A number is too long. -/
  | numeral (e : Decimal.NumeralError)
deriving DecidableEq, Repr

namespace WriteError

def message : WriteError → String
  | noForm => ""
  | numeral e => e.message

end WriteError

/-- What decides how a text can be written. -/
structure TextTraits where
  /-- The text holds line breaks. -/
  multiline : Bool
  /-- The text can stand without quotes. -/
  plain : Bool
  /-- The text can stand in single quotes. -/
  single : Bool

/-- A line break, a blank or a NUL. -/
def isGapChar (c : Char) : Bool := c = '\x00' || c = '\r' || isWhite c || isBreak c

/-- A character that only double quotes can show. -/
def isSpecial (c : Char) : Bool :=
  let n := c.toNat
  !(c = '\n' || (0x20 ≤ n && n ≤ 0x7e) || n = 0x85 || (0xa0 ≤ n && n ≤ 0xd7ff) ||
    (0xe000 ≤ n && n ≤ 0xfffd) || (0x10000 ≤ n && n < 0x10ffff)) || c = byteOrderMark

/-- Two neighbours of which the first satisfies `p` and the second `q`. -/
def hasPair (p q : Char → Bool) : List Char → Bool
  | a :: b :: cs => (p a && q b) || hasPair p q (b :: cs)
  | _ => false

/-- A mark of blocks stands in the text: a mark at its beginning, a colon before a gap or a number
sign behind one. -/
def hasBlockMark (cs : List Char) : Bool :=
  let first := match cs with
    | [] => false
    | c :: rest =>
      "#,[]\x7b\x7d&*!|>'\"%@`".toList.contains c ||
        ((c = '?' || c = '-') && rest.head?.all isGapChar)
  first || cs.take 3 = ['-', '-', '-'] || cs.take 3 = ['.', '.', '.'] ||
    hasPair (· = ':') isGapChar cs || cs.getLast? = some ':' || hasPair isGapChar (· = '#') cs

/-- The traits of a text. -/
def TextTraits.of (cs : List Char) : TextTraits :=
  let isSpace := fun c => c = ' '
  let isEdge := fun (c? : Option Char) => c?.any fun c => c = ' ' || isBreak c
  let special := cs.any isSpecial || hasPair isSpace isBreak cs
  let single := !special && !hasPair isBreak isSpace cs
  let multiline := cs.any isBreak
  { multiline
    plain := single && !multiline && !isEdge cs.head? && !isEdge cs.getLast? && !hasBlockMark cs
    single }

/-- The digits to the base of 64. -/
def base64Digits : List Char :=
  "ABCDEFGHIJKLMNOPQRSTUVWXYZabcdefghijklmnopqrstuvwxyz0123456789+/".toList

/-- The digit of a value below 64. -/
def base64Digit (n : Nat) : Char := base64Digits.getD (n % 64) '='

/-- The text of bytes in base 64. -/
def base64Text : List UInt8 → List Char
  | [] => []
  | [a] =>
    let n := a.toNat * 16
    [base64Digit (n / 64), base64Digit n, '=', '=']
  | [a, b] =>
    let n := (a.toNat * 256 + b.toNat) * 4
    [base64Digit (n / 4096), base64Digit (n / 64), base64Digit n, '=']
  | a :: b :: c :: rest =>
    let n := (a.toNat * 256 + b.toNat) * 256 + c.toNat
    base64Digit (n / 262144) :: base64Digit (n / 4096) :: base64Digit (n / 64) :: base64Digit n ::
      base64Text rest

/-- The lines of a text of `width` characters each. -/
def linesOf (width : Nat) (fuel : Nat) (cs : List Char) : List (List Char) :=
  match fuel with
  | 0 => []
  | fuel + 1 =>
    if cs.isEmpty then [] else cs.take width :: linesOf width fuel (cs.drop width)

/-- A scalar with the name of its tag. -/
structure Scalar where
  tag : Tag
  name : String
  text : List Char

/-- The text of a float. The mantissa has a point. -/
def floatChars (x : Float) : List Char :=
  if x.isNaN then ".nan".toList
  else if x.isInf then if x < 0 then "-.inf".toList else ".inf".toList
  else
    let cs := (Decimal.floatText x).toList
    if cs.contains '.' then cs
    else Text.replaceChars ['e'] ['.', '0', 'e'] cs

/-- The scalar of a value. -/
def Scalar.of? : Value → Option Scalar
  | .null => some ⟨.null, "null", "null".toList⟩
  | .bool b => some ⟨.bool, "bool", (if b then "true" else "false").toList⟩
  | .int n => some ⟨.int, "int", (toString n).toList⟩
  | .float x => some ⟨.float, "float", floatChars x⟩
  | .string s => some ⟨.string, "str", s.toList⟩
  | .date d => some ⟨.timestamp, "timestamp", d.iso.toList⟩
  | .moment m => some ⟨.timestamp, "timestamp", (m.isoWith " ").toList⟩
  | .bytes bs =>
    let lines := linesOf 76 (bs.length + 1) (base64Text bs)
    some ⟨.binary, "binary", lines.flatMap (· ++ ['\n'])⟩
  | _ => none

/-- The place of a value: in a list, as a key on the line of its value, as a key on a line of its
own, or as the value of a key. -/
inductive Position where
  | item
  | key
  | longKey
  | value
deriving DecidableEq

/-- The longest key, with its tag and anchor, that stands on the line of its value. -/
def maxSimpleKey : Nat := 127

/-- The anchor of the shared value with the number `n`, counted from zero. -/
def anchorName (n : Nat) : String := "id" ++ Date.padded 3 (n + 1)

/-- Writes a scalar. -/
def Sheet.putScalar (indent : Nat) (position : Position) (x : Scalar) (s : Sheet) : Sheet :=
  let isKey := position = .key
  let traits := TextTraits.of x.text
  if x.tag = .binary then
    let s := s.putMark "!!binary"
    if x.text.isEmpty || isKey then s.putDouble (!isKey) indent x.text
    else s.putLiteral indent (((Text.splitChars '\n' x.text)).dropLast)
  else if .ofPlain (String.ofList x.text) = x.tag && traits.plain &&
      !(isKey && (x.text.isEmpty || traits.multiline)) then
    s.putPlain (!isKey) indent x.text
  else if traits.single && !(isKey && traits.multiline) then s.putSingle (!isKey) indent x.text
  else s.putDouble (!isKey) indent x.text

/-- Writes a value that is no collection. -/
def Sheet.putText (indent : Nat) (position : Position) (v : Value) (s : Sheet) : Sheet :=
  ((Scalar.of? v).map fun x => s.putScalar indent position x).getD s

/-- A key that can stand on the line of its value. -/
def isSimpleKey (anchors : List Nat) (written : List Nat) : Value → Bool
  | .loop _ => true
  | .shared label v =>
    if written.contains label then true
    else
      let anchor := if anchors.contains label then (anchorName (anchors.idxOf label)).length else 0
      match Scalar.of? v with
      | some x => anchor + x.name.length + 2 + x.text.length ≤ maxSimpleKey
      | none => false
  | v =>
    match Scalar.of? v with
    | some x =>
      x.name.length + 2 + x.text.length ≤ maxSimpleKey && !x.text.isEmpty && !x.text.any isBreak
    | none => false

mutual

/-- The labels of the values that are met again, in the order in which that happens. `met` holds the
labels that were met. -/
def repeatedIn (found : List Nat × List Nat) : Value → List Nat × List Nat
  | .shared label v =>
    let (met, again) := found
    if met.contains label then
      (met, if again.contains label then again else again ++ [label])
    else repeatedIn (label :: met, again) v
  | .loop label =>
    let (met, again) := found
    (met, if again.contains label then again else again ++ [label])
  | .list items | .set items => repeatedInItems found items
  | .table entries => repeatedInEntries found entries
  | .pair k v => repeatedIn (repeatedIn found k) v
  | _ => found

/-- The labels of the items of a list that are met again. -/
def repeatedInItems (found : List Nat × List Nat) : List Value → List Nat × List Nat
  | [] => found
  | v :: vs => repeatedInItems (repeatedIn found v) vs

/-- The labels of the entries of a table that are met again. -/
def repeatedInEntries (found : List Nat × List Nat) : List (Value × Value) → List Nat × List Nat
  | [] => found
  | (k, v) :: rest => repeatedInEntries (repeatedIn (repeatedIn found k) v) rest

end

/-- Goes to the place of a key and writes the mark of one that needs a line of its own. -/
def Sheet.beginKey (indent : Nat) (simple : Bool) (s : Sheet) : Sheet :=
  if simple then s.indentTo indent else (s.indentTo indent).putBlockMark "?"

/-- Writes the colon between a key and its value. -/
def Sheet.endKey (indent : Nat) (simple : Bool) (s : Sheet) : Sheet :=
  if simple then s.putClose ":" else (s.indentTo indent).putBlockMark ":"

/-- The column of a list as the value of a key, or anywhere else. -/
def listIndent (indent : Nat) (position : Position) (s : Sheet) : Nat :=
  if position ≠ .item && !s.fresh then indent else indent + 2

mutual

/-- Writes a value. `indent` is the column of the block around it. -/
def putValue (anchors : List Nat) (indent : Nat) (position : Position) (s : Sheet) :
    Value → Except WriteError Sheet
  | .loop label => .ok (s.putMark ("*" ++ anchorName (anchors.idxOf label)))
  | .shared label v =>
    if s.written.contains label then .ok (s.putMark ("*" ++ anchorName (anchors.idxOf label)))
    else
      let s := { s with written := label :: s.written }
      let s := if anchors.contains label then
        s.putMark ("&" ++ anchorName (anchors.idxOf label)) else s
      putValue anchors indent position s v
  | .list [] => .ok ((s.putMark "[").putClose "]")
  | .list items => putItems anchors (listIndent indent position s) s items
  | .pair k v => do
    let indent := listIndent indent position s
    let s ← putValue anchors indent .item ((s.indentTo indent).putBlockMark "-") k
    putValue anchors indent .item ((s.indentTo indent).putBlockMark "-") v
  | .table [] => .ok ((s.putMark "\x7b").putClose "\x7d")
  | .table entries => putEntries anchors (indent + 2) s entries
  | .set [] => .ok (((s.putMark "!!set").putMark "\x7b").putClose "\x7d")
  | .set items => putMembers anchors (indent + 2) (s.putMark "!!set") items
  | .int n =>
    if Decimal.isWritable n then .ok (s.putText (indent + 2) position (.int n))
    else .error (.numeral .writing)
  | .time _ => .error .noForm
  | v => .ok (s.putText (indent + 2) position v)

/-- Writes the items of a list at a column. -/
def putItems (anchors : List Nat) (indent : Nat) (s : Sheet) : List Value → Except WriteError Sheet
  | [] => .ok s
  | v :: vs => do
    let s ← putValue anchors indent .item ((s.indentTo indent).putBlockMark "-") v
    putItems anchors indent s vs

/-- Writes the entries of a table at a column. -/
def putEntries (anchors : List Nat) (indent : Nat) (s : Sheet) :
    List (Value × Value) → Except WriteError Sheet
  | [] => .ok s
  | (k, v) :: rest => do
    let simple := isSimpleKey anchors s.written k
    let s ← putValue anchors indent (if simple then .key else .longKey) (s.beginKey indent simple) k
    let s ← putValue anchors indent .value (s.endKey indent simple) v
    putEntries anchors indent s rest

/-- Writes the members of a set at a column, as keys without values. -/
def putMembers (anchors : List Nat) (indent : Nat) (s : Sheet) : List Value → Except WriteError Sheet
  | [] => .ok s
  | k :: rest => do
    let simple := isSimpleKey anchors s.written k
    let s ← putValue anchors indent (if simple then .key else .longKey) (s.beginKey indent simple) k
    let s := (s.endKey indent simple).putPlain true indent "null".toList
    putMembers anchors indent s rest

end

/-- The YAML text of a table. -/
def write (entries : Table) : Except WriteError String := do
  let (_, anchors) := repeatedInEntries ([], []) entries
  let s ← if entries.isEmpty then pure (({} : Sheet).putMark "\x7b\x7d")
    else putEntries anchors 0 {} entries
  return (s.indentTo 0).text

end ReleasePipeline.Yaml
