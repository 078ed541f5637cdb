import ReleasePipeline.Decimal.Numeral
import ReleasePipeline.Value.Basic

/-! Writing values as JSON texts with an indentation of two spaces. -/
namespace ReleasePipeline.Json

/-- Why a value is not written. -/
inductive WriteError where
  /-- JSON has no form for a value or a key of its kind. -/
  | noForm
  /-- A value contains itself. -/
  | circular
  /-- A number is too long. -/
  | numeral (e : Decimal.NumeralError)
deriving DecidableEq, Repr

namespace WriteError

def message : WriteError → String
  | noForm => ""
  | circular => "Circular reference detected"
  | numeral e => e.message

end WriteError

/-- A character inside a string. Control characters, quotes and backslashes are escaped. -/
def stringChar (c : Char) : List Char :=
  if c = '"' then ['\\', '"']
  else if c = '\\' then ['\\', '\\']
  else if c = '\x08' then ['\\', 'b']
  else if c = '\x0c' then ['\\', 'f']
  else if c = '\n' then ['\\', 'n']
  else if c = '\r' then ['\\', 'r']
  else if c = '\t' then ['\\', 't']
  else if c.toNat < 0x20 then '\\' :: 'u' :: Text.hexPadded 4 c.toNat
  else [c]

/-- A string between quotes. -/
def stringChars (s : String) : List Char := '"' :: s.toList.flatMap stringChar ++ ['"']

/-- The text of a float; the values that are no numbers have names. -/
def floatName (x : Float) : String :=
  if x.isNaN then "NaN"
  else if x.isInf then if x < 0 then "-Infinity" else "Infinity"
  else Decimal.floatText x

/-- The text of a null, a boolean or a number. -/
def atom : Value → Except WriteError String
  | .null => .ok "null"
  | .bool true => .ok "true"
  | .bool false => .ok "false"
  | .int n => if Decimal.isWritable n then .ok (toString n) else .error (.numeral .writing)
  | .float x => .ok (floatName x)
  | _ => .error .noForm

/-- The name under which a key is written. Nulls, booleans and numbers become strings. -/
def keyName (k : Value) : Except WriteError String :=
  match k with
  | .string s => .ok s
  | k => atom k

/-- A line break and the indentation of a level. -/
def lineBreak (level : Nat) : List Char := '\n' :: List.replicate (2 * level) ' '

/-- Parts between brackets, each on a line of its own, one level deeper than the brackets. -/
def block (opening closing : Char) (level : Nat) (parts : List (List Char)) : List Char :=
  if parts.isEmpty then [opening, closing]
  else opening :: lineBreak (level + 1) ++
    List.intercalate (',' :: lineBreak (level + 1)) parts ++ lineBreak level ++ [closing]

mutual

/-- The text of a value at a level of indentation. -/
def chars (level : Nat) : Value → Except WriteError (List Char)
  | .string s => .ok (stringChars s)
  | .list items => do return block '[' ']' level (← itemChars (level + 1) items)
  | .pair key value => do
    return block '[' ']' level [← chars (level + 1) key, ← chars (level + 1) value]
  | .table entries => do return block '\x7b' '\x7d' level (← entryChars (level + 1) entries)
  | .shared _ v => chars level v
  | .loop _ => .error .circular
  | v => (atom v).map String.toList

/-- The texts of the items of a list. -/
def itemChars (level : Nat) : List Value → Except WriteError (List (List Char))
  | [] => .ok []
  | v :: vs => do
    let first ← chars level v
    return first :: (← itemChars level vs)

/-- The texts of the entries of a table. -/
def entryChars (level : Nat) : List (Value × Value) → Except WriteError (List (List Char))
  | [] => .ok []
  | (k, v) :: rest => do
    let name ← keyName k
    let first := stringChars name ++ ':' :: ' ' :: (← chars level v)
    return first :: (← entryChars level rest)

end

/-- The JSON text of a value. -/
def write (v : Value) : Except WriteError String := (chars 0 v).map String.ofList

end ReleasePipeline.Json
