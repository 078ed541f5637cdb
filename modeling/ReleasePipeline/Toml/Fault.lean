import ReleasePipeline.Decimal.Numeral
import ReleasePipeline.Text.Quoted

/-! What can be wrong with a TOML text. -/
namespace ReleasePipeline.Toml

/-- A dotted key. -/
abbrev Key := List String

/-- What is wrong at a place of a TOML text. -/
inductive Fault where
  | statement
  | newline
  | closing (mark : String)
  | invalidCharacter (c : Char)
  | illegalCharacter (c : Char)
  | declaredTwice (key : Key)
  | overwrite
  | tableEnd
  | arrayEnd
  | immutable (key : Key)
  | redefined (key : Key)
  | equals
  | keyStart
  | unclosedArray
  | unclosedInlineTable
  | duplicateKey (name : String)
  | backslash
  | hexValue
  | notScalar
  | unterminated
  | date
  | value
deriving DecidableEq, Repr

/-- A key as messages show it: its parts between parentheses. -/
def quotedKey (key : Key) : String :=
  match key with
  | [part] => s!"({Text.quoted part},)"
  | parts => "(" ++ String.intercalate ", " (parts.map Text.quoted) ++ ")"

namespace Fault

def message : Fault → String
  | statement => "Invalid statement"
  | newline => "Expected newline or end of document after a statement"
  | closing mark => s!"Expected {Text.quoted mark}"
  | invalidCharacter c => s!"Found invalid character {Text.quoted c.toString}"
  | illegalCharacter c => s!"Illegal character {Text.quoted c.toString}"
  | declaredTwice key => s!"Cannot declare {quotedKey key} twice"
  | overwrite => "Cannot overwrite a value"
  | tableEnd => "Expected ']' at the end of a table declaration"
  | arrayEnd => "Expected ']]' at the end of an array declaration"
  | immutable key => s!"Cannot mutate immutable namespace {quotedKey key}"
  | redefined key => s!"Cannot redefine namespace {quotedKey key}"
  | equals => "Expected '=' after a key in a key/value pair"
  | keyStart => "Invalid initial character for a key part"
  | unclosedArray => "Unclosed array"
  | unclosedInlineTable => "Unclosed inline table"
  | duplicateKey name => s!"Duplicate inline table key {Text.quoted name}"
  | backslash => "Unescaped '\\' in a string"
  | hexValue => "Invalid hex value"
  | notScalar => "Escaped character is not a Unicode scalar value"
  | unterminated => "Unterminated string"
  | date => "Invalid date or datetime"
  | value => "Invalid value"

end Fault

/-- A fault and the text from its place on. -/
inductive Failure where
  | fault (f : Fault) (rest : List Char)
  | numeral (e : Decimal.NumeralError)
deriving Repr

/-- Why a text is not read. -/
inductive ReadError where
  /-- A fault at a line and a column, both counted from one, or at the end of the text. -/
  | fault (f : Fault) (place : Option (Nat × Nat))
  | numeral (e : Decimal.NumeralError)
deriving DecidableEq, Repr

namespace ReadError

def message : ReadError → String
  | fault f none => s!"{f.message} (at end of document)"
  | fault f (some (line, column)) => s!"{f.message} (at line {line}, column {column})"
  | numeral e => e.message

end ReadError

end ReleasePipeline.Toml
