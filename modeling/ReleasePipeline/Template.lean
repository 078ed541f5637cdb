import ReleasePipeline.Text.Blank
import ReleasePipeline.Text.Search
import ReleasePipeline.Value.Quoted

/-! Templates: texts with placeholders `$\x7bdotted.name\x7d` for the values of a nested table. -/
namespace ReleasePipeline

/-- Why a template cannot be filled in. -/
inductive TemplateError where
  /-- The name leads to nothing. -/
  | unknown (name : String)
  /-- The name leads to a table. -/
  | notAValue (name : String)
  /-- A number in a value is too long to be written. -/
  | numeral (e : Decimal.NumeralError)
deriving DecidableEq, Repr

namespace TemplateError

def message : TemplateError → String
  | unknown name => s!"Unknown template placeholder: $\x7b{name}\x7d"
  | notAValue name => s!"Template placeholder $\x7b{name}\x7d does not name a value"
  | numeral e => e.message

end TemplateError

namespace Template

/-- A piece of a template: a character that stands for itself, or a placeholder. -/
inductive Piece where
  | literal (c : Char)
  | placeholder (name : List Char)
deriving DecidableEq, Repr

/-- A character that begins a name. -/
def isNameStart (c : Char) : Bool := c.isAlpha || c = '_'

/-- A character inside a name. -/
def isNameChar (c : Char) : Bool := c.isAlphanum || c = '_'

/-- Reads a name and the names that follow it after dots. -/
def takeDotted? (fuel : Nat) (cs : List Char) : Option (List Char × List Char) :=
  match fuel, cs with
  | fuel + 1, c :: rest =>
    if isNameStart c then
      let name := c :: rest.takeWhile isNameChar
      match rest.dropWhile isNameChar with
      | '.' :: more =>
        match takeDotted? fuel more with
        | some (names, after) => some (name ++ '.' :: names, after)
        | none => some (name, '.' :: more)
      | after => some (name, after)
    else none
  | _, _ => none

/-- Reads a placeholder: its dotted name between braces after a dollar sign, with blanks around the
name if there are any. -/
def takePlaceholder? (cs : List Char) : Option (List Char × List Char) :=
  match cs with
  | '$' :: '\x7b' :: rest =>
    match takeDotted? rest.length (rest.dropWhile Text.isBlank) with
    | some (name, after) =>
      match after.dropWhile Text.isBlank with
      | '\x7d' :: after => some (name, after)
      | _ => none
    | none => none
  | _ => none

/-- The pieces of a template from left to right, with `fuel` characters at most. -/
def piecesOf (fuel : Nat) (cs : List Char) : List Piece :=
  match fuel, cs with
  | fuel + 1, c :: rest =>
    match takePlaceholder? (c :: rest) with
    | some (name, after) => .placeholder name :: piecesOf fuel after
    | none => .literal c :: piecesOf fuel rest
  | _, _ => []

/-- The pieces of a template: at each place the placeholder that begins there, or one character. -/
def pieces (text : String) : List Piece :=
  let cs := text.toList
  piecesOf cs.length cs

/-- The names of the placeholders, in order. -/
def placeholders (text : String) : List String :=
  (pieces text).filterMap fun
    | .placeholder name => some (String.ofList name)
    | .literal _ => none

/-- The value that a path of names leads to. -/
def descend? (v : Value) : List String → Option Value
  | [] => some v
  | name :: names => do
    let t ← v.asTable?
    descend? (← t.get? name) names

/-- The value of a placeholder, which is no table. -/
def lookup (values : Value) (name : String) : Except TemplateError Value :=
  match descend? values (Text.splitOn '.' name) with
  | none => .error (.unknown name)
  | some v => if v.asTable?.isSome then .error (.notAValue name) else .ok v

/-- The text of a value in a template; null is empty. -/
def valueText (v : Value) : Except Decimal.NumeralError String :=
  if v.isNull then .ok ""
  else if v.isWritable then .ok v.inText
  else .error .writing

/-- The text that stands for a piece. -/
def fill (values : Value) : Piece → Except TemplateError (List Char)
  | .literal c => .ok [c]
  | .placeholder name => do
    let v ← lookup values (String.ofList name)
    let text ← (valueText v).mapError .numeral
    return text.toList

/-- The template with its placeholders replaced by their values. -/
def render (text : String) (values : Value) : Except TemplateError String := do
  let parts ← (pieces text).mapM (fill values)
  return String.ofList parts.flatten

end Template

end ReleasePipeline
