import ReleasePipeline.Calendar.Moment
import ReleasePipeline.Decimal.Numeral
import ReleasePipeline.Text.Quoted
import ReleasePipeline.Yaml.Cursor

/-! What can be wrong with a YAML text. -/
namespace ReleasePipeline.Yaml

/-- What is wrong at a place of a YAML text. -/
inductive Fault where
  /-- A character that begins no token. -/
  | character
  /-- A line that has to be a key has no colon. -/
  | noColon
  /-- An entry, a key or a value where none may stand. -/
  | misplaced
  | directive
  | anchor
  | tag
  /-- The first line of a block scalar. -/
  | header
  | escape
  | unclosedQuote
  /-- A separator of documents inside quotes. -/
  | separator
  /-- A document without its beginning. -/
  | documentStart
  /-- A place where a value has to stand. -/
  | content
  /-- A collection that goes on wrongly. -/
  | collection
  | version
  | repeatedDirective
  | unknownHandle
  | unknownAlias
  | repeatedAnchor
  | secondDocument
  | unknownTag
  /-- A value of another form than its tag says. -/
  | form
  | key
  | merge
  | base64
deriving DecidableEq, Repr

/-- Why a text is not read. -/
inductive ReadError where
  /-- The text holds a character that no YAML text may hold. -/
  | unprintable
  | fault (f : Fault) (place : Place)
  | numeral (e : Decimal.NumeralError)
  /-- A text that is no whole number to this base. -/
  | noInteger (base : Nat) (text : String)
  | noFloat (text : String)
  | moment (e : MomentError)
  /-- An escape for a number above all characters. -/
  | noCharacter
  /-- An escape for a number that is no machine integer. -/
  | hugeCharacter
  /-- An escape for a surrogate. The texts here hold whole characters only. -/
  | surrogate
  /-- A text under the tag of booleans that is none. -/
  | noBool
  /-- A text under the tag of numbers that has no digits. -/
  | noDigits
  /-- A text under the tag of timestamps that is none. -/
  | noTimestamp
deriving DecidableEq, Repr

namespace ReadError

/-- The wording of the error, as far as it is the program's own. Faults of the text itself are named by
their place alone. -/
def message : ReadError → String
  | numeral e => e.message
  | noInteger base text =>
    s!"invalid literal for int() with base {base}: " ++
      String.ofList ((Text.quoted text).toList.take 200)
  | noFloat text => s!"could not convert string to float: {Text.quoted text}"
  | moment e => e.message
  | noCharacter => "chr() arg not in range(0x110000)"
  | fault _ p => s!"at line {p.line + 1}, column {p.column + 1}"
  | _ => ""

end ReadError

end ReleasePipeline.Yaml
