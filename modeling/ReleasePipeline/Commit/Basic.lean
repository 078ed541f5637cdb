import ReleasePipeline.Text.Blank
import ReleasePipeline.Text.Line
import ReleasePipeline.Text.Search

/-! Conventional commits: the header `type(scope)!: subject` and the footer of a breaking change. -/
namespace ReleasePipeline

/-- A commit with what its message says. -/
structure Commit where
  sha : String
  message : String
  type : Option String
  scope : Option String
  subject : String
  breaking : Bool
  note : Option String
deriving DecidableEq, Repr, Inhabited

namespace Commit

/-- The first seven characters of the hash. -/
def shortSha (c : Commit) : String := String.ofList (c.sha.toList.take 7)

/-- The parts of a conventional header. -/
structure Header where
  type : List Char
  scope : Option (List Char)
  bang : Bool
  subject : List Char
deriving DecidableEq, Repr

namespace Header

/-- A character inside the parentheses of a scope. -/
def isScopeChar (c : Char) : Bool := c ≠ '(' && c ≠ ')' && c ≠ '\r' && c ≠ '\n'

/-- Reads the exclamation mark, the colon and the subject of a header. -/
def readTail? (type : List Char) (scope : Option (List Char)) (cs : List Char) : Option Header :=
  let (bang, cs) := match cs with | '!' :: cs => (true, cs) | cs => (false, cs)
  match cs with
  | ':' :: ' ' :: subject =>
    if subject.isEmpty || subject.contains '\n' then none else some ⟨type, scope, bang, subject⟩
  | _ => none

/-- The parts of a line that is a conventional header: ASCII letters, a scope in parentheses if there
is one, an exclamation mark if there is one, a colon, a space and a subject. -/
def read? (cs : List Char) : Option Header :=
  let type := cs.takeWhile Char.isAlpha
  if type.isEmpty then none
  else match cs.dropWhile Char.isAlpha with
    | '(' :: rest =>
      match rest.dropWhile isScopeChar with
      | ')' :: after => readTail? type (some (rest.takeWhile isScopeChar)) after
      | _ => none
    | rest => readTail? type none rest

end Header

/-- The text after the mark of a breaking change, if the line begins with one. -/
def breakingText? (line : String) : Option String := do
  let cs := line.toList
  let rest ← (Text.dropStart? "BREAKING CHANGE:".toList cs).or
    (Text.dropStart? "BREAKING-CHANGE:".toList cs)
  return Text.strip (String.ofList rest)

/-- The text if it is not empty. -/
def nonEmpty? (s : String) : Option String := if s.isEmpty then none else some s

/-- The commit of a hash and a message. The header is the first line after the blanks in front; a
footer on a later line marks a breaking change, and the first one gives the note. -/
def ofMessage (sha message : String) : Commit :=
  let lines := Text.lineTexts (Text.strip message)
  let header := Text.strip (lines.head?.getD "")
  let footer := (lines.drop 1).findSome? breakingText?
  let note := footer.bind nonEmpty?
  match Header.read? header.toList with
  | none =>
    { sha, message, type := none, scope := none, subject := header
      breaking := footer.isSome, note }
  | some h =>
    { sha, message
      type := some (Text.lowerAscii (String.ofList h.type))
      scope := (h.scope.filter fun s => !s.isEmpty).map fun s => String.ofList (Text.stripChars s)
      subject := Text.strip (String.ofList h.subject)
      breaking := h.bang || footer.isSome
      note }

end Commit

end ReleasePipeline
