/-! Places in a YAML text and the characters that separate its tokens. -/
namespace ReleasePipeline.Yaml

/-- A line and a column, both counted from zero. -/
structure Place where
  line : Nat
  column : Nat
deriving DecidableEq, Repr, Inhabited

/-- The characters that end a line: line feed, next line, line separator and paragraph separator. -/
def isBreak (c : Char) : Bool :=
  c = '\n' || c.toNat = 0x85 || c.toNat = 0x2028 || c.toNat = 0x2029

/-- A space or a tab. -/
def isWhite (c : Char) : Bool := c = ' ' || c = '\t'

/-- The byte order mark, which takes no column. -/
def byteOrderMark : Char := '\uFEFF'

/-- The place after a character. -/
def Place.after (p : Place) (c : Char) : Place :=
  if isBreak c then ⟨p.line + 1, 0⟩
  else if c = byteOrderMark then p
  else { p with column := p.column + 1 }

/-- What is left of a text, and where that is. -/
structure Cursor where
  rest : List Char
  /-- The number of characters before. -/
  index : Nat := 0
  place : Place := ⟨0, 0⟩
deriving Repr, Inhabited

namespace Cursor

/-- The cursor `n` characters further on. -/
def advance (n : Nat) (c : Cursor) : Cursor :=
  ⟨c.rest.drop n, c.index + n, (c.rest.take n).foldl Place.after c.place⟩

/-- The next character. -/
def next? (c : Cursor) : Option Char := c.rest.head?

/-- The characters up to the first one that does not satisfy `p`. -/
def run (p : Char → Bool) (c : Cursor) : List Char := c.rest.takeWhile p

/-- The cursor after the characters that satisfy `p`. -/
def skip (p : Char → Bool) (c : Cursor) : Cursor := c.advance (c.run p).length

/-- The cursor after the spaces. -/
def skipSpaces (c : Cursor) : Cursor := c.skip (· = ' ')

/-- The column. -/
def column (c : Cursor) : Nat := c.place.column

/-- The next character, if there is one, satisfies `p`. -/
def atEndOr (p : Char → Bool) (c : Cursor) : Bool := c.next?.all p

/-- The text or the line ends here. -/
def atLineEnd (c : Cursor) : Bool := c.atEndOr isBreak

/-- The text or the line ends here, or a space follows. -/
def atSpace (c : Cursor) : Bool := c.atEndOr fun x => x = ' ' || isBreak x

/-- The text or the line ends here, or a space or a tab follows. -/
def atGap (c : Cursor) : Bool := c.atEndOr fun x => isWhite x || isBreak x

/-- The next character is `x`. -/
def sees (x : Char) (c : Cursor) : Bool := c.next? = some x

/-- The next character is one of `xs`. -/
def seesOneOf (xs : List Char) (c : Cursor) : Bool := c.next?.any xs.contains

/-- The line break here and the cursor after it. Line feed and next line count as line feeds. -/
def lineBreak? (c : Cursor) : Option (Char × Cursor) :=
  match c.next? with
  | some x =>
    if isBreak x then some (if x.toNat = 0x85 then '\n' else x, c.advance 1) else none
  | none => none

/-- The cursor after the line break here, if there is one. -/
def skipBreak (c : Cursor) : Cursor := (c.lineBreak?.map (·.2)).getD c

/-- The cursor after the comment here, if there is one. -/
def skipComment (c : Cursor) : Cursor :=
  if c.sees '#' then c.skip fun x => !isBreak x else c

/-- Three hyphens or three points that stand alone. They separate documents at the beginning of a
line. -/
def atSeparator (marks : List Char) (c : Cursor) : Bool :=
  marks.any (fun m => c.rest.take 3 = [m, m, m]) && (c.advance 3).atGap

end Cursor

end ReleasePipeline.Yaml
