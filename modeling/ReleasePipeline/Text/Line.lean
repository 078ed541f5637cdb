/-! Lines of a text with the endings that close them. -/
namespace ReleasePipeline.Text

/-- The characters that end a line: line feed, vertical tab, form feed, carriage return, the
separators U+001C to U+001E, next line, line separator and paragraph separator. -/
def isLineBreak (c : Char) : Bool :=
  let n := c.toNat
  (10 ≤ n && n ≤ 13) || (28 ≤ n && n ≤ 30) || n == 0x85 || n == 0x2028 || n == 0x2029

/-- A line: its characters and the line break after them, which the last line may lack. -/
structure Line where
  content : List Char
  ending : List Char
deriving DecidableEq, Repr, Inhabited

namespace Line

/-- The line as it stands in the text. -/
def chars (l : Line) : List Char := l.content ++ l.ending

/-- The line with one more character in front. -/
def cons (c : Char) (l : Line) : Line := { l with content := c :: l.content }

end Line

/-- The lines of a text. A carriage return followed by a line feed is one line break, and a line
break at the end of the text opens no further line. -/
def lines : List Char → List Line
  | [] => []
  | '\r' :: '\n' :: rest => ⟨[], ['\r', '\n']⟩ :: lines rest
  | c :: rest =>
    if isLineBreak c then ⟨[], [c]⟩ :: lines rest
    else match lines rest with
      | [] => [⟨[c], []⟩]
      | l :: ls => l.cons c :: ls

/-- The texts between the line breaks. -/
def lineTexts (s : String) : List String :=
  (lines s.toList).map fun l => String.ofList l.content

/-- Every carriage return, alone or before a line feed, becomes a line feed. -/
def unifyNewlines : List Char → List Char
  | [] => []
  | '\r' :: '\n' :: rest => '\n' :: unifyNewlines rest
  | '\r' :: rest => '\n' :: unifyNewlines rest
  | c :: rest => c :: unifyNewlines rest

end ReleasePipeline.Text
