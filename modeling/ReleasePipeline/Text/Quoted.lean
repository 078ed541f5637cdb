import ReleasePipeline.Text.Digit
import ReleasePipeline.Text.Printable

/-! The quoted form in which messages show a text. -/
namespace ReleasePipeline.Text

/-- The quote around a text: the double quote for a text with single quotes and no double one, else
the single quote. -/
def quoteFor (cs : List Char) : Char :=
  if cs.contains '\'' && !cs.contains '"' then '"' else '\''

/-- A character inside quotes. The backslash and the quote take a backslash, the unprintable
characters are escaped by name or by number. -/
def quotedChar (quote c : Char) : List Char :=
  if c = '\\' || c = quote then ['\\', c]
  else if c = '\n' then ['\\', 'n']
  else if c = '\r' then ['\\', 'r']
  else if c = '\t' then ['\\', 't']
  else if isPrintable c then [c]
  else if c.toNat < 0x100 then '\\' :: 'x' :: hexPadded 2 c.toNat
  else if c.toNat < 0x10000 then '\\' :: 'u' :: hexPadded 4 c.toNat
  else '\\' :: 'U' :: hexPadded 8 c.toNat

/-- The text between quotes, on one line. -/
def quotedChars (cs : List Char) : List Char :=
  let quote := quoteFor cs
  quote :: cs.flatMap (quotedChar quote) ++ [quote]

/-- The text between quotes, on one line. -/
def quoted (s : String) : String := String.ofList (quotedChars s.toList)

end ReleasePipeline.Text
