import ReleasePipeline.Yaml.Fault

/-! Tokens of a YAML text, and the readers of those that have a text of their own. -/
namespace ReleasePipeline.Yaml

/-- A tag as it is written: a handle, which stands for the beginning of the tag, and the rest. -/
structure TagName where
  handle : Option String
  rest : String
deriving DecidableEq, Repr

/-- A line about the document. -/
inductive Directive where
  | version (major minor : Nat)
  | tag (handle start : String)
  | other
deriving DecidableEq, Repr

/-- The kinds of tokens. Blocks begin and end where the indentation changes. -/
inductive TokenKind where
  | directive (d : Directive)
  | documentStart
  | documentEnd
  | textEnd
  | blockList
  | blockTable
  | blockEnd
  | flowList
  | flowListEnd
  | flowTable
  | flowTableEnd
  | comma
  | entry
  | key
  | value
  | alias (name : String)
  | anchor (name : String)
  | tag (name : TagName)
  /-- A scalar. A plain one stands without quotes. -/
  | scalar (text : String) (plain : Bool)
deriving DecidableEq, Repr

/-- A token from its first character to the one after its last. -/
structure Token where
  kind : TokenKind
  start : Place
  stop : Place
deriving DecidableEq, Repr

/-- A fault where the cursor stands. -/
def fail {α : Type} (f : Fault) (c : Cursor) : Except ReadError α := .error (.fault f c.place)

/-- A character of a name: an ASCII letter or digit, a hyphen or an underscore. -/
def isNameChar (c : Char) : Bool := c.isAlphanum || c = '-' || c = '_'

/-- A character of a tag. -/
def isTagChar (c : Char) : Bool := c.isAlphanum || "-;/?:@&=+$,_.!~*'()[]%".toList.contains c

/-- Reads the bytes that percent signs and two hexadecimal digits write. -/
def readEscapedBytes (fuel : Nat) (c : Cursor) : Except ReadError (List UInt8 × Cursor) :=
  match fuel with
  | 0 => .ok ([], c)
  | fuel + 1 =>
    if c.sees '%' then
      match (c.rest.drop 1).take 2 |>.mapM Text.hexValue? with
      | some [high, low] => do
        let (bytes, rest) ← readEscapedBytes fuel (c.advance 3)
        return (UInt8.ofNat (16 * high + low) :: bytes, rest)
      | _ => fail .tag (c.advance 1)
    else .ok ([], c)

/-- Reads the characters of a tag up to one that no tag holds. -/
def readTagChars (fuel : Nat) (c : Cursor) : Except ReadError (List Char × Cursor) :=
  match fuel with
  | 0 => .ok ([], c)
  | fuel + 1 => do
    let plain := c.run fun x => isTagChar x && x ≠ '%'
    let next := c.advance plain.length
    if next.sees '%' then
      let (bytes, rest) ← readEscapedBytes (next.rest.length + 1) next
      match String.fromUTF8? ⟨bytes.toArray⟩ with
      | some s =>
        let (more, rest) ← readTagChars fuel rest
        return (plain ++ s.toList ++ more, rest)
      | none => fail .tag next
    else return (plain, next)

/-- Reads the rest of a tag, which is not empty. -/
def readTagRest (c : Cursor) : Except ReadError (String × Cursor) := do
  let (cs, rest) ← readTagChars (c.rest.length + 1) c
  if c.atEndOr fun x => !isTagChar x then fail .tag c
  else return (String.ofList cs, rest)

/-- Reads a handle: an exclamation mark, or a name between two of them. -/
def readHandle (c : Cursor) : Except ReadError (String × Cursor) :=
  if !c.sees '!' then fail .tag c
  else
    let c := c.advance 1
    if c.sees ' ' then .ok ("!", c)
    else
      let name := c.run isNameChar
      let next := c.advance name.length
      if next.sees '!' then .ok (String.ofList ('!' :: name ++ ['!']), next.advance 1)
      else fail .tag next

/-- The characters from here to the next space, with a second exclamation mark among them. -/
def hasHandle (c : Cursor) : Bool :=
  ((c.rest.drop 1).takeWhile fun x => !(x = ' ' || isBreak x)).contains '!'

/-- Reads a tag. -/
def readTag (c : Cursor) : Except ReadError (TagName × Cursor) := do
  let second := c.advance 1
  let (name, next) ←
    if second.sees '<' then do
      let (rest, next) ← readTagRest (c.advance 2)
      if next.sees '>' then pure (⟨none, rest⟩, next.advance 1) else fail .tag next
    else if second.atGap then pure (⟨none, "!"⟩, second)
    else do
      let (handle, next) ← if hasHandle c then readHandle c else pure ("!", second)
      let (rest, next) ← readTagRest next
      pure (⟨some handle, rest⟩, next)
  if next.atSpace then return (name, next) else fail .tag next

/-- Reads the name after the mark of an anchor or an alias. -/
def readAnchor (c : Cursor) : Except ReadError (String × Cursor) :=
  let c := c.advance 1
  let name := c.run isNameChar
  let next := c.advance name.length
  if name.isEmpty then fail .anchor c
  else if next.atGap || next.seesOneOf "?:,]\x7d%@`".toList then .ok (String.ofList name, next)
  else fail .anchor next

/-- Reads a number of a version. -/
def readVersionNumber (c : Cursor) : Except ReadError (Nat × Cursor) := do
  let ds := c.run Char.isDigit
  if ds.isEmpty then fail .directive c
  else return (← (Decimal.readNatural ds).mapError .numeral, c.advance ds.length)

/-- Reads what follows the name of a directive. -/
def readDirectiveValue (name : String) (c : Cursor) : Except ReadError (Directive × Cursor) :=
  if name = "YAML" then do
    let (major, next) ← readVersionNumber c.skipSpaces
    if !next.sees '.' then fail .directive next
    let (minor, next) ← readVersionNumber (next.advance 1)
    if next.atSpace then return (.version major minor, next) else fail .directive next
  else if name = "TAG" then do
    let (handle, next) ← readHandle c.skipSpaces
    if !next.sees ' ' then fail .directive next
    let (start, next) ← readTagRest next.skipSpaces
    if next.atSpace then return (.tag handle start, next) else fail .directive next
  else .ok (.other, c.skip fun x => !isBreak x)

/-- Goes to the next line over spaces and a comment. -/
def endLine (f : Fault) (c : Cursor) : Except ReadError Cursor :=
  let c := c.skipSpaces.skipComment
  if c.atLineEnd then .ok c.skipBreak else fail f c

/-- Reads a directive with its line. -/
def readDirective (c : Cursor) : Except ReadError (Directive × Cursor) := do
  let c := c.advance 1
  let name := c.run isNameChar
  let next := c.advance name.length
  if name.isEmpty then fail .directive c
  if !next.atSpace then fail .directive next
  let (d, next) ← readDirectiveValue (String.ofList name) next
  return (d, ← endLine .directive next)

end ReleasePipeline.Yaml
