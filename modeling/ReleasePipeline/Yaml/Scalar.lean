import ReleasePipeline.Yaml.Token

/-! Reading scalars: plain ones, quoted ones and blocks. -/
namespace ReleasePipeline.Yaml

/-- Skips empty lines and the spaces between them. The result is none when a separator of documents
begins a line. -/
def skipEmptyLines? (fuel : Nat) (c : Cursor) : Option (List Char × Cursor) :=
  match fuel with
  | 0 => some ([], c)
  | fuel + 1 =>
    let next := c.skipSpaces
    match next.lineBreak? with
    | none => some ([], next)
    | some (b, next) =>
      if next.atSeparator ['-', '.'] then none
      else (skipEmptyLines? fuel next).map fun (bs, next) => (b :: bs, next)

/-- The characters that a line break and the empty lines after it stand for: a single line feed
becomes a space. -/
def folded (first : Char) (others : List Char) : List Char :=
  (if first ≠ '\n' then [first] else if others.isEmpty then [' '] else []) ++ others

/-- What stands between two parts of a plain scalar. -/
structure PlainGap where
  text : List Char
  /-- The gap holds a line break. -/
  broken : Bool
  /-- A separator of documents ends the scalar here. -/
  final : Bool

/-- Reads a gap in a plain scalar. -/
def readPlainGap (c : Cursor) : PlainGap × Cursor :=
  let next := c.skipSpaces
  match next.lineBreak? with
  | none => (⟨c.run (· = ' '), false, false⟩, next)
  | some (b, next) =>
    if next.atSeparator ['-', '.'] then (⟨[], true, true⟩, next)
    else match skipEmptyLines? (next.rest.length + 1) next with
      | none => (⟨[], true, true⟩, next)
      | some (bs, next) => (⟨folded b bs, true, false⟩, next)

/-- The brackets, braces and commas of collections inside a line. -/
def isFlowMark (c : Char) : Bool := c = ',' || c = '[' || c = ']' || c = '\x7b' || c = '\x7d'

/-- A part of a plain scalar from the beginning of `cs`: it ends before a gap, before a colon that a
gap follows and, inside a flow collection, before its marks and question marks. -/
def plainPart (inFlow : Bool) : List Char → List Char
  | [] => []
  | c :: rest =>
    let isEnd (x? : Option Char) := x?.all fun x =>
      isWhite x || isBreak x || (inFlow && isFlowMark x)
    if isWhite c || isBreak c || (c = ':' && isEnd rest.head?) ||
        (inFlow && (isFlowMark c || c = '?')) then []
    else c :: plainPart inFlow rest

/-- A plain scalar: its text, and whether a line break follows it. -/
structure Plain where
  text : List Char
  broken : Bool

/-- Reads a plain scalar from `c` on, where `gap` stands before. Outside of flow collections its
lines begin at the column `indent` or behind it. -/
def readPlain (inFlow : Bool) (indent : Nat) (fuel : Nat) (gap : PlainGap) (c : Cursor) :
    Plain × Cursor :=
  match fuel with
  | 0 => (⟨[], gap.broken⟩, c)
  | fuel + 1 =>
    let part := if c.sees '#' then [] else plainPart inFlow c.rest
    if part.isEmpty then (⟨[], gap.broken⟩, c)
    else
      let (next, after) := readPlainGap (c.advance part.length)
      if next.final || next.text.isEmpty || after.sees '#' ||
          (!inFlow && after.column < indent) then
        (⟨gap.text ++ part, next.broken⟩, after)
      else
        let (p, after) := readPlain inFlow indent fuel next after
        (⟨gap.text ++ part ++ p.text, p.broken⟩, after)

/-- The characters that a backslash and one character write. -/
def escapes : List (Char × Char) :=
  [('0', '\x00'), ('a', '\x07'), ('b', '\x08'), ('t', '\t'), ('\t', '\t'), ('n', '\n'),
   ('v', '\x0b'), ('f', '\x0c'), ('r', '\r'), ('e', '\x1b'), (' ', ' '), ('"', '"'),
   ('\\', '\\'), ('/', '/'), ('N', '\u0085'), ('_', '\u00a0'), ('L', '\u2028'), ('P', '\u2029')]

/-- The number of hexadecimal digits after a letter that begins an escape. -/
def escapeLength? (c : Char) : Option Nat :=
  if c = 'x' then some 2 else if c = 'u' then some 4 else if c = 'U' then some 8 else none

/-- The character of an escaped number. -/
def escapedChar (n : Nat) : Except ReadError Char :=
  if 0x7fffffff < n then .error .hugeCharacter
  else if 0x10ffff < n then .error .noCharacter
  else if n.isValidChar then .ok (Char.ofNat n)
  else .error .surrogate

/-- Skips white space and line breaks inside quotes. The line breaks are the result. -/
def readQuotedBreaks (fuel : Nat) (c : Cursor) : Except ReadError (List Char × Cursor) :=
  match fuel with
  | 0 => .ok ([], c)
  | fuel + 1 =>
    if c.atSeparator ['-', '.'] then fail .separator c
    else
      let next := c.skip isWhite
      match next.lineBreak? with
      | none => .ok ([], next)
      | some (b, next) => do
        let (bs, next) ← readQuotedBreaks fuel next
        return (b :: bs, next)

/-- Reads the gap inside quotes that begins here. -/
def readQuotedGap (c : Cursor) : Except ReadError (List Char × Cursor) :=
  let next := c.skip isWhite
  if next.next?.isNone then fail .unclosedQuote next
  else match next.lineBreak? with
    | none => .ok (c.run isWhite, next)
    | some (b, next) => do
      let (bs, next) ← readQuotedBreaks (next.rest.length + 1) next
      return (folded b bs, next)

/-- Reads an escape after its backslash. -/
def readEscape (c : Cursor) : Except ReadError (List Char × Cursor) :=
  match c.next? with
  | none => fail .escape c
  | some x =>
    match escapes.find? (·.1 = x), escapeLength? x with
    | some (_, y), _ => .ok ([y], c.advance 1)
    | none, some n =>
      let ds := (c.rest.drop 1).take n
      match ds.mapM Text.hexValue? with
      | some vs =>
        if vs.length = n then do
          let y ← escapedChar (vs.foldl (fun m v => 16 * m + v) 0)
          return ([y], c.advance (n + 1))
        else fail .escape (c.advance 1)
      | none => fail .escape (c.advance 1)
    | none, none =>
      if isBreak x then readQuotedBreaks (c.rest.length + 1) (c.advance 1)
      else fail .escape c

/-- Reads a quoted scalar after its opening quote, up to the closing one. -/
def readQuoted (double : Bool) (fuel : Nat) (c : Cursor) : Except ReadError (List Char × Cursor) :=
  match fuel with
  | 0 => fail .unclosedQuote c
  | fuel + 1 => do
    let more (text : List Char) (next : Cursor) : Except ReadError (List Char × Cursor) := do
      let (rest, last) ← readQuoted double fuel next
      return (text ++ rest, last)
    match c.rest with
    | '"' :: _ => if double then return ([], c.advance 1) else more ['"'] (c.advance 1)
    | '\'' :: '\'' :: _ => if double then more ['\''] (c.advance 1) else more ['\''] (c.advance 2)
    | '\'' :: _ => if double then more ['\''] (c.advance 1) else return ([], c.advance 1)
    | '\\' :: _ =>
      if double then do
        let (text, next) ← readEscape (c.advance 1)
        more text next
      else more ['\\'] (c.advance 1)
    | x :: _ =>
      if isWhite x || isBreak x then do
        let (text, next) ← readQuotedGap c
        more text next
      else more [x] (c.advance 1)
    | [] => fail .unclosedQuote c

/-- What is kept of the line breaks at the end of a block. -/
inductive Chomping where
  | strip
  | clip
  | keep
deriving DecidableEq, Repr

/-- Reads a sign for the end of a block. -/
def takeChomping? (c : Cursor) : Option (Chomping × Cursor) :=
  if c.sees '+' then some (.keep, c.advance 1)
  else if c.sees '-' then some (.strip, c.advance 1)
  else none

/-- Reads the digit that gives the indentation of a block. -/
def readIndentation (c : Cursor) : Except ReadError (Option Nat × Cursor) :=
  match c.next? with
  | some x =>
    if x = '0' then fail .header c
    else if x.isDigit then .ok (some (x.toNat - 48), c.advance 1)
    else .ok (none, c)
  | none => .ok (none, c)

/-- Reads the marks in the first line of a block, which come in either order. -/
def readHeader (c : Cursor) : Except ReadError (Chomping × Option Nat × Cursor) := do
  let (chomping, indentation, next) ←
    match takeChomping? c with
    | some (chomping, next) => do
      let (indentation, next) ← readIndentation next
      pure (chomping, indentation, next)
    | none => do
      let (indentation, next) ← readIndentation c
      let (chomping, next) :=
        if indentation.isNone then (.clip, next) else (takeChomping? next).getD (.clip, next)
      pure (chomping, indentation, next)
  if next.atSpace then return (chomping, indentation, next) else fail .header next

/-- Skips the empty lines at the beginning of a block. The result has their line breaks and the
greatest column that their spaces reach. -/
def readLeadingLines (fuel : Nat) (c : Cursor) : List Char × Nat × Cursor :=
  match fuel with
  | 0 => ([], c.column, c)
  | fuel + 1 =>
    let next := c.skipSpaces
    match next.lineBreak? with
    | none => ([], next.column, next)
    | some (b, after) =>
      let (bs, column, after) := readLeadingLines fuel after
      (b :: bs, max next.column column, after)

/-- Skips spaces up to the column `indent`. -/
def skipIndentation (indent : Nat) (c : Cursor) : Cursor :=
  c.advance (min (indent - c.column) (c.run (· = ' ')).length)

/-- Skips empty lines of a block of the indentation `indent`, and the indentation after them. -/
def readBlockBreaks (indent : Nat) (fuel : Nat) (c : Cursor) : List Char × Cursor :=
  match fuel with
  | 0 => ([], c)
  | fuel + 1 =>
    let next := skipIndentation indent c
    match next.lineBreak? with
    | none => ([], next)
    | some (b, next) =>
      let (bs, next) := readBlockBreaks indent fuel next
      (b :: bs, next)

/-- Reads the lines of a block that stand at the column `indent`, after the line breaks `breaks`. -/
def readBlockLines (fold : Bool) (chomping : Chomping) (indent : Nat) (fuel : Nat)
    (breaks : List Char) (c : Cursor) : List Char × Cursor :=
  match fuel with
  | 0 => ([], c)
  | fuel + 1 =>
    let line := c.run fun x => !isBreak x
    let next := c.advance line.length
    let last := (next.lineBreak?.map (·.1)).toList
    let (others, after) := readBlockBreaks indent (next.rest.length + 1) next.skipBreak
    let atWhite (c : Cursor) := c.next?.any isWhite
    if after.column = indent && after.next?.isSome then
      let joint :=
        if fold && last = ['\n'] && !atWhite c && !atWhite after then
          if others.isEmpty then [' '] else []
        else last
      let (more, final) := readBlockLines fold chomping indent fuel others after
      (breaks ++ line ++ joint ++ more, final)
    else
      let tail := match chomping with
        | .strip => []
        | .clip => last
        | .keep => last ++ others
      (breaks ++ line ++ tail, after)

/-- Reads a block scalar from its mark on. `least` is the smallest column of its lines. -/
def readBlock (least : Nat) (c : Cursor) : Except ReadError (List Char × Cursor) := do
  let fold := c.sees '>'
  let (chomping, indentation, next) ← readHeader (c.advance 1)
  let next ← endLine .header next
  let fuel := next.rest.length + 1
  let least := max least 1
  let (indent, breaks, next) := match indentation with
    | some n =>
      let indent := least + n - 1
      (indent, readBlockBreaks indent fuel next)
    | none =>
      let (breaks, column, next) := readLeadingLines fuel next
      (max least column, breaks, next)
  if next.column = indent && next.next?.isSome then
    return readBlockLines fold chomping indent fuel breaks next
  else return (if chomping = .keep then breaks else [], next)

end ReleasePipeline.Yaml
