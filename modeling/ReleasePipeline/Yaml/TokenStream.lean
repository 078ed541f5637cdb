import ReleasePipeline.Yaml.Scalar

/-! The tokens of a YAML text.

A scalar or a collection becomes a key when a colon follows it on its line, so its token waits until
that is known: the tokens of a key and of the table that it begins stand before it. -/
namespace ReleasePipeline.Yaml

/-- The tokens of a text up to its end, or up to an error. -/
structure TokenStream where
  tokens : List Token
  error : Option ReadError

/-- A waiting token that becomes a key when a colon follows. -/
structure PossibleKey where
  /-- The number of the token. -/
  number : Nat
  /-- Nothing but a key may stand there. -/
  required : Bool
  index : Nat
  place : Place

/-- The greatest number of characters from the beginning of a key to its colon. -/
def maxKeyLength : Nat := 1024

/-- The text while its tokens are read. -/
structure Scanner where
  cursor : Cursor
  /-- The tokens that no key can change, the last one first. -/
  ready : List Token := []
  waiting : List Token := []
  /-- The columns of the open blocks, the innermost first. -/
  columns : List Nat := []
  /-- The possible keys of the line and of the flow collections that are open, innermost first. -/
  keys : List (Option PossibleKey) := [none]
  /-- A key may begin here. -/
  keyAllowed : Bool := true

namespace Scanner

/-- No flow collection is open. -/
def inBlock (s : Scanner) : Bool := s.keys.length ≤ 1

/-- The smallest column of the lines inside the innermost block. -/
def innerColumn (s : Scanner) : Nat := (s.columns.head?.map (· + 1)).getD 0

/-- The number of the next token. -/
def count (s : Scanner) : Nat := s.ready.length + s.waiting.length

/-- Appends a token. -/
def push (kind : TokenKind) (start stop : Place) (s : Scanner) : Scanner :=
  { s with waiting := s.waiting ++ [⟨kind, start, stop⟩] }

/-- Appends a token of `n` characters and goes behind it. -/
def pushMark (kind : TokenKind) (n : Nat) (s : Scanner) : Scanner :=
  let next := s.cursor.advance n
  { s.push kind s.cursor.place next.place with cursor := next }

/-- Appends a token without characters. -/
def pushEmpty (kind : TokenKind) (s : Scanner) : Scanner :=
  s.push kind s.cursor.place s.cursor.place

/-- Puts a token without characters before the token of a key. -/
def insertBefore (key : PossibleKey) (kind : TokenKind) (s : Scanner) : Scanner :=
  let n := key.number - s.ready.length
  { s with
    waiting := s.waiting.take n ++ ⟨kind, key.place, key.place⟩ :: s.waiting.drop n }

/-- The tokens before the first possible key become ready. -/
def release (s : Scanner) : Scanner :=
  let first := ((s.keys.filterMap fun k => k.map (·.number)).min?).getD s.count
  let n := first - s.ready.length
  { s with ready := (s.waiting.take n).reverse ++ s.ready, waiting := s.waiting.drop n }

/-- A key ends on its line and is not too long. Other possible keys are given up. -/
def dropOldKeys (s : Scanner) : Except ReadError Scanner := do
  let keys ← s.keys.mapM fun k => match k with
    | some key =>
      if key.place.line ≠ s.cursor.place.line || key.index + maxKeyLength < s.cursor.index then
        if key.required then fail .noColon s.cursor else pure none
      else pure (some key)
    | none => pure none
  return { s with keys }

/-- Gives up the innermost possible key. -/
def dropKey (s : Scanner) : Except ReadError Scanner :=
  if (s.keys.head?.join.map (·.required)).getD false then fail .noColon s.cursor
  else .ok { s with keys := none :: s.keys.tail }

/-- The next token may become a key. -/
def markKey (s : Scanner) : Except ReadError Scanner := do
  if !s.keyAllowed then return s
  let s ← s.dropKey
  let key : PossibleKey :=
    { number := s.count
      required := s.inBlock && s.columns.head? = some s.cursor.column
      index := s.cursor.index
      place := s.cursor.place }
  return { s with keys := some key :: s.keys.tail }

/-- Closes the blocks for which `p` holds of their columns. -/
def closeBlocks (p : Nat → Bool) (s : Scanner) : Scanner :=
  if s.inBlock then
    let closed := s.columns.takeWhile p
    let s := closed.foldl (fun s _ => s.pushEmpty .blockEnd) s
    { s with columns := s.columns.drop closed.length }
  else s

/-- Opens a block at a column behind those of the open blocks. -/
def opensBlock (column : Nat) (s : Scanner) : Bool := s.columns.head?.all (· < column)

/-- Opens a block that begins here, if the column is behind those of the open blocks. -/
def openBlock (kind : TokenKind) (s : Scanner) : Scanner :=
  if s.opensBlock s.cursor.column then
    { s.pushEmpty kind with columns := s.cursor.column :: s.columns }
  else s

/-- Skips spaces, comments and line breaks. After a line break a key may begin. -/
def skipToToken (fuel : Nat) (s : Scanner) : Scanner :=
  match fuel with
  | 0 => s
  | fuel + 1 =>
    let next := s.cursor.skipSpaces.skipComment
    match next.lineBreak? with
    | none => { s with cursor := next }
    | some (_, next) =>
      skipToToken fuel { s with cursor := next, keyAllowed := s.keyAllowed || s.inBlock }

/-- Reads the opening bracket of a flow collection. -/
def openFlow (kind : TokenKind) (s : Scanner) : Except ReadError Scanner := do
  let s ← s.markKey
  return { s.pushMark kind 1 with keys := none :: s.keys, keyAllowed := true }

/-- Reads the closing bracket of a flow collection. -/
def closeFlow (kind : TokenKind) (s : Scanner) : Except ReadError Scanner := do
  let s ← s.dropKey
  let keys := if s.inBlock then s.keys else s.keys.tail
  return { s.pushMark kind 1 with keys, keyAllowed := false }

/-- Reads the hyphen of a list entry or the question mark of a key. -/
def readBlockMark (kind block : TokenKind) (keyAllowed : Bool) (s : Scanner) :
    Except ReadError Scanner := do
  if s.inBlock && !s.keyAllowed then fail .misplaced s.cursor
  let s := if s.inBlock then s.openBlock block else s
  let s ← s.dropKey
  return { s.pushMark kind 1 with keyAllowed }

/-- Reads the colon of a value. It turns a possible key into a key. -/
def readValueMark (s : Scanner) : Except ReadError Scanner :=
  match s.keys.head?.join with
  | some key =>
    let s := { s with keys := none :: s.keys.tail }.insertBefore key .key
    let s :=
      if s.inBlock && s.opensBlock key.place.column then
        { s.insertBefore key .blockTable with columns := key.place.column :: s.columns }
      else s
    .ok { s.pushMark .value 1 with keyAllowed := false }
  | none => s.readBlockMark .value .blockTable s.inBlock

/-- Reads a token that may become a key. -/
def readKeyToken (read : Cursor → Except ReadError (TokenKind × Cursor)) (s : Scanner) :
    Except ReadError Scanner := do
  let s ← s.markKey
  let (kind, next) ← read s.cursor
  return { s.push kind s.cursor.place next.place with cursor := next, keyAllowed := false }

/-- Reads a plain scalar. -/
def readPlainToken (s : Scanner) : Except ReadError Scanner := do
  let s ← s.markKey
  let (p, next) := readPlain (!s.inBlock) s.innerColumn (s.cursor.rest.length + 1)
    ⟨[], false, false⟩ s.cursor
  let kind := TokenKind.scalar (String.ofList p.text) true
  return { s.push kind s.cursor.place next.place with cursor := next, keyAllowed := p.broken }

/-- Reads a scalar in quotes. -/
def readQuotedToken (double : Bool) (s : Scanner) : Except ReadError Scanner :=
  s.readKeyToken fun c => do
    let (text, next) ← readQuoted double (c.rest.length + 1) (c.advance 1)
    return (.scalar (String.ofList text) false, next)

/-- Reads a block scalar. -/
def readBlockToken (s : Scanner) : Except ReadError Scanner := do
  let s ← s.dropKey
  let (text, next) ← readBlock s.innerColumn s.cursor
  let kind := TokenKind.scalar (String.ofList text) false
  return { s.push kind s.cursor.place next.place with cursor := next, keyAllowed := true }

/-- Reads a directive. -/
def readDirectiveToken (s : Scanner) : Except ReadError Scanner := do
  let s ← (s.closeBlocks fun _ => true).dropKey
  let (d, next) ← readDirective s.cursor
  return { s.push (.directive d) s.cursor.place next.place with cursor := next, keyAllowed := false }

/-- Reads a separator of documents. -/
def readSeparator (kind : TokenKind) (s : Scanner) : Except ReadError Scanner := do
  let s ← (s.closeBlocks fun _ => true).dropKey
  return { s.pushMark kind 3 with keyAllowed := false }

/-- Reads the end of the text. -/
def readEnd (s : Scanner) : Except ReadError Scanner := do
  let s ← (s.closeBlocks fun _ => true).dropKey
  return { s.pushEmpty .textEnd with keys := [none] }

/-- The characters that begin no plain scalar. -/
def isIndicator (c : Char) : Bool := "-?:,[]\x7b\x7d#&*!|>'\"%@`".toList.contains c

/-- A plain scalar begins here. -/
def atPlain (s : Scanner) : Bool :=
  match s.cursor.next? with
  | none => false
  | some x =>
    !(isWhite x || isBreak x || isIndicator x) ||
      (!(s.cursor.advance 1).atGap && (x = '-' || (s.inBlock && (x = '?' || x = ':'))))

/-- Reads the token that begins with `x` where the cursor stands. -/
def readToken (x : Char) (s : Scanner) : Except ReadError Scanner :=
  let c := s.cursor
  let gap := (c.advance 1).atGap
  let mark := gap || !s.inBlock
  if x = '%' && c.column = 0 then s.readDirectiveToken
  else if c.column = 0 && c.atSeparator ['-'] then s.readSeparator .documentStart
  else if c.column = 0 && c.atSeparator ['.'] then s.readSeparator .documentEnd
  else if x = '[' then s.openFlow .flowList
  else if x = '\x7b' then s.openFlow .flowTable
  else if x = ']' then s.closeFlow .flowListEnd
  else if x = '\x7d' then s.closeFlow .flowTableEnd
  else if x = ',' then do
    let s ← s.dropKey
    return { s.pushMark .comma 1 with keyAllowed := true }
  else if x = '-' && gap then s.readBlockMark .entry .blockList true
  else if x = '?' && mark then s.readBlockMark .key .blockTable s.inBlock
  else if x = ':' && mark then s.readValueMark
  else if x = '*' then s.readKeyToken fun c => do
    let (name, next) ← readAnchor c
    return (.alias name, next)
  else if x = '&' then s.readKeyToken fun c => do
    let (name, next) ← readAnchor c
    return (.anchor name, next)
  else if x = '!' then s.readKeyToken fun c => do
    let (name, next) ← readTag c
    return (.tag name, next)
  else if (x = '|' || x = '>') && s.inBlock then s.readBlockToken
  else if x = '\'' || x = '"' then s.readQuotedToken (x = '"')
  else if s.atPlain then s.readPlainToken
  else fail .character c

/-- Reads the next token with the ends of blocks before it. -/
def step (s : Scanner) : Except ReadError Scanner := do
  let s := s.skipToToken (s.cursor.rest.length + 1)
  let s ← s.dropOldKeys
  let s := s.closeBlocks fun column => s.cursor.column < column
  match s.cursor.next? with
  | none => s.readEnd
  | some x => (← s.readToken x).dropOldKeys

/-- Reads all tokens. Those that wait when an error occurs are lost. -/
def run (fuel : Nat) (s : Scanner) : TokenStream :=
  match fuel with
  | 0 => ⟨s.ready.reverse, none⟩
  | fuel + 1 =>
    let s := s.release
    match s.step with
    | .error e => ⟨s.ready.reverse, some e⟩
    | .ok next =>
      if next.waiting.getLast?.any (·.kind = .textEnd) then ⟨next.release.ready.reverse, none⟩
      else run fuel next

end Scanner

/-- The tokens of a text. A byte order mark at its beginning is skipped. -/
def TokenStream.ofText (cs : List Char) : TokenStream :=
  let c : Cursor := { rest := cs }
  let c := if c.sees byteOrderMark then c.advance 1 else c
  ({ cursor := c } : Scanner).run (cs.length + 2)

end ReleasePipeline.Yaml
