import ReleasePipeline.Text.Digit
import ReleasePipeline.Yaml.Cursor

/-! A YAML text while it is written, and the ways to write a scalar. -/
namespace ReleasePipeline.Yaml

/-- A text while it is written. -/
structure Sheet where
  text : String := ""
  column : Nat := 0
  /-- A blank or the beginning of a line is behind the last mark. -/
  blank : Bool := true
  /-- The line holds nothing but marks of blocks so far. -/
  fresh : Bool := true
  /-- The labels of the shared values that are written. -/
  written : List Nat := []
deriving Inhabited

/-- The column behind which a line is broken at the next blank. -/
def lineWidth : Nat := 80

namespace Sheet

/-- Writes characters within a line. -/
def put (cs : List Char) (s : Sheet) : Sheet :=
  { s with text := s.text ++ String.ofList cs, column := s.column + cs.length }

/-- Begins a line. -/
def breakLine (c : Char) (s : Sheet) : Sheet :=
  { s with text := s.text.push c, column := 0, blank := true, fresh := true }

/-- Goes to the column `indent`, on a new line unless the line is fresh and ends before it. -/
def indentTo (indent : Nat) (s : Sheet) : Sheet :=
  let s :=
    if !s.fresh || indent < s.column || (s.column = indent && !s.blank) then s.breakLine '\n' else s
  if s.column < indent then
    { s.put (List.replicate (indent - s.column) ' ') with blank := true }
  else s

/-- Writes a mark that belongs to the text before it. -/
def putClose (mark : String) (s : Sheet) : Sheet :=
  { s.put mark.toList with blank := false, fresh := false }

/-- Writes a mark with a blank before it. -/
def putMark (mark : String) (s : Sheet) : Sheet :=
  (if s.blank then s else s.put [' ']).putClose mark

/-- Writes the mark of a block, behind which another block may begin on the same line. -/
def putBlockMark (mark : String) (s : Sheet) : Sheet :=
  { s.putMark mark with fresh := s.fresh }

end Sheet

/-- The kinds of characters that a scalar is broken between. -/
inductive RunKind where
  | spaces
  | breaks
  | others
deriving DecidableEq

/-- The kind of a character. -/
def runKind (c : Char) : RunKind :=
  if c = ' ' then .spaces else if isBreak c then .breaks else .others

/-- The longest parts of a text that have characters of one kind. -/
def runs : List Char → List (RunKind × List Char)
  | [] => []
  | c :: cs =>
    match runs cs with
    | (kind, run) :: rest =>
      if kind = runKind c then (kind, c :: run) :: rest else (runKind c, [c]) :: (kind, run) :: rest
    | [] => [(runKind c, [c])]

namespace Sheet

/-- Writes the parts of a plain scalar. -/
def putPlainRuns (split : Bool) (indent : Nat) (s : Sheet) : List (RunKind × List Char) → Sheet
  | [] => s
  | (kind, run) :: rest =>
    let s :=
      if kind = .spaces && run.length = 1 && lineWidth < s.column && split then
        { s.indentTo indent with blank := false, fresh := false }
      else s.put run
    putPlainRuns split indent s rest

/-- Writes a plain scalar. -/
def putPlain (split : Bool) (indent : Nat) (cs : List Char) (s : Sheet) : Sheet :=
  let s := if s.blank then s else s.put [' ']
  putPlainRuns split indent { s with blank := false, fresh := false } (runs cs)

/-- Writes the line breaks inside a quoted scalar. A single line feed takes an empty line. -/
def putBreaks (indent : Nat) (run : List Char) (s : Sheet) : Sheet :=
  let s := if run.head? = some '\n' then s.breakLine '\n' else s
  (run.foldl (fun s c => s.breakLine c) s).indentTo indent

/-- Writes the parts of a scalar in single quotes. -/
def putSingleRuns (split first : Bool) (indent : Nat) (s : Sheet) :
    List (RunKind × List Char) → Sheet
  | [] => s
  | (kind, run) :: rest =>
    let s := match kind with
      | .spaces =>
        if run.length = 1 && lineWidth < s.column && split && !first && !rest.isEmpty then
          s.indentTo indent
        else s.put run
      | .breaks => s.putBreaks indent run
      | .others => s.put (run.flatMap fun c => if c = '\'' then ['\'', '\''] else [c])
    putSingleRuns split false indent s rest

/-- Writes a scalar in single quotes. -/
def putSingle (split : Bool) (indent : Nat) (cs : List Char) (s : Sheet) : Sheet :=
  (putSingleRuns split true indent (s.putMark "'") (runs cs)).putClose "'"

/-- The letters of short escapes. -/
def shortEscapes : List (Char × Char) :=
  [('\x00', '0'), ('\x07', 'a'), ('\x08', 'b'), ('\t', 't'), ('\n', 'n'), ('\x0b', 'v'),
   ('\x0c', 'f'), ('\r', 'r'), ('\x1b', 'e'), ('"', '"'), ('\\', '\\'), ('\u0085', 'N'),
   ('\u2028', 'L'), ('\u2029', 'P')]

/-- The characters that stand for themselves in double quotes. -/
def isDoublePlain (c : Char) : Bool :=
  let n := c.toNat
  !(c = '"' || c = '\\' || n = 0x2028 || n = 0x2029 || c = byteOrderMark) &&
    ((0x20 ≤ n && n ≤ 0x7e) || (0xa0 ≤ n && n ≤ 0xd7ff) || (0xe000 ≤ n && n ≤ 0xfffd))

/-- The escape of a character in double quotes. -/
def escapeOf (c : Char) : List Char :=
  let digits (width : Nat) := (Text.hexPadded width c.toNat).map Char.toUpper
  match shortEscapes.lookup c with
  | some x => ['\\', x]
  | none =>
    if c.toNat ≤ 0xff then '\\' :: 'x' :: digits 2
    else if c.toNat ≤ 0xffff then '\\' :: 'u' :: digits 4
    else '\\' :: 'U' :: digits 8

/-- Breaks the line inside double quotes, where the character `next?` follows. -/
def breakDouble (indent : Nat) (next? : Option Char) (s : Sheet) : Sheet :=
  let s := { (s.put ['\\']).indentTo indent with blank := false, fresh := false }
  if next? = some ' ' then s.put ['\\'] else s

/-- Writes the characters of a scalar in double quotes. `pending` holds those that are not written
yet, the last one first, and `first` says that the next character begins the scalar. -/
def putDoubleChars (split : Bool) (indent : Nat) (first : Bool) (pending : List Char) (s : Sheet) :
    List Char → Sheet
  | [] => s.put pending.reverse
  | c :: rest =>
    let inside := !first && !rest.isEmpty && split
    if isDoublePlain c then
      if inside && (c = ' ' || pending.isEmpty) && lineWidth < s.column + pending.length then
        let s := (s.put pending.reverse).breakDouble indent (some c)
        putDoubleChars split indent false [c] s rest
      else putDoubleChars split indent false (c :: pending) s rest
    else
      let s := (s.put pending.reverse).put (escapeOf c)
      let s := if inside && lineWidth + 1 < s.column then s.breakDouble indent rest.head? else s
      putDoubleChars split indent false [] s rest

/-- Writes a scalar in double quotes. -/
def putDouble (split : Bool) (indent : Nat) (cs : List Char) (s : Sheet) : Sheet :=
  (putDoubleChars split indent true [] (s.putMark "\"") cs).putClose "\""

/-- Writes the lines of a block, each of which ends with a line feed. -/
def putLiteral (indent : Nat) (lines : List (List Char)) (s : Sheet) : Sheet :=
  lines.foldl (fun s line => ((s.indentTo indent).put line).breakLine '\n')
    ((s.putMark "|").breakLine '\n')

end Sheet

end ReleasePipeline.Yaml
