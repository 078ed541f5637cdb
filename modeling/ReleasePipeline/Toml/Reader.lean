import ReleasePipeline.Toml.Scalar

/-! Reading TOML texts: values, and the tables that the lines of a document build. -/
namespace ReleasePipeline.Toml

/-- A character of a key without quotes. -/
def isBareKeyChar (c : Char) : Bool := c.isAlphanum || c = '-' || c = '_'

/-- Reads one part of a key. -/
def readKeyPart (cs : List Char) : Except Failure (String × List Char) :=
  match cs with
  | '\'' :: rest => do
    let (s, rest) ← readUntil ['\''] isControl rest
    return (String.ofList s, rest)
  | '"' :: rest => do
    let (s, rest) ← readBasic false (rest.length + 1) rest
    return (String.ofList s, rest)
  | cs =>
    let part := cs.takeWhile isBareKeyChar
    if part.isEmpty then .error (.fault .keyStart cs)
    else .ok (String.ofList part, cs.dropWhile isBareKeyChar)

/-- Reads a key: parts separated by dots, with white space around them. -/
def readKey (fuel : Nat) (cs : List Char) : Except Failure (Key × List Char) :=
  match fuel with
  | 0 => .error (.fault .keyStart cs)
  | fuel + 1 => do
    let (part, rest) ← readKeyPart cs
    match rest.dropWhile isSpace with
    | '.' :: rest =>
      let (parts, rest) ← readKey fuel (rest.dropWhile isSpace)
      return (part :: parts, rest)
    | rest => return ([part], rest)

/-- Skips a comment up to the end of its line. -/
def skipComment (cs : List Char) : Except Failure (List Char) :=
  match cs with
  | '#' :: rest =>
    let text := rest.takeWhile (· ≠ '\n')
    match text.find? isControl with
    | some c => .error (.fault (.invalidCharacter c) (rest.dropWhile fun x => !isControl x))
    | none => .ok (rest.dropWhile (· ≠ '\n'))
  | cs => .ok cs

/-- Skips white space, line feeds and comments inside an array. -/
def skipInArray (fuel : Nat) (cs : List Char) : Except Failure (List Char) :=
  match fuel with
  | 0 => .ok cs
  | fuel + 1 =>
    match cs.dropWhile isSpaceOrNewline with
    | '#' :: rest => do skipInArray fuel (← skipComment ('#' :: rest))
    | cs => .ok cs

/-- Changes the table that a path leads to, making the tables that are missing. Where `intoArrays`, a
path goes through an array of tables into its last one. The result is none when a value that is no
table stands on the path. -/
def atPath? (intoArrays : Bool) (path : Key) (change : Table → Option Table) (t : Table) :
    Option Table :=
  match path with
  | [] => change t
  | name :: path => do
    let key := Value.string name
    match (t.get? name).getD (.table []) with
    | .table inner => return t.insert key (.table (← atPath? intoArrays path change inner))
    | .list items =>
      if !intoArrays then none
      match items.getLast? with
      | some (.table inner) =>
        let inner ← atPath? intoArrays path change inner
        return t.insert key (.list (items.dropLast ++ [.table inner]))
      | _ => none
    | _ => none

/-- A value that is an array or a table. -/
def isNest : Value → Bool
  | .list _ | .table _ => true
  | _ => false

/-- One of the paths is the key or leads to a place above it. -/
def coveredBy (paths : List Key) (key : Key) : Bool := paths.any fun p => p.isPrefixOf key

/-- An inline table while it is read: its entries and the keys whose values are complete. -/
structure Inline where
  entries : Table := []
  frozen : List Key := []

namespace Inline

/-- Adds the value of a key. `rest` is the text after it. -/
def add (t : Inline) (key : Key) (v : Value) (rest : List Char) : Except Failure Inline :=
  let name := key.getLast?.getD ""
  if coveredBy t.frozen key then .error (.fault (.immutable key) rest)
  else
    let known? := atPath? false key.dropLast (fun inner => some inner) t.entries
    let added? := atPath? false key.dropLast
      (fun inner => if (inner.get? name).isSome then none
        else some (inner.insert (.string name) v)) t.entries
    match known?, added? with
    | none, _ => .error (.fault .overwrite rest)
    | some _, none => .error (.fault (.duplicateKey name) rest)
    | some _, some entries =>
      .ok ⟨entries, if isNest v then key :: t.frozen else t.frozen⟩

end Inline

mutual

/-- Reads a value. -/
def readValue (fuel : Nat) (cs : List Char) : Except Failure (Value × List Char) :=
  match fuel with
  | 0 => .error (.fault .value cs)
  | fuel + 1 =>
    match cs with
    | '"' :: rest => do
      let (s, rest) ← readDoubleQuoted rest
      return (.string (String.ofList s), rest)
    | '\'' :: rest => do
      let (s, rest) ← readSingleQuoted rest
      return (.string (String.ofList s), rest)
    | '[' :: rest => do
      match ← skipInArray rest.length rest with
      | ']' :: rest => return (.list [], rest)
      | rest =>
        let (items, rest) ← readItems fuel rest
        return (.list items, rest)
    | '\x7b' :: rest =>
      match rest.dropWhile isSpace with
      | '\x7d' :: rest => .ok (.table [], rest)
      | rest => do
        let (t, rest) ← readInline fuel {} rest
        return (.table t.entries, rest)
    | cs =>
      match takeWord? words cs with
      | some r => .ok r
      | none =>
        match (takeDate? cs).or (((takeTime? cs).map fun (t, rest) => .ok (.time t, rest)).or
            (takeNumber? cs)) with
        | some r => r
        | none => ((takeWord? floatWords cs).map Except.ok).getD (.error (.fault .value cs))

/-- Reads the items of an array from the first one to the closing bracket. -/
def readItems (fuel : Nat) (cs : List Char) : Except Failure (List Value × List Char) :=
  match fuel with
  | 0 => .error (.fault .unclosedArray cs)
  | fuel + 1 => do
    let (v, rest) ← readValue fuel cs
    match ← skipInArray rest.length rest with
    | ']' :: rest => return ([v], rest)
    | ',' :: rest =>
      match ← skipInArray rest.length rest with
      | ']' :: rest => return ([v], rest)
      | rest =>
        let (vs, rest) ← readItems fuel rest
        return (v :: vs, rest)
    | rest => .error (.fault .unclosedArray rest)

/-- Reads a key, an equals sign and a value. -/
def readPair (fuel : Nat) (cs : List Char) : Except Failure (Key × Value × List Char) :=
  match fuel with
  | 0 => .error (.fault .equals cs)
  | fuel + 1 => do
    let (key, rest) ← readKey (cs.length + 1) cs
    match rest with
    | '=' :: rest =>
      let (v, rest) ← readValue fuel (rest.dropWhile isSpace)
      return (key, v, rest)
    | rest => .error (.fault .equals rest)

/-- Reads the entries of an inline table from the first key to the closing brace. -/
def readInline (fuel : Nat) (t : Inline) (cs : List Char) :
    Except Failure (Inline × List Char) :=
  match fuel with
  | 0 => .error (.fault .unclosedInlineTable cs)
  | fuel + 1 => do
    let (key, v, rest) ← readPair fuel cs
    let t ← t.add key v rest
    match rest.dropWhile isSpace with
    | '\x7d' :: rest => return (t, rest)
    | ',' :: rest => readInline fuel t (rest.dropWhile isSpace)
    | rest => .error (.fault .unclosedInlineTable rest)

end

/-- A document while it is read. -/
structure Document where
  entries : Table := []
  /-- The table that the following lines fill. -/
  header : Key := []
  /-- The keys that no header may name again. -/
  declared : List Key := []
  /-- The keys that become declared with the next header. -/
  pending : List Key := []
  /-- The keys whose values are complete. -/
  frozen : List Key := []

namespace Document

/-- Adds the value of a key under the present header. `rest` is the text after it. -/
def addPair (d : Document) (key : Key) (v : Value) (rest : List Char) :
    Except Failure Document := do
  let containers := ((List.range key.length).drop 1).map fun n => d.header ++ key.take n
  match containers.find? d.declared.contains with
  | some k => .error (.fault (.redefined k) rest)
  | none =>
    let name := key.getLast?.getD ""
    let parent := d.header ++ key.dropLast
    if coveredBy d.frozen parent then .error (.fault (.immutable parent) rest)
    match atPath? true parent (fun t => if (t.get? name).isSome then none
        else some (t.insert (.string name) v)) d.entries with
    | none => .error (.fault .overwrite rest)
    | some entries =>
      return { d with
        entries
        pending := d.pending ++ containers
        frozen := if isNest v then (d.header ++ key) :: d.frozen else d.frozen }

/-- The containers of the lines under a header become declared when the next header begins. -/
def settle (d : Document) : Document :=
  { d with declared := d.declared ++ d.pending, pending := [] }

/-- Opens the table of a header. -/
def openTable (d : Document) (key : Key) (rest : List Char) : Except Failure Document :=
  if d.declared.contains key || coveredBy d.frozen key then
    .error (.fault (.declaredTwice key) rest)
  else match atPath? true key some d.entries with
    | none => .error (.fault .overwrite rest)
    | some entries =>
      .ok { d with entries, header := key, declared := d.declared ++ [key] }

/-- Appends an empty table to an array of tables. -/
def append (name : String) (t : Table) : Option Table :=
  match t.get? name with
  | none => some (t.insert (.string name) (.list [.table []]))
  | some (.list items) => some (t.insert (.string name) (.list (items ++ [.table []])))
  | some _ => none

/-- Opens a new table at the end of an array of tables. What was declared or complete below the key
belonged to the table before. -/
def openItem (d : Document) (key : Key) (rest : List Char) : Except Failure Document :=
  if coveredBy d.frozen key then .error (.fault (.immutable key) rest)
  else match atPath? true key.dropLast (append (key.getLast?.getD "")) d.entries with
    | none => .error (.fault .overwrite rest)
    | some entries =>
      .ok { d with
        entries
        header := key
        declared := (d.declared.filter fun k => !key.isPrefixOf k) ++ [key]
        frozen := d.frozen.filter fun k => !key.isPrefixOf k }

/-- Reads a statement that begins with no white space: a pair, a header or nothing. -/
def readStatement (d : Document) (cs : List Char) : Except Failure (Document × List Char) :=
  match cs with
  | '[' :: '[' :: rest => do
    let (key, rest) ← readKey (rest.length + 1) (rest.dropWhile isSpace)
    let d ← d.settle.openItem key rest
    match rest with
    | ']' :: ']' :: rest => return (d, rest)
    | rest => .error (.fault .arrayEnd rest)
  | '[' :: rest => do
    let (key, rest) ← readKey (rest.length + 1) (rest.dropWhile isSpace)
    let d ← d.settle.openTable key rest
    match rest with
    | ']' :: rest => return (d, rest)
    | rest => .error (.fault .tableEnd rest)
  | '#' :: _ => .ok (d, cs)
  | c :: _ =>
    if isBareKeyChar c || c = '"' || c = '\'' then do
      let (key, v, rest) ← readPair (3 * cs.length + 3) cs
      return (← d.addPair key v rest, rest)
    else .error (.fault .statement cs)
  | [] => .ok (d, [])

/-- Reads the lines of a document. -/
def readLines (fuel : Nat) (d : Document) (cs : List Char) : Except Failure Document :=
  match fuel with
  | 0 => .ok d
  | fuel + 1 =>
    match cs.dropWhile isSpace with
    | [] => .ok d
    | '\n' :: rest => readLines fuel d rest
    | cs => do
      let (d, rest) ← d.readStatement cs
      match ← skipComment (rest.dropWhile isSpace) with
      | [] => return d
      | '\n' :: rest => readLines fuel d rest
      | rest => .error (.fault .newline rest)

end Document

/-- The line and the column, counted from one, of the place where `rest` begins, none at the end. -/
def place? (cs rest : List Char) : Option (Nat × Nat) :=
  if rest.isEmpty then none
  else
    let before := cs.take (cs.length - rest.length)
    some (before.count '\n' + 1, (before.reverse.takeWhile (· ≠ '\n')).length + 1)

/-- The table that a TOML text writes. Its lines end with line feeds. -/
def read (text : String) : Except ReadError Table :=
  let cs := text.toList
  match ({} : Document).readLines (cs.length + 1) cs with
  | .ok d => .ok d.entries
  | .error (.numeral e) => .error (.numeral e)
  | .error (.fault f rest) => .error (.fault f (place? cs rest))

end ReleasePipeline.Toml
