import ReleasePipeline.Yaml.Tag
import ReleasePipeline.Yaml.TokenStream

/-! The document of a YAML text: nodes by number, so that an alias is a second mention of a number. -/
namespace ReleasePipeline.Yaml

/-- What a node holds. Items and entries are numbers of nodes. -/
inductive NodeForm where
  | scalar (text : String)
  | list (items : List Nat)
  | table (entries : List (Nat × Nat))
deriving DecidableEq, Repr, Inhabited

/-- A node: its tag, where it begins and what it holds. -/
structure Node where
  tag : Tag
  place : Place
  form : NodeForm
deriving DecidableEq, Repr, Inhabited

/-- The nodes of a document. An empty text has no root. -/
structure Document where
  nodes : Array Node
  root : Option Nat
deriving Repr

/-- The handles that every document knows, with what they stand for. -/
def commonHandles : List (String × String) := [("!", "!"), ("!!", Tag.commonStart)]

/-- A document while its tokens are read. -/
structure Composer where
  tokens : List Token
  /-- The error behind the tokens. -/
  error : Option ReadError
  handles : List (String × String) := commonHandles
  anchors : List (String × Nat) := []
  nodes : Array Node := #[]

/-- Steps that read tokens. -/
abbrev Compose := StateT Composer (Except ReadError)

namespace Compose

/-- The next token. -/
def peek : Compose Token := do
  let s ← get
  match s.tokens with
  | t :: _ => return t
  | [] => throw (s.error.getD (.fault .content ⟨0, 0⟩))

/-- Takes the next token. -/
def pop : Compose Token := do
  let t ← peek
  modify fun s => { s with tokens := s.tokens.tail }
  return t

/-- The next token has one of these kinds. -/
def sees (kinds : List TokenKind) : Compose Bool := do
  return kinds.contains (← peek).kind

/-- Takes the next token if it has this kind. -/
def popIf (kind : TokenKind) : Compose (Option Token) := do
  if ← sees [kind] then return some (← pop) else return none

/-- A fault at a place. -/
def failAt {α : Type} (f : Fault) (p : Place) : Compose α := throw (.fault f p)

/-- A fault where the next token begins. -/
def failHere {α : Type} (f : Fault) : Compose α := do failAt f (← peek).start

/-- Adds a node under the next number. -/
def addNode (n : Node) : Compose Nat := do
  let s ← get
  set { s with nodes := s.nodes.push n }
  return s.nodes.size

/-- Adds the node of a value that is left out. -/
def addEmpty (p : Place) : Compose Nat := addNode ⟨.ofPlain "", p, .scalar ""⟩

/-- Gives a node what it holds. -/
def fill (n : Nat) (form : NodeForm) : Compose Unit :=
  modify fun s => { s with nodes := s.nodes.modify n fun node => { node with form } }

/-- What may stand before a value. -/
structure Properties where
  start : Option Place := none
  anchor : Option String := none
  tag : Option (TagName × Place) := none

/-- Takes an anchor and a tag, which stand in either order. -/
def readProperties : Compose Properties := do
  let t ← peek
  match t.kind with
  | .anchor name =>
    let _ ← pop
    let next ← peek
    match next.kind with
    | .tag tag =>
      let _ ← pop
      return ⟨some t.start, some name, some (tag, next.start)⟩
    | _ => return ⟨some t.start, some name, none⟩
  | .tag tag =>
    let _ ← pop
    let next ← peek
    match next.kind with
    | .anchor name =>
      let _ ← pop
      return ⟨some t.start, some name, some (tag, t.start)⟩
    | _ => return ⟨some t.start, none, some (tag, t.start)⟩
  | _ => return {}

/-- The name of a tag, none for the tag that leaves the choice to the form of the value. -/
def tagName (tag : Option (TagName × Place)) : Compose (Option String) := do
  match tag with
  | none => return none
  | some (⟨none, rest⟩, _) => return some rest
  | some (⟨some handle, rest⟩, p) =>
    match (← get).handles.lookup handle with
    | some start => return some (start ++ rest)
    | none => failAt .unknownHandle p

/-- Binds an anchor to a node. -/
def bindAnchor (anchor : Option String) (n : Nat) : Compose Unit :=
  modify fun s => { s with anchors := (anchor.map (·, n)).toList ++ s.anchors }

/-- An anchor is bound once. -/
def checkAnchor (anchor : Option String) (p : Place) : Compose Unit := do
  let known := (← get).anchors
  if anchor.any fun a => (known.lookup a).isSome then failAt .repeatedAnchor p

/-- The tag by its name, and `absent` where there is no name or the name `!`. -/
def tagOr (absent : Tag) (name : Option String) : Tag :=
  match name with
  | none => absent
  | some name => if name = "!" then absent else .ofName name

/-- Takes the comma before every item but the first one. -/
def readComma (first : Bool) : Compose Unit := do
  unless first do
    if (← popIf .comma).isNone then failHere .collection

mutual

/-- Reads a value. In a `block` it may be a block collection, and where `indentless` a list whose
entries stand at the column of the enclosing table. -/
def readNode (block indentless : Bool) (fuel : Nat) : Compose Nat := do
  match fuel with
  | 0 => failHere .content
  | fuel + 1 =>
    let t ← peek
    if let .alias name := t.kind then
      let _ ← pop
      match (← get).anchors.lookup name with
      | some n => return n
      | none => failAt .unknownAlias t.start
    else
      let properties ← readProperties
      let tag ← tagName properties.tag
      let t ← peek
      let start := properties.start.getD t.start
      let scalar (tag : Tag) (text : String) : Compose Nat := do
        checkAnchor properties.anchor start
        let n ← addNode ⟨tag, start, .scalar text⟩
        bindAnchor properties.anchor n
        return n
      let collection (absent : Tag) (read : Compose NodeForm) : Compose Nat := do
        checkAnchor properties.anchor start
        let n ← addNode ⟨tagOr absent tag, start, .scalar ""⟩
        bindAnchor properties.anchor n
        fill n (← read)
        return n
      if indentless && t.kind = .entry then
        collection .list (.list <$> readIndentless fuel)
      else match t.kind with
        | .scalar text plain =>
          let _ ← pop
          scalar (tagOr (if plain || tag = some "!" then .ofPlain text else .string) tag) text
        | .flowList => collection .list do
          let _ ← pop
          .list <$> readFlowList true fuel
        | .flowTable => collection .table do
          let _ ← pop
          .table <$> readFlowTable true fuel
        | kind =>
          if block && kind = .blockList then collection .list do
            let _ ← pop
            .list <$> readBlockList fuel
          else if block && kind = .blockTable then collection .table do
            let _ ← pop
            .table <$> readBlockTable fuel
          else if properties.start.isSome then scalar (tagOr (.ofPlain "") tag) ""
          else failAt .content t.start

/-- Reads the entries of a list up to the end of its block. -/
def readBlockList (fuel : Nat) : Compose (List Nat) := do
  match fuel with
  | 0 => failHere .collection
  | fuel + 1 =>
    match ← popIf .entry with
    | some t =>
      let n ← if ← sees [.entry, .blockEnd] then addEmpty t.stop else readNode true false fuel
      return n :: (← readBlockList fuel)
    | none =>
      match ← popIf .blockEnd with
      | some _ => return []
      | none => failHere .collection

/-- Reads the entries of a list that opens no block. -/
def readIndentless (fuel : Nat) : Compose (List Nat) := do
  match fuel with
  | 0 => failHere .collection
  | fuel + 1 =>
    match ← popIf .entry with
    | some t =>
      let n ← if ← sees [.entry, .key, .value, .blockEnd] then addEmpty t.stop
        else readNode true false fuel
      return n :: (← readIndentless fuel)
    | none => return []

/-- Reads the entries of a table up to the end of its block. -/
def readBlockTable (fuel : Nat) : Compose (List (Nat × Nat)) := do
  match fuel with
  | 0 => failHere .collection
  | fuel + 1 =>
    match ← popIf .key with
    | some t =>
      let key ← readPart [.key, .value, .blockEnd] true t.stop fuel
      let value ← readValue [.key, .value, .blockEnd] true fuel
      return (key, value) :: (← readBlockTable fuel)
    | none =>
      match ← popIf .blockEnd with
      | some _ => return []
      | none => failHere .collection

/-- Reads a key or a value, which is left out where one of the kinds `ends` follows. -/
def readPart (ends : List TokenKind) (block : Bool) (absent : Place) (fuel : Nat) :
    Compose Nat := do
  match fuel with
  | 0 => failHere .content
  | fuel + 1 => if ← sees ends then addEmpty absent else readNode block block fuel

/-- Reads the value of a key, with its colon. -/
def readValue (ends : List TokenKind) (block : Bool) (fuel : Nat) : Compose Nat := do
  match fuel with
  | 0 => failHere .content
  | fuel + 1 =>
    match ← popIf .value with
    | some t => readPart ends block t.stop fuel
    | none => addEmpty (← peek).start

/-- Reads the items of a list up to its closing bracket. A key begins a table of one entry. -/
def readFlowList (first : Bool) (fuel : Nat) : Compose (List Nat) := do
  match fuel with
  | 0 => failHere .collection
  | fuel + 1 =>
    if (← popIf .flowListEnd).isSome then return []
    readComma first
    let t ← peek
    if t.kind = .flowListEnd then
      let _ ← pop
      return []
    let n ←
      if t.kind = .key then do
        let _ ← pop
        let n ← addNode ⟨.table, t.start, .scalar ""⟩
        let key ← readPart [.value, .comma, .flowListEnd] false t.stop fuel
        let value ← readValue [.comma, .flowListEnd] false fuel
        fill n (.table [(key, value)])
        pure n
      else readNode false false fuel
    return n :: (← readFlowList false fuel)

/-- Reads the entries of a table up to its closing brace. -/
def readFlowTable (first : Bool) (fuel : Nat) : Compose (List (Nat × Nat)) := do
  match fuel with
  | 0 => failHere .collection
  | fuel + 1 =>
    if (← popIf .flowTableEnd).isSome then return []
    readComma first
    let t ← peek
    if t.kind = .flowTableEnd then
      let _ ← pop
      return []
    let entry ←
      if t.kind = .key then do
        let _ ← pop
        let key ← readPart [.value, .comma, .flowTableEnd] false t.stop fuel
        let value ← readValue [.comma, .flowTableEnd] false fuel
        pure (key, value)
      else do
        let key ← readNode false false fuel
        pure (key, ← addEmpty (← peek).start)
    return entry :: (← readFlowTable false fuel)

end

/-- Reads directives. -/
def readDirectives (version : Bool) (handles : List (String × String)) (fuel : Nat) :
    Compose Unit := do
  match fuel with
  | 0 => failHere .directive
  | fuel + 1 =>
    let t ← peek
    match t.kind with
    | .directive d =>
      let _ ← pop
      match d with
      | .version major _ =>
        if version then failAt .repeatedDirective t.start
        if major ≠ 1 then failAt .version t.start
        readDirectives true handles fuel
      | .tag handle start =>
        if (handles.lookup handle).isSome then failAt .repeatedDirective t.start
        readDirectives version ((handle, start) :: handles) fuel
      | .other => readDirectives version handles fuel
    | _ => modify fun s => { s with handles := handles ++ commonHandles }

/-- Reads directives and the separator that begins a document. -/
def readDocumentStart : Compose Unit := do
  readDirectives false [] ((← get).tokens.length + 1)
  if (← popIf .documentStart).isNone then failHere .documentStart

/-- The next token is a directive. -/
def seesDirective : Compose Bool := do
  match (← peek).kind with
  | .directive _ => return true
  | _ => return false

/-- Takes the separators that end a document. -/
def skipDocumentEnds (fuel : Nat) : Compose Unit := do
  match fuel with
  | 0 => return
  | fuel + 1 => if (← popIf .documentEnd).isSome then skipDocumentEnds fuel

/-- Reads the only document of a text. -/
def readDocument : Compose (Option Nat) := do
  let fuel := 4 * (← get).tokens.length + 8
  if ← sees [.textEnd] then return none
  let root ←
    if (← seesDirective) || (← sees [.documentStart]) then do
      readDocumentStart
      if (← seesDirective) || (← sees [.documentStart, .documentEnd, .textEnd]) then
        addEmpty (← peek).start
      else readNode true false fuel
    else readNode true false fuel
  skipDocumentEnds fuel
  if ← sees [.textEnd] then return some root
  let start := (← peek).start
  readDocumentStart
  failAt .secondDocument start

end Compose

/-- The document that a text writes. -/
def Document.ofText (cs : List Char) : Except ReadError Document := do
  let stream := TokenStream.ofText cs
  let (root, s) ← Compose.readDocument.run { tokens := stream.tokens, error := stream.error }
  return ⟨s.nodes, root⟩

end ReleasePipeline.Yaml
