import ReleasePipeline.Yaml.Document
import ReleasePipeline.Yaml.Typed

/-! Reading YAML texts: the values of the nodes of a document.

Collections are filled one after another in the order in which they are met, so of several errors the
one nearest to the root comes first. -/
namespace ReleasePipeline.Yaml

/-- The value of a node, with its parts by their numbers. -/
inductive NodeValue where
  | atom (v : Value)
  | list (items : List Nat)
  | table (entries : List (Nat × Nat))
  | set (items : List Nat)
  | pairs (entries : List (Nat × Nat))

namespace NodeValue

/-- The parts of a value. -/
def parts : NodeValue → List Nat
  | atom _ => []
  | list items | set items => items
  | table entries | pairs entries => entries.flatMap fun (k, v) => [k, v]

end NodeValue

/-- The values of a document while they are built. -/
structure Builder where
  nodes : Array Node
  /-- The values of the nodes that were met. -/
  values : List (Nat × NodeValue) := []
  /-- The collections that are not filled yet, in the order in which they were met. -/
  pending : List Nat := []

/-- Steps that build values. -/
abbrev Build := StateT Builder (Except ReadError)

namespace Build

/-- A node by its number. -/
def node (n : Nat) : Build Node := do return ((← get).nodes[n]?).getD default

/-- A fault at the beginning of a node. -/
def failAt {α : Type} (f : Fault) (n : Nat) : Build α := do throw (.fault f (← node n).place)

/-- Sets the value of a node. -/
def setValue (n : Nat) (v : NodeValue) : Build Unit :=
  modify fun s => { s with values := (n, v) :: s.values }

/-- The value that a node has so far. -/
def value? (n : Nat) : Build (Option NodeValue) := do return (← get).values.lookup n

/-- Changes a node. -/
def change (n : Nat) (f : Node → Node) : Build Unit :=
  modify fun s => { s with nodes := s.nodes.modify n f }

/-- The text of a scalar. A table stands for the scalar under its `value` key. -/
def textOf (fuel n : Nat) : Build String := do
  match fuel with
  | 0 => failAt .form n
  | fuel + 1 =>
    match (← node n).form with
    | .scalar text => return text
    | .list _ => failAt .form n
    | .table entries =>
      match ← entries.findM? fun (k, _) => do return (← node k).tag = .value with
      | some (_, v) => textOf fuel v
      | none => failAt .form n

/-- The tags of collections. -/
def emptyOf? : Tag → Option NodeValue
  | .list => some (.list [])
  | .table => some (.table [])
  | .set => some (.set [])
  | .pairs => some (.pairs [])
  | _ => none

/-- The tags of scalars. -/
def isScalarTag (t : Tag) : Bool :=
  [.null, .bool, .int, .float, .binary, .timestamp, .string].contains t

/-- Builds the value of a node; a collection is filled later. -/
def meet (n : Nat) : Build Unit := do
  if (← value? n).isSome then return
  let node ← node n
  match emptyOf? node.tag with
  | some v =>
    setValue n v
    modify fun s => { s with pending := s.pending ++ [n] }
  | none =>
    if isScalarTag node.tag then
      let text ← textOf ((← get).nodes.size + 1) n
      setValue n (.atom (← scalarValue node.tag text node.place))
    else failAt .unknownTag n

/-- The entries of a table node. -/
def entriesOf (n : Nat) : Build (List (Nat × Nat)) := do
  match (← node n).form with
  | .table entries => return entries
  | _ => return []

/-- The node is a table. -/
def isTable (n : Nat) : Build Bool := do
  match (← node n).form with
  | .table _ => return true
  | _ => return false

mutual

/-- Puts the entries of merged tables in front of those of a table. -/
def flatten (fuel n : Nat) : Build Unit := do
  match fuel with
  | 0 => return
  | fuel + 1 =>
    let merged ← takeMerged fuel n 0
    unless merged.isEmpty do
      change n fun node => match node.form with
        | .table entries => { node with form := .table (merged ++ entries) }
        | _ => node

/-- Takes the merge keys of a table from the entry `index` on. The result has the entries of the
tables under them. -/
def takeMerged (fuel n index : Nat) : Build (List (Nat × Nat)) := do
  match fuel with
  | 0 => return []
  | fuel + 1 =>
    let entries ← entriesOf n
    match entries[index]? with
    | none => return []
    | some (k, v) =>
      match (← node k).tag with
      | .merge =>
        change n fun node => { node with form := .table (entries.eraseIdx index) }
        let first ← merge fuel v
        return first ++ (← takeMerged fuel n index)
      | .value =>
        change k fun node => { node with tag := .string }
        takeMerged fuel n (index + 1)
      | _ => takeMerged fuel n (index + 1)

/-- The entries of a merged table, or of the tables of a merged list, the last one first. -/
def merge (fuel n : Nat) : Build (List (Nat × Nat)) := do
  match fuel with
  | 0 => return []
  | fuel + 1 =>
    match (← node n).form with
    | .scalar _ => failAt .merge n
    | .table _ => flatten fuel n; entriesOf n
    | .list items => mergeAll fuel items

/-- The entries of a list of merged tables, the last one first. -/
def mergeAll (fuel : Nat) (items : List Nat) : Build (List (Nat × Nat)) := do
  match fuel, items with
  | _, [] => return []
  | 0, _ => return []
  | fuel + 1, n :: rest =>
    unless ← isTable n do failAt .merge n
    flatten fuel n
    let first ← entriesOf n
    return (← mergeAll fuel rest) ++ first

end

/-- The steps that flattening can take at most. -/
def flattenFuel : Build Nat := do
  let nodes := (← get).nodes
  return 8 * nodes.size * nodes.size + 16

/-- The key value of a node, which is no collection. -/
def keyValue (n : Nat) : Build Value := do
  match ← value? n with
  | some (.atom v) => return v
  | _ => failAt .key n

/-- The entries with one more, which replaces the value under an equal key. -/
def putEntry (entries : List (Nat × Nat × Value)) (k v : Nat) (key : Value) :
    List (Nat × Nat × Value) :=
  if entries.any fun (_, _, other) => other.sameKey key then
    entries.map fun (k', v', other) =>
      if other.sameKey key then (k', v, other) else (k', v', other)
  else entries ++ [(k, v, key)]

/-- The entries of a table node, with merged tables, one for each key. -/
def tableEntries (n : Nat) : Build (List (Nat × Nat)) := do
  unless ← isTable n do failAt .form n
  flatten (← flattenFuel) n
  let entries ← (← entriesOf n).foldlM (fun found (k, v) => do
    meet k
    let key ← keyValue k
    meet v
    return putEntry found k v key) []
  return entries.map fun (k, v, _) => (k, v)

/-- The single entry of a table node. -/
def singleEntry (n : Nat) : Build (Nat × Nat) := do
  unless ← isTable n do failAt .form n
  match ← entriesOf n with
  | [(k, v)] =>
    meet k
    meet v
    return (k, v)
  | _ => failAt .form n

/-- Fills a collection. -/
def fill (n : Nat) : Build Unit := do
  let node ← node n
  match node.tag, node.form with
  | .list, .list items =>
    items.forM meet
    setValue n (.list items)
  | .table, _ => setValue n (.table (← tableEntries n))
  | .set, _ => setValue n (.set ((← tableEntries n).map (·.1)))
  | .pairs, .list items => setValue n (.pairs (← items.mapM singleEntry))
  | _, _ => failAt .form n

/-- Fills all collections. -/
def fillAll (fuel : Nat) : Build Unit := do
  match fuel with
  | 0 => return
  | fuel + 1 =>
    match (← get).pending with
    | [] => return
    | n :: rest =>
      modify fun s => { s with pending := rest }
      fill n
      fillAll fuel

end Build

/-- The values of the nodes of a document. -/
def Document.values (d : Document) (root : Nat) : Except ReadError (List (Nat × NodeValue)) := do
  let build : Build Unit := do
    Build.meet root
    Build.fillAll (d.nodes.size + 1)
  let (_, s) ← build.run { nodes := d.nodes }
  return s.values

/-- A value that keeps its identity where it stands at several places. -/
def NodeValue.hasIdentity : NodeValue → Bool
  | .atom (.date _) | .atom (.moment _) => true
  | .atom _ => false
  | _ => true

/-- The value of node `n`. Nodes with several mentions become shared values, and inside of itself a
node is written once more before it becomes a loop. -/
def unfold (values : Nat → Option NodeValue) (mentions : Nat → Nat) (fuel : Nat)
    (inside : List Nat) (n : Nat) : Value :=
  match fuel with
  | 0 => .loop n
  | fuel + 1 =>
    match values n with
    | none => .null
    | some v =>
      if 2 ≤ inside.count n then .loop n
      else
        let part (m : Nat) : Value := unfold values mentions fuel (n :: inside) m
        let whole : Value := match v with
          | .atom v => v
          | .list items => .list (items.map part)
          | .table entries => .table (entries.map fun (k, v) => (part k, part v))
          | .set items => .set (items.map part)
          | .pairs entries => .list (entries.map fun (k, v) => .pair (part k) (part v))
        if v.hasIdentity && 2 ≤ mentions n then .shared n whole else whole

/-- The value of a document. -/
def Document.value (d : Document) : Except ReadError Value := do
  match d.root with
  | none => return .null
  | some root =>
    let found ← d.values root
    let final : Array (Option NodeValue) := found.foldr
      (fun (n, v) a => a.setIfInBounds n (some v)) (Array.replicate d.nodes.size none)
    let mentions := (final.toList.filterMap id).flatMap NodeValue.parts
    let counts := mentions.foldl (fun a n => a.modify n (· + 1))
      ((Array.replicate d.nodes.size 0).modify root (· + 1))
    return unfold (fun n => final[n]?.join) (fun n => (counts[n]?).getD 0)
      (2 * d.nodes.size + 2) [] root

/-- The characters that a YAML text may hold. -/
def isTextChar (c : Char) : Bool :=
  let n := c.toNat
  n = 9 || n = 10 || n = 13 || (0x20 ≤ n && n ≤ 0x7e) || n = 0x85 ||
    (0xa0 ≤ n && n ≤ 0xd7ff) || (0xe000 ≤ n && n ≤ 0xfffd) || 0x10000 ≤ n

/-- The value that a YAML text writes. Its lines do not end with carriage returns. -/
def read (text : String) : Except ReadError Value :=
  let cs := text.toList
  if cs.all isTextChar then do (← Document.ofText cs).value else .error .unprintable

end ReleasePipeline.Yaml
