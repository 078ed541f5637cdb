import ReleasePipeline.Text.Search

/-! Paths of files, in a form without empty names and without names that are a single point. -/
namespace ReleasePipeline

/-- A path: the slashes that it begins with, none, one or two, and its names. -/
structure Path where
  root : String
  names : List String
deriving DecidableEq, Repr, Inhabited

namespace Path

/-- The names between slashes, without empty ones and single points. -/
def namesOf (text : String) : List String :=
  (Text.splitOn '/' text).filter fun n => n ≠ "" && n ≠ "."

/-- The slashes at the beginning. Two of them are kept; more are the same as one. -/
def rootOf (text : String) : String :=
  match (text.toList.takeWhile (· = '/')).length with
  | 0 => ""
  | 2 => "//"
  | _ => "/"

/-- The path that a text names. -/
def ofText (text : String) : Path := ⟨rootOf text, namesOf text⟩

/-- The text of a path. The empty path is written as a point. -/
def text (p : Path) : String :=
  let s := p.root ++ String.intercalate "/" p.names
  if s.isEmpty then "." else s

/-- The path begins at the root. -/
def isAbsolute (p : Path) : Bool := p.root ≠ ""

/-- The path `q` as seen from `p`. -/
def join (p q : Path) : Path := if q.isAbsolute then q else { p with names := p.names ++ q.names }

/-- The path one name further down. -/
def child (p : Path) (name : String) : Path := { p with names := p.names ++ [name] }

/-- The path without its last name. -/
def parent (p : Path) : Path := { p with names := p.names.dropLast }

/-- The last name. -/
def name (p : Path) : String := (p.names.getLast?).getD ""

/-- The parts of the last name before and from its last point on. A point at either end of the name
does not count. -/
def splitName (p : Path) : String × String :=
  let cs := p.name.toList
  let after := (cs.reverse.takeWhile (· ≠ '.')).reverse
  let before := cs.take (cs.length - after.length - 1)
  if after.length < cs.length && !before.isEmpty && !after.isEmpty then
    (String.ofList before, String.ofList ('.' :: after))
  else (p.name, "")

/-- The extension of the last name, with its point. -/
def extension (p : Path) : String := p.splitName.2

/-- The names after following every `..`, which at the root leads nowhere. -/
def followed (names : List String) : List String :=
  (names.foldl (fun back n => if n = ".." then back.drop 1 else n :: back) []).reverse

end Path

end ReleasePipeline
