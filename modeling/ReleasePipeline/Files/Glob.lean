import ReleasePipeline.Files.Tree
import ReleasePipeline.Text.Glob

/-! Patterns for the paths below a directory. -/
namespace ReleasePipeline

/-- Why a text is no pattern for paths. -/
inductive PatternError where
  /-- Two asterisks stand in a name beside other characters. -/
  | doubleAsterisk
  /-- The pattern has no names. -/
  | noNames
  /-- The pattern has no names and ends with a slash. -/
  | onlySlash
deriving DecidableEq, Repr

namespace PatternError

def message : PatternError → String
  | doubleAsterisk => "Invalid pattern: '**' can only be an entire path component"
  | noNames | onlySlash => ""

end PatternError

/-- What a name of a pattern stands for. -/
inductive PatternPart where
  | name (n : String)
  | wildcard (pattern : String)
  /-- Any number of directories. -/
  | directories
deriving DecidableEq, Repr

/-- A pattern for paths. -/
structure PathPattern where
  parts : List PatternPart
  /-- Only directories are meant. -/
  onlyDirectories : Bool
deriving Repr

namespace PathPattern

/-- The part of a name. -/
def part (n : String) : Except PatternError PatternPart :=
  if n = "**" then .ok .directories
  else if Text.contains "**" n then .error .doubleAsterisk
  else if Text.hasWildcard n then .ok (.wildcard n)
  else .ok (.name n)

/-- The pattern of a text. -/
def ofText (text : String) : Except PatternError PathPattern := do
  let slash := Text.endsWith "/" text
  match ← (Path.namesOf text).mapM part with
  | [] => throw (if slash then .onlySlash else .noNames)
  | parts => return ⟨parts, slash⟩

/-- The directories below a path, with the path itself in front. -/
def directoriesBelow (t : FileTree) (here : Place) (fuel : Nat) (p : Path) :
    Except FileFault (List Path) :=
  match fuel with
  | 0 => .ok [p]
  | fuel + 1 => do
    let place ← t.place here p
    let names := (t.namesIn place).filter fun n => t.entry? (place ++ [n]) = some .directory
    let below ← names.mapM fun n => directoriesBelow t here fuel (p.child n)
    return p :: below.flatten

/-- The paths to which one part of a pattern leads from `p`. Where `more`, they have to be directories. A
name of the pattern is looked up, those of entries are not. -/
def step (t : FileTree) (here : Place) (more : Bool) (p : Path) :
    PatternPart → Except FileFault (List Path)
  | .name n =>
    (if more then t.isDirectory here (p.child n) else t.exists? here (p.child n)).map
      fun found => if found then [p.child n] else []
  | .wildcard w => do
    let place ← t.place here p
    let names := (t.namesIn place).filter fun n =>
      Text.globMatches w n && (!more || t.entry? (place ++ [n]) = some .directory)
    return names.map p.child
  | .directories => directoriesBelow t here (t.entries.length + 1) p

/-- The paths below `p` that the parts of a pattern stand for. All parts lead to directories but the last
one, which does where `onlyDirectories`. -/
def select (t : FileTree) (here : Place) (onlyDirectories : Bool) (p : Path) :
    List PatternPart → Except FileFault (List Path)
  | [] => .ok [p]
  | part :: parts => do
    let starts ← step t here (onlyDirectories || !parts.isEmpty) p part
    let found ← starts.mapM fun q => select t here onlyDirectories q parts
    return if part = .directories then found.flatten.eraseDups else found.flatten

/-- The path `p` comes before `q`. -/
def precedes (p q : Path) : Bool := !decide (q.names < p.names)

/-- The paths that lead to files, in ascending order. -/
def filesAmong (t : FileTree) (here : Place) (paths : List Path) : Except FileFault (List Path) := do
  let files ← paths.mapM fun q => (t.isFile here q).map fun isFile => if isFile then [q] else []
  return files.flatten.mergeSort precedes

/-- The files below a directory that the pattern stands for, in ascending order. -/
def files (pattern : PathPattern) (t : FileTree) (here : Place) (p : Path) :
    Except FileFault (List Path) := do
  if ← t.isDirectory here p then
    filesAmong t here (← select t here pattern.onlyDirectories p pattern.parts)
  else return []

end PathPattern

end ReleasePipeline
