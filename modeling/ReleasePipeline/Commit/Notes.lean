import ReleasePipeline.Commit.Basic
import ReleasePipeline.Value.Basic

/-! Release notes: the commits of a release under the headings of their types. -/
namespace ReleasePipeline

/-- Why a value is no list of note types. Entries are counted from one. -/
inductive NoteTypeError where
  | notTables
  | type (entry : Nat)
  | sectionName (entry : Nat)
  | hidden (entry : Nat)
deriving DecidableEq, Repr

namespace NoteTypeError

def message : NoteTypeError → String
  | notTables => "'presetConfig.types' must be a list of tables"
  | type entry => s!"presetConfig.types entry {entry} requires 'type'"
  | sectionName entry => s!"presetConfig.types entry {entry}: 'section' must be a string"
  | hidden entry => s!"presetConfig.types entry {entry}: 'hidden' must be a boolean"

end NoteTypeError

/-- How the notes treat a commit type: the heading it stands under, or that it is left out. -/
structure NoteType where
  type : String
  heading : String
  hidden : Bool
deriving DecidableEq, Repr, Inhabited

namespace NoteType

/-- The table of a note type. -/
def tableOf (type heading : String) (hidden : Bool) : Table :=
  Table.ofNames ([("type", .string type), ("section", .string heading)] ++
    (if hidden then [("hidden", .bool true)] else []))

/-- The note types of a configuration that names none. -/
def defaults : List Table :=
  [tableOf "feat" "Features" false,
   tableOf "feature" "Features" false,
   tableOf "fix" "Bug Fixes" false,
   tableOf "perf" "Performance Improvements" false,
   tableOf "revert" "Reverts" false,
   tableOf "docs" "Documentation" true,
   tableOf "style" "Styles" true,
   tableOf "chore" "Miscellaneous Chores" true,
   tableOf "refactor" "Code Refactoring" true,
   tableOf "test" "Tests" true,
   tableOf "build" "Build System" true,
   tableOf "ci" "Continuous Integration" true]

/-- What is wrong with the table of a note type. -/
def fault? (entry : Nat) (t : Table) : Option NoteTypeError :=
  let heading := t.getD "section"
  if (t.getD "type").asName?.isNone then some (.type entry)
  else if !heading.isNull && heading.asString?.isNone then some (.sectionName entry)
  else if ((t.get? "hidden").any fun v => v.asBool?.isNone) then some (.hidden entry)
  else none

/-- The tables of a value that is a list of note types. Null stands for the defaults. -/
def tables (v : Value) : Except NoteTypeError (List Table) :=
  if v.isNull then .ok defaults
  else match v.asList?.bind fun items => items.mapM Value.asTable? with
    | none => .error .notTables
    | some ts =>
      match (ts.zipIdx 1).findSome? fun (t, entry) => fault? entry t with
      | some e => .error e
      | none => .ok ts

/-- The note type of a table. An empty heading is the type itself. -/
def ofTable (t : Table) : NoteType :=
  let type := ((t.getD "type").asString?).getD ""
  { type
    heading := ((t.getD "section").asName?).getD type
    hidden := ((t.getD "hidden").asBool?).getD false }

/-- The note types of a value. -/
def listOf (v : Value) : Except NoteTypeError (List NoteType) :=
  (tables v).map fun ts => ts.map ofTable

/-- The first entry of each type. -/
def firstEntries (ts : List NoteType) : List NoteType :=
  ts.foldl (fun kept t => if kept.any (·.type = t.type) then kept else kept ++ [t]) []

/-- The entries that show their type, each type once. -/
def visible (ts : List NoteType) : List NoteType := (firstEntries ts).filter fun t => !t.hidden

end NoteType

namespace Notes

/-- What the heading of the notes tells of the release. -/
structure Release where
  version : String
  date : Date
  previousTag : Option String := none
  tag : Option String := none
  repositoryUrl : Option String := none
deriving Repr

/-- The heading over the breaking changes. -/
def breakingHeading : String := "⚠ BREAKING CHANGES"

/-- A commit in the notes. -/
def entry (c : Commit) (subject : String) : String :=
  let scope := match c.scope.bind Commit.nonEmpty? with
    | some s => s!"**{s}:** "
    | none => ""
  s!"* {scope}{subject} ({c.shortSha})"

/-- The entry of a breaking change: its note, or its subject if it has none. -/
def breakingEntry (c : Commit) : String :=
  entry c ((c.note.bind Commit.nonEmpty?).getD c.subject)

/-- The headings of the visible types, each once, in the order of the types. -/
def headings (types : List NoteType) : List String :=
  (NoteType.visible types).foldl
    (fun hs t => if hs.contains t.heading then hs else hs ++ [t.heading]) []

/-- The heading that a commit stands under. -/
def headingOf? (types : List NoteType) (c : Commit) : Option String := do
  let type ← c.type
  let t ← (NoteType.visible types).find? fun t => t.type = type
  return t.heading

/-- The entries under a heading, in the order of the commits. -/
def entriesUnder (types : List NoteType) (cs : List Commit) (heading : String) : List String :=
  (cs.filter fun c => headingOf? types c = some heading).map fun c => entry c c.subject

/-- A heading and its entries as lines, none if there are no entries. -/
def sectionLines (heading : String) (entries : List String) : List String :=
  if entries.isEmpty then [] else [s!"### {heading}", ""] ++ entries ++ [""]

/-- The title links to the changes since the previous tag when the repository and both tags are
known. -/
def title (r : Release) : String :=
  match r.repositoryUrl.bind Commit.nonEmpty?, r.previousTag.bind Commit.nonEmpty?,
      r.tag.bind Commit.nonEmpty? with
  | some url, some previous, some tag =>
    let site := Text.stripEndOf (· = '/') url
    s!"[{r.version}]({site}/compare/{previous}...{tag})"
  | _, _, _ => r.version

/-- The notes as lines. -/
def lines (types : List NoteType) (cs : List Commit) (r : Release) : List String :=
  [s!"## {title r} ({r.date.iso})", ""] ++
    sectionLines breakingHeading ((cs.filter (·.breaking)).map breakingEntry) ++
    (headings types).flatMap fun h => sectionLines h (entriesUnder types cs h)

/-- The notes of a release: the title, the breaking changes and the commits under the headings of
their types, with one line feed at the end. -/
def render (types : List NoteType) (cs : List Commit) (r : Release) : String :=
  Text.stripEnd (String.intercalate "\n" (lines types cs r)) ++ "\n"

end Notes

end ReleasePipeline
