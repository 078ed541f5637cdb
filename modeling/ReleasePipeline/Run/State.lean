import ReleasePipeline.Commit.Basic
import ReleasePipeline.Calendar.Date
import ReleasePipeline.Template
import ReleasePipeline.Version.Next

/-! What is known of a release while it is made. -/
namespace ReleasePipeline

/-- The state of a release. -/
structure Release where
  branch : String
  channel : Option String := none
  /-- The prerelease channel of the branch, none for stable releases. -/
  prerelease : Option String := none
  date : Date
  /-- The versions that have tags. -/
  tags : List Version := []
  lastRelease : Option Version := none
  lastTag : Option String := none
  /-- The commits since the last release. -/
  commits : List Commit := []
  bump : Option BumpKind := none
  nextVersion : Option Version := none
  gitTag : Option String := none
  notes : String := ""
deriving Repr, Inhabited

namespace Release

/-- The next version inside a text. -/
def nextText (r : Release) : Except Decimal.NumeralError String :=
  match r.nextVersion with
  | none => .ok "None"
  | some v => v.written

/-- An optional text as a value. -/
def optional (s : Option String) : Value := (s.map Value.string).getD .null

/-- The values that templates refer to, with the texts of the last and the next version. -/
def valuesOf (r : Release) (last next : Option String) : Value :=
  .table <| Table.ofNames
    [("branch", .table (Table.ofNames [("name", .string r.branch)])),
     ("lastRelease", .table (Table.ofNames
        [("version", optional last), ("gitTag", optional r.lastTag)])),
     ("nextRelease", .table (Table.ofNames
        [("version", optional next),
         ("gitTag", optional r.gitTag),
         ("channel", optional r.channel),
         ("notes", .string r.notes)]))]

/-- The values that templates refer to. Both versions are written, whether a template names them or
not. -/
def values (r : Release) : Except Decimal.NumeralError Value := do
  let last ← r.lastRelease.mapM Version.written
  let next ← r.nextVersion.mapM Version.written
  return r.valuesOf last next

end Release

end ReleasePipeline
