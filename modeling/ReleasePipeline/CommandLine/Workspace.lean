import ReleasePipeline.CommandLine.Program
import ReleasePipeline.Json.Reader

/-! Workspaces that are described in JSON: files, variables, programs and what commands answer. -/
namespace ReleasePipeline.CommandLine

/-- Why a text describes no workspace. -/
inductive WorkspaceError where
  | json (e : Json.ReadError)
  | notATable
  | date (e : DateError)
deriving Repr

namespace WorkspaceError

def message : WorkspaceError → String
  | json (.fault f line column) => s!"line {line}, column {column}: {f.message}"
  | json (.numeral e) => e.message
  | json .surrogate => "half of a surrogate pair"
  | notATable => "a workspace is a table"
  | date e => e.message

end WorkspaceError

namespace Workspace

/-- The texts of a list. -/
def texts (v : Value) : List String := ((v.asList?).getD []).filterMap Value.asString?

/-- The texts of a table by their names. -/
def namedTexts (v : Value) : List (String × String) :=
  ((v.asTable?).getD []).filterMap fun (k, v) => do return (← k.asString?, ← v.asString?)

/-- An integer, zero in place of anything else. -/
def integer : Value → Int
  | .int n => n
  | _ => 0

/-- The reply of a table with the beginning of a command, an exit code and two outputs. -/
def reply (v : Value) : Reply :=
  let t := (v.asTable?).getD []
  { start := texts (t.getD "start")
    answer :=
      { code := integer (t.getD "code")
        output := ((t.getD "output").asString?).getD ""
        errors := ((t.getD "errors").asString?).getD "" } }

/-- The place at which the files of a workspace stand. -/
def root : Place := ["workspace"]

/-- The world of a table. -/
def world (t : Table) : Except WorkspaceError World := do
  let date ← (Date.ofIso (((t.getD "date").asString?).getD "")).mapError .date
  let files := (namedTexts (t.getD "files")).map fun (name, text) =>
    (Path.ofText name, Entry.file text.toUTF8)
  let tree : FileTree := ⟨[(root, .directory)]⟩
  return { files := tree.install root files, here := root
           environment := ⟨namedTexts (t.getD "environment")⟩
           tools := texts (t.getD "tools")
           answers := Reply.answerOf (((t.getD "replies").asList?.getD []).map reply)
           release := { branch := "", date } }

/-- The world that a text describes. -/
def read (text : String) : Except WorkspaceError World := do
  match (← (Json.read text).mapError .json).asTable? with
  | some t => world t
  | none => throw .notATable

end Workspace

end ReleasePipeline.CommandLine
