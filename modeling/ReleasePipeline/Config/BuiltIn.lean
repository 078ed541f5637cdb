import ReleasePipeline.Config.Basic
import ReleasePipeline.Commit.Notes

/-! The built-in configuration, for the branch that a reference names. -/
namespace ReleasePipeline

/-- The variable that holds the reference of a run. -/
def refVariable : String := "GITHUB_REF"

/-- Why a reference names no branch. -/
inductive RefError where
  | notSet
  | noBranch (ref : String)
deriving DecidableEq, Repr

namespace RefError

def message : RefError → String
  | notSet => s!"{refVariable} is not set; cannot determine the release branch"
  | noBranch ref => s!"Cannot derive a branch name from ref {Text.quoted ref}"

end RefError

/-- The branch of a reference: what follows its last slash. -/
def branchOfRef (ref : Option String) : Except RefError String :=
  match ref with
  | none => .error .notSet
  | some ref =>
    if Text.isBlankText ref then .error .notSet
    else
      let branch := ((Text.splitOn '/' (Text.strip ref)).getLast?).getD ""
      if branch.isEmpty then .error (.noBranch ref) else .ok branch

namespace PluginName

def commitAnalyzer : String := "@semantic-release/commit-analyzer"
def notesGenerator : String := "@semantic-release/release-notes-generator"
def changelog : String := "@semantic-release/changelog"
def exec : String := "@semantic-release/exec"
def github : String := "@semantic-release/github"
def git : String := "@semantic-release/git"

end PluginName

namespace BuiltIn

/-- The preset whose commit types the plugins know. -/
def preset : String := "conventionalcommits"

/-- The branch of the stable releases. -/
def stableBranch : String := "master"

/-- The branch of the prereleases. -/
def prereleaseBranch : String := "next"

/-- The note types of the built-in configuration. -/
def noteTypes : List Table :=
  [NoteType.tableOf "feat" "🚀 Features" false,
   NoteType.tableOf "fix" "🐛 Bug Fixes" false,
   NoteType.tableOf "refactor" "Refactoring" false,
   NoteType.tableOf "test" "Tests" true,
   NoteType.tableOf "spec" "Tests" true,
   NoteType.tableOf "ci" "CI" true,
   NoteType.tableOf "docs" "Documentation" true,
   NoteType.tableOf "chore" "Chores" true]

/-- The command that builds the artifacts. -/
def buildCommand : String := ".github/workflows/build.sh $\x7bnextRelease.version\x7d"

/-- The artifact of an architecture, with the label of its download. -/
def artifact (architecture : String) : Value :=
  .table (Table.ofNames
    [("path", .string s!"target/artifacts/flowrunner-*-{architecture}-linux.tar.gz"),
     ("label", .string s!"flowrunner-$\x7bnextRelease.version\x7d-{architecture}-linux")])

/-- The plugins of a branch. Only the stable branch keeps a changelog. -/
def plugins (branch : String) : List PluginInvocation :=
  [⟨PluginName.commitAnalyzer, Table.ofNames [("preset", .string preset)]⟩,
   ⟨PluginName.notesGenerator, Table.ofNames
     [("preset", .string preset),
      ("presetConfig", .table (Table.ofNames [("types", .list (noteTypes.map .table))]))]⟩] ++
  (if branch = stableBranch then [⟨PluginName.changelog, []⟩] else []) ++
  [⟨PluginName.exec, Table.ofNames [("prepareCmd", .string buildCommand)]⟩,
   ⟨PluginName.github, Table.ofNames
     [("assets", .list [artifact "amd64", artifact "arm64"])]⟩,
   ⟨PluginName.git, Table.ofNames
     [("assets", .list [.string "CHANGELOG.md", .string "Cargo.toml"])]⟩]

/-- The configuration for a branch. -/
def config (branch : String) : ReleaseConfig :=
  { branches := [⟨stableBranch, .stable⟩, ⟨prereleaseBranch, .ownChannel⟩]
    plugins := plugins branch }

end BuiltIn

/-- The built-in configuration for a reference. -/
def ReleaseConfig.builtIn (ref : Option String) : Except RefError ReleaseConfig :=
  (branchOfRef ref).map BuiltIn.config

end ReleasePipeline
