import ReleasePipeline.Run.Action

/-! The commands by which a release is published on GitHub. -/
namespace ReleasePipeline.GitHub

/-- A file of a release, with the label under which it is shown. -/
structure Asset where
  path : Path
  label : Option String := none
deriving DecidableEq, Repr

/-- The file and, behind a number sign, its label. -/
def Asset.argument (a : Asset) : String :=
  match a.label.bind Commit.nonEmpty? with
  | some label => s!"{a.path.text}#{label}"
  | none => a.path.text

/-- Whether the user is logged in, and what the program says about it. -/
def authStatus (s : Settings) : Action (Bool × String) := do
  let result ← Action.run s .reading false { argv := ["gh", "auth", "status"], cwd := some s.root }
  let detail := if result.errors.isEmpty then result.output else result.errors
  return (result.code = 0, Text.strip detail)

/-- Creates a release. Its notes are read from the standard input. -/
def createRelease (s : Settings) (tag title notes : String) (prerelease : Bool)
    (assets : List Asset) : Action Unit := do
  let argv := ["gh", "release", "create", tag, "--title", title, "--notes-file", "-",
    "--verify-tag"] ++ (if prerelease then ["--prerelease"] else []) ++ assets.map Asset.argument
  let _ ← Action.run s .changing true { argv, cwd := some s.root, input := some notes }

end ReleasePipeline.GitHub
