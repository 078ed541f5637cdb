import ReleasePipeline.Manifest.Version
import ReleasePipeline.Plugin.Options
import ReleasePipeline.Tool.Git
import ReleasePipeline.Tool.Shell

/-! The plugins that prepare a release: they keep a changelog, run commands, set the version of
manifests and commit what changed. -/
namespace ReleasePipeline

namespace Changelog

/-- The text of a changelog after the notes of a release were put in front of it, below the title. -/
def updated (title : Option String) (notes current : String) : String :=
  let current := Text.strip current
  let current := match title.bind fun t => Text.dropStart? t.toList current.toList with
    | some rest => Text.strip (String.ofList rest)
    | none => current
  let body := Text.strip notes ++ if current.isEmpty then "" else "\n\n" ++ current
  let whole := match title with
    | some t => s!"{t}\n\n{body}"
    | none => body
  whole ++ "\n"

/-- The step that puts the notes of the release into the changelog. -/
def step (file : String) (title : Option String) : Step where
  phases := [.prepare]
  apply s _ := do
    let path := s.root.join (.ofText file)
    if s.dryRun then return s!"Would update {file}."
    let current ← if ← Action.pathExists path then Action.readText path else pure ""
    let text := updated title (← Action.release).notes current
    Action.makeDirectories path.parent
    Action.writeText path text
    return s!"Updated {file}."

/-- The plugin of the step, with the options `changelogFile` and `changelogTitle`. -/
def plugin : Plugin where
  name := "builtin.changelog"
  handlers := Options.handlers PluginName.changelog
  build options := do
    match (Options.getOr options "changelogFile" (.string "CHANGELOG.md")).asName? with
    | none => throw (.option (.emptyOption "changelogFile"))
    | some file =>
      if (Path.ofText file).isAbsolute then throw (.option (.absolute "changelogFile"))
      return step file (← Options.optionalText options "changelogTitle")

end Changelog

namespace Exec

/-- The options that hold commands, with the phases in which the commands run. -/
def commandOptions : List (String × Phase) :=
  [("verifyConditionsCmd", .verify), ("prepareCmd", .prepare), ("publishCmd", .publish)]

/-- The step that runs commands. -/
def step (commands : List (Phase × String)) (cwd : Option String) : Step where
  phases := commands.map (·.1)
  apply s phase := do
    match commands.lookup phase with
    | none => throw (.step .noCommand)
    | some text =>
      let command ← Options.fillIn text
      let shown := s!"{Options.needsTool.quoteMark}{command}{Options.needsTool.quoteMark}"
      if s.dryRun then return s!"Would run {shown}."
      let environment := (← get).environment
      let path := match cwd with
        | none => s.root
        | some dir => s.root.join (environment.path dir)
      let _ ← Shell.run s command (some path)
      return s!"Ran {shown}."

/-- Every option is known. -/
def checkNames (options : Table) : Except Failure Unit :=
  let known := "cwd" :: commandOptions.map (·.1)
  let unknown := options.keys.filter fun k => !k.asString?.any known.contains
  if unknown.isEmpty then .ok ()
  else match unknown.mapM Value.asString? with
    | some names => .error (.option (.unknown (ReleaseConfig.sortNames names)))
    | none => .error (.option .oddNames)

/-- The commands of the options, in the order of their phases. -/
def commandsOf (options : Table) : Except Failure (List (Phase × String)) := do
  let found ← commandOptions.mapM fun (name, phase) =>
    (options.get? name).mapM fun v => do return (phase, ← Options.template name v)
  match found.filterMap id with
  | [] => throw (.option (.noCommand (commandOptions.map (·.1))))
  | commands => return commands

/-- The plugin of the step, with a command for each phase and the option `cwd`. -/
def plugin : Plugin where
  name := "builtin.exec"
  handlers := Options.handlers PluginName.exec
  availability := Options.needsToolToChange "bash"
  build options := do
    checkNames options
    let commands ← commandsOf options
    return step commands (← Options.optionalText options "cwd")

end Exec

namespace GitCommit

/-- The message of the release commit. -/
def defaultMessage : String :=
  "chore(release): $\x7bnextRelease.version\x7d [skip ci]\n\n$\x7bnextRelease.notes\x7d"

/-- The step that commits the files that the release changed. -/
def step (assets : List String) (message : String) : Step where
  phases := [.prepare]
  apply s _ := do
    let changed ← Git.changedFiles s assets
    if changed.isEmpty then return "No release assets changed; nothing to commit."
    let files := s!"{changed.length} files: " ++ String.intercalate ", " changed
    if s.dryRun then return s!"Would commit {files}."
    let message ← Options.fillIn message
    Git.add s changed
    Git.commit s message
    Git.push s s.remote (← Action.release).branch
    return s!"Committed {files}."

/-- The texts of a list of texts that are not empty. A single text needs no list. -/
def names? (v : Value) : Option (List String) :=
  match v with
  | .string s => [Value.string s].mapM Value.asName?
  | v => v.asList?.bind fun items => items.mapM Value.asName?

/-- The plugin of the step, with the options `assets` and `message`. -/
def plugin : Plugin where
  name := "builtin.git"
  handlers := Options.handlers PluginName.git
  availability _ := Options.needsTool "git"
  build options := do
    match names? (Options.getOr options "assets" (.list [.string "CHANGELOG.md"])) with
    | none => throw (.option .noPathspecList)
    | some [] => throw (.option .noPathspec)
    | some assets =>
      let message := Options.getOr options "message" (.string defaultMessage)
      return step assets (← Options.template "message" message)

end GitCommit

namespace CargoVersion

/-- Sets the version in a manifest. -/
def setVersion (version : String) (path : Path) : Action Unit := do
  unless ← Action.pathExists path do throw (.step (.noManifest path))
  let (text, changed) := Manifest.setVersion (← Action.readText path) version
  unless changed do throw (.step (.noPackageVersion path))
  Action.writeText path text

/-- The step that sets the version in manifests. -/
def step (manifests : List String) : Step where
  phases := [.prepare]
  apply s _ := do
    let version ← Options.nextText
    let files := s!"version {version} in " ++ String.intercalate ", " manifests
    if s.dryRun then return s!"Would set {files}."
    manifests.forM fun file => setVersion version (s.root.join (.ofText file))
    return s!"Set {files}."

/-- The plugin of the step, with the option `manifests`. -/
def plugin : Plugin where
  name := "flowrunner.cargo-version"
  handlers := [.name (.string "cargo-version")]
  build options :=
    match GitCommit.names? (Options.getOr options "manifests" (.list [.string "Cargo.toml"])) with
    | some (first :: rest) => .ok (step (first :: rest))
    | _ => .error (.option .manifests)

end CargoVersion

end ReleasePipeline
