import ReleasePipeline.Failure
import ReleasePipeline.Files.Environment
import ReleasePipeline.Run.State

/-! Actions: what the steps of a release do to the files, and which commands they execute. -/
namespace ReleasePipeline

/-- Everything that an action sees and changes. -/
structure World where
  files : FileTree := {}
  /-- The working directory. -/
  here : Place := []
  environment : Environment := {}
  /-- The programs that are installed. -/
  tools : List String := []
  /-- What is read of a command's answer after the events of the run so far, its own among them. -/
  answers : List String → List Event → Answer := fun _ _ => {}
  events : List Event := []
  release : Release

/-- An action changes the world and gives a result or fails. -/
abbrev Action := EStateM Failure World

/-- What is fixed for a run. -/
structure Settings where
  /-- The root directory of the repository. -/
  root : Path
  dryRun : Bool := false
  remote : String := "origin"
deriving Repr

namespace Action

/-- The result of a computation that can fail. -/
def ofExcept {α : Type} (r : Except Failure α) : Action α :=
  match r with
  | .ok a => pure a
  | .error e => throw e

/-- Records an event. -/
def record (e : Event) : Action Unit := modify fun w => { w with events := w.events ++ [e] }

/-- Records a message. -/
def log (level : Level) (text : String) : Action Unit := record (.message level text)

/-- The state of the release. -/
def release : Action Release := do return (← get).release

/-- Changes the state of the release. -/
def changeRelease (f : Release → Release) : Action Unit :=
  modify fun w => { w with release := f w.release }

/-- The text of a file. -/
def readText (p : Path) : Action String := do
  let w ← get
  let bytes ← ofExcept ((w.files.read w.here p).mapError .file)
  ofExcept ((textOfBytes bytes).mapError .utf8)

/-- Writes a text into a file. -/
def writeText (p : Path) (text : String) : Action Unit := do
  let w ← get
  let files ← ofExcept ((w.files.write w.here p text.toUTF8).mapError .file)
  set { w with files }

/-- The path leads to something. -/
def pathExists (p : Path) : Action Bool := do
  let w ← get
  ofExcept ((w.files.exists? w.here p).mapError .file)

/-- Makes a directory with those above it, unless there is one. -/
def makeDirectories (p : Path) : Action Unit := do
  let w ← get
  let (files, result) := w.files.makeDirectories w.here p.names.length p
  set { w with files }
  ofExcept (result.mapError .file)

/-- Executes a command. -/
def execute (c : Command) : Action Answer := do
  record (.run c)
  let w ← get
  let answer := w.answers c.argv w.events
  set { w with files := w.files.install w.here answer.writes }
  match answer.fault with
  | none => return answer
  | some .empty => throw .emptyCommand
  | some (.start e) => throw (.file e)
  | some (.output e) => throw (.utf8 e)

/-- Whether a command may change the repository or what is outside of it. -/
inductive Effect where
  | reading
  | changing
deriving DecidableEq, Repr

/-- Runs a command, except that a dry run skips commands that may change something. Where `check`, the
command has to succeed. -/
def run (s : Settings) (effect : Effect) (check : Bool) (c : Command) : Action CommandResult := do
  log .debug s!"RUN {Text.shellLine c.argv}"
  if s.dryRun && effect = .changing then return { argv := c.argv }
  let answer ← execute c
  let errors := if c.captured then answer.errors else ""
  if check && answer.code ≠ 0 then throw (.command ⟨answer.code, c.argv, errors⟩)
  return { argv := c.argv, code := answer.code
           output := if c.captured then answer.output else "", errors }

end Action

end ReleasePipeline
