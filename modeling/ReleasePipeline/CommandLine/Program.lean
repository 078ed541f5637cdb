import ReleasePipeline.CommandLine.Request
import ReleasePipeline.Plugin.Directory
import ReleasePipeline.Run.Lifecycle

/-! The program: what a command line does to the world, and what it shows. -/
namespace ReleasePipeline.CommandLine

/-- How the program ends. -/
inductive Ending where
  | done
  | failed (f : Failure)
  | refused (r : Refusal)
deriving Repr

namespace Ending

/-- The exit code, none after a failure that the program does not handle. -/
def exitCode? : Ending → Option Nat
  | done => some 0
  | failed f => if f.isInvalid then some 2 else if f.kind = .failed then some 1 else none
  | refused .usage => some 2
  | refused .help => some 0

/-- The message about a failure that the program handles. -/
def message? : Ending → Option String
  | failed f =>
    if f.isInvalid then some s!"Invalid configuration: {f.message}"
    else if f.kind = .failed then some s!"Release failed: {f.message}"
    else none
  | _ => none

end Ending

/-- What the program leaves behind. -/
structure Report where
  ending : Ending
  /-- The standard output. -/
  output : String := ""
  world : World
  /-- Messages that are only for debugging are shown, too. -/
  verbose : Bool := false

namespace Report

/-- The events, with a last message about a failure. -/
def events (r : Report) : List Event :=
  r.world.events ++ (r.ending.message?.toList.map (Event.message .error))

/-- The line that shows an event. -/
def line? (verbose : Bool) : Event → Option String
  | .message level text =>
    if level = .debug && !verbose then none else some s!"[{level.name}] {text}\n"
  | .run _ => none

/-- The standard error. -/
def errorOutput (r : Report) : String := String.join (r.events.filterMap (line? r.verbose))

end Report

/-- The reference of a request, or of the environment. -/
def Source.reference (source : Source) (env : Environment) : Option String :=
  source.ref.or (env.get? refVariable)

/-- The configuration of a request. -/
def Source.load (source : Source) (w : World) : Except Failure ReleaseConfig :=
  match source.file with
  | some path => (ReleaseConfig.load w.files w.here path).mapError .configFile
  | none => (ReleaseConfig.builtIn (source.reference w.environment)).mapError .ref

/-- The text of the configuration of a request. -/
def configText (source : Source) (format : String) (w : World) : Except Failure String := do
  let config ← source.load w
  (config.exported format).mapError .exporting

/-- Finds the plugins and reports those that cannot be used. -/
def findPlugins (contents : Place → PluginFile) (given : List Path) : Action Registry := do
  let w ← get
  let search : PluginSearch := ⟨w.files, w.here, w.environment, contents⟩
  let found ← Action.ofExcept (search.load builtInPlugins given)
  found.errors.forM (Action.log .warning)
  let registry ← Action.ofExcept ((Registry.ofPlugins found.plugins).mapError .registry)
  let names := String.intercalate ", " registry.names
  Action.log .debug s!"Registered plugins: {names}"
  return registry

/-- Runs the configuration of a request. -/
def release (contents : Place → PluginFile) (source : Source) (r : RunRequest) :
    Action Unit := do
  let w ← get
  let branch ← Action.ofExcept ((branchOfRef (source.reference w.environment)).mapError .ref)
  let config ← Action.ofExcept (source.load w)
  let settings : Settings :=
    { root := (r.root.getD ⟨"", []⟩).resolved w.here, dryRun := r.dryRun, remote := r.remote }
  Action.changeRelease fun release => { branch, date := release.date }
  let registry ← findPlugins contents r.pluginDirectories
  let mode := if r.dryRun then " (dry run)" else ""
  Action.log .info s!"=== Releasing {branch} from {settings.root.text}{mode} ==="
  if let .released version ← config.run registry settings then
    Action.log .info s!"Released {version.text}."
  Action.log .info "Done."

/-- Answers a request. -/
def answer (contents : Place → PluginFile) (request : Request) (w : World) : Report :=
  let verbose := request.source.verbose
  match request with
  | .config source format =>
    match configText source format w with
    | .ok output => { ending := .done, output, world := w, verbose }
    | .error f => { ending := .failed f, world := w, verbose }
  | .run source r =>
    match EStateM.run (release contents source r) w with
    | .ok () w => { ending := .done, world := w, verbose }
    | .error f w => { ending := .failed f, world := w, verbose }

/-- Runs the program for the words of its command line. -/
def program (contents : Place → PluginFile) (words : List String) (w : World) : Report :=
  match Request.ofWords words with
  | .ok request => answer contents request w
  | .error refusal => { ending := .refused refusal, world := w }

end ReleasePipeline.CommandLine
