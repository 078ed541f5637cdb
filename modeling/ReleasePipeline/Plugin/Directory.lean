import ReleasePipeline.Files.Environment
import ReleasePipeline.Plugin.BuiltIn

/-! Directories with files that define plugins. -/
namespace ReleasePipeline

/-- What a file says about a plugin. -/
inductive PluginFile where
  | plugin (p : Plugin)
  /-- The file defines none. -/
  | nothing
  /-- The file cannot be used. -/
  | broken (reason : String)
  /-- Loading the file ends the program. -/
  | stops

/-- The plugins that were found, and what went wrong with the others. -/
structure PluginSet where
  plugins : List Plugin := []
  errors : List String := []

namespace PluginSet

/-- The set with a plugin more. -/
def add (s : PluginSet) (p : Plugin) : PluginSet := { s with plugins := s.plugins ++ [p] }

/-- The set with an error more. -/
def report (s : PluginSet) (error : String) : PluginSet := { s with errors := s.errors ++ [error] }

end PluginSet

/-- Where plugins are looked for. -/
structure PluginSearch where
  files : FileTree
  /-- The working directory. -/
  here : Place
  environment : Environment
  /-- What the file at a place defines. -/
  contents : Place → PluginFile

namespace PluginSearch

/-- The variable that lists directories of plugins. -/
def directoriesVariable : String := "FLOWRUNNER_RELEASE_PLUGINS_DIRS"

/-- The user's own plugins, where there are any. -/
def userDirectory (s : PluginSearch) : Except Failure (List Path) := do
  match s.environment.configHome? with
  | none => throw .noHome
  | some config =>
    let dir := (config.child "flowrunner-release").child "plugins"
    return if ← (s.files.isDirectory s.here dir).mapError .file then [dir] else []

/-- The path from the root of a directory that may begin with a tilde. -/
def locate (s : PluginSearch) (p : Path) : Except Failure Path :=
  match s.environment.inHome? p with
  | none => .error .noHome
  | some p =>
    if p.names.any fun n => n.toList.contains '\x00' then .error (.file .nullCharacter)
    else .ok (p.resolved s.here)

/-- The directories to look into, each once: those given, those of the environment, the user's. -/
def directories (s : PluginSearch) (given : List Path) : Except Failure (List Path) := do
  let listed := Path.ofList ((s.environment.get? directoriesVariable).getD "")
  let user ← s.userDirectory
  return (← (given ++ listed ++ user).mapM s.locate).eraseDups

/-- The file of the name may define a plugin. -/
def isPluginName (n : String) : Bool := Text.endsWith ".py" n && !Text.startsWith "_" n

/-- The plugin files of a directory, by name. -/
def filesIn (s : PluginSearch) (dir : Path) : List Path :=
  let names := (s.files.namesIn dir.names).filter isPluginName
  (ReleaseConfig.sortNames names).map dir.child

/-- What an entry of a directory says about a plugin. -/
def read (s : PluginSearch) (file : Path) : PluginFile :=
  if FileTree.maxPathSize < file.text.utf8ByteSize then
    .broken s!"[Errno 36] File name too long: {Text.quoted file.text}"
  else if s.files.entry? file.names = some .directory then
    .broken s!"[Errno 21] Is a directory: {Text.quoted file.text}"
  else s.contents file.names

/-- Loads the plugin of a file. -/
def loadFile (s : PluginSearch) (found : PluginSet) (file : Path) : Except Failure PluginSet :=
  let failed (reason : String) := s!"Failed to load plugin {file.text}: {reason}"
  match s.read file with
  | .plugin p => .ok (found.add p)
  | .nothing =>
    .ok (found.report (failed s!"Plugin module {file.text} must define PLUGIN or get_plugin()."))
  | .broken reason => .ok (found.report (failed reason))
  | .stops => .error .stopped

/-- Loads the plugins of a directory. -/
def loadDirectory (s : PluginSearch) (found : PluginSet) (dir : Path) :
    Except Failure PluginSet := do
  if ← (s.files.isDirectory s.here dir).mapError .file then
    (s.filesIn dir).foldlM s.loadFile found
  else
    let state := if ← (s.files.exists? s.here dir).mapError .file then "is not a directory"
      else "does not exist"
    return found.report s!"Plugins dir {state}: {dir.text}"

/-- The plugins of all directories after those that are there without them. -/
def load (s : PluginSearch) (builtIn : List Plugin) (given : List Path) :
    Except Failure PluginSet := do
  (← s.directories given).foldlM s.loadDirectory { plugins := builtIn }

end PluginSearch

end ReleasePipeline
