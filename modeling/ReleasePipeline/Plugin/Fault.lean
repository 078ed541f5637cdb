import ReleasePipeline.Files.Glob
import ReleasePipeline.Value.Quoted

/-! What can be wrong with plugins, with their options and with the steps that they make. -/
namespace ReleasePipeline

/-- The commit conventions that the plugins know. -/
def knownPresets : List String := ["conventionalcommits"]

/-- Why a plugin does not take its options. -/
inductive OptionError where
  | preset (plugin : String) (v : Value)
  /-- A value where a preset is named that cannot be looked for among texts. -/
  | presetForm
  | notATable (name : String)
  /-- An option that can be left out but not be empty. -/
  | emptyOption (name : String)
  | absolute (name : String)
  | notText (name : String)
  | placeholders (name : String) (unknown : List String)
  | unknown (names : List String)
  /-- Unknown options of which not all are strings. -/
  | oddNames
  | noCommand (names : List String)
  | noAssetList
  | asset (index : Nat)
  | assetPath (index : Nat)
  | assetAbsolute (index : Nat) (path : String)
  | noPathspecList
  | noPathspec
  | manifests
  /-- A plugin of another origin refuses its options. -/
  | refused (text : String)
deriving Repr

namespace OptionError

/-- The wording of the error, empty where it is not the program's own. -/
def message : OptionError → String
  | preset plugin v =>
    let known := String.intercalate ", " knownPresets
    s!"{plugin}: unsupported preset {v.quoted} (supported: {known})"
  | presetForm => ""
  | notATable name => s!"'{name}' must be a table if present"
  | emptyOption name => s!"'{name}' must be a non-empty string if present"
  | absolute name => s!"'{name}' must be relative to the repository root"
  | notText name => s!"'{name}' must be a non-empty string"
  | placeholders name names =>
    s!"'{name}' uses unknown placeholders: " ++ String.intercalate ", " names
  | unknown names => "exec: unknown options: " ++ String.intercalate ", " names
  | oddNames => ""
  | noCommand names => "exec requires at least one of: " ++ String.intercalate ", " names
  | noAssetList => "'assets' must be a list if present"
  | asset index => s!"github asset {index} must be a path or a \x7bpath, label\x7d table"
  | assetPath index => s!"github asset {index} requires 'path'"
  | assetAbsolute index path =>
    s!"github asset {index} must be relative to the repository root: {path}"
  | noPathspecList => "'assets' must be a list of paths or globs"
  | noPathspec => "'assets' must not be empty"
  | manifests => "cargo-version: 'manifests' must be a path or a list of paths"
  | refused text => text

end OptionError

/-- Why plugins cannot be registered together. -/
inductive RegistryError where
  | noName
  | noHandlers (plugin : String)
  | handler (plugin : String) (v : Value)
  | handlerName (plugin : String) (v : Value)
  | duplicate (name first second : String)
deriving Repr

namespace RegistryError

def message : RegistryError → String
  | noName => "Plugin is missing required attribute 'name'"
  | noHandlers plugin => s!"Plugin {plugin} must handle at least one plugin name"
  | handler plugin v => s!"Plugin {plugin} returned invalid handler: {v.quoted}"
  | handlerName plugin v => s!"Plugin {plugin} returned invalid name: {v.quoted}"
  | duplicate name first second => s!"Duplicate handler for {name}: {first} and {second}"

end RegistryError

/-- Why a plugin invocation makes no step. -/
inductive InvocationError where
  | unknown (name : String) (known : List String)
  | unavailable (name reason : String)
  | phases (name : String) (unknown : List String)
deriving DecidableEq, Repr

namespace InvocationError

def message : InvocationError → String
  | unknown name known =>
    let known := if known.isEmpty then "(none)" else String.intercalate ", " known
    s!"Unknown plugin: {name} (known: {known})"
  | unavailable name reason => s!"Plugin {name} is unavailable: {reason}"
  | phases name names =>
    s!"Plugin {name} declared unknown phases: " ++ String.intercalate ", " names

end InvocationError

/-- Why a step fails. -/
inductive StepError where
  /-- A command step has no command for the phase. -/
  | noCommand
  | notAuthenticated (detail : String)
  | noTag
  | pattern (e : PatternError)
  | noManifest (path : Path)
  | noPackageVersion (path : Path)
  /-- A step of another origin fails. -/
  | external (text : String)
deriving DecidableEq, Repr

namespace StepError

def message : StepError → String
  | noCommand => ""
  | notAuthenticated detail => s!"GitHub CLI is not authenticated: {detail}"
  | noTag => "github publish requires a git tag"
  | pattern e => e.message
  | noManifest path => s!"Cargo manifest not found: {path.text}"
  | noPackageVersion path => s!"No [package] version found in {path.text}"
  | external text => text

end StepError

end ReleasePipeline
