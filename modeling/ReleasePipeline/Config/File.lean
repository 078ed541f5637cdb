import ReleasePipeline.Config.Shape
import ReleasePipeline.Files.Tree
import ReleasePipeline.Json.Reader
import ReleasePipeline.Json.Writer
import ReleasePipeline.Toml.Reader
import ReleasePipeline.Yaml.Reader

/-! Configuration files in JSON, TOML and YAML. -/
namespace ReleasePipeline

/-- The format of a configuration file. -/
inductive ConfigFormat where
  | json
  | toml
  | yaml
deriving DecidableEq, Repr

/-- The format that an extension names. -/
def ConfigFormat.ofExtension? (extension : String) : Option ConfigFormat :=
  match Text.lowerAscii extension with
  | ".json" => some .json
  | ".toml" => some .toml
  | ".yaml" | ".yml" => some .yaml
  | _ => none

/-- Why a configuration file is not loaded. -/
inductive ConfigFileError where
  | notFound (path : Path)
  | unreachable (e : FileFault)
  | undecodable (e : Text.Utf8Error)
  | format (path : Path)
  | json (path : Path) (e : Json.ReadError)
  | toml (path : Path) (e : Toml.ReadError)
  | yaml (path : Path) (e : Yaml.ReadError)
  | config (path : Path) (e : ConfigError)
deriving Repr

namespace ConfigFileError

/-- The wording of the error. Errors of the text name the file, those of a single value do not. -/
def message : ConfigFileError → String
  | notFound path => s!"Config file not found: {path.text}"
  | unreachable e => e.message
  | undecodable e => e.message
  | format path =>
    s!"Unsupported config format for {path.text} (expected .json, .toml, .yaml, .yml)."
  | json path (.fault f line column) =>
    s!"Invalid JSON in {path.text} at line {line}, column {column}: {f.message}"
  | json _ (.numeral e) => e.message
  | json _ .surrogate => ""
  | toml _ (.numeral e) => e.message
  | toml path e => s!"Invalid TOML in {path.text}: {e.message}"
  | yaml path (.fault f p) => s!"Invalid YAML in {path.text} {(Yaml.ReadError.fault f p).message}"
  | yaml path .unprintable => s!"Invalid YAML in {path.text}"
  | yaml _ e => e.message
  | config path e => s!"{path.text}: {e.message}"

end ConfigFileError

namespace ReleaseConfig

/-- The value that the text of a configuration file writes. -/
def readText (path : Path) (text : String) : Except ConfigFileError Value :=
  match ConfigFormat.ofExtension? path.extension with
  | some .json => (Json.read text).mapError (.json path)
  | some .toml => ((Toml.read text).map Value.table).mapError (.toml path)
  | some .yaml => (Yaml.read text).mapError (.yaml path)
  | none => .error (.format path)

/-- The configuration in a file. -/
def load (files : FileTree) (here : Place) (path : Path) :
    Except ConfigFileError ReleaseConfig := do
  unless ← (files.isFile here path).mapError .unreachable do throw (.notFound path)
  let bytes ← (files.read here path).mapError .unreachable
  let value ← readText path (← (textOfBytes bytes).mapError .undecodable)
  (ofValue value).mapError (.config path)

end ReleaseConfig

end ReleasePipeline
