import ReleasePipeline.Config.Basic
import ReleasePipeline.Json.Writer
import ReleasePipeline.Text.Quoted
import ReleasePipeline.Yaml.Writer

/-! Configurations as texts for other programs. -/
namespace ReleasePipeline

namespace Value

mutual

/-- The value with other labels. -/
def relabel (f : Nat → Nat) : Value → Value
  | shared label v => shared (f label) (relabel f v)
  | loop label => loop (f label)
  | list items => list (relabelItems f items)
  | table entries => table (relabelEntries f entries)
  | set items => set (relabelItems f items)
  | pair k v => pair (relabel f k) (relabel f v)
  | v => v

/-- The items of a list with other labels. -/
def relabelItems (f : Nat → Nat) : List Value → List Value
  | [] => []
  | v :: vs => relabel f v :: relabelItems f vs

/-- The entries of a table with other labels. -/
def relabelEntries (f : Nat → Nat) : List (Value × Value) → List (Value × Value)
  | [] => []
  | (k, v) :: rest => (relabel f k, relabel f v) :: relabelEntries f rest

end

end Value

/-- Why a configuration is not exported. -/
inductive ExportError where
  | format (name : String)
  | json (e : Json.WriteError)
  | yaml (e : Yaml.WriteError)
deriving DecidableEq, Repr

namespace ExportError

def message : ExportError → String
  | format name => s!"Unsupported output format: {Text.quoted name} (expected json or yaml)"
  | json e => e.message
  | yaml e => e.message

end ExportError

namespace ReleaseConfig

/-- The configuration in which no two plugins share a value. -/
def unshared (c : ReleaseConfig) : ReleaseConfig :=
  let count := c.plugins.length
  { c with
    plugins := c.plugins.zipIdx.map fun (p, i) =>
      { p with options := Value.relabelEntries (fun label => label * count + i) p.options } }

/-- The JSON text of a configuration. -/
def json (c : ReleaseConfig) : Except Json.WriteError String :=
  (Json.write c.toValue).map (· ++ "\n")

/-- The YAML text of a configuration. -/
def yaml (c : ReleaseConfig) : Except Yaml.WriteError String := Yaml.write c.unshared.toTable

/-- The text of a configuration in a format. -/
def exported (c : ReleaseConfig) (format : String) : Except ExportError String :=
  if format = "json" then c.json.mapError .json
  else if format = "yaml" then c.yaml.mapError .yaml
  else .error (.format format)

end ReleaseConfig

end ReleasePipeline
