import ReleasePipeline.Plugin.Basic

/-! The plugins by the names that they answer to. -/
namespace ReleasePipeline

/-- Plugins by name. -/
structure Registry where
  entries : List (String × Plugin) := []

namespace Registry

/-- The plugin that answers to a name. -/
def plugin? (r : Registry) (name : String) : Option Plugin := r.entries.lookup name

/-- The names, in ascending order. -/
def names (r : Registry) : List String := ReleaseConfig.sortNames (r.entries.map (·.1))

/-- Adds a name of a plugin. -/
def addHandler (p : Plugin) (r : Registry) (h : Handler) : Except RegistryError Registry :=
  match h with
  | .other v => .error (.handler p.name v)
  | .name v =>
    match v.asName? with
    | none => .error (.handlerName p.name v)
    | some name =>
      match r.plugin? name with
      | some first => .error (.duplicate name first.name p.name)
      | none => .ok ⟨r.entries ++ [(name, p)]⟩

/-- Adds a plugin under all its names. -/
def addPlugin (r : Registry) (p : Plugin) : Except RegistryError Registry :=
  if p.name.isEmpty then .error .noName
  else if p.handlers.isEmpty then .error (.noHandlers p.name)
  else p.handlers.foldlM (addHandler p) r

/-- The registry of plugins, each of whose names is its own. -/
def ofPlugins (ps : List Plugin) : Except RegistryError Registry := ps.foldlM addPlugin {}

/-- The reason for which a plugin cannot be used where it gives none. -/
def defaultReason : String := "plugin is not available in this environment"

/-- The step of an invocation. -/
def step (r : Registry) (s : Settings) (w : World) (i : PluginInvocation) : Except Failure Step :=
  match r.plugin? i.name with
  | none => .error (.invocation (.unknown i.name r.names))
  | some p =>
    match p.availability s w with
    | .unavailable reason =>
      let reason := (reason.bind Commit.nonEmpty?).getD defaultReason
      .error (.invocation (.unavailable i.name reason))
    | .available => do
      let step ← p.build i.options
      match step.phases.filter Phase.isOther with
      | [] => return step
      | unknown => throw (.invocation (.phases i.name (unknown.map Phase.name)))

end Registry

end ReleasePipeline
