import ReleasePipeline.Config.Basic

/-! Which values are release configurations. -/
namespace ReleasePipeline

/-- Why a value is no release configuration. Branches and plugins are counted from zero. -/
inductive ConfigError where
  | notATable
  | unknownKeys (names : List String)
  | noBranches
  | noPlugins
  | notAName (place : String)
  | noVersionMark
  | branch (index : Nat)
  | branchKind (index : Nat)
  | plugin (index : Nat)
  | pluginLength (index : Nat)
  | pluginList (index : Nat)
  | pluginKeys (index : Nat) (names : List String)
  | pluginOptions (index : Nat)
  /-- Unknown keys of which not all are strings. -/
  | oddKeys
deriving DecidableEq, Repr

namespace ConfigError

def message : ConfigError → String
  | notATable => "Release config must be a table with 'branches' and 'plugins'."
  | unknownKeys names =>
    "Unknown top-level keys in release config: " ++ String.intercalate ", " names
  | noBranches => "'branches' must be a non-empty list"
  | noPlugins => "'plugins' must be a non-empty list"
  | notAName place => s!"'{place}' must be a non-empty string"
  | noVersionMark => "'tagFormat' must contain " ++ versionMark
  | branch index =>
    s!"branches[{index}] must be a branch name or a \x7bname, prerelease\x7d table"
  | branchKind index =>
    s!"'branches[{index}].prerelease' must be a boolean or a non-empty string"
  | plugin index =>
    s!"plugins[{index}] must be a plugin name, [name, options] or \x7bname, options\x7d"
  | pluginLength index => s!"plugins[{index}] must be [name] or [name, options]"
  | pluginList index => s!"plugins[{index}][1] must be an options table"
  | pluginKeys index names =>
    s!"plugins[{index}] has unknown keys: " ++ String.intercalate ", " names
  | pluginOptions index => s!"plugins[{index}].options must be a table"
  | oddKeys => ""

end ConfigError

namespace ReleaseConfig

/-- The texts in ascending order. -/
def sortNames (names : List String) : List String := names.mergeSort fun a b => decide (a ≤ b)

/-- The keys of a table beside the known ones, in ascending order. The error is `oddKeys` when one of
them is no string, and `error` of the names otherwise. -/
def checkKeys (known : List String) (error : List String → ConfigError) (t : Table) :
    Except ConfigError Unit :=
  let extra := t.keys.filter fun k => match k with
    | .string s => !known.contains s
    | _ => true
  if extra.isEmpty then .ok ()
  else match extra.mapM Value.asString? with
    | some names => .error (error (sortNames names))
    | none => .error .oddKeys

/-- A string that is not empty. -/
def name (place : String) (v : Value) : Except ConfigError String :=
  match v.asName? with
  | some s => .ok s
  | none => .error (.notAName place)

/-- The kind of a branch; an absent one is stable. -/
def releaseKind (index : Nat) (v : Option Value) : Except ConfigError ReleaseKind :=
  match v with
  | none => .ok .stable
  | some (.bool false) => .ok .stable
  | some (.bool true) => .ok .ownChannel
  | some v => match v.asName? with
    | some s => .ok (.channel s)
    | none => .error (.branchKind index)

/-- The matcher of a value: a name, or a table with a name and a kind. -/
def branchOf (v : Value) (index : Nat) : Except ConfigError BranchMatcher :=
  match v.asName?, v.asTable? with
  | some s, _ => .ok ⟨s, .stable⟩
  | none, some t => do
    let name ← name s!"branches[{index}].name" (t.getD "name")
    return ⟨name, ← releaseKind index (t.get? "prerelease")⟩
  | none, none => .error (.branch index)

/-- The invocation of a value: a name, a list of a name and options, or a table of both. -/
def pluginOf (v : Value) (index : Nat) : Except ConfigError PluginInvocation :=
  match v.asName?, v.asList?, v.asTable? with
  | some s, _, _ => .ok ⟨s, []⟩
  | none, some [first], _ => do
    return ⟨← name s!"plugins[{index}][0]" first, []⟩
  | none, some [first, second], _ => do
    let name ← name s!"plugins[{index}][0]" first
    match second.asTable? with
    | some options => return ⟨name, options⟩
    | none => .error (.pluginList index)
  | none, some _, _ => .error (.pluginLength index)
  | none, none, some t => do
    checkKeys ["name", "options"] (.pluginKeys index) t
    let name ← name s!"plugins[{index}].name" (t.getD "name")
    match t.get? "options" with
    | none => return ⟨name, []⟩
    | some options => match options.asTable? with
      | some options => return ⟨name, options⟩
      | none => .error (.pluginOptions index)
  | none, none, none => .error (.plugin index)

/-- The items of a list that is not empty. -/
def items (error : ConfigError) (v : Value) : Except ConfigError (List Value) :=
  match v.asList? with
  | some (x :: xs) => .ok (x :: xs)
  | _ => .error error

/-- The branches of a configuration; one branch needs no list. -/
def branchItems (v : Value) : Except ConfigError (List Value) :=
  if v.asString?.isSome || v.asTable?.isSome then .ok [v] else items .noBranches v

/-- The configuration of a value. -/
def ofValue (v : Value) : Except ConfigError ReleaseConfig :=
  match v.asTable? with
  | none => .error .notATable
  | some t => do
    checkKeys ["branches", "plugins", "tagFormat"] .unknownKeys t
    let branches ← branchItems (t.getD "branches")
    let plugins ← items .noPlugins (t.getD "plugins")
    let tagFormat ← name "tagFormat" ((t.get? "tagFormat").getD (.string defaultTagFormat))
    unless Text.contains versionMark tagFormat do .error .noVersionMark
    let branches ← branches.zipIdx.mapM fun (b, i) => branchOf b i
    let plugins ← plugins.zipIdx.mapM fun (p, i) => pluginOf p i
    return { branches, plugins, tagFormat }

end ReleaseConfig

end ReleasePipeline
