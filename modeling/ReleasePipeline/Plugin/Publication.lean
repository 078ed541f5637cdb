import ReleasePipeline.Plugin.Options
import ReleasePipeline.Tool.GitHub

/-! The plugin that publishes a release on GitHub. -/
namespace ReleasePipeline.GitHubRelease

/-- The files to publish: a pattern for paths, and a label for all of them. -/
structure AssetSpec where
  pattern : String
  label : Option String := none
deriving DecidableEq, Repr

/-- The files for a specification, with a label that refers to the values of the release. A pattern
without files is reported. -/
def assetsOf (s : Settings) (values : Value) (spec : AssetSpec) : Action (List GitHub.Asset) := do
  let w ← get
  let pattern ← Action.ofExcept ((PathPattern.ofText spec.pattern).mapError (.step ∘ .pattern))
  match ← Action.ofExcept ((pattern.files w.files w.here s.root).mapError .file) with
  | [] =>
    Action.log .warning s!"No file matches asset pattern {spec.pattern}; skipping it."
    return []
  | paths =>
    let label ← spec.label.mapM fun text =>
      Action.ofExcept ((Template.render text values).mapError .template)
    return paths.map fun path => ⟨path, label⟩

/-- Checks that the user is logged in. -/
def verify (s : Settings) : Action String := do
  if s.dryRun then return "Would verify GitHub authentication."
  let (ok, detail) ← GitHub.authStatus s
  unless ok do throw (.step (.notAuthenticated detail))
  return "Verified GitHub authentication."

/-- Publishes the release of a tag. -/
def publishTag (s : Settings) (specs : List AssetSpec) (tag : String) : Action String := do
  let values ← Action.ofExcept ((← Action.release).values.mapError .numeral)
  let assets := (← specs.mapM (assetsOf s values)).flatten
  let r ← Action.release
  GitHub.createRelease s tag tag r.notes r.prerelease.isSome assets
  return s!"Published GitHub release {tag} with {assets.length} assets."

/-- Publishes the release. -/
def publish (s : Settings) (specs : List AssetSpec) : Action String := do
  match (← Action.release).gitTag with
  | none => throw (.step .noTag)
  | some tag =>
    if s.dryRun then
      return s!"Would publish GitHub release {tag} ({specs.length} asset patterns)."
    publishTag s specs tag

/-- The step that publishes the release. -/
def step (specs : List AssetSpec) : Step where
  phases := [.verify, .publish]
  apply s phase := if phase = .verify then verify s else publish s specs

/-- The label of an asset. -/
def label (index : Nat) (t : Table) : Except Failure (Option String) :=
  match t.getD "label" with
  | .null => .ok none
  | v => (Options.template s!"assets[{index}].label" v).map some

/-- The specification of an asset: a pattern, or a table of a path and a label. -/
def specOf (v : Value) (index : Nat) : Except Failure AssetSpec := do
  let spec ← match v.asName?, v.asTable? with
    | some pattern, _ => pure ⟨pattern, none⟩
    | none, some t =>
      match (t.getD "path").asName? with
      | none => throw (.option (.assetPath index))
      | some pattern => pure ⟨pattern, ← label index t⟩
    | none, none => throw (.option (.asset index))
  if (Path.ofText spec.pattern).isAbsolute then
    throw (.option (.assetAbsolute index spec.pattern))
  return spec

/-- The items of a list of assets. A single asset needs no list. -/
def items? (v : Value) : Option (List Value) :=
  if v.asString?.isSome || v.asTable?.isSome then some [v] else v.asList?

/-- The plugin of the step, with the option `assets`. -/
def plugin : Plugin where
  name := "builtin.github"
  handlers := Options.handlers PluginName.github
  availability := Options.needsToolToChange "gh"
  build options := do
    match items? (Options.getOr options "assets" (.list [])) with
    | none => throw (.option .noAssetList)
    | some items => return step (← (items.zipIdx 1).mapM fun (v, i) => specOf v i)

end ReleasePipeline.GitHubRelease
