import ReleasePipeline.Plugin.Registry
import ReleasePipeline.Run.Procedure

/-! A run of a release configuration: its steps phase by phase, with the history of the repository
read before the analysis and the tag made between preparation and publication. -/
namespace ReleasePipeline

/-- How a run ends. -/
inductive Outcome where
  | released (version : Version)
  /-- The branch is none that releases. -/
  | otherBranch
  /-- No commit calls for a release. -/
  | noChanges
deriving DecidableEq, Repr

namespace Lifecycle

open Procedure

/-- The line in which a step reports what it did. The last one of a phase closes the tree. -/
def reportLine (last : Bool) (name report : String) : String :=
  (if last then "└─ " else "├─ ") ++ s!"{name}: {report}"

/-- Applies steps one after the other. -/
def applyAll (phase : Phase) : List (NamedStep × Nat) → Procedure Unit
  | [] => pure ()
  | (n, index) :: rest => do
    let report ← act (.apply index n phase)
    say .info (reportLine rest.isEmpty n.name report)
    applyAll phase rest

/-- The steps that take part in a phase, with their indices. -/
def active (phase : Phase) (steps : List NamedStep) : List (NamedStep × Nat) :=
  steps.zipIdx.filter fun (n, _) => n.step.phases.contains phase

/-- Applies the steps of a phase in the order of the configuration. -/
def runPhase (steps : List NamedStep) (phase : Phase) : Procedure Unit :=
  match active phase steps with
  | [] => pure ()
  | steps => do
    say .info phase.name
    applyAll phase steps

/-- A failure to make a step, with the place of its plugin if an input is invalid. -/
def placed (name : String) (index : Nat) (f : Failure) : Failure :=
  if f.isInvalid then .plugin name index f else f

/-- The steps of a configuration. -/
def buildSteps (registry : Registry) (s : Settings) (w : World) (c : ReleaseConfig) :
    Except Failure (List NamedStep) :=
  (c.plugins.zipIdx 1).mapM fun (p, index) => do
    return ⟨p.name, ← (registry.step s w p).mapError (placed p.name index)⟩

/-- The versions among the tags. -/
def versionsOf (tagFormat : String) (tags : List String) : Except TagError (List Version) := do
  return (← tags.mapM (Tag.version? tagFormat)).filterMap id

/-- The tag of a version, or none. -/
def tagOf? (tagFormat : String) : Option Version → Except TagError (Option String)
  | none => .ok none
  | some v => (Tag.ofVersion tagFormat v).map some

/-- Reads the tags and the commits since the last release. -/
def readHistory (tagFormat : String) : Procedure Unit := do
  let tags := Git.tagsOf (← act (.ask Git.tagListing))
  let versions ← ofExcept ((versionsOf tagFormat tags).mapError .tag)
  changeRelease fun r =>
    { r with tags := versions, lastRelease := Version.lastRelease versions r.prerelease }
  let last := (← world).release.lastRelease
  let lastTag ← ofExcept ((tagOf? tagFormat last).mapError .tag)
  changeRelease fun r => { r with lastTag }
  let commits := Git.commitsOf (← act (.ask (Git.commitListing lastTag)))
  changeRelease fun r =>
    { r with commits := commits.map fun (sha, message) => .ofMessage sha message }
  let found := s!"{commits.length} commits since"
  say .debug s!"Last release: {lastTag.getD noTag}; {found}"
where
  /-- What stands for the tag where nothing was released. -/
  noTag : String := "(none)"

/-- Decides on the next version and its tag. -/
def decideVersion (tagFormat : String) (bump : BumpKind) : Procedure Version := do
  let r := (← world).release
  let version ← ofExcept ((Version.nextFor r.tags bump r.prerelease).mapError .bump)
  changeRelease fun r => { r with nextVersion := some version }
  let tag ← ofExcept ((Tag.ofVersion tagFormat version).mapError .tag)
  changeRelease fun r => { r with gitTag := some tag }
  say .info s!"Next release: {version.text} ({bump.text})"
  return version

/-- Makes the tag of the release and pushes it. -/
def makeTag (s : Settings) : Procedure Unit := do
  let tag := (← world).release.gitTag
  if s.dryRun then
    let shown := tag.getD "None"
    say .info s!"Would create and push tag {shown}."
  else match tag with
    | none => fail .absentTag
    | some tag =>
      let _ ← act (.change (Git.tagging tag))
      let _ ← act (.change (Git.tagPush s.remote tag))
      say .info s!"Created tag {tag}."

/-- Looks for what has to be released: the part of a run before the next version is known. -/
def analyze (tagFormat : String) (steps : List NamedStep) : Procedure Unit := do
  runPhase steps .verify
  readHistory tagFormat
  runPhase steps .analyze

/-- Makes a release of the version that a bump leads to. -/
def release (s : Settings) (tagFormat : String) (steps : List NamedStep) (bump : BumpKind) :
    Procedure Outcome := do
  let version ← decideVersion tagFormat bump
  runPhase steps .generateNotes
  runPhase steps .prepare
  makeTag s
  runPhase steps .publish
  return .released ((← world).release.nextVersion.getD version)

/-- Releases with the steps of a configuration. -/
def runSteps (s : Settings) (tagFormat : String) (steps : List NamedStep) :
    Procedure Outcome := do
  analyze tagFormat steps
  match (← world).release.bump with
  | none =>
    let since := ((← world).release.lastTag).getD "the first commit"
    say .info s!"No relevant changes since {since}; no release."
    return .noChanges
  | some bump => release s tagFormat steps bump

end Lifecycle

namespace ReleaseConfig

/-- What a release configuration does on the branch of the release. -/
def procedure (c : ReleaseConfig) (registry : Registry) (s : Settings) : Procedure Outcome := do
  let branch := (← .world).release.branch
  match c.matcher? branch with
  | none =>
    let configured := String.intercalate ", " (c.branches.map (·.name))
    .say .info s!"Branch {branch} is not a release branch (configured: {configured})."
    return .otherBranch
  | some m =>
    let channel := m.channelFor branch
    .changeRelease fun r => { r with prerelease := channel, channel }
    let steps ← .ofExcept (Lifecycle.buildSteps registry s (← .world) c)
    Lifecycle.runSteps s c.tagFormat steps

/-- Runs a release configuration for the branch of the release. -/
def run (c : ReleaseConfig) (registry : Registry) (s : Settings) : Action Outcome :=
  (c.procedure registry s).perform s

end ReleaseConfig

end ReleasePipeline
