import ReleasePipeline.Plugin.Options

/-! The plugins that decide on the bump and write the notes. -/
namespace ReleasePipeline

namespace CommitAnalyzer

/-- The step that decides on the bump of the release. -/
def step (rules : List Rule) : Step where
  phases := [.analyze]
  apply _ _ := do
    let commits := (← Action.release).commits
    let bump := Commit.releaseBump rules commits
    Action.changeRelease fun r => { r with bump := bump.map .known }
    let found := match bump with
      | none => "no release"
      | some b => s!"{b.name} release"
    return s!"Analyzed {commits.length} commits: {found}."

/-- The plugin of the step, with the option `releaseRules`. -/
def plugin : Plugin where
  name := "builtin.commit-analyzer"
  handlers := Options.handlers PluginName.commitAnalyzer
  build options := do
    Options.checkPreset "commit-analyzer" options
    let rules ← (Rule.listOf (options.getD "releaseRules")).mapError Failure.rule
    return step rules

end CommitAnalyzer

namespace NotesGenerator

/-- The step that writes the notes of the release. -/
def step (types : List NoteType) (repositoryUrl : Option String) : Step where
  phases := [.generateNotes]
  apply _ _ := do
    let r ← Action.release
    let version ← Options.nextText
    let notes := Notes.render types r.commits
      { version, date := r.date, previousTag := r.lastTag, tag := r.gitTag, repositoryUrl }
    Action.changeRelease fun r => { r with notes }
    return s!"Generated release notes for {version}."

/-- The plugin of the step, with the options `presetConfig` and `repositoryUrl`. -/
def plugin : Plugin where
  name := "builtin.release-notes-generator"
  handlers := Options.handlers PluginName.notesGenerator
  build options := do
    Options.checkPreset "release-notes-generator" options
    match (Options.getOr options "presetConfig" (.table [])).asTable? with
    | none => throw (.option (.notATable "presetConfig"))
    | some preset =>
      let types ← (NoteType.listOf (preset.getD "types")).mapError Failure.noteType
      return step types (← Options.optionalText options "repositoryUrl")

end NotesGenerator

end ReleasePipeline
