import ReleasePipeline.Plugin.Analysis
import ReleasePipeline.Plugin.Preparation
import ReleasePipeline.Plugin.Publication

/-! The built-in plugins. -/
namespace ReleasePipeline

/-- The plugins that are always there, in the order in which they are registered. -/
def builtInPlugins : List Plugin :=
  [CommitAnalyzer.plugin, NotesGenerator.plugin, Changelog.plugin, Exec.plugin,
   GitHubRelease.plugin, GitCommit.plugin]

end ReleasePipeline
