import ReleasePipeline.Text.Glob
import ReleasePipeline.Value.Basic
import ReleasePipeline.Version.Tag

/-! Release configurations: which branches release, and the plugins that do it. -/
namespace ReleasePipeline

/-- Which releases a branch makes: stable ones, prereleases on a channel named like the branch, or
prereleases on a given channel. -/
inductive ReleaseKind where
  | stable
  | ownChannel
  | channel (name : String)
deriving DecidableEq, Repr, Inhabited

/-- A branch name or glob pattern with the kind of the releases made there. -/
structure BranchMatcher where
  name : String
  kind : ReleaseKind := .stable
deriving DecidableEq, Repr, Inhabited

namespace BranchMatcher

/-- The name is the branch itself or a pattern for it. -/
def accepts (m : BranchMatcher) (branch : String) : Bool :=
  m.name = branch || (Text.hasWildcard m.name && Text.globMatches m.name branch)

/-- The channel of the releases of a branch, none for stable ones. -/
def channelFor (m : BranchMatcher) (branch : String) : Option String :=
  match m.kind with
  | .stable => none
  | .ownChannel => some branch
  | .channel name => some name

/-- The value that stands for the kind. -/
def kindValue : ReleaseKind → Value
  | .stable => .bool false
  | .ownChannel => .bool true
  | .channel name => .string name

/-- The matcher as a value: its name alone, or a table with the kind. -/
def toValue (m : BranchMatcher) : Value :=
  if m.kind = .stable then .string m.name
  else .table (Table.ofNames [("name", .string m.name), ("prerelease", kindValue m.kind)])

end BranchMatcher

/-- A plugin by name, with its options. -/
structure PluginInvocation where
  name : String
  options : Table := []
deriving Repr, Inhabited

namespace PluginInvocation

/-- The invocation as a value: the name alone, or a list of the name and the options. -/
def toValue (p : PluginInvocation) : Value :=
  if p.options.isEmpty then .string p.name
  else .list [.string p.name, .table p.options]

end PluginInvocation

/-- The tag format of a configuration that names none. -/
def defaultTagFormat : String := "v" ++ versionMark

/-- A release configuration. -/
structure ReleaseConfig where
  branches : List BranchMatcher
  plugins : List PluginInvocation
  tagFormat : String := defaultTagFormat
deriving Repr, Inhabited

namespace ReleaseConfig

/-- The names of the plugins, in order. -/
def pluginNames (c : ReleaseConfig) : List String := c.plugins.map (·.name)

/-- The first invocation of a plugin. -/
def plugin? (c : ReleaseConfig) (name : String) : Option PluginInvocation :=
  c.plugins.find? fun p => p.name = name

/-- The first matcher that accepts the branch. -/
def matcher? (c : ReleaseConfig) (branch : String) : Option BranchMatcher :=
  c.branches.find? fun m => m.accepts branch

/-- The configuration as a table. The default tag format is left out. -/
def toTable (c : ReleaseConfig) : Table :=
  Table.ofNames <|
    [("branches", .list (c.branches.map BranchMatcher.toValue)),
     ("plugins", .list (c.plugins.map PluginInvocation.toValue))] ++
    (if c.tagFormat = defaultTagFormat then [] else [("tagFormat", .string c.tagFormat)])

/-- The configuration as a value. -/
def toValue (c : ReleaseConfig) : Value := .table c.toTable

end ReleaseConfig

end ReleasePipeline
