import ReleasePipeline.Plugin.Directory
import ReleasePipeline.Proofs.Files.Lookup
import ReleasePipeline.Proofs.Plugin.Registration

/-! What a search for plugins finds: each directory is looked into once, and each file in it adds a plugin
or an error that depends on no other file. -/
namespace ReleasePipeline

/-- What a search tells of a directory into which it cannot look, or of the file of a name in a
directory: the plugin or the error. -/
structure Finding where
  dir : Path
  name? : Option String
  outcome : Except String Plugin

namespace Finding

/-- The path of the directory or the file. -/
def path (x : Finding) : Path := x.name?.elim x.dir x.dir.child

/-- The plugin that is found, if it is one. -/
def plugin? (x : Finding) : Option Plugin := x.outcome.toOption

end Finding

/-- The plugins and errors with those of a finding. -/
def PluginSet.take (found : PluginSet) (x : Finding) : PluginSet :=
  match x.outcome with
  | .ok p => found.add p
  | .error e => found.report e

namespace PluginSearch

variable {s s' : PluginSearch} {given : List Path} {builtIn : List Plugin} {d p q user : Path}
  {n : String} {place f : Place} {x y : Finding}

/-- The directory of the user's own plugins. -/
def userPath? (s : PluginSearch) : Option Path :=
  s.environment.configHome?.map fun config => (config.child "flowrunner-release").child "plugins"

/-- The directories that are named: those given, those of the environment, and the user's if it is
there. -/
def named (s : PluginSearch) (given : List Path) : List Path :=
  given ++ Path.ofList ((s.environment.get? directoriesVariable).getD "") ++
    s.userPath?.toList.filter fun dir => s.files.isDirectory s.here dir = .ok true

/-- The path from the root to which a name of a directory leads. -/
def target (s : PluginSearch) (p : Path) : Path :=
  ((s.environment.inHome? p).getD p).resolved s.here

/-- The paths from the root of all directories that are named. -/
def targets (s : PluginSearch) (given : List Path) : List Path := (s.named given).map s.target

/-- The names of the plugin files in a directory. -/
def pluginNames (s : PluginSearch) (d : Path) : List String :=
  ReleaseConfig.sortNames ((s.files.namesIn d.names).filter isPluginName)

/-- The path of a directory that is looked for is too long, or has a name that is. -/
def Overlong (s : PluginSearch) (given : List Path) : Prop :=
  ∃ d, (s.userPath? = some d ∨ d ∈ s.targets given) ∧ s.files.Overlong s.here d

/-- The home directories are known that the directories begin with, and no path has a null
character. -/
structure Proper (s : PluginSearch) (given : List Path) : Prop where
  distinct : s.files.Distinct
  here : ".." ∉ s.here
  home : s.environment.configHome?.isSome
  known : ∀ p ∈ s.named given, ∃ q, s.environment.inHome? p = some q ∧
    ∀ n ∈ q.names, '\x00' ∉ n.toList

section Loading

variable (hproper : s.Proper given)

include hproper

end Loading

/-- Searches that differ at most in a file at a place. -/
structure SameBut (f : Place) (s s' : PluginSearch) : Prop where
  files : s.files.SameBut f s'.files
  here : s'.here = s.here
  environment : s'.environment = s.environment
  contents : ∀ place ≠ f, s'.contents place = s.contents place

namespace SameBut

variable (h : SameBut f s s')

include h

theorem userPath?_eq : s'.userPath? = s.userPath? := by
  rw [userPath?, userPath?, h.environment]

theorem named_eq (given : List Path) : s'.named given = s.named given := by
  rw [named, named, h.userPath?_eq, h.environment, h.here]
  simp only [h.files.isDirectory_eq]

theorem targets_eq (given : List Path) : s'.targets given = s.targets given := by
  rw [targets, targets, h.named_eq]
  refine List.map_congr_left fun p _ => ?_
  rw [target, target, h.environment, h.here]

theorem overlong_iff : s'.Overlong given ↔ s.Overlong given := by
  rw [Overlong, Overlong, h.targets_eq, h.userPath?_eq, h.here]
  exact exists_congr fun d => and_congr_right fun _ => h.files.overlong_iff

end SameBut

/-- A search in a working directory without files. -/
def bare : PluginSearch where
  files := ⟨[(["work"], .directory)]⟩
  here := ["work"]
  environment := ⟨[("HOME", "/root")]⟩
  contents _ := .nothing

end PluginSearch

end ReleasePipeline
