import ReleasePipeline.Run.Action

/-! Plugins, and the steps that they make of the options in a configuration. -/
namespace ReleasePipeline

/-- A phase of a release. -/
inductive Phase where
  | verify
  | analyze
  | generateNotes
  | prepare
  | publish
  | other (name : String)
deriving DecidableEq, Repr

namespace Phase

/-- The phases of a release, in order. -/
def all : List Phase := [verify, analyze, generateNotes, prepare, publish]

/-- The name of a phase. -/
def name : Phase → String
  | verify => "verify"
  | analyze => "analyze"
  | generateNotes => "generate_notes"
  | prepare => "prepare"
  | publish => "publish"
  | other name => name

/-- The phase of a name. -/
def ofName (s : String) : Phase := (all.find? fun p => p.name = s).getD (other s)

/-- A phase that no release has. -/
def isOther : Phase → Bool
  | other _ => true
  | _ => false

end Phase

/-- A step: the phases in which it takes part, and what it does there. The result of the action is a
line for the user. -/
structure Step where
  phases : List Phase
  apply : Settings → Phase → Action String

/-- A name that a plugin answers to, or something else in its place. -/
inductive Handler where
  | name (v : Value)
  | other (v : Value)

/-- Whether a plugin can be used. -/
inductive Availability where
  | available
  | unavailable (reason : Option String)
deriving DecidableEq, Repr

/-- A plugin. -/
structure Plugin where
  name : String
  handlers : List Handler
  availability : Settings → World → Availability := fun _ _ => .available
  /-- The step for the options of an invocation. -/
  build : Table → Except Failure Step

end ReleasePipeline
