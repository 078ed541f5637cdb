import ReleasePipeline.Plugin.Basic
import ReleasePipeline.Tool.Git

/-! Procedures: what a run decides and records by itself, and the moves that it leaves to steps and
to the repository. -/
namespace ReleasePipeline

/-- A step under the name by which a configuration invokes its plugin. -/
structure NamedStep where
  name : String
  step : Step

/-- What a run does to more than its own state. -/
inductive Move where
  /-- The step at an index of the configuration takes part in a phase. -/
  | apply (index : Nat) (step : NamedStep) (phase : Phase)
  /-- A command that only reads the repository. -/
  | ask (args : List String)
  /-- A command that changes the repository. -/
  | change (args : List String)

/-- Performs a move. The result is the report of a step or the output of a command that reads. -/
def Move.perform (s : Settings) : Move → Action String
  | apply _ n phase => n.step.apply s phase
  | ask args => Git.read s args
  | change args => do
    Git.change s args
    return ""

/-- A procedure is a tree of moves, which branches with their results and with what it observes. -/
inductive Procedure (α : Type) where
  | done (a : α)
  | fail (e : Failure)
  | observe (next : World → Procedure α)
  | log (level : Level) (text : String) (next : Procedure α)
  | update (f : Release → Release) (next : Procedure α)
  | move (m : Move) (next : String → Procedure α)

namespace Procedure

/-- The procedure that goes on with the result of another one. -/
def bind {α β : Type} (p : Procedure α) (k : α → Procedure β) : Procedure β :=
  match p with
  | done a => k a
  | fail e => fail e
  | observe next => observe fun w => (next w).bind k
  | log level text next => log level text (next.bind k)
  | update f next => update f (next.bind k)
  | move m next => move m fun x => (next x).bind k

instance : Monad Procedure where
  pure := done
  bind := bind

/-- The result of a computation that can fail. -/
def ofExcept {α : Type} : Except Failure α → Procedure α
  | .ok a => done a
  | .error e => fail e

/-- The world as it is. -/
def world : Procedure World := observe done

/-- Records a message. -/
def say (level : Level) (text : String) : Procedure Unit := log level text (done ())

/-- Changes the state of the release. -/
def changeRelease (f : Release → Release) : Procedure Unit := update f (done ())

/-- Makes a move. -/
def act (m : Move) : Procedure String := move m done

/-- Carries out a procedure. -/
def perform {α : Type} (s : Settings) : Procedure α → Action α
  | done a => pure a
  | fail e => throw e
  | observe next => do (next (← get)).perform s
  | log level text next => do
    Action.log level text
    next.perform s
  | update f next => do
    Action.changeRelease f
    next.perform s
  | move m next => do (next (← m.perform s)).perform s

end Procedure

end ReleasePipeline
