import ReleasePipeline.Files.Tree
import ReleasePipeline.Text.Shell

/-! External commands, their answers and the events of a run. -/
namespace ReleasePipeline

/-- An external command. -/
structure Command where
  argv : List String
  cwd : Option Path := none
  input : Option String := none
  /-- The outputs are kept instead of shown. -/
  captured : Bool := true
  /-- Variables beside those of the environment. -/
  bindings : Option (List (String × String)) := none
deriving DecidableEq, Repr

/-- Why a command gives no answer. -/
inductive AnswerFault where
  /-- The command has no words. -/
  | empty
  /-- The command is not started. -/
  | start (e : FileFault)
  /-- Its output is no text. -/
  | output (e : Text.Utf8Error)
deriving Repr

/-- What a command answers: an exit code, the texts that are read of its two outputs, and the files that
it writes. -/
structure Answer where
  fault : Option AnswerFault := none
  code : Int := 0
  output : String := ""
  errors : String := ""
  writes : List (Path × Entry) := []
deriving Inhabited

/-- What a command prints and leaves behind. -/
structure Printed where
  code : Int := 0
  output : ByteArray := ByteArray.empty
  errors : ByteArray := ByteArray.empty
  writes : List (Path × Entry) := []

/-- What is read of a command that printed bytes: the texts that they write, with every line ending as a
line feed. The output is read before the errors. -/
def Printed.read (p : Printed) : Answer :=
  match textOfBytes p.output, textOfBytes p.errors with
  | .ok output, .ok errors => { code := p.code, output, errors, writes := p.writes }
  | .error e, _ | _, .error e =>
    { fault := some (.output e), code := p.code, writes := p.writes }

/-- The importance of a message. -/
inductive Level where
  | debug
  | info
  | warning
  | error
deriving DecidableEq, Repr

/-- The name of a level. -/
def Level.name : Level → String
  | debug => "DEBUG"
  | info => "INFO"
  | warning => "WARNING"
  | error => "ERROR"

/-- What a run shows to the outside: messages and the commands that it executes. -/
inductive Event where
  | message (level : Level) (text : String)
  | run (c : Command)
deriving DecidableEq, Repr

/-- What a command left behind. -/
structure CommandResult where
  argv : List String
  code : Int := 0
  output : String := ""
  errors : String := ""
deriving DecidableEq, Repr

/-- A command that had to succeed and did not. -/
structure CommandError where
  code : Int
  argv : List String
  errors : String
deriving DecidableEq, Repr

def CommandError.message (e : CommandError) : String :=
  s!"Command failed ({e.code}): {Text.shellLine e.argv}\n{e.errors}"

/-- An answer for the commands that begin with certain words. -/
structure Reply where
  start : List String
  answer : Answer
deriving Inhabited

namespace Reply

/-- The reply that begins with the most words of the command; the first one of several. -/
def find? (replies : List Reply) (argv : List String) : Option Reply :=
  (replies.filter fun r => r.start.isPrefixOf argv).foldl
    (fun best r => match best with
      | some b => if b.start.length < r.start.length then some r else best
      | none => some r) none

/-- The answer of a table of replies, whatever happened before. A command that it does not know
succeeds silently. -/
def answerOf (replies : List Reply) (argv : List String) (_before : List Event) : Answer :=
  ((find? replies argv).map (·.answer)).getD {}

end Reply

end ReleasePipeline
