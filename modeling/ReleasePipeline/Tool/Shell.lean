import ReleasePipeline.Run.Action

/-! Commands that a shell runs. -/
namespace ReleasePipeline.Shell

/-- The script of a command. The first command that fails ends it. -/
def script (command : String) : String := s!"set -euo pipefail\n{command}\n"

/-- Records an output unless it is blank. -/
def logOutput (name output : String) : Action Unit :=
  if Text.isBlankText output then pure ()
  else Action.log .debug s!"shell {name}:\n{Text.stripEnd output}"

/-- Runs a command, which has to succeed. Its outputs are recorded, or shown where `shown`. -/
def run (s : Settings) (command : String) (cwd : Option Path)
    (bindings : Option (List (String × String)) := none) (shown : Bool := false) :
    Action CommandResult := do
  let result ← Action.run s .changing true
    { argv := ["bash", "-c", script command], cwd, bindings, captured := !shown }
  unless shown do
    logOutput "stdout" result.output
    logOutput "stderr" result.errors
  return result

end ReleasePipeline.Shell
