import ReleasePipeline.CommandLine.Workspace

/-! The command line over a workspace that the standard input describes. -/
namespace ReleasePipeline.CommandLine

/-- Reads a stream to its end, after the text that was read before. -/
partial def readAll (input : IO.FS.Stream) (before : String) : IO String := do
  let line ← input.getLine
  if line.isEmpty then return before else readAll input (before ++ line)

/-- Shows the output and the messages of the program. The result is its exit code. -/
def present (report : Report) : IO UInt32 := do
  (← IO.getStdout).putStr report.output
  (← IO.getStderr).putStr report.errorOutput
  match report.ending.exitCode? with
  | some code => return code.toUInt32
  | none => return 1

/-- Runs the program in a workspace that a text describes. -/
def runIn (workspace : String) (words : List String) : IO UInt32 := do
  match Workspace.read workspace with
  | .error e =>
    (← IO.getStderr).putStrLn s!"workspace: {e.message}"
    return 2
  | .ok world => present (program (fun _ => .nothing) words world)

end ReleasePipeline.CommandLine

/-- Runs the program for the words of the command line. -/
def main (words : List String) : IO UInt32 := do
  let workspace ← ReleasePipeline.CommandLine.readAll (← IO.getStdin) ""
  ReleasePipeline.CommandLine.runIn workspace words
