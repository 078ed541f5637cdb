import ReleasePipeline.CommandLine.Options
import ReleasePipeline.Files.Path

/-! What a user asks for on the command line: to print a configuration or to run it. -/
namespace ReleasePipeline.CommandLine

/-- Where the configuration comes from, and how much is shown. -/
structure Source where
  ref : Option String := none
  /-- The file of the configuration, none for the built-in one. -/
  file : Option Path := none
  verbose : Bool := false
deriving DecidableEq, Repr

/-- How a release is run. -/
structure RunRequest where
  pluginDirectories : List Path := []
  /-- The root of the repository, none for the working directory. -/
  root : Option Path := none
  remote : String := "origin"
  dryRun : Bool := false
deriving DecidableEq, Repr

/-- A request. -/
inductive Request where
  | config (source : Source) (format : String)
  | run (source : Source) (r : RunRequest)
deriving DecidableEq, Repr

/-- The source of a request. -/
def Request.source : Request → Source
  | config source _ => source
  | run source _ => source

/-- The options that all requests have. -/
def sourceOptions : List OptionSpec :=
  [{ name := "--ref" }, { name := "--config" }, { name := "--verbose", takesValue := false }]

/-- The options of a request to print the configuration. -/
def configOptions : List OptionSpec :=
  sourceOptions ++ [{ name := "--format", choices := ["json", "yaml"] }]

/-- The options of a request to run the configuration. -/
def runOptions : List OptionSpec :=
  sourceOptions ++
    [{ name := "--plugins-dir" }, { name := "--cwd" }, { name := "--remote" },
     { name := "--dry-run", takesValue := false }]

/-- The source that settings describe. -/
def Source.ofSettings (settings : List Setting) : Source where
  ref := valueOf? settings "--ref"
  file := (valueOf? settings "--config").map .ofText
  verbose := isSet settings "--verbose"

/-- The run that settings describe. -/
def RunRequest.ofSettings (settings : List Setting) : RunRequest where
  pluginDirectories := (valuesOf settings "--plugins-dir").map .ofText
  root := (valueOf? settings "--cwd").map .ofText
  remote := (valueOf? settings "--remote").getD "origin"
  dryRun := isSet settings "--dry-run"

namespace Request

/-- The request of a command and the words after it. -/
def ofCommand (command : String) (words : List String) : Except Refusal Request :=
  match command with
  | "config" => do
    let settings ← readSettings configOptions words
    return .config (.ofSettings settings) ((valueOf? settings "--format").getD "json")
  | "run" => do
    let settings ← readSettings runOptions words
    return .run (.ofSettings settings) (.ofSettings settings)
  | _ => .error .usage

/-- The request of a command line. Before the command only a request for help can stand; `clean`
says that nothing else stood there. -/
def read (clean : Bool) : List String → Except Refusal Request
  | [] => .error .usage
  | w :: rest =>
    if w = endMark then .error .usage
    else do
      match ← Word.of [helpOption] w with
      | .operand =>
        let request ← ofCommand w rest
        if clean then return request else throw .usage
      | .option _ none => throw .help
      | .option _ (some _) => throw .usage
      | .stray => read false rest

/-- The request that the words of a command line make. -/
def ofWords (words : List String) : Except Refusal Request := read true words

end Request

end ReleasePipeline.CommandLine
