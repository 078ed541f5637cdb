import ReleasePipeline.Commit.Notes
import ReleasePipeline.Commit.Rule
import ReleasePipeline.Config.BuiltIn
import ReleasePipeline.Config.Export
import ReleasePipeline.Config.File
import ReleasePipeline.Plugin.Fault
import ReleasePipeline.Run.Command
import ReleasePipeline.Template

/-! Everything that can go wrong, sorted by what a caller does about it. -/
namespace ReleasePipeline

/-- What kind of failure it is. -/
inductive FailureKind where
  /-- A configuration or another input is invalid. -/
  | invalid
  /-- Bytes are no text. -/
  | undecodable
  /-- A release step failed. -/
  | failed
  /-- A value of a type that an operation does not take. -/
  | mistyped
  /-- A key that a table does not have. -/
  | missingKey
  /-- An item that a list does not have. -/
  | missingItem
  /-- A part that a value does not have. -/
  | missingPart
  /-- A number that no machine integer holds. -/
  | overflow
  /-- A value that YAML has no form for. -/
  | unrepresentable
  /-- A text with half of a surrogate pair, which no text here can hold. -/
  | unsupported
  /-- A plugin file ended the program. -/
  | stopped
  /-- A file or a directory is not reached or made. -/
  | file (e : FileFault)
deriving DecidableEq, Repr

/-- A failure by its cause. -/
inductive Failure where
  | numeral (e : Decimal.NumeralError)
  | date (e : DateError)
  | tag (e : TagError)
  | bump (e : BumpError)
  | rule (e : RuleError)
  | noteType (e : NoteTypeError)
  | template (e : TemplateError)
  | ref (e : RefError)
  | config (e : ConfigError)
  | utf8 (e : Text.Utf8Error)
  | file (e : FileFault)
  | configFile (e : ConfigFileError)
  | exporting (e : ExportError)
  | noHome
  | emptyCommand
  /-- A command names a tag that is absent. -/
  | absentTag
  | command (e : CommandError)
  | option (e : OptionError)
  | registry (e : RegistryError)
  | invocation (e : InvocationError)
  | step (e : StepError)
  /-- Loading a plugin file ended the program. -/
  | stopped
  /-- The plugin at a place of the configuration, counted from one, makes no step. -/
  | plugin (name : String) (index : Nat) (cause : Failure)
deriving Repr

/-- The kind of a fault in reaching a file. -/
def FileFault.kind (e : FileFault) : FailureKind :=
  if e = .nullCharacter then .invalid else .file e

/-- The kind of an error in a YAML text. -/
def Yaml.ReadError.kind : ReadError → FailureKind
  | .hugeCharacter => .overflow
  | .surrogate => .unsupported
  | .noBool => .missingKey
  | .noDigits => .missingItem
  | .noTimestamp => .missingPart
  | _ => .invalid

/-- The kind of an error in a configuration file. -/
def ConfigFileError.kind : ConfigFileError → FailureKind
  | .unreachable e => e.kind
  | .undecodable _ => .undecodable
  | .json _ .surrogate => .unsupported
  | .yaml _ e => e.kind
  | .config _ .oddKeys => .mistyped
  | _ => .invalid

/-- The kind of an error in exporting a configuration. -/
def ExportError.kind : ExportError → FailureKind
  | .json .noForm => .mistyped
  | .yaml .noForm => .unrepresentable
  | _ => .invalid

/-- The kind of an error in an invocation. -/
def InvocationError.kind : InvocationError → FailureKind
  | .unavailable .. => .failed
  | _ => .invalid

/-- The kind of an error in a step. -/
def StepError.kind : StepError → FailureKind
  | .noCommand => .missingKey
  | .pattern .doubleAsterisk => .invalid
  | .pattern .noNames => .missingItem
  | .pattern .onlySlash => .missingPart
  | _ => .failed

namespace Failure

/-- The kind of a failure. -/
def kind : Failure → FailureKind
  | utf8 _ => .undecodable
  | bump (.unranked _) => .missingKey
  | config .oddKeys => .mistyped
  | file e => e.kind
  | configFile e => e.kind
  | exporting e => e.kind
  | noHome => .failed
  | emptyCommand => .missingItem
  | absentTag => .mistyped
  | command _ => .failed
  | option .presetForm => .mistyped
  | option .oddNames => .mistyped
  | invocation e => e.kind
  | step e => e.kind
  | stopped => .stopped
  | _ => .invalid

/-- The wording of a failure, empty where the program has none of its own. -/
def message : Failure → String
  | numeral e => e.message
  | date e => e.message
  | tag e => e.message
  | bump e => e.message
  | rule e => e.message
  | noteType e => e.message
  | template e => e.message
  | ref e => e.message
  | config e => e.message
  | utf8 e => e.message
  | file e => e.message
  | configFile e => e.message
  | exporting e => e.message
  | noHome => "Could not determine home directory."
  | emptyCommand => ""
  | absentTag => ""
  | command e => e.message
  | option e => e.message
  | registry e => e.message
  | invocation e => e.message
  | step e => e.message
  | stopped => ""
  | plugin name index cause => s!"Invalid plugin {name} (index {index}): {cause.message}"

/-- An input is invalid; bytes that are no text are an invalid input too. -/
def isInvalid (f : Failure) : Bool := f.kind = .invalid || f.kind = .undecodable

end Failure

end ReleasePipeline
