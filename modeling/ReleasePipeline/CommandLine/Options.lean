import ReleasePipeline.Text.Digit
import ReleasePipeline.Text.Search

/-! Options of a command line: `--name`, `--name value` and `--name=value`. A name may be cut to any
beginning that no other option shares. -/
namespace ReleasePipeline.CommandLine

/-- An option. -/
structure OptionSpec where
  /-- The name with its dashes. -/
  name : String
  takesValue : Bool := true
  /-- The values that the option takes; any value where there are none. -/
  choices : List String := []
deriving DecidableEq, Repr

/-- The option that asks for help. -/
def helpOption : OptionSpec := { name := "--help", takesValue := false }

/-- Why the words of a command line are no request. -/
inductive Refusal where
  | usage
  /-- The words ask for help. -/
  | help
deriving DecidableEq, Repr

/-- What a word of a command line is. -/
inductive Word where
  | operand
  | option (o : OptionSpec) (value : Option String)
  /-- An option that nobody knows, or the mark that ends the options. -/
  | stray
deriving DecidableEq, Repr

/-- The word that ends the options. -/
def endMark : String := "--"

/-- The characters are a decimal number after a minus sign, perhaps with a line feed behind it. -/
def isNegativeNumber (cs : List Char) : Bool :=
  match cs with
  | '-' :: rest =>
    let rest := if rest.getLast? = some '\n' then rest.dropLast else rest
    match rest.dropWhile Text.isDigit with
    | [] => !rest.isEmpty
    | '.' :: digits => !digits.isEmpty && digits.all Text.isDigit
    | _ => false
  | _ => false

/-- The request for help that begins with `-h`. More letters may follow, a value may not. -/
def shortHelp (rest : List Char) : Word :=
  match rest.dropWhile (· = 'h') with
  | '=' :: value => .option helpOption (some (String.ofList value))
  | '-' :: value => .option helpOption (some (String.ofList value))
  | _ => .option helpOption none

/-- The name of an option before an equals sign, and the value after it. -/
def splitValue (word : String) : String × Option String :=
  match Text.cutAt? ['='] word.toList with
  | some (name, value) => (String.ofList name, some (String.ofList value))
  | none => (word, none)

/-- The options that a beginning of a name leads to. A whole name leads to its option alone. -/
def optionsFor (specs : List OptionSpec) (name : String) : List OptionSpec :=
  match specs.find? fun o => o.name = name with
  | some o => [o]
  | none =>
    if Text.startsWith endMark name then specs.filter fun o => Text.startsWith name o.name else []

/-- What a word is among some options. -/
def Word.of (specs : List OptionSpec) (word : String) : Except Refusal Word :=
  match word.toList with
  | '-' :: 'h' :: rest => .ok (shortHelp rest)
  | ['-'] => .ok .operand
  | '-' :: rest =>
    let (name, value) := splitValue word
    match optionsFor specs name with
    | [o] => .ok (.option o value)
    | [] => .ok (if isNegativeNumber ('-' :: rest) || rest.contains ' ' then .operand else .stray)
    | _ => .error .usage
  | _ => .ok .operand

/-- The words with what they are. After the end mark all of them are operands. -/
def classify (specs : List OptionSpec) : List String → Except Refusal (List (String × Word))
  | [] => .ok []
  | w :: rest =>
    if w = endMark then .ok ((w, .stray) :: rest.map fun w => (w, .operand))
    else do
      let word ← Word.of specs w
      return (w, word) :: (← classify specs rest)

/-- An option that is given, with its value. -/
structure Setting where
  name : String
  value : String := ""
deriving DecidableEq, Repr

/-- The setting of an option. -/
def OptionSpec.setting (o : OptionSpec) (value : String) : Except Refusal Setting :=
  if o.choices.isEmpty || o.choices.contains value then .ok ⟨o.name, value⟩ else .error .usage

/-- The settings among words that are all options and their values. The flag says that nothing else
stood before them. -/
def settingsOf (clean : Bool) : List (String × Word) → Except Refusal (List Setting)
  | [] => if clean then .ok [] else .error .usage
  | (_, .operand) :: rest => settingsOf false rest
  | (_, .stray) :: rest => settingsOf false rest
  | (_, .option o value) :: rest =>
    match o.takesValue, value, rest with
    | false, some _, _ => .error .usage
    | false, none, rest =>
      if o = helpOption then .error .help else do
        return ⟨o.name, ""⟩ :: (← settingsOf clean rest)
    | true, some value, rest => do
      let setting ← o.setting value
      return setting :: (← settingsOf clean rest)
    | true, none, (value, .operand) :: rest => do
      let setting ← o.setting value
      return setting :: (← settingsOf clean rest)
    | true, none, _ => .error .usage

/-- The settings that the words of a command line make. -/
def readSettings (specs : List OptionSpec) (words : List String) :
    Except Refusal (List Setting) := do
  settingsOf true (← classify (helpOption :: specs) words)

/-- The values of an option, in order. -/
def valuesOf (settings : List Setting) (name : String) : List String :=
  (settings.filter fun s => s.name = name).map (·.value)

/-- The last value of an option. -/
def valueOf? (settings : List Setting) (name : String) : Option String :=
  (valuesOf settings name).getLast?

/-- The option is given. -/
def isSet (settings : List Setting) (name : String) : Bool := settings.any fun s => s.name = name

end ReleasePipeline.CommandLine
