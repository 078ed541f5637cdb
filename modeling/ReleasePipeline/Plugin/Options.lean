import ReleasePipeline.Plugin.Basic

/-! Reading the options of plugins. -/
namespace ReleasePipeline.Options

/-- The value of an option, or the value that stands for an absent one. -/
def getOr (options : Table) (name : String) (absent : Value) : Value :=
  (options.get? name).getD absent

/-- The options name a preset that is known. -/
def checkPreset (plugin : String) (options : Table) : Except Failure Unit :=
  match options.get? "preset" with
  | none => .ok ()
  | some v =>
    if !v.isSought then .error (.option .presetForm)
    else if v.asString?.any knownPresets.contains then .ok ()
    else .error (.option (.preset plugin v))

/-- A text that may be left out but not be empty. -/
def optionalText (options : Table) (name : String) : Except Failure (Option String) :=
  match options.getD name with
  | .null => .ok none
  | v => match v.asName? with
    | some s => .ok (some s)
    | none => .error (.option (.emptyOption name))

/-- The names that every release has values for. -/
def knownPlaceholders : List String :=
  ["branch.name", "lastRelease.version", "lastRelease.gitTag", "nextRelease.version",
   "nextRelease.gitTag", "nextRelease.channel", "nextRelease.notes"]

/-- A template whose placeholders are all known. -/
def template (name : String) (v : Value) : Except Failure String :=
  match v.asName? with
  | none => .error (.option (.notText name))
  | some text =>
    match (Template.placeholders text).filter fun p => !knownPlaceholders.contains p with
    | [] => .ok text
    | unknown => .error (.option (.placeholders name unknown))

/-- The template filled in with the values of a release. -/
def filled (text : String) (r : Release) : Except Failure String := do
  let values ← r.values.mapError .numeral
  (Template.render text values).mapError .template

/-- Fills in a template with the values of the release. -/
def fillIn (text : String) : Action String := do
  Action.ofExcept (filled text (← Action.release))

/-- The next version inside a text. -/
def nextText : Action String := do
  Action.ofExcept ((← Action.release).nextText.mapError .numeral)

/-- The full name of a plugin and the part after its slash. -/
def handlers (fullName : String) : List Handler :=
  [.name (.string fullName),
   .name (.string (((Text.splitOn '/' fullName).getLast?).getD fullName))]

/-- A plugin is available where a program is installed. -/
def needsTool (tool : String) (w : World) : Availability :=
  if w.tools.contains tool then .available
  else .unavailable (some s!"{quoteMark}{tool}{quoteMark} not found on PATH")
where
  /-- The mark around the name of a program. -/
  quoteMark : String := "\x60"

/-- A plugin is available where a program is installed, and in dry runs everywhere. -/
def needsToolToChange (tool : String) (s : Settings) (w : World) : Availability :=
  if s.dryRun then .available else needsTool tool w

end ReleasePipeline.Options
