import ReleasePipeline.Text.Blank
import ReleasePipeline.Text.Line
import ReleasePipeline.Text.Search

/-! The version in a manifest: the first `version = "…"` in its `[package]` table. -/
namespace ReleasePipeline.Manifest

/-- The name of the table that the line opens: what stands between brackets, with blanks around them
and nothing else. -/
def tableName? (line : List Char) : Option (List Char) :=
  match line.dropWhile Text.isBlank with
  | '[' :: rest =>
    let isInner := fun c => c ≠ '[' && c ≠ ']'
    let name := rest.takeWhile isInner
    match rest.dropWhile isInner with
    | ']' :: after =>
      if !name.isEmpty && after.all Text.isBlank then some (Text.stripChars name) else none
    | _ => none
  | _ => none

/-- The parts of a version line before, between and after its quotes. -/
structure VersionLine where
  before : List Char
  version : List Char
  after : List Char
deriving DecidableEq, Repr

/-- The parts of a line that sets the version to a quoted text. -/
def VersionLine.of? (line : List Char) : Option VersionLine := do
  let rest ← Text.dropStart? "version".toList (line.dropWhile Text.isBlank)
  match rest.dropWhile Text.isBlank with
  | '=' :: rest =>
    match rest.dropWhile Text.isBlank with
    | '"' :: rest =>
      let version := rest.takeWhile (· ≠ '"')
      match rest.dropWhile (· ≠ '"') with
      | '"' :: after =>
        let before := line.take (line.length - rest.length - 1)
        return ⟨before, version, after⟩
      | _ => none
    | _ => none
  | _ => none

/-- The line with another version. -/
def VersionLine.withVersion (l : VersionLine) (version : List Char) : List Char :=
  l.before ++ '"' :: version ++ '"' :: l.after

/-- The line of a manifest without the feeds and returns at its end, and these. -/
def splitEnding (l : Text.Line) : List Char × List Char :=
  let body := Text.dropEndWhile (fun c => c = '\r' || c = '\n') l.chars
  (body, l.chars.drop body.length)

/-- Sets the version of the lines that follow a line of the table `table`. The result says whether
there was one to set. -/
def setInLines (version : List Char) (table : Option (List Char)) :
    List Text.Line → List (List Char) × Bool
  | [] => ([], false)
  | l :: ls =>
    match tableName? l.chars with
    | some name =>
      let (rest, changed) := setInLines version (some name) ls
      (l.chars :: rest, changed)
    | none =>
      let (body, ending) := splitEnding l
      match if table = some "package".toList then VersionLine.of? body else none with
      | some v => ((v.withVersion version ++ ending) :: ls.map Text.Line.chars, true)
      | none =>
        let (rest, changed) := setInLines version table ls
        (l.chars :: rest, changed)

/-- The manifest with another version, and whether it had one. All else stays as it is. -/
def setVersion (text version : String) : String × Bool :=
  let (lines, changed) := setInLines version.toList none (Text.lines text.toList)
  (String.ofList lines.flatten, changed)

end ReleasePipeline.Manifest
