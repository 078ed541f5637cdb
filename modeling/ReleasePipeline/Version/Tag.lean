import ReleasePipeline.Version.Basic
import ReleasePipeline.Text.Search
import ReleasePipeline.Text.Quoted

/-! Tags: the names under which a repository keeps its versions. -/
namespace ReleasePipeline

/-- What stands in a tag format for the version. -/
def versionMark : String := "${version}"

/-- Why there is no tag or no version of a tag. -/
inductive TagError where
  /-- The tag format does not mention the version. -/
  | noMark (format : String)
  /-- A number of the version is too long. -/
  | numeral (e : Decimal.NumeralError)
deriving DecidableEq, Repr

namespace TagError

def message : TagError → String
  | noMark format => s!"tag format must contain $\x7bversion\x7d: {Text.quoted format}"
  | numeral e => e.message

end TagError

namespace Tag

/-- The tag of a version: the format with the version in place of every mark. -/
def ofVersion (format : String) (v : Version) : Except TagError String :=
  if !Text.contains versionMark format then .error (.noMark format)
  else (v.written.mapError .numeral).map fun text => Text.replaceAll versionMark text format

/-- The text that stands in a tag in place of the first mark of the format. -/
def inner? (format tag : String) : Option String := do
  let (before, after) ← Text.cutAt? versionMark.toList format.toList
  let rest ← Text.dropStart? before tag.toList
  let inner ← Text.dropEnd? after rest
  return String.ofList inner

/-- The version of a tag, none if the tag is of another form. -/
def version? (format tag : String) : Except TagError (Option Version) :=
  if !Text.contains versionMark format then .error (.noMark format)
  else match inner? format tag with
    | none => .ok none
    | some inner => (Version.read inner).mapError .numeral

end Tag

end ReleasePipeline
