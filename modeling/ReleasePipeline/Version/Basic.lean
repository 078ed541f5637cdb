import ReleasePipeline.Decimal.Numeral
import ReleasePipeline.Text.Blank

/-! Versions: their order, their text and the reading of it. -/
namespace ReleasePipeline

/-- A version. A prerelease version names its channel and counts the releases on it. -/
structure Version where
  major : Int
  minor : Int
  patch : Int
  channel : Option String := none
  counter : Option Int := none
deriving DecidableEq, Repr, Inhabited

namespace Version

/-- The text of a version, `1.2.3` or `1.2.3-next.4`. -/
def text (v : Version) : String :=
  let base := s!"{v.major}.{v.minor}.{v.patch}"
  match v.channel with
  | none => base
  | some channel =>
    let counter := (v.counter.map toString).getD "None"
    s!"{base}-{channel}.{counter}"

instance : ToString Version := ⟨text⟩

/-- A version on a prerelease channel. -/
def isPrerelease (v : Version) : Bool := v.channel.isSome

/-- The stable version that a prerelease version leads to. -/
def base (v : Version) : Version := ⟨v.major, v.minor, v.patch, none, none⟩

/-- The numbers of a version. -/
def numbers (v : Version) : List Int := [v.major, v.minor, v.patch] ++ v.counter.toList

/-- Every number of the version is short enough to be written. -/
def isWritable (v : Version) : Bool := v.numbers.all Decimal.isWritable

/-- The text of a version whose numbers can be written. -/
def written (v : Version) : Except Decimal.NumeralError String :=
  if v.isWritable then .ok v.text else .error .writing

/-- What versions are ordered by, part by part. -/
structure Rank where
  major : Int
  minor : Int
  patch : Int
  stability : Nat
  channel : String
  counter : Int
deriving DecidableEq, Repr, Inhabited

namespace Rank

/-- The order of ranks: by the first part in which they differ. -/
def cmp (a b : Rank) : Ordering :=
  (compare a.major b.major).then <| (compare a.minor b.minor).then <|
  (compare a.patch b.patch).then <| (compare a.stability b.stability).then <|
  (compare a.channel b.channel).then (compare a.counter b.counter)

end Rank

/-- The rank of a version. A stable version comes after every prerelease version of its base, and an
absent counter counts as zero. -/
def rank (v : Version) : Rank :=
  match v.channel with
  | none => ⟨v.major, v.minor, v.patch, 1, "", 0⟩
  | some channel => ⟨v.major, v.minor, v.patch, 0, channel, v.counter.getD 0⟩

/-- The first of the versions of greatest rank. -/
def greatest? : List Version → Option Version
  | [] => none
  | v :: vs => some (vs.foldl (fun best w => if w.rank.cmp best.rank = .gt then w else best) v)

/-- The versions in ascending rank; versions of one rank keep their order. -/
def sort (vs : List Version) : List Version :=
  vs.mergeSort fun a b => a.rank.cmp b.rank ≠ .gt

/-- Reads a number without superfluous zeros. The first digit is an ASCII one, later digits may be of
any script. -/
def takeNumber? : List Char → Option (List Char × List Char)
  | [] => none
  | c :: cs =>
    if c = '0' then some ([c], cs)
    else if Text.isLeadingDigit c then
      some (c :: cs.takeWhile Text.isDigit, cs.dropWhile Text.isDigit)
    else none

/-- The characters of a channel name. -/
def isChannelChar (c : Char) : Bool := c.isAlphanum || c = '-'

/-- Reads a given character. -/
def takeChar? (wanted : Char) : List Char → Option (List Char)
  | c :: cs => if c = wanted then some cs else none
  | [] => none

/-- The parts of a version text: three numbers, and a channel with its counter. -/
structure Parts where
  major : List Char
  minor : List Char
  patch : List Char
  suffix : Option (List Char × List Char)
deriving Repr

/-- Splits a text into the parts of a version, if it is the text of one. -/
def parts? (cs : List Char) : Option Parts := do
  let (major, cs) ← takeNumber? cs
  let cs ← takeChar? '.' cs
  let (minor, cs) ← takeNumber? cs
  let cs ← takeChar? '.' cs
  let (patch, cs) ← takeNumber? cs
  if cs.isEmpty then return ⟨major, minor, patch, none⟩
  let cs ← takeChar? '-' cs
  let channel := cs.takeWhile isChannelChar
  if channel.isEmpty then none
  let cs ← takeChar? '.' (cs.dropWhile isChannelChar)
  let (counter, cs) ← takeNumber? cs
  if cs.isEmpty then return ⟨major, minor, patch, some (channel, counter)⟩
  none

/-- The version whose parts are given. The counter is read first. -/
def ofParts (p : Parts) : Except Decimal.NumeralError Version := do
  let suffix ← p.suffix.mapM fun (channel, counter) => do
    return (String.ofList channel, (← Decimal.readNatural counter))
  let major ← Decimal.readNatural p.major
  let minor ← Decimal.readNatural p.minor
  let patch ← Decimal.readNatural p.patch
  return ⟨major, minor, patch, suffix.map (·.1), suffix.map fun s => (s.2 : Int)⟩

/-- The version that a text names between blanks, none if it names none. -/
def read (s : String) : Except Decimal.NumeralError (Option Version) :=
  (parts? (Text.stripChars s.toList)).mapM ofParts

end Version

end ReleasePipeline
