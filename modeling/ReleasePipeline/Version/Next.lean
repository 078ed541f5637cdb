import ReleasePipeline.Version.Basic
import ReleasePipeline.Value.Quoted

/-! Bumps, the last release and the next version. -/
namespace ReleasePipeline

/-- Which number of a version a release raises. -/
inductive Bump where
  | patch
  | minor
  | major
deriving DecidableEq, Repr, Inhabited

namespace Bump

/-- The weight of a bump. -/
def weight : Bump → Nat
  | patch => 1
  | minor => 2
  | major => 3

/-- The name of a bump. -/
def name : Bump → String
  | patch => "patch"
  | minor => "minor"
  | major => "major"

/-- The bump of a name. -/
def ofName? (s : String) : Option Bump := [patch, minor, major].find? fun b => b.name = s

/-- The greater of two bumps, where none is the least. -/
def join : Option Bump → Option Bump → Option Bump
  | none, b => b
  | a, none => a
  | some a, some b => some (if a.weight < b.weight then b else a)

/-- The greatest of the bumps. -/
def greatest (bs : List (Option Bump)) : Option Bump := bs.foldl join none

end Bump

/-- The bump that a step asks for: one of the three, or a value that is none of them. -/
inductive BumpKind where
  | known (b : Bump)
  | unknown (v : Value)
deriving Repr, Inhabited

/-- Why a kind of bump cannot be used. -/
inductive BumpError where
  /-- No number of a version belongs to the kind. -/
  | unexpected (v : Value)
  /-- The kind has no weight. -/
  | unranked (v : Value)
deriving Repr

namespace BumpError

def message : BumpError → String
  | unexpected v => s!"unexpected bump kind: {v.quoted}"
  | unranked v => v.quoted

end BumpError

namespace BumpKind

/-- The kind that a value names. -/
def ofValue (v : Value) : BumpKind :=
  match v.asString?.bind Bump.ofName? with
  | some b => known b
  | none => unknown v

/-- The value that names the kind. -/
def toValue : BumpKind → Value
  | known b => .string b.name
  | unknown v => v

/-- The name of the kind inside a text. -/
def text (k : BumpKind) : String := k.toValue.inText

/-- The bump of a known kind. -/
def bump? : BumpKind → Option Bump
  | known b => some b
  | unknown _ => none

/-- The greatest of the kinds. One kind alone needs no weight. -/
def greatest (kinds : List (Option BumpKind)) : Except BumpError (Option BumpKind) :=
  match kinds.filterMap id with
  | [] => .ok none
  | [k] => .ok (some k)
  | ks =>
    match ks.find? fun k => k.bump?.isNone with
    | some k => .error (.unranked k.toValue)
    | none => .ok ((Bump.greatest (ks.map bump?)).map known)

end BumpKind

namespace Version

/-- The version after a bump: the bumped number grows by one and the later ones become zero. -/
def bumped (v : Version) : Bump → Version
  | .major => ⟨v.major + 1, 0, 0, none, none⟩
  | .minor => ⟨v.major, v.minor + 1, 0, none, none⟩
  | .patch => ⟨v.major, v.minor, v.patch + 1, none, none⟩

/-- The version after a bump of the given kind. -/
def bumpedBy (v : Version) : BumpKind → Except BumpError Version
  | .known b => .ok (v.bumped b)
  | .unknown k => .error (.unexpected k)

/-- The version of the first release. -/
def first : Version := ⟨1, 0, 0, none, none⟩

/-- The greatest of the stable versions and, for a channel, of the versions on it. -/
def lastRelease (versions : List Version) (channel : Option String) : Option Version :=
  greatest? (versions.filter fun v => v.channel.isNone || (channel.isSome && v.channel = channel))

/-- The stable version that a bump leads to: the greatest stable one bumped, or the first one. -/
def target (versions : List Version) (b : Bump) : Version :=
  match lastRelease versions none with
  | none => first
  | some v => v.bumped b

/-- The prerelease version on a channel that leads to `goal`. It counts on from the latest version of
the channel if that one leads to `goal` or further. -/
def onChannel (versions : List Version) (goal : Version) (channel : String) : Version :=
  match greatest? (versions.filter fun v => v.channel = some channel) with
  | some latest =>
    if latest.base.rank.cmp goal.rank ≠ .lt then
      ⟨latest.major, latest.minor, latest.patch, some channel, some (latest.counter.getD 0 + 1)⟩
    else ⟨goal.major, goal.minor, goal.patch, some channel, some 1⟩
  | none => ⟨goal.major, goal.minor, goal.patch, some channel, some 1⟩

/-- The next version after the known ones, stable or on a channel. -/
def next (versions : List Version) (b : Bump) (channel : Option String) : Version :=
  match channel with
  | none => target versions b
  | some c => onChannel versions (target versions b) c

/-- The next version for a kind of bump. The kind matters only after a stable version. -/
def nextFor (versions : List Version) (kind : BumpKind) (channel : Option String) :
    Except BumpError Version :=
  match kind, lastRelease versions none with
  | .known b, _ => .ok (next versions b channel)
  | .unknown _, none => .ok (next versions .major channel)
  | .unknown k, some _ => .error (.unexpected k)

end Version

end ReleasePipeline
