import ReleasePipeline.Commit.Basic
import ReleasePipeline.Version.Next

/-! Release rules: which bump a commit asks for. -/
namespace ReleasePipeline

/-- Why a value is no list of release rules. Entries are counted from one. -/
inductive RuleError where
  | notTables
  | release (entry : Nat)
deriving DecidableEq, Repr

namespace RuleError

def message : RuleError → String
  | notTables => "'releaseRules' must be a list of tables"
  | release entry => s!"releaseRules entry {entry}: 'release' must be major|minor|patch|false"

end RuleError

/-- A release rule: the bump it decides on and what it asks of a commit. -/
structure Rule where
  release : Option Bump
  type : Option Value
  scope : Option Value
  breaking : Option Value
deriving Repr, Inhabited

namespace Rule

/-- The release of a rule is a bump or `false`. -/
def isRelease (v : Value) : Bool :=
  match v with
  | .bool b => !b
  | v => (v.asString?.bind Bump.ofName?).isSome

/-- The tables of a value that is a list of rules. Null is the empty list. -/
def tables (v : Value) : Except RuleError (List Table) :=
  if v.isNull then .ok []
  else match v.asList?.bind fun items => items.mapM Value.asTable? with
    | none => .error .notTables
    | some ts =>
      match ts.findIdx? fun t => !isRelease (t.getD "release") with
      | some i => .error (.release (i + 1))
      | none => .ok ts

/-- The rule of a table. -/
def ofTable (t : Table) : Rule :=
  { release := (t.getD "release").asString?.bind Bump.ofName?
    type := t.get? "type"
    scope := t.get? "scope"
    breaking := t.get? "breaking" }

/-- The kind of bump that the release of a table names. `false` asks for no release. -/
def kind (t : Table) : Option BumpKind :=
  match t.getD "release" with
  | .null | .bool false => none
  | v => some (.ofValue v)

/-- The rules of a value. -/
def listOf (v : Value) : Except RuleError (List Rule) := (tables v).map fun ts => ts.map ofTable

/-- The value of an optional text, `null` for none. -/
def textValue (s : Option String) : Value := (s.map Value.string).getD .null

/-- A condition that is absent, or whose value is the commit's. -/
def holds (condition : Option Value) (actual : Value) : Bool :=
  condition.all fun expected => expected.sameKey actual

/-- The condition on the scope. The scope `*` asks for a commit with any scope. -/
def holdsScope (condition : Option Value) (scope : Option String) : Bool :=
  match condition.bind Value.asString? with
  | some "*" => scope.isSome
  | _ => holds condition (textValue scope)

/-- All conditions of the rule hold of the commit. -/
def applies (r : Rule) (c : Commit) : Bool :=
  holds r.type (textValue c.type) && holdsScope r.scope c.scope &&
    holds r.breaking (.bool c.breaking)

end Rule

namespace Commit

/-- The bump of a commit to which no rule applies. -/
def defaultBump (c : Commit) : Option Bump :=
  if c.breaking then some .major
  else match c.type with
    | some "feat" | some "feature" => some .minor
    | some "fix" | some "perf" => some .patch
    | _ => none

/-- The bump of a commit: the first rule that applies decides. -/
def bump (rules : List Rule) (c : Commit) : Option Bump :=
  match rules.find? fun r => r.applies c with
  | some r => r.release
  | none => c.defaultBump

/-- The greatest bump of the commits. -/
def releaseBump (rules : List Rule) (cs : List Commit) : Option Bump :=
  Bump.greatest (cs.map (bump rules))

/-- The kind of bump of a commit, as the tables of the rules name it. -/
def kind (ts : List Table) (c : Commit) : Option BumpKind :=
  match ts.find? fun t => (Rule.ofTable t).applies c with
  | some t => Rule.kind t
  | none => c.defaultBump.map .known

/-- The greatest kind of the commits, as the tables of the rules name them. -/
def releaseKind (ts : List Table) (cs : List Commit) : Except BumpError (Option BumpKind) :=
  BumpKind.greatest (cs.map (kind ts))

end Commit

end ReleasePipeline
