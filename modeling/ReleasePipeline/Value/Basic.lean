import ReleasePipeline.Calendar.Moment
import ReleasePipeline.Decimal.Float

/-! The values that configuration files hold. -/
namespace ReleasePipeline

/-- A value of a configuration file. Tables keep their entries in the order of insertion, one for
each key. -/
inductive Value where
  | null
  | bool (b : Bool)
  | int (n : Int)
  | float (x : Float)
  | string (s : String)
  | date (d : Date)
  | moment (m : Moment)
  | time (t : TimeOfDay)
  | bytes (bs : List UInt8)
  | list (items : List Value)
  | table (entries : List (Value × Value))
  | set (items : List Value)
  /-- An entry of a mapping that is written as a list. -/
  | pair (key value : Value)
  /-- A value that stands at several places of its document; the label tells which places. -/
  | shared (label : Nat) (value : Value)
  /-- The enclosing shared value of that label. -/
  | loop (label : Nat)
deriving Inhabited, Repr

/-- The entries of a table. -/
abbrev Table := List (Value × Value)

namespace Value

/-- The value without the labels of its sharing. -/
def bare : Value → Value
  | shared _ v => v.bare
  | v => v

/-- The text of a string. -/
def asString? : Value → Option String
  | string s => some s
  | _ => none

/-- The text of a string that is not empty. -/
def asName? : Value → Option String
  | string s => if s.isEmpty then none else some s
  | _ => none

/-- The truth value of a boolean. -/
def asBool? : Value → Option Bool
  | bool b => some b
  | _ => none

/-- The items of a list. -/
def asList? (v : Value) : Option (List Value) :=
  match v.bare with
  | list items => some items
  | _ => none

/-- The entries of a table. -/
def asTable? (v : Value) : Option Table :=
  match v.bare with
  | table entries => some entries
  | _ => none

def isNull : Value → Bool
  | null => true
  | _ => false

/-- The integer that a finite float equals. -/
def integerOf? (x : Float) : Option Int :=
  if x.isNaN || x.isInf then none
  else
    let (negative, mantissa, exponent) := Decimal.decodeFinite x
    let scale := Nat.pow 2 exponent.natAbs
    let n? : Option Nat :=
      if 0 ≤ exponent then some (mantissa * scale)
      else if mantissa % scale = 0 then some (mantissa / scale)
      else none
    n?.map fun n => if negative then -(n : Int) else n

/-- Numbers in one form: booleans and whole floats become integers. -/
def numeric : Value → Value
  | bool b => int b.toNat
  | float x => (integerOf? x).elim (float x) int
  | v => v

/-- Equality of the values that can be keys. Numbers are equal when they have the same value, and a
list or a table equals nothing. -/
def sameKey (a b : Value) : Bool :=
  match a.bare.numeric, b.bare.numeric with
  | null, null => true
  | int m, int n => m = n
  | float x, float y => x == y
  | string s, string t => s = t
  | date d, date e => d = e
  | moment m, moment n => m = n
  | time s, time t => s = t
  | bytes x, bytes y => x = y
  | _, _ => false

/-- Lists, tables and sets can be no key, and no part of one. -/
def isKey : Value → Bool
  | list _ | table _ | set _ | loop _ => false
  | pair key value => key.isKey && value.isKey
  | shared _ v => v.isKey
  | _ => true

/-- The value can be looked for among keys. That can be keys and sets, which equal none. -/
def isSought (v : Value) : Bool :=
  match v.bare with
  | set _ => true
  | v => v.isKey

end Value

namespace Table

/-- The value under a string. -/
def get? (t : Table) (key : String) : Option Value :=
  (t.find? fun (k, _) => match k with | .string s => s = key | _ => false).map (·.2)

/-- The value under a string, `null` when the table has none. -/
def getD (t : Table) (key : String) : Value := (t.get? key).getD .null

/-- The table with `value` under `key`: in the place that the key has, or at the end. -/
def insert (key value : Value) : Table → Table
  | [] => [(key, value)]
  | (k, v) :: rest =>
    if k.sameKey key then (k, value) :: rest else (k, v) :: insert key value rest

/-- The table of entries of which a later one replaces an earlier one of the same key. -/
def ofEntries (entries : List (Value × Value)) : Table :=
  entries.foldl (fun t (k, v) => insert k v t) []

/-- The table with these names and values. -/
def ofNames (entries : List (String × Value)) : Table :=
  entries.map fun (k, v) => (.string k, v)

def keys (t : Table) : List Value := t.map (·.1)

end Table

end ReleasePipeline
