/-! The shortest decimal that reads back as a float: the fewest digits, and of those the nearest. -/
namespace ReleasePipeline.Decimal

/-- A positive real `num / den`. -/
structure Ratio where
  num : Nat
  den : Nat
deriving Repr

namespace Ratio

/-- The product of a natural number and a power of ten. -/
def ofScaled (n : Nat) (exponent : Int) : Ratio :=
  if exponent < 0 then ⟨n, Nat.pow 10 exponent.natAbs⟩
  else ⟨n * Nat.pow 10 exponent.natAbs, 1⟩

/-- The product of a natural number and a power of two. -/
def ofBinary (n : Nat) (exponent : Int) : Ratio :=
  if exponent < 0 then ⟨n, Nat.pow 2 exponent.natAbs⟩
  else ⟨n * Nat.pow 2 exponent.natAbs, 1⟩

/-- The order of two reals. -/
def cmp (a b : Ratio) : Ordering := compare (a.num * b.den) (b.num * a.den)

/-- The distance of two reals. -/
def distance (a b : Ratio) : Ratio :=
  let l := a.num * b.den
  let r := b.num * a.den
  ⟨max l r - min l r, a.den * b.den⟩

/-- The greatest natural number not above the real divided by a power of ten. -/
def floorScaled (a : Ratio) (exponent : Int) : Nat :=
  if exponent < 0 then a.num * Nat.pow 10 exponent.natAbs / a.den
  else a.num / (a.den * Nat.pow 10 exponent.natAbs)

end Ratio

/-- The reals that round to a float: those between `low` and `high`, ends included when `closed`. -/
structure Interval where
  value : Ratio
  low : Ratio
  high : Ratio
  closed : Bool
deriving Repr

namespace Interval

/-- The interval of the float `mantissa · 2^exponent`. Below a power of two the gap to the next
float is half as wide. -/
def ofFloat (mantissa : Nat) (exponent : Int) : Interval :=
  let below := if mantissa = Nat.pow 2 52 && -1074 < exponent then 1 else 2
  { value := .ofBinary mantissa exponent
    low := .ofBinary (4 * mantissa - below) (exponent - 2)
    high := .ofBinary (4 * mantissa + 2) (exponent - 2)
    closed := mantissa % 2 = 0 }

/-- The real rounds to the float. -/
def admits (i : Interval) (r : Ratio) : Bool :=
  match i.low.cmp r, r.cmp i.high with
  | .lt, .lt => true
  | .eq, _ | _, .eq => i.closed
  | _, _ => false

end Interval

/-- The digits of `n` without the zeros at its end, with the power of ten that takes them. -/
def trimZeros (fuel n : Nat) (exponent : Int) : Nat × Int :=
  match fuel with
  | 0 => (n, exponent)
  | fuel + 1 => if n % 10 = 0 then trimZeros fuel (n / 10) (exponent + 1) else (n, exponent)

/-- Of the two neighbours of the value on the grid of multiples of a power of ten, the one that
rounds to the float; of two the nearer, of two equally near the even one. -/
def onGrid? (i : Interval) (exponent : Int) : Option Nat :=
  let n := i.value.floorScaled exponent
  let below := Ratio.ofScaled n exponent
  let above := Ratio.ofScaled (n + 1) exponent
  match n ≠ 0 && i.admits below, i.admits above with
  | true, true =>
    match (i.value.distance below).cmp (i.value.distance above) with
    | .lt => some n
    | .gt => some (n + 1)
    | .eq => some (if n % 2 = 0 then n else n + 1)
  | true, false => some n
  | false, true => some (n + 1)
  | false, false => none

/-- The exponent of the first decimal digit: the greatest power of ten not above the value, searched
downward from `top`. -/
def leading (fuel : Nat) (r : Ratio) (top : Int) : Int :=
  match fuel with
  | 0 => top
  | fuel + 1 => if (Ratio.ofScaled 1 top).cmp r = .gt then leading fuel r (top - 1) else top

/-- Tries grids of ever more digits. -/
def search (i : Interval) (first : Int) : (tries digits : Nat) → Nat × Int
  | 0, _ => (i.value.floorScaled (first - 16), first - 16)
  | tries + 1, digits =>
    let exponent := first - digits
    match onGrid? i exponent with
    | some n => (n, exponent)
    | none => search i first tries (digits + 1)

/-- The digits and the exponent of ten of the shortest decimal that rounds to the float
`mantissa · 2^exponent`; at most 17 digits are needed. -/
def shortest (mantissa : Nat) (exponent : Int) : Nat × Int :=
  let i := Interval.ofFloat mantissa exponent
  let top : Int := ((mantissa.log2 : Int) + exponent) * 30103 / 100000 + 2
  let (n, e) := search i (leading 5 i.value top) 17 0
  trimZeros 20 n e

end ReleasePipeline.Decimal
