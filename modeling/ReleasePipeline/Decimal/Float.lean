import ReleasePipeline.Decimal.Shortest
import ReleasePipeline.Text.Digit

/-! Floats as texts. -/
namespace ReleasePipeline.Decimal

/-- The sign, mantissa and binary exponent of a finite float. -/
def decodeFinite (x : Float) : Bool × Nat × Int :=
  let bits : Nat := x.toBits.toNat
  let fraction : Nat := bits % Nat.pow 2 52
  let biased : Nat := bits / Nat.pow 2 52 % Nat.pow 2 11
  (bits / Nat.pow 2 63 = 1,
    if biased = 0 then (fraction, -1074) else (Nat.pow 2 52 + fraction, (biased : Int) - 1075))

/-- The exponent of ten with its sign and at least two digits. -/
def exponentText (e : Int) : List Char :=
  let ds := Nat.toDigits 10 e.natAbs
  (if e < 0 then '-' else '+') :: (if ds.length < 2 then '0' :: ds else ds)

/-- The decimal `n · 10^e`. Values from `10^-4` up to `10^16` are written positionally and have at
least one digit after the point; others have one digit before it and an exponent. -/
def decimalText (n : Nat) (e : Int) : List Char :=
  let ds := Nat.toDigits 10 n
  let point : Int := ds.length + e
  if -4 < point && point ≤ 16 then
    if point ≤ 0 then '0' :: '.' :: (List.replicate (-point).toNat '0' ++ ds)
    else if ds.length ≤ point then ds ++ List.replicate (point - ds.length).toNat '0' ++ ['.', '0']
    else ds.take point.toNat ++ '.' :: ds.drop point.toNat
  else
    let tail := if ds.length = 1 then [] else '.' :: ds.drop 1
    ds.take 1 ++ tail ++ 'e' :: exponentText (point - 1)

/-- The shortest text that reads back as the float. -/
def floatText (x : Float) : String :=
  if x.isNaN then "nan"
  else if x.isInf then if x < 0 then "-inf" else "inf"
  else
    let (negative, mantissa, exponent) := decodeFinite x
    let text :=
      if mantissa = 0 then "0.0".toList
      else
        let (n, e) := shortest mantissa exponent
        decimalText n e
    String.ofList (if negative then '-' :: text else text)

/-- Positive infinity. -/
def infinity : Float := 1.0 / 0.0

/-- The float that is no number. -/
def notANumber : Float := 0.0 / 0.0

/-- The float nearest to `mantissa · 10^exponent`. Decimals far outside the range of floats are zero
or infinite without any computation. -/
def nearestFloat (mantissa : Nat) (exponent : Int) : Float :=
  let size : Int := (Nat.toDigits 10 mantissa).length
  if mantissa = 0 then 0.0
  else if 400 < exponent + size then infinity
  else if exponent + size < -400 then 0.0
  else Float.ofScientific mantissa (exponent < 0) exponent.natAbs

/-- The float that decimal digits write: an integer part, a fraction and a power of ten. -/
def floatOfDigits (whole fraction : List Char) (exponent : Int) : Float :=
  nearestFloat (Text.digitsValue (whole ++ fraction)) (exponent - fraction.length)

end ReleasePipeline.Decimal
