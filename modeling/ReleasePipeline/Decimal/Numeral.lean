import ReleasePipeline.Text.Digit

/-! Whole numbers as texts, up to a greatest number of digits. -/
namespace ReleasePipeline.Decimal

/-- The greatest number of digits that is read or written. -/
def maxDigits : Nat := 4300

/-- A numeral is longer than `maxDigits`. -/
inductive NumeralError where
  /-- A text of this many digits was to be read. -/
  | reading (digits : Nat)
  /-- A number was to be written. -/
  | writing
deriving DecidableEq, Repr

namespace NumeralError

def message : NumeralError → String
  | reading digits =>
    s!"Exceeds the limit ({maxDigits} digits) for integer string conversion: value has {digits} digits; use sys.set_int_max_str_digits() to increase the limit"
  | writing =>
    s!"Exceeds the limit ({maxDigits} digits) for integer string conversion; use sys.set_int_max_str_digits() to increase the limit"

end NumeralError

/-- The number that a row of decimal digits names. -/
def readNatural (ds : List Char) : Except NumeralError Nat :=
  if maxDigits < ds.length then .error (.reading ds.length) else .ok (Text.digitsValue ds)

/-- The number has at most `maxDigits` digits. -/
def isWritable (n : Int) : Bool := n.natAbs < Nat.pow 10 maxDigits

end ReleasePipeline.Decimal
