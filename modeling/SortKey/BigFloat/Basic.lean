import SortKey.Radix
import SortKey.Ieee
import SortKey.RoundingMode

/-! Binary floating point numbers of any precision. A finite value is `±0.m × 2^exponent` with the
first bit of `m` set, so that `1/2 ≤ 0.m < 1`; the mantissa is kept as the odd natural with the bits
of `m`. Nothing here rounds: a value that does not fit the precision it declares is refused. -/
namespace SortKey

/-- Zeros and infinities carry only a sign. -/
inductive BigFloat where
  | zero (negative : Bool)
  | infinite (negative : Bool)
  | finite (negative : Bool) (mantissa : Nat) (exponent : Int) (precision : Nat) (mode : RoundingMode)
  deriving DecidableEq, Repr

namespace BigFloat

/-- Why a value cannot be made. -/
inductive Refusal where
  | nan
  | exponent (exponent : Int)
  | precision (precision : Nat)
  | mantissa (bits precision : Nat)
  | other (text : String)
  deriving DecidableEq, Repr

def Refusal.message : Refusal → String
  | .nan => "NaN has no big float representation"
  | .exponent e => s!"exponent {e} is out of range"
  | .precision p => s!"precision {p} is out of range"
  | .mantissa bits p => s!"mantissa needs {bits} bits but the precision is {p}"
  | .other text => text

def maxPrecision : Nat := 2147483647

def negative : BigFloat → Bool
  | .zero neg | .infinite neg | .finite neg .. => neg

def mantissa : BigFloat → Nat
  | .finite _ m .. => m
  | _ => 0

def exponent : BigFloat → Int
  | .finite _ _ e .. => e
  | _ => 0

def precision : BigFloat → Nat
  | .finite _ _ _ p _ => p
  | _ => 0

def mode : BigFloat → RoundingMode
  | .finite _ _ _ _ mode => mode
  | _ => RoundingMode.default

def formName : BigFloat → String
  | .zero _ => "zero"
  | .infinite _ => "infinite"
  | .finite .. => "finite"

/-- The finite value with an odd mantissa and an exponent that are already known to be right. -/
def ofMantissa (negative : Bool) (mantissa : Nat) (exponent : Int) (precision : Nat)
    (mode : RoundingMode) : Except Refusal BigFloat :=
  if precision = 0 ∨ maxPrecision < precision then .error (.precision precision)
  else if precision < Radix.significantBits mantissa then
    .error (.mantissa (Radix.significantBits mantissa) precision)
  else .ok (.finite negative mantissa exponent precision mode)

/-- The exponents that a 32-bit field can hold in both signs. -/
def exponentFits (e : Int) : Bool := -2147483648 < e && e < 2147483648

def ofScaled (value scale : Int) (precision : Nat) (mode : RoundingMode) : Except Refusal BigFloat :=
  if value = 0 then .ok (.zero false)
  else
    let exponent := scale + Radix.significantBits value.natAbs
    if exponentFits exponent then
      ofMantissa (value < 0) (Radix.oddPart value.natAbs) exponent precision mode
    else .error (.exponent exponent)

def doublePrecision : Nat := 53

/-- A double as a mantissa and a scale; subnormal ones lack the leading bit and share the scale of the
smallest normal ones. -/
def ofDouble (x : Ieee .double) : Except Refusal BigFloat :=
  if x.isNaN then .error .nan
  else if x.isInfinite then .ok (.infinite x.negative)
  else if x.isZero then .ok (.zero x.negative)
  else
    let mantissa := if x.biased = 0 then x.fraction else x.fraction + Ieee.leadingBit .double
    let scale : Int := if x.biased = 0 then -1074 else x.biased - 1075
    ofScaled (if x.negative then -mantissa else mantissa) scale doublePrecision RoundingMode.default

def withPrecision (precision : Nat) : BigFloat → Except Refusal BigFloat
  | .finite neg m e _ mode => ofMantissa neg m e precision mode
  | x => .ok x

def withMode (mode : RoundingMode) : BigFloat → BigFloat
  | .finite neg m e p _ => .finite neg m e p mode
  | x => x

def signText (negative : Bool) : String := if negative then "-" else "+"

def display : BigFloat → String
  | .zero neg => signText neg ++ "0"
  | .infinite neg => signText neg ++ "Inf"
  | .finite neg m e p mode =>
    let digits := String.ofList (Nat.toDigits 2 m)
    s!"{signText neg}0b0.{digits}p{e} (prec {p}, {mode.name})"

end BigFloat
end SortKey
