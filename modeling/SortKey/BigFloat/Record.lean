import SortKey.BigFloat.Basic

/-! Big floats as one record. Values that are not finite have the fields of finite ones too, with nothing in
them: it is the form that says whether they count. -/
namespace SortKey

inductive BigFloat.Form where
  | zero
  | finite
  | infinite
  deriving DecidableEq, Repr

structure BigFloat.Record where
  negative : Bool
  form : Form
  mantissa : Nat
  exponent : Int
  precision : Nat
  mode : RoundingMode
  deriving DecidableEq, Repr

namespace BigFloat

def form : BigFloat → Form
  | .zero _ => .zero
  | .infinite _ => .infinite
  | .finite .. => .finite

def record (x : BigFloat) : Record :=
  ⟨x.negative, x.form, x.mantissa, x.exponent, x.precision, x.mode⟩

namespace Record

/-- Only the sign and the form are told. -/
def special (negative : Bool) (form : Form) : Record :=
  ⟨negative, form, 0, 0, 0, RoundingMode.default⟩

def zero (negative : Bool) : Record := special negative .zero

def infinity (negative : Bool) : Record := special negative .infinite

def ofMantissa (negative : Bool) (mantissa : Nat) (exponent : Int) (precision : Nat)
    (mode : RoundingMode) : Except Refusal Record :=
  if precision = 0 ∨ maxPrecision < precision then .error (.precision precision)
  else if precision < Radix.significantBits mantissa then
    .error (.mantissa (Radix.significantBits mantissa) precision)
  else .ok ⟨negative, .finite, mantissa, exponent, precision, mode⟩

def ofScaled (value scale : Int) (precision : Nat) (mode : RoundingMode) : Except Refusal Record :=
  if value = 0 then .ok (zero false)
  else
    let exponent := scale + Radix.significantBits value.natAbs
    if exponentFits exponent then
      ofMantissa (value < 0) (Radix.oddPart value.natAbs) exponent precision mode
    else .error (.exponent exponent)

def ofDouble (x : Ieee .double) : Except Refusal Record :=
  if x.isNaN then .error .nan
  else if x.isInfinite then .ok (infinity x.negative)
  else if x.isZero then .ok (zero x.negative)
  else
    let mantissa := if x.biased = 0 then x.fraction else x.fraction + Ieee.leadingBit .double
    let scale : Int := if x.biased = 0 then -1074 else x.biased - 1075
    ofScaled (if x.negative then -mantissa else mantissa) scale doublePrecision RoundingMode.default

def withPrecision (r : Record) (precision : Nat) : Except Refusal Record :=
  match r.form with
  | .finite => ofMantissa r.negative r.mantissa r.exponent precision r.mode
  | _ => .ok r

def withMode (r : Record) (mode : RoundingMode) : Record :=
  if r.form = .finite then { r with mode } else r

end Record
end BigFloat
end SortKey
