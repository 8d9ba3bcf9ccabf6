import SortKey.Width

/-! IEEE 754 binary patterns, NaN payloads included, and their total order. Patterns of one sign
already sort by magnitude as words, so flipping the sign bit of the positive ones and every bit of
the negative ones sorts them all: -NaN, -Inf, negative, -0, +0, positive, +Inf, +NaN. -/
namespace SortKey

inductive Ieee.Format where
  | single
  | double
  deriving DecidableEq, Repr

namespace Ieee.Format

def width : Format → Width
  | .single => .w32
  | .double => .w64

def exponentBits : Format → Nat
  | .single => 8
  | .double => 11

def fractionBits : Format → Nat
  | .single => 23
  | .double => 52

end Ieee.Format

structure Ieee (f : Ieee.Format) where
  bits : BitVec f.width.bits
  deriving DecidableEq

namespace Ieee
variable {f : Format}

def negative (x : Ieee f) : Bool := x.bits.msb

def fraction (x : Ieee f) : Nat := (x.bits.extractLsb' 0 f.fractionBits).toNat

def exponentField (x : Ieee f) : BitVec f.exponentBits :=
  x.bits.extractLsb' f.fractionBits f.exponentBits

/-- The exponent as it stands in the pattern, above the fraction. -/
def biased (x : Ieee f) : Nat := x.exponentField.toNat

/-- The bit that normal numbers have in front of their fraction, and the pattern leaves out. -/
def leadingBit (f : Format) : Nat := 1 <<< f.fractionBits

/-- Infinities and NaNs have every bit of the exponent field set. -/
def isSpecial (x : Ieee f) : Bool := x.exponentField = BitVec.allOnes f.exponentBits

def isNaN (x : Ieee f) : Bool := x.isSpecial && x.fraction ≠ 0

def isInfinite (x : Ieee f) : Bool := x.isSpecial && x.fraction = 0

def isZero (x : Ieee f) : Bool := x.biased = 0 && x.fraction = 0

def toOrdered (x : Ieee f) : BitVec f.width.bits :=
  if x.bits.msb then ~~~x.bits else x.bits ^^^ f.width.signBit

def ofOrdered (v : BitVec f.width.bits) : Ieee f :=
  ⟨if v.msb then v ^^^ f.width.signBit else ~~~v⟩

theorem ofOrdered_toOrdered (x : Ieee f) : ofOrdered x.toOrdered = x := by
  cases h : x.bits.msb with
  | false =>
    have hflipped : (x.bits ^^^ f.width.signBit).msb = true := by simp [h]
    rw [toOrdered, if_neg (by simp [h]), ofOrdered, if_pos hflipped, Width.xor_signBit_cancel]
  | true => simp [ofOrdered, toOrdered, h, BitVec.msb_not, f.width.bits_pos]

theorem toOrdered_ofOrdered (v : BitVec f.width.bits) : (ofOrdered v : Ieee f).toOrdered = v := by
  cases h : v.msb with
  | false => simp [ofOrdered, toOrdered, h, BitVec.msb_not, f.width.bits_pos]
  | true =>
    have hflipped : (v ^^^ f.width.signBit).msb = false := by simp [h]
    rw [ofOrdered, if_pos h, toOrdered, if_neg (by simp [hflipped]), Width.xor_signBit_cancel]

end Ieee
end SortKey
