import Mathlib.Data.Rat.Floor
import SortKey.Proofs.BigFloatFormat

/-! Writing big floats. Every big float that can be obtained has an encoding. That of a finite one has
numbers that fit their fields in either sign, and a mantissa of as many bytes as the precision needs, its
first bit set, which is the distance from zero with the point moved behind the last of these bytes. -/
namespace SortKey.BigFloat
open Radix (bytesFor fraction magnitude ofBigEndian significantBits)

section
variable {neg : Bool} {m : Nat} {e : Int} {p : Nat} {mode : RoundingMode}

theorem WellFormed.encode (h : WellFormed (finite neg m e p mode)) :
    (Codec.leaf .bigFloat).encode (finite neg m e p mode) =
      .ok ((finite neg m e p mode).firstByte ::
        framedFields neg e (Frame.encode (Frame.maskOf neg) (magnitude (aligned m p))) p mode) := by
  have hencode := encoding_append_finite h
  rwa [encodeInt_kind] at hencode

end

end SortKey.BigFloat
