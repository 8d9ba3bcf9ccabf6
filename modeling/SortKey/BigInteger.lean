import SortKey.Frame
import SortKey.FixedWidth
import SortKey.Limits
import SortKey.Writing

/-! Integers of any size: the length of the magnitude as a 64-bit number with the sign of the integer,
then the magnitude, complemented when the integer is negative. A magnitude has no leading zero, so
a longer one is always further from zero. -/
namespace SortKey.BigInteger

def withSign (negative : Bool) (v : Int) : Int := if negative then -v else v

def append (v : Int) : Writing Unit :=
  let negative : Bool := v < 0
  let digits := Radix.magnitude v.natAbs
  if Bytes.lengthBound ≤ digits.length then throw (.unwritable .magnitudeLength)
  else do
    Writing.push (FixedWidth.encodeInt .w64 (withSign negative digits.length))
    Writing.push (Bytes.masked (Frame.maskOf negative) digits)

/-- The size of the magnitude that a header announces, if the limit allows it. -/
def magnitudeSize (limits : Limits) (header : Int) : Except Fault Nat :=
  if header.natAbs ≤ limits.integerBytes then .ok header.natAbs
  else .error (.tooLarge header.natAbs limits.integerBytes)

/-- No memory has room for `lengthBound` digits, be it in a byte string or out of a source. -/
def build (negative : Bool) (field : Bytes) : Except Fault Int :=
  let digits := Bytes.masked (Frame.maskOf negative) field
  if digits.head? = some 0 then .error (.malformed .leadingZero)
  else if Bytes.lengthBound ≤ digits.length then .error (.device (.memory digits.length))
  else .ok (withSign negative (Radix.ofBigEndian digits))

def get (limits : Limits) (bs : Bytes) : Except Fault (Int × Nat) := do
  let (header, n) ← FixedWidth.getInt .w64 bs
  let size ← magnitudeSize limits header
  let field ← Slice.midway (Slice.exactly size (bs.drop n))
  return (← build (header < 0) field, n + size)

def read (limits : Limits) : Reading Int := do
  let header ← FixedWidth.readInt .w64
  let size ← magnitudeSize limits header
  let field ← Reading.announced size
  build (header < 0) field

end SortKey.BigInteger
