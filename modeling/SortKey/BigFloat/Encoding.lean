import SortKey.BigInteger

/-! The encoding of a big float: its kind, and for a finite value its exponent, its mantissa in a frame,
its precision and its rounding mode. A negative value negates the two numbers and complements the
frame. The mantissa is shifted left until it fills the whole bytes that its precision needs, so values
of one exponent compare like their mantissas, and of two equal values the more precise one is further
from zero. -/
namespace SortKey.BigFloat

open BigInteger (withSign)

def kind : BigFloat → Int
  | .infinite true => -3
  | .finite true .. => -2
  | .zero true => -1
  | .zero false => 0
  | .finite false .. => 1
  | .infinite false => 2

/-- What a kind stands for: a value, or a finite one whose sign alone is known so far. -/
def ofKind (kind : Int) : Except Fault (BigFloat ⊕ Bool) :=
  match kind with
  | -3 => .ok (.inl (.infinite true))
  | -2 => .ok (.inr true)
  | -1 => .ok (.inl (.zero true))
  | 0 => .ok (.inl (.zero false))
  | 1 => .ok (.inr false)
  | 2 => .ok (.inl (.infinite false))
  | k => .error (.unknownKind k)

def mantissaField (mantissa precision : Nat) : Except Fault Bytes :=
  let bits := Radix.significantBits mantissa
  let needed := Radix.bytesFor precision
  if 8 * needed < bits then .error (.unwritable (.mantissaBits bits precision))
  else
    let field := Radix.magnitude (mantissa <<< (8 * needed - bits))
    if field.length = needed then .ok field
    else .error (.unwritable (.mantissaLength field.length needed))

def append (x : BigFloat) : Writing Unit := do
  Writing.push (FixedWidth.encodeInt .w8 x.kind)
  match x with
  | .finite neg m e p mode =>
    let field ← mantissaField m p
    Writing.push (FixedWidth.encodeInt .w32 (withSign neg e))
    Writing.push (Frame.encode (Frame.maskOf neg) field)
    Writing.push (FixedWidth.encodeInt .w32 (withSign neg p))
    Writing.push [mode.byte]
  | _ => pure ()

/-- The fields of a finite value as they stand in the encoding. -/
structure Fields where
  exponent : Int
  mantissa : Bytes
  precision : Int
  mode : UInt8

def lowestField : Int := -2147483648

/-- Undoes `withSign` on a 32-bit field, whose lowest value is the negative of none. -/
def unsigned (negative : Bool) (field : Int) : Except Fault Int :=
  if negative then
    if field = lowestField then .error (.malformed (.field field)) else .ok (-field)
  else .ok field

/-- The mantissa, the exponent, the precision and the mode that the fields hold, if they keep to one another.
The length of the mantissa field is compared in bytes; in bits, as a 64-bit count, it would be compared
alike as long as it has fewer than `2 ^ 61` bytes. -/
def Fields.checked (negative : Bool) (f : Fields) : Except Fault (Nat × Int × Nat × RoundingMode) := do
  let exponent ← unsigned negative f.exponent
  if exponent = lowestField then throw (.malformed .exponent)
  let precision ← unsigned negative f.precision
  if precision ≤ 0 then throw (.malformed (.precision precision))
  let mode ← RoundingMode.ofByte f.mode
  let needed := Radix.bytesFor precision.toNat
  if f.mantissa.length ≠ needed then
    throw (.malformed (.mantissaLength f.mantissa.length precision.toNat needed))
  if f.mantissa.headD 0 < 0x80 then throw (.malformed .notNormalized)
  return (Radix.oddPart (Radix.ofBigEndian f.mantissa), exponent, precision.toNat, mode)

def Fields.build (negative : Bool) (f : Fields) : Except Fault BigFloat := do
  let (mantissa, exponent, precision, mode) ← f.checked negative
  (ofMantissa negative mantissa exponent precision mode).mapError (.malformed ∘ .refused)

def getFields (negative : Bool) (bs : Bytes) : Except Fault (Fields × Nat) := do
  let (exponent, i) ← FixedWidth.getInt .w32 bs
  let (mantissa, j) ← Frame.get (Frame.maskOf negative) (bs.drop i)
  let (precision, k) ← FixedWidth.getInt .w32 (bs.drop (i + j))
  let mode ← Slice.byte (bs.drop (i + j + k))
  return (⟨exponent, mantissa, precision, mode⟩, i + j + k + 1)

def readFields (limits : Limits) (negative : Bool) : Reading Fields := do
  let exponent ← FixedWidth.readInt .w32
  let mantissa ← Frame.read (Frame.maskOf negative) limits.frameBytes
  let precision ← FixedWidth.readInt .w32
  let mode ← Reading.byte
  return ⟨exponent, mantissa, precision, mode⟩

def get (bs : Bytes) : Except Fault (BigFloat × Nat) := do
  let (kind, n) ← FixedWidth.getInt .w8 bs
  match ← ofKind kind with
  | .inl x => return (x, n)
  | .inr negative =>
    let (fields, m) ← Slice.midway (getFields negative (bs.drop n))
    return (← fields.build negative, n + m)

def read (limits : Limits) : Reading BigFloat := do
  let kind ← FixedWidth.readInt .w8
  match ← ofKind kind with
  | .inl x => return x
  | .inr negative =>
    let fields ← Reading.midway (readFields limits negative)
    fields.build negative

end SortKey.BigFloat
