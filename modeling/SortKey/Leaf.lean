import SortKey.FixedWidth
import SortKey.Ieee
import SortKey.Limits
import SortKey.BigFloat.Encoding
import SortKey.Rational

/-! The encodings that contain no other. Byte strings and strings are written as they are and take up all
the bytes there are; the others end by themselves. -/
namespace SortKey

inductive Leaf : Type → Type where
  | bool : Leaf Bool
  | unsigned (w : Width) : Leaf (BitVec w.bits)
  | signed (w : Width) : Leaf (BitVec w.bits)
  | float (f : Ieee.Format) : Leaf (Ieee f)
  | bytes : Leaf Bytes
  | string : Leaf String
  | integer : Leaf Int
  | rational : Leaf Rat
  | bigFloat : Leaf BigFloat

namespace Leaf
variable {α : Type}

def requiresTerminator : {α : Type} → Leaf α → Bool
  | _, .bytes | _, .string => true
  | _, _ => false

def boolByte (b : Bool) : UInt8 := if b then 1 else 0

def boolOf (b : UInt8) : Except Fault Bool :=
  if b = 0 then .ok false else if b = 1 then .ok true else .error (.notBoolean b)

def stringOf (bs : Bytes) : Except Fault String := (Utf8.decode bs).mapError .notUtf8

def append : {α : Type} → Leaf α → α → Writing Unit
  | _, .bool, b => Writing.push [boolByte b]
  | _, .unsigned w, v => Writing.push (FixedWidth.encode w v)
  | _, .signed w, v => Writing.push (FixedWidth.encode w (FixedWidth.flip w v))
  | _, .float f, x => Writing.push (FixedWidth.encode f.width x.toOrdered)
  | _, .bytes, bs => Writing.push bs
  | _, .string, s => Writing.push (Utf8.encode s)
  | _, .integer, v => BigInteger.append v
  | _, .rational, q => Rational.append q
  | _, .bigFloat, x => x.append

def get (limits : Limits) : {α : Type} → Leaf α → Bytes → Except Fault (α × Nat)
  | _, .bool, bs => do return (← boolOf (← Slice.byte bs), 1)
  | _, .unsigned w, bs => FixedWidth.get w bs
  | _, .signed w, bs => do
    let (v, n) ← FixedWidth.get w bs
    return (FixedWidth.flip w v, n)
  | _, .float f, bs => do
    let (v, n) ← FixedWidth.get f.width bs
    return (Ieee.ofOrdered v, n)
  | _, .bytes, bs => .ok (bs, bs.length)
  | _, .string, bs => do return (← stringOf bs, bs.length)
  | _, .integer, bs => BigInteger.get limits bs
  | _, .rational, bs => Rational.get limits bs
  | _, .bigFloat, bs => BigFloat.get bs

def read (limits : Limits) : {α : Type} → Leaf α → Reading α
  | _, .bool => do boolOf (← Reading.byte)
  | _, .unsigned w => FixedWidth.read w
  | _, .signed w => return FixedWidth.flip w (← FixedWidth.read w)
  | _, .float f => return Ieee.ofOrdered (← FixedWidth.read f.width)
  | _, .bytes => Reading.remainder limits.frameBytes
  | _, .string => do stringOf (← Reading.remainder limits.frameBytes)
  | _, .integer => BigInteger.read limits
  | _, .rational => Rational.read limits
  | _, .bigFloat => BigFloat.read limits

def name : {α : Type} → Leaf α → String
  | _, .bool => "Bool"
  | _, .unsigned w => s!"Uint{w.bits}"
  | _, .signed w => s!"Int{w.bits}"
  | _, .float f => s!"Float{f.width.bits}"
  | _, .bytes => "Bytes"
  | _, .string => "Str"
  | _, .integer => "BigInt"
  | _, .rational => "BigRational"
  | _, .bigFloat => "BigFloatCodec"

end Leaf
end SortKey
