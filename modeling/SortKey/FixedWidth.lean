import SortKey.Radix
import SortKey.Width
import SortKey.Slice
import SortKey.Reading

/-! Words of a fixed width, written in base 256 from the most significant digit, so that they sort as
unsigned numbers. Signed words have their sign bit flipped first, which puts the negative ones below. -/
namespace SortKey.FixedWidth

def encode (w : Width) (v : BitVec w.bits) : Bytes := Radix.bigEndian w.bytes v.toNat

def ofBytes (w : Width) (bs : Bytes) : BitVec w.bits := BitVec.ofNat w.bits (Radix.ofBigEndian bs)

def get (w : Width) (bs : Bytes) : Except Fault (BitVec w.bits × Nat) := do
  let digits ← Slice.exactly w.bytes bs
  return (ofBytes w digits, w.bytes)

def read (w : Width) : Reading (BitVec w.bits) := return ofBytes w (← Reading.exactly w.bytes)

/-- Carries two's complement order to unsigned order, and back. -/
def flip (w : Width) (v : BitVec w.bits) : BitVec w.bits := v ^^^ w.signBit

def encodeInt (w : Width) (v : Int) : Bytes := encode w (flip w (BitVec.ofInt w.bits v))

def getInt (w : Width) (bs : Bytes) : Except Fault (Int × Nat) := do
  let (v, n) ← get w bs
  return ((flip w v).toInt, n)

def readInt (w : Width) : Reading Int := return (flip w (← read w)).toInt

@[simp] theorem length_encode (w : Width) (v : BitVec w.bits) : (encode w v).length = w.bytes := by
  simp [encode]

@[simp] theorem length_encodeInt (w : Width) (v : Int) : (encodeInt w v).length = w.bytes := by
  simp [encodeInt]

@[simp] theorem flip_flip (w : Width) (v : BitVec w.bits) : flip w (flip w v) = v :=
  w.xor_signBit_cancel v

end SortKey.FixedWidth
