import SortKey.Bytes

/-! Naturals in base 256 and base 2. A natural is written as a fixed number of digits, most
significant first, or as its magnitude: the fewest digits that hold it, none for zero. -/
namespace SortKey.Radix

/-- The `n` lowest base 256 digits of `v`, most significant first. -/
def bigEndian : Nat → Nat → Bytes
  | 0, _ => []
  | n + 1, v => UInt8.ofNat (v >>> (8 * n)) :: bigEndian n v

def ofBigEndian (bs : Bytes) : Nat := bs.foldl (fun v b => v * 256 + b.toNat) 0

/-- The number of binary digits of `v`, none for zero. -/
def significantBits (v : Nat) : Nat := if v = 0 then 0 else v.log2 + 1

/-- The number of zero bits below the lowest set bit: `v ^^^ (v - 1)` has that bit and all below. -/
def trailingZeros (v : Nat) : Nat := (v ^^^ (v - 1)).log2

/-- What remains of `v` when its trailing zeros are removed: odd, unless `v` is zero. -/
def oddPart (v : Nat) : Nat := v >>> trailingZeros v

def bytesFor (bits : Nat) : Nat := (bits + 7) / 8

def magnitude (v : Nat) : Bytes := bigEndian (bytesFor (significantBits v)) v

@[simp] theorem length_bigEndian (n v : Nat) : (bigEndian n v).length = n := by
  induction n with
  | zero => rfl
  | succ n ih => simp [bigEndian, ih]

@[simp] theorem ofBigEndian_nil : ofBigEndian [] = 0 := rfl

end SortKey.Radix
