/-! The widths of fixed-width fields. -/
namespace SortKey

inductive Width where
  | w8
  | w16
  | w32
  | w64
  | w128
  deriving DecidableEq, Repr

namespace Width

def bytes : Width → Nat
  | .w8 => 1
  | .w16 => 2
  | .w32 => 4
  | .w64 => 8
  | .w128 => 16

def bits (w : Width) : Nat := 8 * w.bytes

def signBit (w : Width) : BitVec w.bits := BitVec.intMin w.bits

theorem bytes_pos (w : Width) : 0 < w.bytes := by cases w <;> decide

theorem bits_pos (w : Width) : 0 < w.bits := by cases w <;> decide

@[simp] theorem msb_signBit (w : Width) : w.signBit.msb = true := by
  simp [signBit, BitVec.msb_intMin, w.bits_pos]

theorem xor_signBit_cancel (w : Width) (v : BitVec w.bits) : v ^^^ w.signBit ^^^ w.signBit = v := by
  rw [BitVec.xor_assoc, BitVec.xor_self, BitVec.xor_zero]

end Width
end SortKey
