import SortKey.Radix.Lemmas
import SortKey.FixedWidth

/-! Words read back as they were written, whatever follows them. -/
namespace SortKey

theorem Width.two_pow_bits (w : Width) : 2 ^ w.bits = 256 ^ w.bytes := by
  rw [Width.bits, Nat.pow_mul]

namespace FixedWidth

@[simp] theorem ofBytes_encode (w : Width) (v : BitVec w.bits) : ofBytes w (encode w v) = v := by
  have h : v.toNat < 256 ^ w.bytes := by rw [← w.two_pow_bits]; exact v.isLt
  rw [ofBytes, encode, Radix.ofBigEndian_bigEndian, Nat.mod_eq_of_lt h, BitVec.ofNat_toNat,
    BitVec.setWidth_eq]

theorem get_encode_append (w : Width) (v : BitVec w.bits) (rest : Bytes) :
    get w (encode w v ++ rest) = .ok (v, w.bytes) := by
  have h := @Slice.exactly_append (encode w v) rest
  rw [length_encode] at h
  simp [get, h, bind, Except.bind, pure, Except.pure]

theorem get_of_le {w : Width} {bs : Bytes} (h : w.bytes ≤ bs.length) :
    get w bs = .ok (ofBytes w (bs.take w.bytes), w.bytes) := by
  simp [get, Slice.exactly_of_le h, bind, Except.bind, pure, Except.pure]

theorem get_of_lt {w : Width} {bs : Bytes} (h : bs.length < w.bytes) :
    get w bs = .error (if bs.isEmpty then .endOfInput else .truncated) := by
  simp [get, Slice.exactly_of_lt h, bind, Except.bind]

theorem getInt_of_le {w : Width} {bs : Bytes} (h : w.bytes ≤ bs.length) :
    getInt w bs = .ok ((flip w (ofBytes w (bs.take w.bytes))).toInt, w.bytes) := by
  simp [getInt, get_of_le h, bind, Except.bind, pure, Except.pure]

theorem getInt_of_lt {w : Width} {bs : Bytes} (h : bs.length < w.bytes) :
    getInt w bs = .error (if bs.isEmpty then .endOfInput else .truncated) := by
  simp [getInt, get_of_lt h, bind, Except.bind]

end FixedWidth
end SortKey
