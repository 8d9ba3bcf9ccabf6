import Mathlib.Tactic.Ring
import SortKey.Radix

/-! The value of digits in base 256. `n` digits stand for a number below `256 ^ n`, and the digits of a
number stand for it. -/
namespace SortKey.Radix

theorem ofBigEndian_append (as bs : Bytes) :
    ofBigEndian (as ++ bs) = ofBigEndian as * 256 ^ bs.length + ofBigEndian bs := by
  suffices h : ∀ v, bs.foldl (fun v b => v * 256 + b.toNat) v = v * 256 ^ bs.length + ofBigEndian bs by
    simpa [ofBigEndian, List.foldl_append] using h _
  induction bs with
  | nil => simp
  | cons b bs ih =>
    intro v
    have h : ofBigEndian (b :: bs) = b.toNat * 256 ^ bs.length + ofBigEndian bs := by
      simpa [ofBigEndian] using ih b.toNat
    rw [List.foldl_cons, ih, h, List.length_cons, Nat.pow_succ', Nat.add_mul, Nat.add_assoc,
      Nat.mul_assoc]

theorem ofBigEndian_cons (b : UInt8) (bs : Bytes) :
    ofBigEndian (b :: bs) = b.toNat * 256 ^ bs.length + ofBigEndian bs := by
  simpa [ofBigEndian] using ofBigEndian_append [b] bs

theorem ofBigEndian_lt (bs : Bytes) : ofBigEndian bs < 256 ^ bs.length := by
  induction bs with
  | nil => simp
  | cons b bs ih =>
    have hb : b.toNat ≤ 255 := Nat.le_of_lt_succ b.toNat_lt
    have hm := Nat.mul_le_mul_right (256 ^ bs.length) hb
    rw [ofBigEndian_cons, List.length_cons, Nat.pow_succ']
    omega

theorem ofBigEndian_bigEndian (n v : Nat) : ofBigEndian (bigEndian n v) = v % 256 ^ n := by
  induction n with
  | zero => simp [bigEndian, Nat.mod_one]
  | succ n ih =>
    have h : v >>> (8 * n) = v / 256 ^ n := by rw [Nat.shiftRight_eq_div_pow, Nat.pow_mul]
    have hm : v % 256 ^ (n + 1) = v % 256 ^ n + 256 ^ n * (v / 256 ^ n % 256) := Nat.mod_mul
    rw [bigEndian, ofBigEndian_cons, ih, length_bigEndian, h, UInt8.toNat_ofNat', hm, Nat.mul_comm,
      Nat.add_comm]

end SortKey.Radix
