import Mathlib.Algebra.Order.Field.Basic
import Mathlib.Algebra.Order.Ring.Rat
import Mathlib.Order.Compare
import Mathlib.Order.WithBot
import Mathlib.Tactic.FieldSimp
import Mathlib.Tactic.Linarith
import Mathlib.Tactic.Positivity
import SortKey.Proofs.LeafEncoding
import SortKey.Proofs.Magnitude

/-! The order of digits in base 256. Byte strings compare as the fractions whose digits they are, and equal
fractions by length; magnitudes of one length compare as their numbers, and the longer of two is that of the
larger number; words compare as the integers they hold. -/
namespace SortKey

section
variable {α β : Type} [LinearOrder α] [LinearOrder β] {f : α → β}

theorem compare_map (hf : StrictMono f) (a b : α) : compare (f a) (f b) = compare a b := by
  rw [← cmp_eq_compare, hf.cmp_map_eq, cmp_eq_compare]

theorem compare_map_swap (hf : StrictAnti f) (a b : α) :
    compare (f a) (f b) = (compare a b).swap := by
  rw [← cmp_eq_compare, hf.cmp_map_eq, ← cmp_swap, cmp_eq_compare]

theorem compare_then_of_monotone (hf : Monotone f) (a b : α) :
    (compare (f a) (f b)).then (compare a b) = compare a b := by
  cases h : compare (f a) (f b) with
  | lt => exact (compare_lt_iff_lt.2 (hf.reflect_lt (compare_lt_iff_lt.1 h))).symm
  | eq => rfl
  | gt => exact (compare_gt_iff_gt.2 (hf.reflect_lt (compare_gt_iff_gt.1 h))).symm

theorem compare_eq_then {a a' : α} {b b' : β} {o : Ordering} (hlt : b < b' → a < a')
    (heq : b = b' → compare a a' = o) (hgt : b' < b → a' < a) :
    compare a a' = (compare b b').then o := by
  obtain h | h | h := lt_trichotomy b b'
  · rw [compare_lt_iff_lt.2 h, Ordering.lt_then, compare_lt_iff_lt.2 (hlt h)]
  · rw [compare_eq_iff_eq.2 h, Ordering.eq_then, heq h]
  · rw [compare_gt_iff_gt.2 h, Ordering.gt_then, compare_gt_iff_gt.2 (hgt h)]

theorem then_eq_lt {a b : α} {o : Ordering} (h : a ≤ b) (ho : o = .lt) : (compare a b).then o = .lt := by
  obtain hlt | rfl := h.lt_or_eq
  · rw [compare_lt_iff_lt.2 hlt, Ordering.lt_then]
  · rw [Std.compare_self, Ordering.eq_then, ho]

theorem then_eq_gt {a b : α} {o : Ordering} (h : b ≤ a) (ho : o = .gt) : (compare a b).then o = .gt := by
  obtain hlt | rfl := h.lt_or_eq
  · rw [compare_gt_iff_gt.2 hlt, Ordering.gt_then]
  · rw [Std.compare_self, Ordering.eq_then, ho]

end

theorem compare_add_right {α : Type} [AddMonoid α] [LinearOrder α] [AddRightStrictMono α] (a b c : α) :
    compare (a + c) (b + c) = compare a b :=
  compare_map (f := (· + c)) (fun _ _ h => add_lt_add_left h c) a b

theorem compare_coe (q r : ℚ) :
    compare ((q : WithTop ℚ) : WithBot (WithTop ℚ)) ((r : WithTop ℚ) : WithBot (WithTop ℚ)) =
      compare q r :=
  compare_map (WithBot.coe_strictMono.comp WithTop.coe_strictMono) q r

theorem compare_natCast (m n : Nat) : compare (m : Int) n = compare m n :=
  compare_map (f := fun n : Nat => (n : Int)) (fun _ _ => Int.ofNat_lt.2) m n

theorem compare_neg (u v : Int) : compare (-u) (-v) = (compare u v).swap :=
  compare_map_swap (f := fun v : Int => -v) (fun _ _ => Int.neg_lt_neg) u v

namespace Radix
open Bytes

/-- The fraction below one whose digits after the point are the bytes. -/
def fraction (bs : Bytes) : ℚ := ofBigEndian bs / 256 ^ bs.length

@[simp] theorem fraction_nil : fraction [] = 0 := by simp [fraction]

theorem fraction_cons (b : UInt8) (bs : Bytes) : fraction (b :: bs) = (b.toNat + fraction bs) / 256 := by
  have hpos : (256 : ℚ) ^ bs.length ≠ 0 := pow_ne_zero _ (by norm_num)
  rw [fraction, fraction, ofBigEndian_cons, List.length_cons, pow_succ]
  push_cast
  field_simp

theorem fraction_nonneg (bs : Bytes) : 0 ≤ fraction bs := by
  unfold fraction
  positivity

theorem fraction_lt_one (bs : Bytes) : fraction bs < 1 := by
  have hlt : (ofBigEndian bs : ℚ) < 256 ^ bs.length := by exact_mod_cast ofBigEndian_lt bs
  rw [fraction, div_lt_one (by positivity)]
  exact hlt

theorem compare_fraction_cons (b c : UInt8) (x y : Bytes) :
    compare (fraction (b :: x)) (fraction (c :: y)) =
      (compare b c).then (compare (fraction x) (fraction y)) := by
  have hstep {m n : Nat} {p q : ℚ} (hp : p < 1) (hq : 0 ≤ q) (h : m < n) :
      (m + p) / 256 < (n + q) / 256 := by
    have hle : (m : ℚ) + 1 ≤ n := by exact_mod_cast h
    linarith
  have hmono : StrictMono fun q : ℚ => (c.toNat + q) / 256 := by
    intro p q hpq
    dsimp only
    linarith
  rw [compare_byte, fraction_cons, fraction_cons]
  refine compare_eq_then (hstep (fraction_lt_one x) (fraction_nonneg y)) (fun h => ?_)
    (hstep (fraction_lt_one y) (fraction_nonneg x))
  rw [h]
  exact compare_map hmono _ _

/-- A proper prefix comes first, and is the smaller fraction unless only zeros follow it. -/
theorem compare_eq_compare_fraction (x y : Bytes) :
    compare x y = (compare (fraction x) (fraction y)).then (compare x.length y.length) := by
  induction x generalizing y with
  | nil =>
    cases y with
    | nil => simp
    | cons c y =>
      -- digits after the end raise the fraction unless they are zeros, and then the length decides
      have hnum : compare (0 : ℚ) (fraction (c :: y)) ≠ .gt :=
        fun h => (compare_gt_iff_gt.1 h).not_ge (fraction_nonneg _)
      have hlen : compare 0 (y.length + 1) = .lt := Nat.compare_eq_lt.2 (Nat.succ_pos _)
      rw [List.compare_nil_cons, fraction_nil, List.length_nil, List.length_cons, hlen]
      cases h : compare (0 : ℚ) (fraction (c :: y)) with
      | gt => exact (hnum h).elim
      | _ => rfl
  | cons b x ih =>
    cases y with
    | nil =>
      have hnum : compare (fraction (b :: x)) 0 ≠ .lt :=
        fun h => (compare_lt_iff_lt.1 h).not_ge (fraction_nonneg _)
      have hlen : compare (x.length + 1) 0 = .gt := Nat.compare_eq_gt.2 (Nat.succ_pos _)
      rw [List.compare_cons_nil, fraction_nil, List.length_nil, List.length_cons, hlen]
      cases h : compare (fraction (b :: x)) 0 with
      | lt => exact (hnum h).elim
      | _ => rfl
    | cons c y =>
      rw [List.compare_cons_cons, ih, compare_fraction_cons, List.length_cons, List.length_cons,
        compare_add_right, Ordering.then_assoc]

theorem compare_of_length_eq {x y : Bytes} (h : x.length = y.length) :
    compare x y = compare (ofBigEndian x) (ofBigEndian y) := by
  have hmono : StrictMono fun n : Nat => (n : ℚ) / 256 ^ y.length := by
    intro m n hmn
    have hcast : (m : ℚ) < n := by exact_mod_cast hmn
    exact div_lt_div_of_pos_right hcast (by positivity)
  rw [compare_eq_compare_fraction, fraction, fraction, h, Nat.compare_eq_eq.2 rfl, Ordering.then_eq]
  exact compare_map hmono _ _

theorem compare_bigEndian {n u v : Nat} (hu : u < 256 ^ n) (hv : v < 256 ^ n) :
    compare (bigEndian n u) (bigEndian n v) = compare u v := by
  rw [compare_of_length_eq (by rw [length_bigEndian, length_bigEndian]), ofBigEndian_bigEndian,
    ofBigEndian_bigEndian, Nat.mod_eq_of_lt hu, Nat.mod_eq_of_lt hv]

theorem bytesFor_mono : Monotone bytesFor := fun _ _ h => Nat.div_le_div_right (Nat.add_le_add_right h 7)

theorem significantBits_mono : Monotone significantBits := fun u v h =>
  (significantBits_le_iff u _).2 (h.trans_lt ((significantBits_le_iff v _).1 (Nat.le_refl _)))

theorem length_magnitude_mono : Monotone fun v => (magnitude v).length := by
  intro u v h
  simp only [length_magnitude]
  exact bytesFor_mono (significantBits_mono h)

theorem compare_mul_add {a b r s k : Nat} (hr : r < k) (hs : s < k) :
    compare (a * k + r) (b * k + s) = (compare a b).then (compare r s) := by
  have hstep {a b r s : Nat} (hr : r < k) (h : a < b) : a * k + r < b * k + s :=
    calc a * k + r < a * k + k := Nat.add_lt_add_left hr _
      _ = (a + 1) * k := (Nat.succ_mul a k).symm
      _ ≤ b * k := Nat.mul_le_mul_right k h
      _ ≤ b * k + s := Nat.le_add_right _ s
  refine compare_eq_then (hstep hr) (fun h => ?_) (hstep hs)
  rw [h]
  exact compare_map (f := (b * k + ·)) (fun _ _ h => Nat.add_lt_add_left h _) r s

theorem compare_div_then_mod {k : Nat} (hk : 0 < k) (u v : Nat) :
    (compare (u / k) (v / k)).then (compare (u % k) (v % k)) = compare u v := by
  rw [← compare_mul_add (Nat.mod_lt u hk) (Nat.mod_lt v hk), Nat.div_add_mod', Nat.div_add_mod']

/-- A magnitude has no leading zero, so a longer one is that of a larger number. -/
theorem compare_magnitude (u v : Nat) :
    (compare (magnitude u).length (magnitude v).length).then (compare (magnitude u) (magnitude v)) =
      compare u v := by
  rw [← compare_then_of_monotone length_magnitude_mono u v]
  cases h : compare (magnitude u).length (magnitude v).length with
  | lt => rfl
  | gt => rfl
  | eq =>
    rw [compare_of_length_eq (Nat.compare_eq_eq.1 h), ofBigEndian_magnitude, ofBigEndian_magnitude]

theorem xor_two_pow {n k : Nat} (h : n < 2 * 2 ^ k) :
    n ^^^ 2 ^ k = if n < 2 ^ k then n + 2 ^ k else n - 2 ^ k := by
  have hpos := Nat.two_pow_pos k
  have hxor := Nat.div_add_mod (n ^^^ 2 ^ k) (2 ^ k)
  rw [Nat.xor_div_two_pow, Nat.xor_mod_two_pow, Nat.div_self hpos, Nat.mod_self, Nat.xor_zero] at hxor
  have hn := Nat.div_add_mod n (2 ^ k)
  split
  · next hlt =>
    rw [Nat.div_eq_of_lt hlt] at hxor hn
    simp only [Nat.zero_xor, mul_one, mul_zero, zero_add] at hxor hn
    omega
  · next hge =>
    have hq : n / 2 ^ k = 1 := Nat.div_eq_of_lt_le (by omega) (by omega)
    rw [hq] at hxor hn
    simp only [Nat.xor_self, mul_one, mul_zero, zero_add] at hxor hn
    omega

end Radix

namespace FixedWidth

theorem compare_encode_toNat (w : Width) (u v : BitVec w.bits) :
    compare (encode w u) (encode w v) = compare u.toNat v.toNat := by
  have hu := u.isLt
  have hv := v.isLt
  rw [w.two_pow_bits] at hu hv
  exact Radix.compare_bigEndian hu hv

theorem toNat_flip (w : Width) (v : BitVec w.bits) :
    ((flip w v).toNat : Int) = v.toInt + 2 ^ (w.bits - 1) := by
  have hpow : 2 ^ w.bits = 2 ^ (w.bits - 1) * 2 := (Nat.two_pow_pred_mul_two w.bits_pos).symm
  have hlt := v.isLt
  rw [flip, Width.signBit, BitVec.toNat_xor, BitVec.toNat_intMin_of_pos w.bits_pos,
    Radix.xor_two_pow (by omega), BitVec.toInt_eq_msb_cond, BitVec.msb_eq_decide, hpow]
  push_cast
  by_cases hmsb : v.toNat < 2 ^ (w.bits - 1)
  · rw [if_pos hmsb]
    simp [Nat.not_le.2 hmsb]
  · rw [if_neg hmsb]
    simp [Nat.not_lt.1 hmsb]
    omega

theorem compare_encode_flip (w : Width) (u v : BitVec w.bits) :
    compare (encode w (flip w u)) (encode w (flip w v)) = compare u.toInt v.toInt := by
  rw [compare_encode_toNat, ← compare_natCast, toNat_flip, toNat_flip, compare_add_right]

theorem compare_encodeInt {w : Width} {u v : Int} (hu : InRange w u) (hv : InRange w v) :
    compare (encodeInt w u) (encodeInt w v) = compare u v := by
  rw [encodeInt, encodeInt, compare_encode_flip, toInt_ofInt hu, toInt_ofInt hv]

end FixedWidth
end SortKey
