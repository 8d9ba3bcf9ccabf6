import Mathlib.Algebra.Order.Monoid.WithTop
import Mathlib.Order.WithBot
import SortKey.Codec.Write
import SortKey.Proofs.IeeeNumber
import SortKey.Proofs.IntegerDecoding
import SortKey.Proofs.IntegerOrder

/-! The total order of IEEE 754 patterns. Encodings compare as the numbers do, the negative zero below the
positive one, with the NaNs of either sign outside the infinities, and the byte strings of the width are the
encodings of all patterns, each of one. -/
namespace SortKey.Ieee
open BigInteger (withSign compare_withSign)
variable {f : Format}

/-- The number that a pattern stands for, between the two infinities. -/
def extended (x : Ieee f) : WithBot (WithTop ℚ) :=
  match x.number? with
  | some q => ((q : WithTop ℚ) : WithBot (WithTop ℚ))
  | none => if x.negative then ⊥ else ⊤

/-- The fraction of a NaN with the sign of the NaN. Everything else has none. -/
def payload (x : Ieee f) : Int := if x.isNaN then withSign x.negative x.fraction else 0

/-- Compares by payload, which puts the NaNs of either sign outside all else; then by number, the
infinities being the lowest and the highest; then, of the two zeros, the negative one first. -/
def order (x y : Ieee f) : Ordering :=
  (compare x.payload y.payload).then <|
    (compare x.extended y.extended).then (compare y.negative x.negative)

/-! ### Patterns of one sign -/

def compareFields (x y : Ieee f) : Ordering :=
  (compare x.biased y.biased).then (compare x.fraction y.fraction)

theorem payload_of_special {x : Ieee f} (h : x.isSpecial = true) :
    x.payload = withSign x.negative x.fraction := by
  rw [payload, isNaN, h, Bool.true_and]
  split
  · rfl
  · next hzero =>
    have hfraction : x.fraction = 0 := by simpa using hzero
    simp [withSign, hfraction]

theorem payload_of_finite {x : Ieee f} (h : x.isSpecial = false) : x.payload = 0 := by
  simp [payload, isNaN, h]

theorem extended_of_special {x : Ieee f} (h : x.isSpecial = true) :
    x.extended = if x.negative then ⊥ else ⊤ := by
  simp [extended, number?, h]

theorem extended_of_finite {x : Ieee f} (h : x.isSpecial = false) :
    x.extended = (((if x.negative then -1 else 1) * x.absolute : ℚ) : WithTop ℚ) := by
  simp [extended, number?, h]

theorem biased_lt_of_special {x y : Ieee f} (hx : x.isSpecial = false) (hy : y.isSpecial = true) :
    x.biased < y.biased := by
  have hlt := x.biased_lt
  rw [(isSpecial_iff y).1 hy]
  rw [Bool.eq_false_iff, ne_eq, isSpecial_iff] at hx
  omega

theorem swap_compareFields (x y : Ieee f) : (compareFields x y).swap = compareFields y x := by
  rw [compareFields, Ordering.swap_then, ← Std.OrientedCmp.eq_swap, ← Std.OrientedCmp.eq_swap]
  rfl

theorem swap_order (x y : Ieee f) : (x.order y).swap = y.order x := by
  rw [order, Ordering.swap_then, Ordering.swap_then, ← Std.OrientedCmp.eq_swap,
    ← Std.OrientedCmp.eq_swap, ← Std.OrientedCmp.eq_swap]
  rfl

section
variable {x y : Ieee f} (hneg : x.negative = y.negative)
include hneg

theorem order_special (hx : x.isSpecial = true) (hy : y.isSpecial = true) :
    x.order y = if y.negative then (compareFields x y).swap else compareFields x y := by
  have hbiased : x.biased = y.biased := by rw [(isSpecial_iff x).1 hx, (isSpecial_iff y).1 hy]
  rw [order, payload_of_special hx, payload_of_special hy, extended_of_special hx,
    extended_of_special hy, hneg, compare_withSign, compare_natCast, compareFields, hbiased]
  simp

theorem order_finite (hx : x.isSpecial = false) (hy : y.isSpecial = false) :
    x.order y = if y.negative then (compareFields x y).swap else compareFields x y := by
  rw [order, payload_of_finite hx, payload_of_finite hy, extended_of_finite hx, extended_of_finite hy,
    compare_coe, hneg, compareFields, ← compare_absolute]
  cases y.negative with
  | false => simp
  | true =>
    have hswap := compare_map_swap (f := fun q : ℚ => -q) (fun _ _ => neg_lt_neg) x.absolute y.absolute
    simp [hswap]

theorem order_finite_special (hx : x.isSpecial = false) (hy : y.isSpecial = true) :
    x.order y = if y.negative then (compareFields x y).swap else compareFields x y := by
  have hlt := compare_lt_iff_lt.2 (biased_lt_of_special hx hy)
  rw [order, payload_of_finite hx, payload_of_special hy, extended_of_finite hx, extended_of_special hy,
    hneg, compareFields, hlt]
  cases y.negative with
  | false =>
    have htop : (((1 * x.absolute : ℚ) : WithTop ℚ) : WithBot (WithTop ℚ)) < ⊤ :=
      WithBot.coe_lt_coe.2 (WithTop.coe_lt_top _)
    apply then_eq_lt (by simp [withSign])
    simpa [compare_lt_iff_lt] using htop
  | true =>
    apply then_eq_gt (by simp [withSign])
    simp [compare_gt_iff_gt]

end

theorem order_of_negative_eq {x y : Ieee f} (hneg : x.negative = y.negative) :
    x.order y = if y.negative then (compareFields x y).swap else compareFields x y := by
  cases hx : x.isSpecial <;> cases hy : y.isSpecial
  · exact order_finite hneg hx hy
  · exact order_finite_special hneg hx hy
  · rw [← swap_order, order_finite_special hneg.symm hy hx, hneg, ← swap_compareFields x y]
    cases y.negative <;> simp
  · exact order_special hneg hx hy

/-! ### Patterns of different signs -/

theorem absolute_nonneg (x : Ieee f) : 0 ≤ x.absolute := by
  rw [absolute_eq]
  positivity

theorem payload_nonpos {x : Ieee f} (h : x.negative = true) : x.payload ≤ 0 := by
  rw [payload, h]
  split <;> simp [withSign]

theorem payload_nonneg {x : Ieee f} (h : x.negative = false) : 0 ≤ x.payload := by
  rw [payload, h]
  split <;> simp [withSign]

theorem extended_nonpos {x : Ieee f} (h : x.negative = true) : x.extended ≤ 0 := by
  cases hs : x.isSpecial with
  | true => simp [extended_of_special hs, h]
  | false =>
    have hle : -1 * x.absolute ≤ 0 := by linarith [x.absolute_nonneg]
    rw [extended_of_finite hs, h]
    exact_mod_cast hle

theorem extended_nonneg {x : Ieee f} (h : x.negative = false) : 0 ≤ x.extended := by
  cases hs : x.isSpecial with
  | true => simp [extended_of_special hs, h]
  | false =>
    have hle : 0 ≤ 1 * x.absolute := by linarith [x.absolute_nonneg]
    rw [extended_of_finite hs, h]
    exact_mod_cast hle

theorem order_of_negative_positive {x y : Ieee f} (hx : x.negative = true) (hy : y.negative = false) :
    x.order y = .lt := by
  apply then_eq_lt ((payload_nonpos hx).trans (payload_nonneg hy))
  apply then_eq_lt ((extended_nonpos hx).trans (extended_nonneg hy))
  rw [hx, hy]
  rfl

/-! ### The order of the words -/

theorem compare_bits {x y : Ieee f} (hneg : x.negative = y.negative) :
    compare x.bits.toNat y.bits.toNat = compareFields x y := by
  have hsign :=
    Radix.compare_mul_add (a := y.negative.toNat) (b := y.negative.toNat) x.biased_lt y.biased_lt
  rw [Std.compare_self, Ordering.eq_then] at hsign
  rw [toNat_bits, toNat_bits, hneg, Radix.compare_mul_add x.fraction_lt y.fraction_lt, hsign, compareFields]

theorem toNat_toOrdered (x : Ieee f) :
    (x.toOrdered.toNat : Int) = if x.negative then 2 ^ f.width.bits - 1 - (x.bits.toNat : Int)
      else x.bits.toNat + 2 ^ (f.width.bits - 1) := by
  rw [toOrdered, negative]
  cases h : x.bits.msb with
  | false =>
    have hflip := FixedWidth.toNat_flip f.width x.bits
    rw [FixedWidth.flip, BitVec.toInt_eq_toNat_of_msb h] at hflip
    simpa using hflip
  | true =>
    have hlt := x.bits.isLt
    rw [if_pos rfl, if_pos rfl, BitVec.toNat_not]
    push_cast [Nat.one_le_two_pow, Nat.le_sub_one_of_lt hlt]
    omega

theorem compare_toOrdered_of_negative_eq {x y : Ieee f} (hneg : x.negative = y.negative) :
    compare x.toOrdered.toNat y.toOrdered.toNat =
      if y.negative then (compareFields x y).swap else compareFields x y := by
  rw [← compare_natCast, toNat_toOrdered, toNat_toOrdered, hneg, ← compare_bits hneg,
    ← compare_natCast x.bits.toNat]
  cases y.negative with
  | false => exact compare_add_right _ _ _
  | true =>
    exact compare_map_swap (f := fun v : Int => 2 ^ f.width.bits - 1 - v)
      (fun _ _ h => Int.sub_lt_sub_left h _) _ _

theorem toOrdered_lt {x y : Ieee f} (hx : x.negative = true) (hy : y.negative = false) :
    x.toOrdered.toNat < y.toOrdered.toNat := by
  have hge : 2 ^ f.width.bits ≤ 2 * x.bits.toNat := BitVec.msb_eq_true_iff_two_mul_ge.1 hx
  have hpow : 2 ^ f.width.bits = 2 ^ (f.width.bits - 1) * 2 :=
    (Nat.two_pow_pred_mul_two f.width.bits_pos).symm
  have hx' := x.toNat_toOrdered
  have hy' := y.toNat_toOrdered
  rw [hx, if_pos rfl] at hx'
  rw [hy, if_neg Bool.false_ne_true] at hy'
  zify at hge hpow ⊢
  omega

theorem compare_toOrdered (x y : Ieee f) : compare x.toOrdered.toNat y.toOrdered.toNat = x.order y := by
  cases hx : x.negative <;> cases hy : y.negative
  · rw [compare_toOrdered_of_negative_eq (hx.trans hy.symm), order_of_negative_eq (hx.trans hy.symm)]
  · rw [Nat.compare_eq_gt.2 (toOrdered_lt hy hx), ← swap_order, order_of_negative_positive hy hx,
      Ordering.swap_lt]
  · rw [Nat.compare_eq_lt.2 (toOrdered_lt hx hy), order_of_negative_positive hx hy]
  · rw [compare_toOrdered_of_negative_eq (hx.trans hy.symm), order_of_negative_eq (hx.trans hy.symm)]

theorem order_eq_eq_iff {x y : Ieee f} : x.order y = .eq ↔ x = y := by
  rw [← compare_toOrdered, Nat.compare_eq_eq, BitVec.toNat_inj]
  constructor
  · intro h
    rw [← ofOrdered_toOrdered x, h, ofOrdered_toOrdered]
  · rintro rfl
    rfl

theorem order_of_not_nan {x y : Ieee f} (hx : x.isNaN = false) (hy : y.isNaN = false) :
    x.order y = (compare x.extended y.extended).then (compare y.negative x.negative) := by
  simp [order, payload, hx, hy]

/-! ### Encodings -/

theorem encode_eq (x : Ieee f) :
    (Codec.leaf (.float f)).encode x = .ok (FixedWidth.encode f.width x.toOrdered) := rfl

theorem compare_encode_toOrdered (x y : Ieee f) :
    compare (FixedWidth.encode f.width x.toOrdered) (FixedWidth.encode f.width y.toOrdered) =
      x.order y := by
  rw [FixedWidth.compare_encode_toNat, compare_toOrdered]

theorem get_eq_ok_iff {limits : Limits} {x : Ieee f} {bs : Bytes} {n : Nat} :
    (Codec.leaf (.float f)).get limits bs = .ok (x, n) ↔
      n ≤ bs.length ∧ FixedWidth.encode f.width x.toOrdered = bs.take n := by
  change (Leaf.float f).get limits bs = _ ↔ _
  rw [← Leaf.run_decoder]
  have haccepts : ((Leaf.float f).decoder limits).Accepts fun x bs =>
      FixedWidth.encode f.width x.toOrdered = bs := by
    refine (FixedWidth.accepts_decoder f.width).map fun v bs hbs => ?_
    rw [toOrdered_ofOrdered, hbs]
  apply haccepts.run_eq_ok_iff
  intro bs hbs
  have hdecodes := (FixedWidth.decodes f.width x.toOrdered).map (ofOrdered (f := f))
  rwa [ofOrdered_toOrdered, hbs] at hdecodes

/-- Encodings compare by the total order. Every byte string of the width is decoded, and it is decoded
exactly as the pattern that it is the encoding of, so that no bit is lost, in a NaN neither. -/
theorem total_order_lossless (f : Format) (limits : Limits) :
    (∀ x y : Ieee f, ∃ u v, (Codec.leaf (.float f)).encode x = .ok u ∧
      (Codec.leaf (.float f)).encode y = .ok v ∧ compare u v = x.order y) ∧
    (∀ bs, (∃ x : Ieee f, (Codec.leaf (.float f)).decode limits bs = .ok x) ↔
      bs.length = f.width.bytes) ∧
    ∀ (x : Ieee f) bs, (Codec.leaf (.float f)).decode limits bs = .ok x ↔
      (Codec.leaf (.float f)).encode x = .ok bs := by
  have hdecode (x : Ieee f) (bs : Bytes) : (Codec.leaf (.float f)).decode limits bs = .ok x ↔
      FixedWidth.encode f.width x.toOrdered = bs := Codec.decode_eq_ok_iff_of_get fun _ _ => get_eq_ok_iff
  refine ⟨fun x y => ⟨_, _, encode_eq x, encode_eq y, compare_encode_toOrdered x y⟩,
    fun bs => ⟨?_, fun hlen => ?_⟩, fun x bs => ?_⟩
  · intro ⟨x, hx⟩
    rw [← (hdecode x bs).1 hx, FixedWidth.length_encode]
  · refine ⟨ofOrdered (FixedWidth.ofBytes f.width bs), (hdecode _ bs).2 ?_⟩
    rw [toOrdered_ofOrdered, FixedWidth.encode_ofBytes hlen]
  · rw [hdecode, encode_eq, Except.ok.injEq]

end SortKey.Ieee
