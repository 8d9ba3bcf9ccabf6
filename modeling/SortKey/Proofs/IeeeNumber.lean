import Mathlib.Algebra.Field.Rat
import Mathlib.Algebra.Order.Field.Power
import Mathlib.Tactic.FieldSimp
import Mathlib.Tactic.Positivity
import Mathlib.Tactic.Ring
import SortKey.Proofs.DigitOrder

/-! The numbers that IEEE 754 patterns stand for. A pattern is its sign, its exponent field and its
fraction; magnitudes compare by the exponent fields and then by the fractions, subnormal ones included; and
patterns other than NaNs are told apart by their signs and numbers. -/
namespace SortKey.Ieee
variable {f : Format}

/-! ### The fields of a pattern -/

theorem fraction_lt (x : Ieee f) : x.fraction < 2 ^ f.fractionBits := BitVec.isLt _

theorem biased_lt (x : Ieee f) : x.biased < 2 ^ f.exponentBits := BitVec.isLt _

theorem toNat_negative (x : Ieee f) :
    x.negative.toNat = x.bits.toNat / 2 ^ (f.fractionBits + f.exponentBits) := by
  have hwidth : f.width.bits = f.fractionBits + f.exponentBits + 1 := by cases f <;> rfl
  have hpow : 2 ^ f.width.bits = 2 ^ (f.fractionBits + f.exponentBits) * 2 := by
    rw [hwidth, Nat.pow_succ]
  have hlt := x.bits.isLt
  rw [negative]
  cases h : x.bits.msb
  · have := BitVec.msb_eq_false_iff_two_mul_lt.1 h
    rw [Bool.toNat_false, Nat.div_eq_of_lt (by omega)]
  · have := BitVec.msb_eq_true_iff_two_mul_ge.1 h
    rw [Bool.toNat_true, Nat.div_eq_of_lt_le (k := 1) (by omega) (by omega)]

theorem toNat_bits (x : Ieee f) :
    x.bits.toNat =
      (x.negative.toNat * 2 ^ f.exponentBits + x.biased) * 2 ^ f.fractionBits + x.fraction := by
  rw [toNat_negative, Nat.pow_add, ← Nat.div_div_eq_div_mul, biased, exponentField, fraction,
    BitVec.extractLsb'_toNat, BitVec.extractLsb'_toNat, Nat.shiftRight_eq_div_pow, Nat.shiftRight_zero,
    Nat.div_add_mod', Nat.div_add_mod']

theorem eq_of_fields {x y : Ieee f} (hneg : x.negative = y.negative) (he : x.biased = y.biased)
    (ht : x.fraction = y.fraction) : x = y := by
  have hbits : x.bits = y.bits :=
    BitVec.eq_of_toNat_eq (by rw [toNat_bits, toNat_bits, hneg, he, ht])
  cases x
  cases y
  rw [mk.injEq]
  exact hbits

theorem isSpecial_iff (x : Ieee f) : x.isSpecial = true ↔ x.biased = 2 ^ f.exponentBits - 1 := by
  rw [isSpecial, decide_eq_true_eq, biased, ← BitVec.toNat_inj, BitVec.toNat_allOnes]

theorem isSpecial_eq_or (x : Ieee f) : x.isSpecial = (x.isNaN || x.isInfinite) := by
  rw [isNaN, isInfinite]
  cases x.isSpecial <;> by_cases h : x.fraction = 0 <;> simp [h]

/-! ### The number of a pattern -/

def bias (f : Format) : Nat := 2 ^ (f.exponentBits - 1) - 1

/-- The number without its sign: the fraction is behind the point, and one is in front of it unless the
exponent field is zero, which stands for the same power of two as a field of one does. -/
def absolute (x : Ieee f) : ℚ :=
  if x.biased = 0 then x.fraction / 2 ^ f.fractionBits * 2 ^ (1 - bias f : Int)
  else (1 + x.fraction / 2 ^ f.fractionBits) * 2 ^ (x.biased - bias f : Int)

/-- The number that a pattern stands for, unless it is an infinity or a NaN. -/
def number? (x : Ieee f) : Option ℚ :=
  if x.isSpecial then none else some ((if x.negative then -1 else 1) * x.absolute)

/-- The fraction as a whole number, with the leading bit of normal numbers. -/
def whole (x : Ieee f) : Nat := if x.biased = 0 then x.fraction else x.fraction + leadingBit f

def scale (x : Ieee f) : Int := (max 1 x.biased : Nat) - (bias f + f.fractionBits)

theorem leadingBit_eq (f : Format) : leadingBit f = 2 ^ f.fractionBits := by
  rw [leadingBit, Nat.one_shiftLeft]

theorem absolute_eq (x : Ieee f) : x.absolute = x.whole * 2 ^ x.scale := by
  have hpow (k : Int) :
      (2 : ℚ) ^ (k - (bias f + f.fractionBits)) = 2 ^ (k - bias f) / 2 ^ f.fractionBits := by
    rw [← sub_sub, zpow_sub₀ two_ne_zero (k - bias f), zpow_natCast]
  rw [absolute, whole, scale, leadingBit_eq]
  split
  · next h =>
    rw [max_eq_left (by omega), Nat.cast_one, hpow, div_mul_eq_mul_div, mul_div_assoc]
  · next h =>
    rw [max_eq_right (by omega), hpow]
    push_cast
    field_simp
    ring

theorem whole_lt (x : Ieee f) : x.whole < 2 ^ (f.fractionBits + 1) := by
  have := x.fraction_lt
  rw [whole, leadingBit_eq, Nat.pow_succ]
  split <;> omega

theorem whole_eq_zero_iff (x : Ieee f) : x.whole = 0 ↔ x.isZero = true := by
  have := Nat.two_pow_pos f.fractionBits
  rw [whole, leadingBit_eq, isZero, Bool.and_eq_true, decide_eq_true_eq, decide_eq_true_eq]
  split <;> omega

def signedWhole (x : Ieee f) : Int := if x.negative then -x.whole else x.whole

theorem natAbs_signedWhole (x : Ieee f) : x.signedWhole.natAbs = x.whole := by
  rw [signedWhole]
  split <;> simp

theorem signedWhole_neg_iff {x : Ieee f} (h : x.whole ≠ 0) :
    x.signedWhole < 0 ↔ x.negative = true := by
  rw [signedWhole]
  split
  · next hneg =>
    simp only [hneg, iff_true]
    omega
  · next hneg => simp [hneg]

theorem number?_eq_some {x : Ieee f} (h : x.isSpecial = false) :
    x.number? = some ((x.signedWhole : ℚ) * 2 ^ x.scale) := by
  rw [number?, h, absolute_eq, signedWhole]
  cases x.negative <;> simp

example : (⟨0xbfc00000⟩ : Ieee .single).number? = some (-3 / 2) := by decide +kernel

/-! ### The order of the numbers -/

theorem absolute_lt (x : Ieee f) : x.absolute < 2 ^ (x.biased - bias f + 1 : Int) := by
  have hr : (x.fraction / 2 ^ f.fractionBits : ℚ) < 1 := by
    rw [div_lt_one (by positivity)]
    exact_mod_cast x.fraction_lt
  rw [absolute]
  split
  · next h =>
    rw [h, Nat.cast_zero, zero_sub, neg_add_eq_sub]
    exact mul_lt_of_lt_one_left (by positivity) hr
  · calc (1 + x.fraction / 2 ^ f.fractionBits : ℚ) * 2 ^ (x.biased - bias f : Int)
        < (1 + 1) * 2 ^ (x.biased - bias f : Int) := by gcongr
      _ = 2 ^ (x.biased - bias f + 1 : Int) := by
        rw [zpow_add_one₀ two_ne_zero]
        ring

theorem le_absolute {x : Ieee f} (h : x.biased ≠ 0) : 2 ^ (x.biased - bias f : Int) ≤ x.absolute := by
  rw [absolute, if_neg h]
  refine le_mul_of_one_le_left (by positivity) ?_
  rw [le_add_iff_nonneg_right]
  positivity

theorem absolute_lt_of_biased_lt {x y : Ieee f} (h : x.biased < y.biased) : x.absolute < y.absolute :=
  -- the numbers of one exponent field lie between two powers of two, the subnormal ones below them all
  calc x.absolute < 2 ^ (x.biased - bias f + 1 : Int) := x.absolute_lt
    _ ≤ 2 ^ (y.biased - bias f : Int) := by
      gcongr
      · norm_num
      · omega
    _ ≤ y.absolute := le_absolute (by omega)

theorem absolute_lt_of_fraction_lt {x y : Ieee f} (he : x.biased = y.biased)
    (h : x.fraction < y.fraction) : x.absolute < y.absolute := by
  rw [absolute, absolute, he]
  split <;> gcongr

theorem compare_absolute (x y : Ieee f) :
    compare x.absolute y.absolute =
      (compare x.biased y.biased).then (compare x.fraction y.fraction) := by
  refine compare_eq_then absolute_lt_of_biased_lt (fun he => ?_) absolute_lt_of_biased_lt
  rw [compare_eq_then (o := .eq) (absolute_lt_of_fraction_lt he) (fun ht => ?_)
    (absolute_lt_of_fraction_lt he.symm), Ordering.then_eq]
  rw [absolute, absolute, he, ht, Std.compare_self]

theorem eq_of_number {x y : Ieee f} (hx : x.isNaN = false) (hy : y.isNaN = false)
    (hneg : x.negative = y.negative) (h : x.number? = y.number?) : x = y := by
  rw [number?, number?, hneg] at h
  cases hsx : x.isSpecial <;> cases hsy : y.isSpecial <;>
    simp only [hsx, hsy, Bool.false_eq_true, if_true, if_false, reduceCtorEq, Option.some.injEq] at h
  · have habs : x.absolute = y.absolute := by
      cases hn : y.negative <;> simpa [hn] using h
    have hcompare := compare_absolute x y
    rw [habs, Std.compare_self, eq_comm, Ordering.then_eq_eq, compare_eq_iff_eq, compare_eq_iff_eq]
      at hcompare
    exact eq_of_fields hneg hcompare.1 hcompare.2
  · have hfraction {z : Ieee f} (hz : z.isNaN = false) (hs : z.isSpecial = true) : z.fraction = 0 := by
      simpa [isNaN, hs] using hz
    exact eq_of_fields hneg (by rw [(isSpecial_iff x).1 hsx, (isSpecial_iff y).1 hsy])
      (by rw [hfraction hx hsx, hfraction hy hsy])

end SortKey.Ieee
