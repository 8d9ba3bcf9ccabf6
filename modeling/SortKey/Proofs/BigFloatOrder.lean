import Mathlib.Algebra.Order.Monoid.WithTop
import Mathlib.Data.Sign.Basic
import Mathlib.Order.WithBot
import SortKey.Codec.Write
import SortKey.Proofs.BigFloatNumber
import SortKey.Proofs.IntegerOrder

/-! The order of big floats. Their encodings compare by the number, the negative zero below the positive
one; then, for one number, by precision, the larger being further from zero; then by rounding mode. -/
namespace SortKey.BigFloat
open BigInteger (withSign)
open Bytes

/-- The number that a value stands for, between the two infinities. -/
def extended (x : BigFloat) : WithBot (WithTop ℚ) :=
  match x.number? with
  | some q => ((q : WithTop ℚ) : WithBot (WithTop ℚ))
  | none => if x.negative then ⊥ else ⊤

/-- Compares by number, of the two zeros the negative one first; then by how far the precision reaches
from zero; then by the byte of the mode. -/
def order (a b : BigFloat) : Ordering :=
  (compare a.extended b.extended).then <| (compare b.negative a.negative).then <|
    (compare (withSign a.negative a.precision) (withSign b.negative b.precision)).then <|
      compare a.mode.byte b.mode.byte

@[simp] theorem extended_zero (neg : Bool) : (zero neg).extended = 0 := rfl

@[simp] theorem extended_infinite (neg : Bool) : (infinite neg).extended = if neg then ⊥ else ⊤ := rfl

theorem extended_finite (neg : Bool) (m : Nat) (e : Int) (p : Nat) (mode : RoundingMode) :
    (finite neg m e p mode).extended =
      (((if neg then -1 else 1) * (significand m * 2 ^ e) : ℚ) : WithTop ℚ) := by
  rw [extended, number?_finite]

def sideOf (q : WithBot (WithTop ℚ)) : Int :=
  SignType.sign q + if q = ⊥ then -1 else if q = ⊤ then 1 else 0

theorem sideOf_le_sideOf {q r : WithBot (WithTop ℚ)} (h : q ≤ r) : sideOf q ≤ sideOf r := by
  have hcast : ∀ s t : SignType, s ≤ t → (s : Int) ≤ t := by decide
  have hsign := hcast _ _ (SignType.sign.monotone h)
  have hend : (if q = ⊥ then -1 else if q = ⊤ then 1 else 0) ≤
      if r = ⊥ then -1 else if r = ⊤ then 1 else (0 : Int) := by
    split_ifs <;> simp_all
  exact Int.add_le_add hsign hend

def side : BigFloat → Int
  | .zero _ => 0
  | .infinite neg => if neg then -2 else 2
  | .finite neg .. => if neg then -1 else 1

theorem compare_kind (a b : BigFloat) :
    compare a.kind b.kind = (compare a.side b.side).then (compare b.negative a.negative) := by
  obtain (_ | _) | (_ | _) | ⟨_ | _, _, _, _, _⟩ := a <;>
    obtain (_ | _) | (_ | _) | ⟨_ | _, _, _, _, _⟩ := b <;> rfl

theorem sideOf_coe (q : ℚ) : sideOf ((q : WithTop ℚ) : WithBot (WithTop ℚ)) = SignType.sign q := by
  have hpos : 0 < ((q : WithTop ℚ) : WithBot (WithTop ℚ)) ↔ 0 < q := by norm_cast
  have hneg : ((q : WithTop ℚ) : WithBot (WithTop ℚ)) < 0 ↔ q < 0 := by norm_cast
  have htop : ((q : WithTop ℚ) : WithBot (WithTop ℚ)) ≠ ⊤ := by
    simp
  simp [sideOf, sign_apply, hpos, hneg, htop]

theorem sideOf_extended {x : BigFloat} (h : x.WellFormed) : sideOf x.extended = x.side := by
  cases x with
  | zero neg =>
    have hzero : sideOf 0 = 0 := by simpa using sideOf_coe 0
    simp [side, hzero]
  | infinite neg =>
    have htop : (0 : WithBot (WithTop ℚ)) < ⊤ := WithBot.coe_lt_coe.2 (WithTop.coe_lt_top 0)
    cases neg <;> simp [sideOf, side, sign_pos htop]
  | finite neg m e p mode =>
    have hm := half_le_significand h.mantissa_ne_zero
    have hpos : 0 < significand m * 2 ^ e := by positivity
    rw [extended_finite, sideOf_coe]
    cases neg with
    | false => simp [side, sign_pos hpos]
    | true => simp [side, Left.sign_neg, sign_pos hpos]

theorem compare_side_then {a b : BigFloat} (ha : a.WellFormed) (hb : b.WellFormed) :
    (compare a.side b.side).then (compare a.extended b.extended) = compare a.extended b.extended := by
  rw [← sideOf_extended ha, ← sideOf_extended hb]
  exact compare_then_of_monotone (fun _ _ => sideOf_le_sideOf) _ _

section
variable {neg : Bool} {m m' : Nat} {e e' : Int} {p p' : Nat} {mode mode' : RoundingMode}

/-- Compares by distance from zero, then by how far the precision reaches. -/
def compareFar (m m' : Nat) (e e' : Int) (p p' : Nat) : Ordering :=
  (compare e e').then ((compare (significand m) (significand m')).then (compare p p'))

theorem order_finite (hm : m ≠ 0) (hm' : m' ≠ 0) :
    (finite neg m e p mode).order (finite neg m' e' p' mode') =
      (if neg then (compareFar m m' e e' p p').swap else compareFar m m' e e' p p').then
        (compare mode.byte mode'.byte) := by
  have hnumbers := compare_scaled (half_le_significand hm) (significand_lt_one m)
    (half_le_significand hm') (significand_lt_one m') e e'
  rw [compareFar, ← Ordering.then_assoc, ← hnumbers, order, extended_finite, extended_finite,
    compare_coe]
  cases neg with
  | false =>
    simp [negative, precision, BigFloat.mode, BigInteger.compare_withSign, compare_natCast,
      Ordering.then_assoc]
  | true =>
    have hneg := compare_map_swap (f := fun q : ℚ => -q) (fun _ _ => neg_lt_neg)
      (significand m * 2 ^ e) (significand m' * 2 ^ e')
    simp [negative, precision, BigFloat.mode, BigInteger.compare_withSign, compare_natCast,
      Ordering.then_assoc, Ordering.swap_then, hneg]

theorem compare_in_turn (he : exponentFits e = true) (he' : exponentFits e' = true) (hp : p ≤ maxPrecision)
    (hp' : p' ≤ maxPrecision) (xs ys : Bytes) :
    compare (fieldBytes neg e xs p mode) (fieldBytes neg e' ys p' mode') =
      (compare (withSign neg e) (withSign neg e')).then
        ((if neg then (compare xs ys).swap else compare xs ys).then
          ((compare (withSign neg p) (withSign neg p')).then (compare mode.byte mode'.byte))) := by
  have hmodes : compare [mode.byte] [mode'.byte] = compare mode.byte mode'.byte := by simp
  rw [fieldBytes, fieldBytes, (FixedWidth.apart_encodeInt .w32 _ _).compare_append,
    (Frame.apart_encode _ xs ys).compare_append, (FixedWidth.apart_encodeInt .w32 _ _).compare_append,
    FixedWidth.compare_encodeInt (inRange_exponent he neg) (inRange_exponent he' neg),
    FixedWidth.compare_encodeInt (inRange_precision hp neg) (inRange_precision hp' neg),
    Frame.compare_encode_maskOf, hmodes]

/-- A precision that needs more bytes lengthens the mantissa field, but only with zeros, so that it shows
where the fractions are equal; there the larger number of bytes is that of the larger precision. -/
theorem compare_fieldBytes (h : WellFormed (finite neg m e p mode))
    (h' : WellFormed (finite neg m' e' p' mode')) :
    compare (fieldBytes neg e (Radix.magnitude (aligned m p)) p mode)
        (fieldBytes neg e' (Radix.magnitude (aligned m' p')) p' mode') =
      (finite neg m e p mode).order (finite neg m' e' p' mode') := by
  have hm := h.mantissa_ne_zero
  have hm' := h'.mantissa_ne_zero
  obtain ⟨-, hbits, hp, he⟩ := h
  obtain ⟨-, hbits', hp', he'⟩ := h'
  have hfields := Radix.compare_eq_compare_fraction (Radix.magnitude (aligned m p))
    (Radix.magnitude (aligned m' p'))
  rw [fraction_field hm hbits, fraction_field hm' hbits', length_magnitude_aligned hm hbits,
    length_magnitude_aligned hm' hbits'] at hfields
  rw [order_finite hm hm', compareFar, ← compare_then_of_monotone Radix.bytesFor_mono p p',
    compare_in_turn he he' hp hp', hfields, BigInteger.compare_withSign, BigInteger.compare_withSign,
    compare_natCast]
  cases neg with
  | false => simp [Ordering.then_assoc]
  | true => simp [Ordering.then_assoc, Ordering.swap_then]

end

theorem compare_tails {a b : BigFloat} (ha : a.WellFormed) (hb : b.WellFormed) (hside : a.side = b.side)
    {x y : Bytes} (hx : a.tail.encoding = .ok x) (hy : b.tail.encoding = .ok y) :
    (compare b.negative a.negative).then (compare x y) = a.order b := by
  obtain na | na | ⟨na, m, e, p, mode⟩ := a <;> obtain nb | nb | ⟨nb, m', e', p', mode'⟩ := b
  case zero.zero =>
    cases hx
    cases hy
    cases na <;> cases nb <;> rfl
  case infinite.infinite =>
    cases hx
    cases hy
    obtain rfl : na = nb := by cases na <;> cases nb <;> simp_all [side]
    simp [order]
  case finite.finite =>
    obtain rfl : na = nb := by cases na <;> cases nb <;> simp_all [side]
    rw [ha.encoding_tail] at hx
    rw [hb.encoding_tail] at hy
    cases hx
    cases hy
    simp [negative, compare_fieldBytes ha hb]
  all_goals
    cases na <;> cases nb <;> simp [side] at hside

theorem compare_encodings {a b : BigFloat} (ha : a.WellFormed) (hb : b.WellFormed) {x y : Bytes}
    (hx : a.append.encoding = .ok x) (hy : b.append.encoding = .ok y) : compare x y = a.order b := by
  obtain ⟨s, hs, rfl⟩ := encoding_append_eq_ok.1 hx
  obtain ⟨t, ht, rfl⟩ := encoding_append_eq_ok.1 hy
  have horder : (compare a.side b.side).then (a.order b) = a.order b := by
    rw [order, ← Ordering.then_assoc, compare_side_then ha hb]
  rw [(FixedWidth.apart_encodeInt .w8 _ _).compare_append,
    FixedWidth.compare_encodeInt a.inRange_kind b.inRange_kind, compare_kind, Ordering.then_assoc,
    ← horder]
  cases h : compare a.side b.side with
  | lt => rfl
  | gt => rfl
  | eq => exact compare_tails ha hb (Int.compare_eq_eq.1 h) hs ht

/-- However two big floats came about, their encodings compare as they do, and only equal ones share
an encoding. -/
theorem number_precision_mode_order (a b : BigFloat) (ha : a.Obtainable) (hb : b.Obtainable) :
    ∃ x y, (Codec.leaf .bigFloat).encode a = .ok x ∧ (Codec.leaf .bigFloat).encode b = .ok y ∧
      compare x y = a.order b ∧ (x = y ↔ a = b) := by
  obtain ⟨x, hx⟩ := exists_encoding ha.wellFormed
  obtain ⟨y, hy⟩ := exists_encoding hb.wellFormed
  refine ⟨x, y, hx, hy, compare_encodings ha.wellFormed hb.wellFormed hx hy, ?_, ?_⟩
  · rintro rfl
    -- one decoder finds both values in the same bytes
    have hfound := decodes ha.wellFormed hx []
    rw [decodes hb.wellFormed hy [], Except.ok.injEq, Prod.mk.injEq] at hfound
    exact hfound.1.symm
  · rintro rfl
    exact Except.ok.inj (hx.symm.trans hy)

/-- Of two values of minus one the more precise one is further from zero, and so below the other, in spite
of the mode. -/
theorem number_precision_mode_order_minus_one :
    let a : BigFloat := .finite true 1 1 9 .toNearestEven
    let b : BigFloat := .finite true 1 1 8 .toPositiveInf
    a.Obtainable ∧ b.Obtainable ∧
      ∃ x y, (Codec.leaf .bigFloat).encode a = .ok x ∧ (Codec.leaf .bigFloat).encode b = .ok y ∧
        compare x y = .lt := by
  intro a b
  have ha : a.Obtainable := (@Made.ofScaled (-1) 0 9 .toNearestEven a rfl).obtainable
  have hb : b.Obtainable := (@Made.ofScaled (-1) 0 8 .toPositiveInf b rfl).obtainable
  have horder : a.order b = .lt := by
    have hprecisions : compare 9 8 = .gt := rfl
    simp [a, b, order_finite, compareFar, hprecisions]
  obtain ⟨x, y, hx, hy, hcompare, -⟩ := number_precision_mode_order a b ha hb
  exact ⟨ha, hb, x, y, hx, hy, hcompare.trans horder⟩

end SortKey.BigFloat
