import SortKey.Proofs.BigFloatOrder
import SortKey.Proofs.DoubleConversion
import SortKey.Proofs.IeeeOrder

/-! Doubles and the big floats made of them. Different doubles compare as encoded doubles like they do as
encoded big floats, whatever precisions these are given. -/
namespace SortKey.BigFloat

section
variable {d : Ieee .double}

theorem exists_withPrecision (hd : d.isNaN = false) {p : Nat} (hp : 53 ≤ p) (hmax : p ≤ maxPrecision) :
    ∃ x y, ofDouble d = .ok x ∧ x.withPrecision p = .ok y := by
  cases hs : d.isSpecial with
  | true =>
    have hinfinite : d.isInfinite = true := by rwa [Ieee.isSpecial_eq_or, hd, Bool.false_or] at hs
    exact ⟨_, _, ofDouble_infinite hinfinite, rfl⟩
  | false =>
    cases hz : d.isZero with
    | true => exact ⟨_, _, ofDouble_zero hz, rfl⟩
    | false =>
      obtain ⟨m, e, hx⟩ := ofDouble_finite hs hz
      have hbits : Radix.significantBits m ≤ 53 := (wellFormed_ofDouble hx).2.1
      exact ⟨_, _, hx, withPrecision_finite_eq_ok.2 ⟨⟨by omega, hmax, hbits.trans hp⟩, rfl⟩⟩

theorem extended_of_double (hd : d.isNaN = false) {x y : BigFloat} (hx : ofDouble d = .ok x) {p : Nat}
    (hy : x.withPrecision p = .ok y) : y.negative = d.negative ∧ y.extended = d.extended := by
  obtain ⟨x', hx', hneg, hnumber⟩ := ofDouble_of_not_nan hd
  obtain rfl : x = x' := Except.ok.inj (hx.symm.trans hx')
  obtain ⟨hstep, hnumber'⟩ := (Step.precision hy).number
  refine ⟨hstep.trans hneg, ?_⟩
  rw [extended, hstep.trans hneg, hnumber'.trans hnumber]
  unfold Ieee.extended
  cases d.number? <;> rfl

end

/-- Doubles that differ, differ as numbers or as zeros of two signs, so that precisions do not count. -/
theorem order_of_doubles {a b : Ieee .double} (ha : a.isNaN = false) (hb : b.isNaN = false) (hne : a ≠ b)
    {x y : BigFloat} (hx : x.negative = a.negative ∧ x.extended = a.extended)
    (hy : y.negative = b.negative ∧ y.extended = b.extended) : x.order y = a.order b := by
  have hdiffer : a.order b ≠ .eq := fun h => hne (Ieee.order_eq_eq_iff.1 h)
  rw [order, hx.1, hx.2, hy.1, hy.2, ← Ordering.then_assoc, ← Ieee.order_of_not_nan ha hb]
  cases h : a.order b with
  | eq => exact (hdiffer h).elim
  | lt => rfl
  | gt => rfl

/-- Of two different doubles, given any precisions of at least 53 bits as big floats, the encoded big floats
compare like the encoded doubles. -/
theorem same_order_as_doubles (a b : Ieee .double) (ha : a.isNaN = false) (hb : b.isNaN = false)
    (hne : a ≠ b) (p q : Nat) (hp : 53 ≤ p ∧ p ≤ 2 ^ 31 - 1) (hq : 53 ≤ q ∧ q ≤ 2 ^ 31 - 1) :
    ∃ x y s t u v, ofDouble a >>= withPrecision p = .ok x ∧ ofDouble b >>= withPrecision q = .ok y ∧
      (Codec.leaf .bigFloat).encode x = .ok s ∧ (Codec.leaf .bigFloat).encode y = .ok t ∧
      (Codec.leaf (.float .double)).encode a = .ok u ∧ (Codec.leaf (.float .double)).encode b = .ok v ∧
      compare s t = compare u v := by
  obtain ⟨x', x, hx', hx⟩ := exists_withPrecision ha hp.1 hp.2
  obtain ⟨y', y, hy', hy⟩ := exists_withPrecision hb hq.1 hq.2
  have hxwf := (Step.precision hx).wellFormed (wellFormed_ofDouble hx')
  have hywf := (Step.precision hy).wellFormed (wellFormed_ofDouble hy')
  obtain ⟨s, hs⟩ := exists_encoding hxwf
  obtain ⟨t, ht⟩ := exists_encoding hywf
  refine ⟨x, y, s, t, _, _, ?_, ?_, hs, ht, Ieee.encode_eq a, Ieee.encode_eq b, ?_⟩
  · rw [hx']
    exact hx
  · rw [hy']
    exact hy
  · rw [compare_encodings hxwf hywf hs ht, Ieee.compare_encode_toOrdered]
    exact order_of_doubles ha hb hne (extended_of_double ha hx' hx) (extended_of_double hb hy' hy)

/-- The two lowest negative doubles next to zero, the upper one with the highest precision. -/
theorem same_order_as_doubles_subnormal :
    let a : Ieee .double := ⟨0x8000000000000002⟩
    let b : Ieee .double := ⟨0x8000000000000001⟩
    a.isNaN = false ∧ b.isNaN = false ∧ a ≠ b ∧ (53 ≤ 53 ∧ 53 ≤ 2 ^ 31 - 1) ∧
      (53 ≤ 2 ^ 31 - 1 ∧ 2 ^ 31 - 1 ≤ 2 ^ 31 - 1) ∧
      ∃ x y s t, ofDouble a >>= withPrecision 53 = .ok x ∧
        ofDouble b >>= withPrecision (2 ^ 31 - 1) = .ok y ∧
        (Codec.leaf .bigFloat).encode x = .ok s ∧ (Codec.leaf .bigFloat).encode y = .ok t ∧
        compare s t = .lt := by
  intro a b
  have ha : a.isNaN = false := by decide
  have hb : b.isNaN = false := by decide
  have hne : a ≠ b := by decide
  have hp : 53 ≤ 53 ∧ 53 ≤ 2 ^ 31 - 1 := by decide
  have hq : 53 ≤ 2 ^ 31 - 1 ∧ 2 ^ 31 - 1 ≤ 2 ^ 31 - 1 := by decide
  obtain ⟨x, y, s, t, u, v, hx, hy, hs, ht, hu, hv, hcompare⟩ :=
    same_order_as_doubles a b ha hb hne 53 (2 ^ 31 - 1) hp hq
  have hu' : (Codec.leaf (.float .double)).encode a =
      .ok [0x7f, 0xff, 0xff, 0xff, 0xff, 0xff, 0xff, 0xfd] := by decide
  have hv' : (Codec.leaf (.float .double)).encode b =
      .ok [0x7f, 0xff, 0xff, 0xff, 0xff, 0xff, 0xff, 0xfe] := by decide
  obtain rfl := Except.ok.inj (hu.symm.trans hu')
  obtain rfl := Except.ok.inj (hv.symm.trans hv')
  exact ⟨ha, hb, hne, hp, hq, x, y, s, t, hx, hy, hs, ht, hcompare⟩

end SortKey.BigFloat
