import SortKey.Proofs.BigFloatNumber

/-! Big floats of scaled integers. `value * 2 ^ scale` is made exactly where its binary exponent, the
precision and its significant bits are in range; what is made stands for it and has that exponent, and only
what stands for one number with one precision and one mode is equal. -/
namespace SortKey.BigFloat
open FixedWidth (InRange)
open Radix (oddPart significantBits)

/-- Apart from its sign, `q` is at least one half of `2 ^ e`, and less than `2 ^ e`. -/
def HasExponent (q : ℚ) (e : Int) : Prop := 2 ^ (e - 1) ≤ |q| ∧ |q| < 2 ^ e

theorem HasExponent.iff_eq {q : ℚ} {e f : Int} (h : HasExponent q e) : HasExponent q f ↔ f = e := by
  constructor
  · rintro ⟨hlow, hhigh⟩
    have hef : e - 1 < f := (zpow_lt_zpow_iff_right₀ one_lt_two).1 (h.1.trans_lt hhigh)
    have hfe : f - 1 < e := (zpow_lt_zpow_iff_right₀ one_lt_two).1 (hlow.trans_lt h.2)
    omega
  · rintro rfl
    exact h

theorem hasExponent_of_significand {q : ℚ} {m : Nat} {e : Int} (hm : m ≠ 0)
    (h : |q| = significand m * 2 ^ e) : HasExponent q e := by
  have hhalf := half_le_significand hm
  have hone := significand_lt_one m
  rw [HasExponent, h]
  constructor
  · calc (2 : ℚ) ^ (e - 1) = 1 / 2 * 2 ^ e := by
          rw [zpow_sub_one₀ two_ne_zero]
          ring
      _ ≤ significand m * 2 ^ e := by gcongr
  · calc significand m * 2 ^ e < 1 * 2 ^ e := by gcongr
      _ = 2 ^ e := one_mul _

theorem abs_scaled (value scale : Int) :
    |(value : ℚ) * 2 ^ scale| =
      significand value.natAbs * 2 ^ (scale + (significantBits value.natAbs : Int)) := by
  have habs : |(value : ℚ)| = value.natAbs := by
    rw [← Int.cast_abs, Int.abs_eq_natAbs, Int.cast_natCast]
  have hpow : (0 : ℚ) < 2 ^ scale := by positivity
  rw [abs_mul, abs_of_pos hpow, habs, significand, zpow_add₀ two_ne_zero, zpow_natCast]
  field_simp

theorem ofMantissa_eq_ok_iff {neg : Bool} {m : Nat} {e : Int} {p : Nat} {mode : RoundingMode}
    {x : BigFloat} : ofMantissa neg m e p mode = .ok x ↔
      (1 ≤ p ∧ p ≤ maxPrecision ∧ significantBits m ≤ p) ∧ x = .finite neg m e p mode :=
  withPrecision_finite_eq_ok (p := p)

theorem ofScaled_eq_ok_iff {value scale : Int} (hvalue : value ≠ 0) {p : Nat} {mode : RoundingMode}
    {x : BigFloat} : ofScaled value scale p mode = .ok x ↔
      (exponentFits (scale + significantBits value.natAbs) = true ∧ 1 ≤ p ∧ p ≤ maxPrecision ∧
        significantBits (oddPart value.natAbs) ≤ p) ∧
      x = .finite (value < 0) (oddPart value.natAbs) (scale + significantBits value.natAbs) p mode := by
  rw [ofScaled, if_neg hvalue]
  dsimp only
  split
  · next he => simp [ofMantissa_eq_ok_iff, he]
  · next he => simp [he]

section
variable {neg neg' : Bool} {m m' : Nat} {e e' : Int} {p p' : Nat} {mode mode' : RoundingMode}

theorem significand_injective (hm : m % 2 = 1) (hm' : m' % 2 = 1) (h : significand m = significand m') :
    m = m' := by
  rw [significand, significand, div_eq_div_iff (by positivity) (by positivity)] at h
  have hshift : m <<< significantBits m' = m' <<< significantBits m := by
    rw [Nat.shiftLeft_eq, Nat.shiftLeft_eq]
    exact_mod_cast h
  rw [← Radix.oddPart_shiftLeft hm (significantBits m'), hshift, Radix.oddPart_shiftLeft hm']

theorem parts_of_number (h : WellFormed (.finite neg m e p mode))
    (h' : WellFormed (.finite neg' m' e' p' mode'))
    (hnumber : (finite neg m e p mode).number? = (finite neg' m' e' p' mode').number?) :
    neg = neg' ∧ m = m' ∧ e = e' := by
  have hm := h.mantissa_ne_zero
  have hq := number?_finite neg m e p mode
  have habs := abs_number hq
  have habs' := abs_number (hnumber.symm.trans hq)
  -- the size of the number gives the exponent, and what is left of it gives the mantissa
  obtain rfl : e' = e :=
    (hasExponent_of_significand hm habs).iff_eq.1
      (hasExponent_of_significand h'.mantissa_ne_zero habs')
  have hpow : (2 : ℚ) ^ e' ≠ 0 := zpow_ne_zero _ two_ne_zero
  have hsignificand := mul_right_cancel₀ hpow (habs.symm.trans habs')
  obtain rfl := significand_injective h.1 h'.1 hsignificand
  have hpos : 0 < significand m * 2 ^ e' := by
    have := half_le_significand hm
    positivity
  refine ⟨?_, rfl, rfl⟩
  rw [number?_finite, number?_finite, Option.some.injEq] at hnumber
  cases neg <;> cases neg' <;> simp at hnumber ⊢ <;> linarith

end

theorem ofScaled_zero (scale : Int) (p : Nat) (mode : RoundingMode) :
    ofScaled 0 scale p mode = .ok (.zero false) := rfl

theorem scaled_eq_zero_iff (value scale : Int) : (value : ℚ) * 2 ^ scale = 0 ↔ value = 0 := by
  simp [zpow_ne_zero]

theorem ofScaled_eq_iff {value value' scale scale' : Int} {p p' : Nat} {mode mode' : RoundingMode}
    {x x' : BigFloat} (hx : ofScaled value scale p mode = .ok x)
    (hx' : ofScaled value' scale' p' mode' = .ok x') :
    x = x' ↔ (value : ℚ) * 2 ^ scale = value' * 2 ^ scale' ∧
      ((value : ℚ) * 2 ^ scale ≠ 0 → p = p' ∧ mode = mode') := by
  have hnumber := number?_of_ofScaled hx
  have hnumber' := number?_of_ofScaled hx'
  constructor
  · rintro rfl
    have hq := Option.some.inj (hnumber.symm.trans hnumber')
    refine ⟨hq, fun hne => ?_⟩
    have hvalue := mt (scaled_eq_zero_iff value scale).2 hne
    have hvalue' := mt (scaled_eq_zero_iff value' scale').2 (hq ▸ hne)
    obtain ⟨-, rfl⟩ := (ofScaled_eq_ok_iff hvalue).1 hx
    obtain ⟨-, heq⟩ := (ofScaled_eq_ok_iff hvalue').1 hx'
    rw [finite.injEq] at heq
    exact heq.2.2.2
  · rintro ⟨hq, hdeclared⟩
    by_cases hzero : (value : ℚ) * 2 ^ scale = 0
    · obtain rfl := (scaled_eq_zero_iff value scale).1 hzero
      obtain rfl := (scaled_eq_zero_iff value' scale').1 (hq ▸ hzero)
      exact Except.ok.inj (hx.symm.trans hx')
    · obtain ⟨rfl, rfl⟩ := hdeclared hzero
      have hvalue := mt (scaled_eq_zero_iff value scale).2 hzero
      have hvalue' := mt (scaled_eq_zero_iff value' scale').2 (hq ▸ hzero)
      have hwf := wellFormed_ofScaled hx
      have hwf' := wellFormed_ofScaled hx'
      obtain ⟨-, rfl⟩ := (ofScaled_eq_ok_iff hvalue).1 hx
      obtain ⟨-, rfl⟩ := (ofScaled_eq_ok_iff hvalue').1 hx'
      obtain ⟨hneg, hm, he⟩ := parts_of_number hwf hwf' (by rw [hnumber, hnumber', hq])
      rw [hneg, hm, he]

/-- A scale of 64 bits and two counts of 64 bits are added in 128 bits. -/
theorem inRange_exponent_sum {scale : Int} {j k : Nat} (hscale : InRange .w64 scale) (hj : j < 2 ^ 64)
    (hk : k < 2 ^ 64) : InRange .w128 (scale + j) ∧ InRange .w128 (scale + j + k) := by
  have hword : (256 : Int) ^ Width.w64.bytes = 2 ^ 64 := rfl
  have hwide : (256 : Int) ^ Width.w128.bytes = 2 ^ 128 := rfl
  rw [InRange, hword] at hscale
  rw [InRange, InRange, hwide]
  omega

/-- The number `value * 2 ^ scale` is made exactly where it fits, the value of zero being positive; with
`m` for what is left of `value` without its `j` trailing zeros, the sum of `scale`, `j` and the bits of
`m` is the exponent. Nothing is rounded, and there is one value for each number, precision and mode. -/
theorem scaled_exact_and_canonical (value scale : Int) (p : Nat) (mode : RoundingMode) :
    (value = 0 → ofScaled value scale p mode = .ok (.zero false)) ∧
    (value ≠ 0 → ∃ (m j : Nat) (e : Int), (m % 2 = 1 ∧ value.natAbs = m * 2 ^ j) ∧
      (∀ f, HasExponent ((value : ℚ) * 2 ^ scale) f ↔ f = e) ∧
      ((∃ x, ofScaled value scale p mode = .ok x) ↔
        (-2 ^ 31 < e ∧ e < 2 ^ 31) ∧ (1 ≤ p ∧ p ≤ 2 ^ 31 - 1) ∧ significantBits m ≤ p) ∧
      (∀ x, ofScaled value scale p mode = .ok x →
        x = .finite (value < 0) m e p mode ∧ x.number? = some ((value : ℚ) * 2 ^ scale)) ∧
      scale + j + significantBits m = e ∧
      (InRange .w64 scale → j < 2 ^ 64 → significantBits m < 2 ^ 64 →
        InRange .w128 (scale + j) ∧ InRange .w128 (scale + j + significantBits m))) ∧
    ∀ value' scale' p' mode' x x', ofScaled value scale p mode = .ok x →
      ofScaled value' scale' p' mode' = .ok x' →
        (x = x' ↔ (value : ℚ) * 2 ^ scale = value' * 2 ^ scale' ∧
          ((value : ℚ) * 2 ^ scale ≠ 0 → p = p' ∧ mode = mode')) := by
  refine ⟨?_, fun hvalue => ?_, fun _ _ _ _ _ _ hx hx' => ofScaled_eq_iff hx hx'⟩
  · rintro rfl
    exact ofScaled_zero scale p mode
  have hne := Int.natAbs_ne_zero.2 hvalue
  obtain ⟨hodd, j, hj, hbits⟩ := Radix.exists_shiftLeft_oddPart hne
  rw [Nat.shiftLeft_eq] at hj
  have hmade := @ofScaled_eq_ok_iff value scale hvalue p mode
  refine ⟨oddPart value.natAbs, j, scale + significantBits value.natAbs, ⟨hodd, hj⟩, fun f => ?_, ?_,
    fun x hx => ⟨(hmade.1 hx).2, number?_of_ofScaled hx⟩, ?_, inRange_exponent_sum⟩
  · exact (hasExponent_of_significand hne (abs_scaled value scale)).iff_eq
  · simp [hmade, exponentFits, maxPrecision, and_assoc]
  · omega

/-- Minus twelve eighths is minus three halves; the highest scale of 64 bits is beyond every exponent. -/
theorem scaled_exact_and_canonical_minus_three_halves :
    let x : BigFloat := .finite true 3 1 8 .toZero
    ofScaled (-12) (-3) 8 .toZero = .ok x ∧ ofScaled (-3) (-1) 8 .toZero = .ok x ∧
      x.number? = some (((-12 : Int) : ℚ) * 2 ^ (-3 : Int)) ∧
      ((-12 : Int) : ℚ) * 2 ^ (-3 : Int) = ((-3 : Int) : ℚ) * 2 ^ (-1 : Int) ∧
      HasExponent (((-12 : Int) : ℚ) * 2 ^ (-3 : Int)) 1 ∧
      (¬∃ y, ofScaled (-12) (2 ^ 63 - 1) 8 .toZero = .ok y) ∧
      InRange .w64 (-3) ∧ InRange .w128 (-3 + 2 + significantBits 3) := by
  intro x
  have hx : ofScaled (-12) (-3) 8 .toZero = .ok x := by rfl
  have hx' : ofScaled (-3) (-1) 8 .toZero = .ok x := by rfl
  have hbits : significantBits 3 = 2 := by rfl
  have hscale : InRange .w64 (-3) := ⟨by decide, by decide⟩
  obtain ⟨-, hvalue, hequal⟩ := scaled_exact_and_canonical (-12) (-3) 8 .toZero
  obtain ⟨m, j, e, ⟨-, hj⟩, hexponent, -, hmade, hsum, hrange⟩ := hvalue (by decide)
  obtain ⟨hparts, hnumber⟩ := hmade x hx
  obtain ⟨-, rfl, rfl, -⟩ := finite.inj hparts
  obtain rfl : j = 2 := by
    rw [hbits] at hsum
    omega
  obtain ⟨-, hfar, -⟩ := scaled_exact_and_canonical (-12) (2 ^ 63 - 1) 8 .toZero
  obtain ⟨m', j', e', -, -, hfits, -, hsum', -⟩ := hfar (by decide)
  refine ⟨hx, hx', hnumber, ((hequal _ _ _ _ x x hx hx').1 rfl).1, (hexponent 1).2 rfl, fun h => ?_,
    hscale, (hrange hscale (by decide) (by rw [hbits]; decide)).2⟩
  have := (hfits.1 h).1
  omega

end SortKey.BigFloat
