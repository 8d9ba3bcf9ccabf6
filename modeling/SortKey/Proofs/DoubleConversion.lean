import SortKey.Proofs.BigFloatScaling
import SortKey.Proofs.IeeeNumber

/-! Doubles as big floats. All doubles but NaNs become big floats of their sign that stand for the same
number with 53 bits of precision, subnormal ones included, and no two doubles become the same. -/
namespace SortKey.BigFloat
open Radix (oddPart significantBits)

section
variable {d : Ieee .double}

theorem ofDouble_nan (h : d.isNaN = true) : ofDouble d = .error .nan := by
  rw [ofDouble, if_pos h]

theorem ofDouble_infinite (h : d.isInfinite = true) : ofDouble d = .ok (.infinite d.negative) := by
  have hnan : d.isNaN = false := by
    simp_all [Ieee.isInfinite, Ieee.isNaN]
  simp [ofDouble, hnan, h]

theorem ofDouble_zero (h : d.isZero = true) : ofDouble d = .ok (.zero d.negative) := by
  have hspecial : d.isSpecial = false := by
    rw [Ieee.isZero, Bool.and_eq_true, decide_eq_true_eq] at h
    rw [Bool.eq_false_iff, ne_eq, Ieee.isSpecial_iff, h.1]
    decide
  simp [ofDouble, Ieee.isNaN, Ieee.isInfinite, hspecial, h]

theorem scale_double (d : Ieee .double) : d.scale = (max 1 d.biased : Nat) - 1075 := rfl

theorem ofDouble_scaled (hs : d.isSpecial = false) (hz : d.isZero = false) :
    ofDouble d = ofScaled d.signedWhole d.scale 53 .toNearestEven := by
  have hscale : (if d.biased = 0 then -1074 else (d.biased : Int) - 1075) = d.scale := by
    rw [scale_double]
    split <;> omega
  simp only [ofDouble, Ieee.isNaN, Ieee.isInfinite, hs, hz, Bool.false_and, Bool.false_eq_true, if_false]
  rw [hscale]
  rfl

/-- Every exponent field but the highest one leaves an exponent in range, and the whole fraction has no
more bits than the precision. -/
theorem ofDouble_finite (hs : d.isSpecial = false) (hz : d.isZero = false) :
    ∃ m e, ofDouble d = .ok (.finite d.negative m e 53 .toNearestEven) := by
  have hwhole : d.whole ≠ 0 := by
    rw [ne_eq, Ieee.whole_eq_zero_iff, hz]
    decide
  have hvalue : d.signedWhole ≠ 0 := by rwa [← Int.natAbs_ne_zero, Ieee.natAbs_signedWhole]
  have hneg : decide (d.signedWhole < 0) = d.negative := by
    rw [Bool.eq_iff_iff, decide_eq_true_eq, Ieee.signedWhole_neg_iff hwhole]
  have hbits : significantBits d.whole ≤ 53 := (Radix.significantBits_le_iff _ _).2 d.whole_lt
  have hodd := Radix.significantBits_oddPart_add_le (j := 0) hwhole (one_dvd d.whole)
  have hexponent : exponentFits (d.scale + significantBits d.whole) = true := by
    have hbiased : d.biased < 2 ^ 11 := d.biased_lt
    rw [exponentFits_iff, scale_double, lowestField]
    omega
  refine ⟨oddPart d.whole, d.scale + significantBits d.whole, ?_⟩
  rw [ofDouble_scaled hs hz, ofScaled_eq_ok_iff hvalue, Ieee.natAbs_signedWhole, hneg]
  exact ⟨⟨hexponent, by decide, by decide, hodd.trans hbits⟩, rfl⟩

end

theorem ofDouble_of_not_nan {d : Ieee .double} (h : d.isNaN = false) :
    ∃ x, ofDouble d = .ok x ∧ x.negative = d.negative ∧ x.number? = d.number? := by
  cases hs : d.isSpecial
  · cases hz : d.isZero
    · obtain ⟨m, e, hx⟩ := ofDouble_finite hs hz
      -- the sign is read off the finite value, and the number off the scaled integer it is made of
      refine ⟨_, hx, rfl, ?_⟩
      rw [ofDouble_scaled hs hz] at hx
      rw [number?_of_ofScaled hx, Ieee.number?_eq_some hs]
    · refine ⟨_, ofDouble_zero hz, rfl, ?_⟩
      have hwhole := (Ieee.whole_eq_zero_iff d).2 hz
      have hsigned : d.signedWhole = 0 := by rw [← Int.natAbs_eq_zero, Ieee.natAbs_signedWhole, hwhole]
      rw [Ieee.number?_eq_some hs, hsigned, Int.cast_zero, zero_mul]
      rfl
  · have hinfinite : d.isInfinite = true := by rwa [Ieee.isSpecial_eq_or, h, Bool.false_or] at hs
    refine ⟨_, ofDouble_infinite hinfinite, rfl, ?_⟩
    rw [Ieee.number?, hs]
    rfl

/-- A NaN is refused. Every other double becomes a big float of its sign that stands for its number: the
infinity or the zero of that sign, and otherwise a finite value with 53 bits of precision, whose odd
mantissa and exponent give the number. No other double becomes that big float. -/
theorem ofDouble_exact (d : Ieee .double) :
    (d.isNaN = true → ofDouble d = .error .nan) ∧
    (d.isNaN = false →
      (∃ x, ofDouble d = .ok x ∧ x.negative = d.negative ∧ x.number? = d.number?) ∧
      (d.isInfinite = true → ofDouble d = .ok (.infinite d.negative)) ∧
      (d.isZero = true → ofDouble d = .ok (.zero d.negative)) ∧
      (d.isInfinite = false → d.isZero = false →
        ∃ (m : Nat) (e : Int), ofDouble d = .ok (.finite d.negative m e 53 .toNearestEven) ∧ m % 2 = 1 ∧
          d.number? =
            some ((if d.negative then -1 else 1) * (m : ℚ) * 2 ^ (e - (significantBits m : Int)))) ∧
      ∀ d' : Ieee .double, d'.isNaN = false → ofDouble d' = ofDouble d → d' = d) := by
  refine ⟨ofDouble_nan, fun hd => ?_⟩
  obtain ⟨x, hx, hneg, hnumber⟩ := ofDouble_of_not_nan hd
  refine ⟨⟨x, hx, hneg, hnumber⟩, ofDouble_infinite, ofDouble_zero, fun hinfinite hz => ?_,
    fun d' hd' h => ?_⟩
  · have hs : d.isSpecial = false := by rw [Ieee.isSpecial_eq_or, hd, hinfinite, Bool.false_or]
    obtain ⟨m, e, hfinite⟩ := ofDouble_finite hs hz
    obtain rfl := Except.ok.inj (hx.symm.trans hfinite)
    exact ⟨m, e, hfinite, (wellFormed_ofDouble hfinite).1, hnumber.symm⟩
  · obtain ⟨x', hx', hneg', hnumber'⟩ := ofDouble_of_not_nan hd'
    obtain rfl := Except.ok.inj (hx'.symm.trans (h.trans hx))
    exact Ieee.eq_of_number hd' hd (hneg'.symm.trans hneg) (hnumber'.symm.trans hnumber)

/-- The subnormal double next to minus zero is one step below it, and a NaN is next to infinity. -/
theorem ofDouble_exact_smallest_negative :
    let d : Ieee .double := ⟨0x8000000000000001⟩
    let x : BigFloat := .finite true 1 (-1073) 53 .toNearestEven
    d.isNaN = false ∧ d.isInfinite = false ∧ d.isZero = false ∧ ofDouble d = .ok x ∧
      d.number? = some (-(2 ^ (-1074 : Int))) ∧
      (∀ d' : Ieee .double, d'.isNaN = false → ofDouble d' = .ok x → d' = d) ∧
      ofDouble ⟨0x7ff0000000000001⟩ = .error .nan := by
  intro d x
  have hnan : d.isNaN = false := by decide
  have hinfinite : d.isInfinite = false := by decide
  have hzero : d.isZero = false := by decide
  have hx : ofDouble d = .ok x := by decide
  obtain ⟨-, hexact⟩ := ofDouble_exact d
  obtain ⟨-, -, -, hfinite, hinjective⟩ := hexact hnan
  obtain ⟨m, e, hm, -, hnumber⟩ := hfinite hinfinite hzero
  obtain ⟨hneg, rfl, rfl, -⟩ := finite.inj (Except.ok.inj (hx.symm.trans hm))
  have hbits : significantBits 1 = 1 := by rfl
  refine ⟨hnan, hinfinite, hzero, hx, ?_, fun d' hd' h => hinjective d' hd' (h.trans hx.symm),
    (ofDouble_exact _).1 (by rfl)⟩
  rw [hnumber, ← hneg, hbits]
  norm_num

end SortKey.BigFloat
