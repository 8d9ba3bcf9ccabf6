import Mathlib.Algebra.Order.Field.Power
import Mathlib.Tactic.NormNum
import SortKey.Proofs.BigFloatInvariant
import SortKey.Proofs.DigitOrder

/-! The numbers that finite big floats stand for. The bytes of the mantissa field are the digits of a
fraction of at least one half, which does not depend on the precision, and numbers compare by their
exponents and then by these fractions. -/
namespace SortKey.BigFloat
open Radix (significantBits bytesFor magnitude ofBigEndian fraction)

/-- The fraction with the bits of `m` after the point. -/
def significand (m : Nat) : ℚ := m / 2 ^ significantBits m

theorem number?_finite (neg : Bool) (m : Nat) (e : Int) (p : Nat) (mode : RoundingMode) :
    (finite neg m e p mode).number? = some ((if neg then -1 else 1) * (significand m * 2 ^ e)) := by
  rw [number?, significand, zpow_sub₀ two_ne_zero, zpow_natCast]
  simp only [Option.some.injEq]
  ring

theorem abs_number {neg : Bool} {m : Nat} {e : Int} {p : Nat} {mode : RoundingMode} {q : ℚ}
    (h : (finite neg m e p mode).number? = some q) : |q| = significand m * 2 ^ e := by
  have hnonneg : 0 ≤ significand m * 2 ^ e := by
    unfold significand
    positivity
  rw [number?_finite, Option.some.injEq] at h
  rw [← h]
  cases neg <;> simp [abs_of_nonneg hnonneg]

theorem significand_lt_one (m : Nat) : significand m < 1 := by
  have hlt : (m : ℚ) < 2 ^ significantBits m := by
    exact_mod_cast (Radix.significantBits_le_iff m _).1 (Nat.le_refl _)
  rw [significand, div_lt_one (by positivity)]
  exact hlt

theorem half_le_significand {m : Nat} (hm : m ≠ 0) : 1 / 2 ≤ significand m := by
  obtain ⟨k, hk⟩ := Nat.exists_eq_succ_of_ne_zero (Radix.significantBits_pos hm).ne'
  have hle : (2 : ℚ) ^ k ≤ m := by exact_mod_cast Radix.two_pow_le_of_significantBits hk
  rw [significand, hk, Nat.succ_eq_add_one, pow_succ, div_le_div_iff₀ two_pos (by positivity)]
  linarith

/-- Trailing zeros fill the field up to whole bytes and do not change the fraction. -/
theorem fraction_field {m p : Nat} (hm : m ≠ 0) (hp : significantBits m ≤ p) :
    fraction (magnitude (aligned m p)) = significand m := by
  have hbits : significantBits m ≤ 8 * bytesFor p := by
    rw [bytesFor]
    omega
  have hpow : (256 : ℚ) ^ bytesFor p =
      2 ^ (8 * bytesFor p - significantBits m) * 2 ^ significantBits m := by
    rw [← pow_add, Nat.sub_add_cancel hbits, pow_mul]
    norm_num
  rw [fraction, length_magnitude_aligned hm hp, Radix.ofBigEndian_magnitude, aligned, Nat.shiftLeft_eq,
    hpow, significand]
  push_cast
  field_simp

theorem compare_scaled {r s : ℚ} (hr : 1 / 2 ≤ r) (hr1 : r < 1) (hs : 1 / 2 ≤ s) (hs1 : s < 1) (e f : Int) :
    compare (r * 2 ^ e) (s * 2 ^ f) = (compare e f).then (compare r s) := by
  have hscale {r s : ℚ} {e f : Int} (hr : r < 1) (hs : 1 / 2 ≤ s) (h : e < f) :
      r * 2 ^ e < s * 2 ^ f := by
    calc r * 2 ^ e < 1 * 2 ^ e := by gcongr
      _ = 1 / 2 * 2 ^ (e + 1) := by
        rw [zpow_add_one₀ two_ne_zero]
        ring
      _ ≤ s * 2 ^ f := by
        gcongr
        · norm_num
        · omega
  have hmono : StrictMono fun q : ℚ => q * 2 ^ e := by
    intro p q hpq
    dsimp only
    gcongr
  refine compare_eq_then (hscale hr1 hs) ?_ (hscale hs1 hr)
  rintro rfl
  exact compare_map hmono r s

end SortKey.BigFloat
