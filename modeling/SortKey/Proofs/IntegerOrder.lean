import SortKey.Codec.Write
import SortKey.Proofs.DigitOrder
import SortKey.Proofs.LeafRoundTrip

/-! The order of big integers. Their encodings compare as the integers do, and none is the start of another.
-/
namespace SortKey.BigInteger
open Bytes

theorem compare_withSign (neg : Bool) (u v : Int) :
    compare (withSign neg u) (withSign neg v) =
      if neg then (compare u v).swap else compare u v := by
  cases neg with
  | false => rfl
  | true => exact compare_neg u v

theorem compare_magnitudes (neg : Bool) (m n : Nat) :
    (compare (withSign neg (Radix.magnitude m).length) (withSign neg (Radix.magnitude n).length)).then
        (compare (masked (Frame.maskOf neg) (Radix.magnitude m))
          (masked (Frame.maskOf neg) (Radix.magnitude n))) =
      compare (withSign neg m) (withSign neg n) := by
  rw [compare_withSign, compare_withSign, compare_natCast, compare_natCast,
    ← Radix.compare_magnitude m n]
  cases neg with
  | false =>
    have hplain (bs : Bytes) : masked (Frame.maskOf false) bs = bs := Frame.masked_plain bs
    rw [hplain, hplain]
    rfl
  | true =>
    rw [if_pos rfl, if_pos rfl, Ordering.swap_then]
    cases h : compare (Radix.magnitude m).length (Radix.magnitude n).length with
    | lt => rfl
    | gt => rfl
    | eq =>
      -- complementing reverses the order of magnitudes only where neither runs out first
      exact (Apart.of_length_eq (Nat.compare_eq_eq.1 h)).compare_masked

/-- The header shows the sign, so that the magnitudes matter only between integers of one sign. -/
theorem compare_bytes {u v : Int} (hu : size u < lengthBound) (hv : size v < lengthBound) :
    compare (bytes u) (bytes v) = compare u v := by
  rw [bytes, bytes, (FixedWidth.apart_encodeInt .w64 _ _).compare_append,
    FixedWidth.compare_encodeInt (inRange_header hu) (inRange_header hv)]
  have hun := header_neg_iff u
  have hvn := header_neg_iff v
  by_cases hs : u < 0 ↔ v < 0
  · have hneg : decide (u < 0) = decide (v < 0) := decide_eq_decide.2 hs
    have hu' : withSign (v < 0) u.natAbs = u := hneg ▸ withSign_natAbs u
    rw [hneg, size, size, compare_magnitudes, hu', withSign_natAbs]
  · obtain ⟨hlt, hge⟩ | ⟨hge, hlt⟩ : u < 0 ∧ ¬v < 0 ∨ ¬u < 0 ∧ v < 0 := by tauto
    · have hheader : withSign (u < 0) (size u) < withSign (v < 0) (size v) := by omega
      have huv : u < v := by omega
      rw [Int.compare_eq_lt.2 hheader, Int.compare_eq_lt.2 huv, Ordering.lt_then]
    · have hheader : withSign (v < 0) (size v) < withSign (u < 0) (size u) := by omega
      have huv : v < u := by omega
      rw [Int.compare_eq_gt.2 hheader, Int.compare_eq_gt.2 huv, Ordering.gt_then]

/-- Every two integers, the lengths of whose magnitudes fit the header, have encodings that sort as the
integers do, and only those of equal integers begin with each other. -/
theorem numeric_order (u v : Int) (hu : size u < lengthBound) (hv : size v < lengthBound) :
    ∃ x y, (Codec.leaf .integer).encode u = .ok x ∧ (Codec.leaf .integer).encode v = .ok y ∧
      compare x y = compare u v ∧ (x <+: y → u = v) ∧ (y <+: x → u = v) := by
  have hcompare := compare_bytes hu hv
  have heq (h : bytes u = bytes v) : u = v := by
    rw [h, Std.compare_self] at hcompare
    exact (Int.compare_eq_eq.1 hcompare.symm)
  have hapart := apart_bytes hu hv
  exact ⟨bytes u, bytes v, encoding_append_eq_ok.2 ⟨hu, rfl⟩, encoding_append_eq_ok.2 ⟨hv, rfl⟩, hcompare,
    fun h => heq (hapart.eq_of_isPrefix h), fun h => heq (hapart.symm.eq_of_isPrefix h).symm⟩

theorem numeric_order_below_minus_255 :
    size (-256) < lengthBound ∧ size (-255) < lengthBound ∧
      ∃ x y, (Codec.leaf .integer).encode (-256) = .ok x ∧ (Codec.leaf .integer).encode (-255) = .ok y ∧
        compare x y = .lt ∧ ¬x <+: y := by
  have hu : size (-256) < lengthBound := by decide
  have hv : size (-255) < lengthBound := by decide
  obtain ⟨x, y, hx, hy, hcompare, hbegins, -⟩ := numeric_order (-256) (-255) hu hv
  exact ⟨hu, hv, x, y, hx, hy, hcompare, fun h => absurd (hbegins h) (by decide)⟩

end SortKey.BigInteger
