import SortKey.Proofs.ByteOrder

/-! The order of frames. No frame is a proper prefix of another, plain frames compare as their contents do,
and complemented ones the other way round. -/
namespace SortKey.Frame
open Bytes

theorem encode_ne_nil (mask : UInt8) (raw : Bytes) : encode mask raw ≠ [] := by simp [encode]

theorem masked_plain (bs : Bytes) : masked plain bs = bs := by
  induction bs with
  | nil => rfl
  | cons b bs ih => rw [masked_cons, ih, plain, UInt8.xor_zero]

/-- A frame tells its contents whatever follows it, so it is not the start of another one. -/
theorem eq_of_encode_isPrefix {mask : UInt8} {x y : Bytes}
    (h : encode mask x <+: encode mask y) : x = y := by
  obtain ⟨t, ht⟩ := h
  have hx := scan_encode_append mask x t
  have hy := scan_encode_append mask y []
  rw [List.append_nil, ← ht, hx] at hy
  exact congrArg Prod.fst (Option.some.inj hy)

theorem apart_encode (mask : UInt8) (x y : Bytes) : Apart (encode mask x) (encode mask y) :=
  apart_of_prefix_eq (fun h => congrArg _ (eq_of_encode_isPrefix h))
    fun h => congrArg _ (eq_of_encode_isPrefix h).symm

theorem toNat_terminator : terminator.toNat = 0 := rfl

theorem toNat_escape : escape.toNat = 1 := rfl

theorem needsEscape_iff (b : UInt8) : b = terminator ∨ b = escape ↔ b.toNat ≤ 1 := by
  rw [← UInt8.toNat_inj, ← UInt8.toNat_inj, toNat_terminator, toNat_escape]
  omega

theorem escaped_of_le {b : UInt8} (h : b.toNat ≤ 1) : escaped b = [escape, b] := by
  rw [escaped, if_pos ((needsEscape_iff b).2 h)]

theorem escaped_of_lt {b : UInt8} (h : 1 < b.toNat) : escaped b = [b] := by
  rw [escaped, if_neg (mt (needsEscape_iff b).1 (by omega))]

theorem apart_escaped (b c : UInt8) : Apart (escaped b) (escaped c) := by
  have hne {b c : UInt8} (hb : b.toNat ≤ 1) (hc : 1 < c.toNat) : escape ≠ c := by
    rintro rfl
    rw [toNat_escape] at hc
    omega
  obtain hb | hb := Nat.lt_or_ge 1 b.toNat <;> obtain hc | hc := Nat.lt_or_ge 1 c.toNat
  · rw [escaped_of_lt hb, escaped_of_lt hc]
    exact .of_length_eq rfl
  · rw [escaped_of_lt hb, escaped_of_le hc]
    exact .differ (hne hc hb).symm _ _
  · rw [escaped_of_le hb, escaped_of_lt hc]
    exact .differ (hne hb hc) _ _
  · rw [escaped_of_le hb, escaped_of_le hc]
    exact .of_length_eq rfl

theorem compare_escaped (b c : UInt8) : compare (escaped b) (escaped c) = compare b c := by
  obtain hb | hb := Nat.lt_or_ge 1 b.toNat <;> obtain hc | hc := Nat.lt_or_ge 1 c.toNat
  · simp [escaped_of_lt hb, escaped_of_lt hc]
  · have he : compare b escape = .gt := by
      rw [compare_byte, Nat.compare_eq_gt, toNat_escape]
      exact hb
    have hbc : compare b c = .gt := by
      rw [compare_byte, Nat.compare_eq_gt]
      omega
    rw [escaped_of_lt hb, escaped_of_le hc, List.compare_cons_cons, he, hbc, Ordering.gt_then]
  · have he : compare escape c = .lt := by
      rw [compare_byte, Nat.compare_eq_lt, toNat_escape]
      exact hc
    have hbc : compare b c = .lt := by
      rw [compare_byte, Nat.compare_eq_lt]
      omega
    rw [escaped_of_le hb, escaped_of_lt hc, List.compare_cons_cons, he, hbc, Ordering.lt_then]
  · simp [escaped_of_le hb, escaped_of_le hc]

theorem encode_plain_cons (b : UInt8) (raw : Bytes) :
    encode plain (b :: raw) = escaped b ++ encode plain raw := by
  rw [encode_cons, masked_plain]

theorem compare_terminator_escaped (c : UInt8) (x y : Bytes) :
    compare (terminator :: x) (escaped c ++ y) = .lt := by
  obtain hc | hc := Nat.lt_or_ge 1 c.toNat
  · have h : compare terminator c = .lt := by
      rw [compare_byte, Nat.compare_eq_lt, toNat_terminator]
      omega
    rw [escaped_of_lt hc, List.singleton_append, List.compare_cons_cons, h, Ordering.lt_then]
  · rw [escaped_of_le hc]
    rfl

theorem compare_encode_plain (x y : Bytes) :
    compare (encode plain x) (encode plain y) = compare x y := by
  induction x generalizing y with
  | nil =>
    cases y with
    | nil => rfl
    | cons c y =>
      rw [encode_plain_cons]
      exact compare_terminator_escaped c [] _
  | cons b x ih =>
    cases y with
    | nil =>
      have h := compare_terminator_escaped b [] (encode plain x)
      rw [encode_plain_cons, Std.OrientedOrd.eq_swap, List.compare_cons_nil]
      exact congrArg Ordering.swap h
    | cons c y =>
      rw [encode_plain_cons, encode_plain_cons, (apart_escaped b c).compare_append, compare_escaped,
        ih, List.compare_cons_cons]

theorem compare_encode_complement (x y : Bytes) :
    compare (encode complement x) (encode complement y) = (compare x y).swap := by
  rw [encode_eq_masked complement, encode_eq_masked complement, (apart_encode plain x y).compare_masked,
    compare_encode_plain]

theorem compare_encode_maskOf (reversed : Bool) (x y : Bytes) :
    compare (encode (maskOf reversed) x) (encode (maskOf reversed) y) =
      if reversed then (compare x y).swap else compare x y := by
  cases reversed with
  | false => exact compare_encode_plain x y
  | true => exact compare_encode_complement x y

end SortKey.Frame
