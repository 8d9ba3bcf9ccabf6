import SortKey.Proofs.IntegerOrder

/-! The order of rationals. Their encodings compare as the numerators do and, where these are equal, as the
denominators; that is the order of the numbers themselves where the denominators are equal or the signs
differ. -/
namespace SortKey.Rational
open Bytes
open BigInteger (size)
variable {a b : Rat}

theorem compare_of_den_eq (h : a.den = b.den) : compare a b = compare a.num b.num := by
  have hmono : StrictMono fun n : Int => (n : ℚ) / b.den := by
    intro m n hmn
    have hcast : (m : ℚ) < n := by exact_mod_cast hmn
    exact div_lt_div_of_pos_right hcast (by exact_mod_cast b.den_pos)
  have hnum := compare_map hmono a.num b.num
  rwa [Rat.num_div_den b, ← h, Rat.num_div_den a] at hnum

theorem compare_of_neg_iff (h : a < 0 ↔ 0 ≤ b) :
    compare a b = compare a.num b.num ∧ a.num ≠ b.num := by
  by_cases ha : a < 0
  · have hb := h.1 ha
    have hnum : a.num < b.num := (Rat.num_neg.2 ha).trans_le (Rat.num_nonneg.2 hb)
    exact ⟨(compare_lt_iff_lt.2 (ha.trans_le hb)).trans (Int.compare_eq_lt.2 hnum).symm, hnum.ne⟩
  · have hb : b < 0 := not_le.1 (mt h.2 ha)
    have hnum : b.num < a.num := (Rat.num_neg.2 hb).trans_le (Rat.num_nonneg.2 (not_lt.1 ha))
    exact ⟨(compare_gt_iff_gt.2 (hb.trans_le (not_lt.1 ha))).trans (Int.compare_eq_gt.2 hnum).symm,
      hnum.ne'⟩

/-- Every two rationals, the lengths of whose magnitudes fit their headers, have encodings that sort by
numerator and then by denominator, and only those of equal rationals begin with each other. -/
theorem numerator_then_denominator_order (a b : Rat)
    (ha : size a.num < lengthBound ∧ size a.den < lengthBound)
    (hb : size b.num < lengthBound ∧ size b.den < lengthBound) :
    ∃ x y, (Codec.leaf .rational).encode a = .ok x ∧ (Codec.leaf .rational).encode b = .ok y ∧
      compare x y = (compare a.num b.num).then (compare a.den b.den) ∧
      (a.den = b.den → compare x y = compare a b) ∧
      ((a < 0 ↔ 0 ≤ b) → compare x y = compare a b) ∧
      (x <+: y → a = b) ∧ (y <+: x → a = b) := by
  have hnum := BigInteger.apart_bytes ha.1 hb.1
  have hden := BigInteger.apart_bytes ha.2 hb.2
  have hcompare : compare (BigInteger.bytes a.num ++ BigInteger.bytes a.den)
      (BigInteger.bytes b.num ++ BigInteger.bytes b.den) =
      (compare a.num b.num).then (compare a.den b.den) := by
    rw [hnum.compare_append, BigInteger.compare_bytes ha.1 hb.1, BigInteger.compare_bytes ha.2 hb.2,
      compare_natCast]
  have hapart := hnum.append fun _ => hden
  have heq (h : BigInteger.bytes a.num ++ BigInteger.bytes a.den =
      BigInteger.bytes b.num ++ BigInteger.bytes b.den) : a = b := by
    rw [h, Std.compare_self, eq_comm, Ordering.then_eq_eq] at hcompare
    exact Rat.ext (Int.compare_eq_eq.1 hcompare.1) (Nat.compare_eq_eq.1 hcompare.2)
  refine ⟨_, _, encoding_append_eq_ok.2 ⟨ha, rfl⟩, encoding_append_eq_ok.2 ⟨hb, rfl⟩, hcompare, ?_, ?_,
    fun h => heq (hapart.eq_of_isPrefix h), fun h => heq (hapart.symm.eq_of_isPrefix h).symm⟩
  · intro h
    rw [hcompare, compare_of_den_eq h, Nat.compare_eq_eq.2 h, Ordering.then_eq]
  · intro h
    obtain ⟨hsign, hne⟩ := compare_of_neg_iff h
    rw [hcompare, hsign, compare_then_of_ne hne]

/-- With one denominator the encodings sort as the numbers do; with unequal denominators 1/3 comes
after 1/2. -/
theorem numerator_then_denominator_order_thirds :
    let a := mkRat (-7) 3
    let b := mkRat 1 3
    let c := mkRat 1 2
    (size a.num < lengthBound ∧ size a.den < lengthBound) ∧
    (size b.num < lengthBound ∧ size b.den < lengthBound) ∧
    (size c.num < lengthBound ∧ size c.den < lengthBound) ∧
    a.den = b.den ∧ (a < 0 ↔ 0 ≤ c) ∧ ∃ x y z,
      (Codec.leaf .rational).encode a = .ok x ∧ (Codec.leaf .rational).encode b = .ok y ∧
      (Codec.leaf .rational).encode c = .ok z ∧
      compare x y = compare a b ∧ ¬x <+: y ∧ compare x z = compare a c ∧
      compare y z = .gt ∧ compare b c = .lt := by
  intro a b c
  have ha : size a.num < lengthBound ∧ size a.den < lengthBound := by decide
  have hb : size b.num < lengthBound ∧ size b.den < lengthBound := by decide
  have hc : size c.num < lengthBound ∧ size c.den < lengthBound := by decide
  have hden : a.den = b.den := by rfl
  have hsign : a < 0 ↔ 0 ≤ c := by decide
  obtain ⟨x, y, hx, hy, -, hsame, -, hbegins, -⟩ := numerator_then_denominator_order a b ha hb
  obtain ⟨x', z, hx', hz, -, -, hopposite, -⟩ := numerator_then_denominator_order a c ha hc
  obtain ⟨y', z', hy', hz', hparts, -⟩ := numerator_then_denominator_order b c hb hc
  obtain rfl : x = x' := Except.ok.inj (hx.symm.trans hx')
  obtain rfl : y = y' := Except.ok.inj (hy.symm.trans hy')
  obtain rfl : z = z' := Except.ok.inj (hz.symm.trans hz')
  have hgt : (compare b.num c.num).then (compare b.den c.den) = .gt := by rfl
  have hlt : compare b c = .lt := by rfl
  exact ⟨ha, hb, hc, hden, hsign, x, y, z, hx, hy, hz, hsame hden,
    fun h => absurd (hbegins h) (by decide), hopposite hsign, hparts.trans hgt, hlt⟩

end SortKey.Rational
