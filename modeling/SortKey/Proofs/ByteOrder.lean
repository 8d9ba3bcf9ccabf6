import Mathlib.Data.List.Infix
import SortKey.Frame

/-! The order of byte strings that follow one another. Where neither of two byte strings is a proper prefix
of the other, what comes after them only matters if they are equal. -/
namespace SortKey.Bytes

/-- Neither is a proper prefix of the other: they are equal or differ at some place. -/
inductive Apart : Bytes → Bytes → Prop where
  | nil : Apart [] []
  | differ {b c : UInt8} (h : b ≠ c) (x y : Bytes) : Apart (b :: x) (c :: y)
  | cons (b : UInt8) {x y : Bytes} (h : Apart x y) : Apart (b :: x) (b :: y)

theorem Apart.refl (x : Bytes) : Apart x x := by
  induction x with
  | nil => exact .nil
  | cons b x ih => exact .cons b ih

theorem Apart.symm {x y : Bytes} (h : Apart x y) : Apart y x := by
  induction h with
  | nil => exact .nil
  | differ h x y => exact .differ h.symm y x
  | cons b _ ih => exact .cons b ih

theorem Apart.eq_of_isPrefix {x y : Bytes} (h : Apart x y) (hp : x <+: y) : x = y := by
  induction h with
  | nil => rfl
  | differ h x y => exact absurd (List.cons_prefix_cons.1 hp).1 h
  | cons b _ ih => rw [ih (List.cons_prefix_cons.1 hp).2]

theorem apart_of_prefix_eq {x y : Bytes} (hx : x <+: y → x = y) (hy : y <+: x → x = y) :
    Apart x y := by
  induction x generalizing y with
  | nil =>
    obtain rfl : [] = y := hx List.nil_prefix
    exact .nil
  | cons b x ih =>
    cases y with
    | nil => exact absurd (hy List.nil_prefix) (List.cons_ne_nil b x)
    | cons c y =>
      by_cases hbc : b = c
      · subst c
        refine .cons b (ih ?_ ?_)
        · exact fun hp => List.cons_inj_right b |>.1 (hx (List.cons_prefix_cons.2 ⟨rfl, hp⟩))
        · exact fun hp => List.cons_inj_right b |>.1 (hy (List.cons_prefix_cons.2 ⟨rfl, hp⟩))
      · exact .differ hbc x y

theorem Apart.of_length_eq {x y : Bytes} (h : x.length = y.length) : Apart x y :=
  apart_of_prefix_eq (fun hp => hp.eq_of_length h) fun hp => (hp.eq_of_length h.symm).symm

theorem Apart.append {x y s t : Bytes} (h : Apart x y) (hst : x = y → Apart s t) :
    Apart (x ++ s) (y ++ t) := by
  induction h with
  | nil => exact hst rfl
  | differ h x y => exact .differ h (x ++ s) (y ++ t)
  | cons b _ ih => exact .cons b (ih fun hxy => hst (congrArg (b :: ·) hxy))

theorem compare_eq_eq_iff {x y : Bytes} : compare x y = .eq ↔ x = y := Std.compare_eq_iff_eq

theorem compare_then_of_ne {α : Type} [Ord α] [Std.LawfulEqOrd α] {b c : α} (h : b ≠ c)
    (o : Ordering) : (compare b c).then o = compare b c := by
  cases hbc : compare b c with
  | lt => rfl
  | gt => rfl
  | eq => exact absurd (Std.compare_eq_iff_eq.1 hbc) h

theorem compare_cons_self (b : UInt8) (x y : Bytes) : compare (b :: x) (b :: y) = compare x y := by
  rw [List.compare_cons_cons, Std.compare_self, Ordering.eq_then]

/-- What follows two byte strings decides only between equal ones. -/
theorem Apart.compare_append {x y : Bytes} (h : Apart x y) (s t : Bytes) :
    compare (x ++ s) (y ++ t) = (compare x y).then (compare s t) := by
  induction h with
  | nil => rfl
  | differ h x y => simp only [List.cons_append, List.compare_cons_cons, compare_then_of_ne h]
  | cons b _ ih => rw [List.cons_append, List.cons_append, compare_cons_self, compare_cons_self, ih]

theorem Apart.compare_append_of_ne {x y : Bytes} (h : Apart x y) (hne : x ≠ y) (s t : Bytes) :
    compare (x ++ s) (y ++ t) = compare x y := by
  rw [h.compare_append, compare_then_of_ne hne]

theorem toNat_xor_complement (b : UInt8) : (b ^^^ Frame.complement).toNat = 255 - b.toNat := by
  have h : b ^^^ Frame.complement = ~~~b := UInt8.xor_neg_one
  rw [h, UInt8.toNat_not]
  rfl

theorem compare_byte (b c : UInt8) : compare b c = compare b.toNat c.toNat := by
  simp only [compare, compareOfLessAndEq, UInt8.lt_iff_toNat_lt, ← UInt8.toNat_inj]

theorem compare_xor_complement (b c : UInt8) :
    compare (b ^^^ Frame.complement) (c ^^^ Frame.complement) = (compare b c).swap := by
  have hb := b.toNat_lt
  have hc := c.toNat_lt
  rw [compare_byte, compare_byte, toNat_xor_complement, toNat_xor_complement]
  obtain h | h | h := Nat.lt_trichotomy b.toNat c.toNat
  · rw [Nat.compare_eq_lt.2 h, Nat.compare_eq_gt.2 (by omega), Ordering.swap_lt]
  · simp [h]
  · rw [Nat.compare_eq_gt.2 h, Nat.compare_eq_lt.2 (by omega), Ordering.swap_gt]

/-- Complementing every byte reverses the order, unless one of the two runs out first. -/
theorem Apart.compare_masked {x y : Bytes} (h : Apart x y) :
    compare (masked Frame.complement x) (masked Frame.complement y) = (compare x y).swap := by
  induction h with
  | nil => rfl
  | @differ b c h x y =>
    have hm : b ^^^ Frame.complement ≠ c ^^^ Frame.complement := by
      simpa [UInt8.xor_left_inj] using h
    rw [masked_cons, masked_cons, List.compare_cons_cons, compare_then_of_ne hm,
      compare_xor_complement, List.compare_cons_cons, compare_then_of_ne h]
  | cons b _ ih => rw [masked_cons, masked_cons, compare_cons_self, compare_cons_self, ih]

end SortKey.Bytes
