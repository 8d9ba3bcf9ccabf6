import Mathlib.Algebra.Field.Rat
import Mathlib.Logic.Relation
import SortKey.Proofs.Acceptance
import SortKey.Proofs.ClosedSource

/-! The rules that big floats keep to. However a big float is made, and whatever precisions and modes it is
given afterwards, its mantissa is odd and fits its precision, its numbers fit their fields in either sign,
and it stands for the number it was made for. -/
namespace SortKey

namespace Reading
variable {α β : Type}

/-- What is read keeps to `P`, whatever the source does. -/
def Returns (r : Reading α) (P : α → Prop) : Prop := ∀ s a t, r.runFrom s = (.ok a, t) → P a

theorem returns_any (r : Reading α) : r.Returns fun _ => True := fun _ _ _ _ => trivial

theorem returns_pure {P : α → Prop} {a : α} (h : P a) : (pure a : Reading α).Returns P := by
  rintro s b t ⟨⟩
  exact h

theorem returns_liftM {P : α → Prop} {o : Except Fault α} (h : ∀ a, o = .ok a → P a) :
    (liftM o : Reading α).Returns P := by
  intro s a t hrun
  rw [runFrom_liftM, Prod.mk.injEq] at hrun
  exact h a hrun.1

theorem Returns.bind {P : α → Prop} {Q : β → Prop} {r : Reading α} {f : α → Reading β}
    (h : r.Returns P) (hf : ∀ a, P a → (f a).Returns Q) : (r >>= f).Returns Q := by
  intro s b u hrun
  rw [runFrom_bind] at hrun
  cases hr : r.runFrom s with
  | mk o t =>
  rw [hr] at hrun
  cases o with
  | error e => cases hrun
  | ok a => exact hf a (h s a t hr) t b u hrun

theorem Returns.midway {P : α → Prop} {r : Reading α} (h : r.Returns P) : r.midway.Returns P := by
  intro s a t hrun
  rw [runFrom_midway, Prod.mk.injEq] at hrun
  cases hr : r.runFrom s with
  | mk o u =>
  rw [hr] at hrun
  cases o with
  | error e => cases hrun.1
  | ok b =>
    cases hrun.1
    exact h s a u hr

end Reading

open Reading

theorem FixedWidth.returns_readInt (w : Width) : (readInt w).Returns (InRange w) :=
  (returns_any _).bind fun _ _ => returns_pure (inRange_toInt _)

namespace BigFloat

theorem wellFormed_ofMantissa {neg : Bool} {m : Nat} {e : Int} {p : Nat} {mode : RoundingMode}
    {x : BigFloat} (hodd : m % 2 = 1) (he : exponentFits e = true)
    (h : ofMantissa neg m e p mode = .ok x) : x.WellFormed := by
  obtain ⟨rfl, -, hmax, hbits⟩ := ofMantissa_eq_ok h
  exact ⟨hodd, hbits, hmax, he⟩

theorem wellFormed_ofScaled {value scale : Int} {p : Nat} {mode : RoundingMode} {x : BigFloat}
    (h : ofScaled value scale p mode = .ok x) : x.WellFormed := by
  unfold ofScaled at h
  split at h
  · cases h
    trivial
  next hvalue =>
  dsimp only at h
  split at h
  · next he =>
    exact wellFormed_ofMantissa (Radix.exists_shiftLeft_oddPart (Int.natAbs_ne_zero.2 hvalue)).1 he h
  · cases h

theorem wellFormed_ofDouble {d : Ieee .double} {x : BigFloat} (h : ofDouble d = .ok x) :
    x.WellFormed := by
  unfold ofDouble at h
  split at h
  · cases h
  split at h
  · cases h
    trivial
  split at h
  · cases h
    trivial
  · exact wellFormed_ofScaled h

theorem wellFormed_of_get {bs : Bytes} {x : BigFloat} {n : Nat} (h : get bs = .ok (x, n)) :
    x.WellFormed := by
  rw [← run_decoder] at h
  obtain ⟨_, _, -, -, hx, -⟩ := accepts_decoder bs x n h
  exact hx

theorem returns_readFields (limits : Limits) (neg : Bool) :
    (readFields limits neg).Returns fun f => FixedWidth.InRange .w32 f.exponent :=
  (FixedWidth.returns_readInt .w32).bind fun _ he => (returns_any _).bind fun _ _ =>
    (returns_any _).bind fun _ _ => (returns_any _).bind fun _ _ => returns_pure he

theorem returns_read (limits : Limits) : (read limits).Returns WellFormed := by
  refine (returns_any _).bind fun kind _ => ?_
  refine (returns_liftM fun found hfound => hfound).bind fun found hfound => ?_
  obtain ⟨x, rfl, hx, -⟩ | ⟨neg, rfl, -⟩ := ofKind_eq_ok hfound
  · exact returns_pure hx
  · refine (returns_readFields limits neg).midway.bind fun f hf => returns_liftM fun x hx => ?_
    obtain ⟨_, _, _, _, -, hwf, -⟩ := build_eq_ok hf hx
    exact hwf

inductive Made : BigFloat → Prop where
  | zero (neg : Bool) : Made (.zero neg)
  | infinite (neg : Bool) : Made (.infinite neg)
  | ofScaled {value scale : Int} {p : Nat} {mode : RoundingMode} {x : BigFloat}
      (h : ofScaled value scale p mode = .ok x) : Made x
  | ofDouble {d : Ieee .double} {x : BigFloat} (h : ofDouble d = .ok x) : Made x
  | get {bs : Bytes} {x : BigFloat} {n : Nat} (h : get bs = .ok (x, n)) : Made x
  | read {limits : Limits} {s t : Source} {x : BigFloat} (h : (read limits).runFrom s = (.ok x, t)) :
      Made x

theorem Made.wellFormed {x : BigFloat} (h : x.Made) : x.WellFormed := by
  cases h with
  | zero neg => trivial
  | infinite neg => trivial
  | ofScaled h => exact wellFormed_ofScaled h
  | ofDouble h => exact wellFormed_ofDouble h
  | get h => exact wellFormed_of_get h
  | read h => exact returns_read _ _ _ _ h

inductive Step : BigFloat → BigFloat → Prop where
  | precision {x y : BigFloat} {p : Nat} (h : x.withPrecision p = .ok y) : Step x y
  | mode (x : BigFloat) (mode : RoundingMode) : Step x (x.withMode mode)

/-- The number that a big float stands for, unless it is infinite. -/
def number? : BigFloat → Option ℚ
  | .zero _ => some 0
  | .infinite _ => none
  | .finite neg m e _ _ =>
    some ((if neg then -1 else 1) * m * 2 ^ (e - (Radix.significantBits m : Int)))

theorem number?_of_ofScaled {value scale : Int} {p : Nat} {mode : RoundingMode} {x : BigFloat}
    (h : ofScaled value scale p mode = .ok x) : x.number? = some ((value : ℚ) * 2 ^ scale) := by
  unfold ofScaled at h
  split at h
  · next hvalue =>
    cases h
    rw [number?, hvalue, Int.cast_zero, zero_mul]
  next hvalue =>
  dsimp only at h
  split at h
  · obtain ⟨rfl, -⟩ := ofMantissa_eq_ok h
    obtain ⟨-, k, hk, hbits⟩ := Radix.exists_shiftLeft_oddPart (Int.natAbs_ne_zero.2 hvalue)
    have hsign : (value : ℚ) = (if value < 0 then -1 else 1) * (value.natAbs : ℚ) := by
      rw [← Int.cast_natCast]
      split
      · next hneg => rw [Int.ofNat_natAbs_of_nonpos hneg.le, Int.cast_neg, neg_one_mul, neg_neg]
      · next hneg => rw [Int.natAbs_of_nonneg (Int.not_lt.1 hneg), one_mul]
    have habs : (value.natAbs : ℚ) = Radix.oddPart value.natAbs * 2 ^ k := by
      rw [Nat.shiftLeft_eq] at hk
      exact_mod_cast hk
    -- the zeros taken off the mantissa are in the exponent again
    have hexponent : scale + (Radix.significantBits value.natAbs : Int) -
        (Radix.significantBits (Radix.oddPart value.natAbs) : Int) = k + scale := by
      omega
    rw [number?, hexponent, zpow_add₀ two_ne_zero, zpow_natCast, hsign, habs]
    simp only [decide_eq_true_eq, Option.some.injEq]
    ring
  · cases h

theorem withPrecision_finite_eq_ok {neg : Bool} {m : Nat} {e : Int} {p q : Nat} {mode : RoundingMode}
    {y : BigFloat} :
    (finite neg m e p mode).withPrecision q = .ok y ↔
      (1 ≤ q ∧ q ≤ maxPrecision ∧ Radix.significantBits m ≤ q) ∧ y = .finite neg m e q mode := by
  constructor
  · intro h
    obtain ⟨rfl, hq⟩ := ofMantissa_eq_ok h
    exact ⟨hq, rfl⟩
  · rintro ⟨⟨hpos, hmax, hbits⟩, rfl⟩
    rw [withPrecision, ofMantissa, if_neg (by omega), if_neg (by omega)]

theorem Step.eq_or {x y : BigFloat} (h : Step x y) :
    y = x ∨ ∃ neg m e p q mode mode', x = .finite neg m e p mode ∧ y = .finite neg m e q mode' ∧
      (q = p ∨ Radix.significantBits m ≤ q ∧ q ≤ maxPrecision) := by
  cases h with
  | precision h =>
    cases x with
    | zero neg => exact .inl (Except.ok.inj h).symm
    | infinite neg => exact .inl (Except.ok.inj h).symm
    | finite neg m e p mode =>
      obtain ⟨⟨-, hmax, hbits⟩, rfl⟩ := withPrecision_finite_eq_ok.1 h
      exact .inr ⟨neg, m, e, p, _, mode, mode, rfl, rfl, .inr ⟨hbits, hmax⟩⟩
  | mode mode' =>
    cases x with
    | zero neg => exact .inl rfl
    | infinite neg => exact .inl rfl
    | finite neg m e p mode => exact .inr ⟨neg, m, e, p, p, mode, mode', rfl, rfl, .inl rfl⟩

theorem Step.wellFormed {x y : BigFloat} (h : Step x y) (hx : x.WellFormed) : y.WellFormed := by
  obtain rfl | ⟨neg, m, e, p, q, mode, mode', rfl, rfl, hq⟩ := h.eq_or
  · exact hx
  · obtain ⟨hodd, hbits, hmax, he⟩ := hx
    obtain rfl | ⟨hbits', hmax'⟩ := hq
    · exact ⟨hodd, hbits, hmax, he⟩
    · exact ⟨hodd, hbits', hmax', he⟩

theorem Step.number {x y : BigFloat} (h : Step x y) :
    y.negative = x.negative ∧ y.number? = x.number? := by
  obtain rfl | ⟨neg, m, e, p, q, mode, mode', rfl, rfl, -⟩ := h.eq_or <;> exact ⟨rfl, rfl⟩

theorem wellFormed_of_steps {x y : BigFloat} (h : Relation.ReflTransGen Step x y) (hx : x.WellFormed) :
    y.WellFormed := by
  induction h with
  | refl => exact hx
  | tail _ h ih => exact h.wellFormed ih

def Obtainable (x : BigFloat) : Prop := ∃ y, y.Made ∧ Relation.ReflTransGen Step y x

theorem Made.obtainable {x : BigFloat} (h : x.Made) : x.Obtainable := ⟨x, h, .refl⟩

theorem Obtainable.wellFormed {x : BigFloat} (hx : x.Obtainable) : x.WellFormed := by
  obtain ⟨y, hy, hsteps⟩ := hx
  exact wellFormed_of_steps hsteps hy.wellFormed

theorem number_of_steps {x y : BigFloat} (h : Relation.ReflTransGen Step x y) :
    y.negative = x.negative ∧ y.number? = x.number? := by
  induction h with
  | refl => exact ⟨rfl, rfl⟩
  | tail _ h ih => exact ⟨h.number.1.trans ih.1, h.number.2.trans ih.2⟩

/-- However a big float has come about, it keeps to the rules, and other precisions and modes change
neither the number that it stands for nor anything but themselves. -/
theorem regular_of_made (x y : BigFloat) (hx : x.Made) (h : Relation.ReflTransGen Step x y) :
    (y.negative = x.negative ∧ y.number? = x.number?) ∧
    (∀ neg m e p mode, y = .finite neg m e p mode →
      (m % 2 = 1 ∧ 1 ≤ Radix.significantBits m ∧ Radix.significantBits m ≤ p ∧ p ≤ maxPrecision ∧
        lowestField < e ∧ e < -lowestField) ∧
      (∀ q z, y.withPrecision q = .ok z ↔
        (1 ≤ q ∧ q ≤ maxPrecision ∧ Radix.significantBits m ≤ q) ∧ z = .finite neg m e q mode) ∧
      ∀ mode', y.withMode mode' = .finite neg m e p mode') ∧
    ∀ neg, y = .zero neg ∨ y = .infinite neg →
      (y.mantissa = 0 ∧ y.exponent = 0 ∧ y.precision = 0 ∧ y.mode = RoundingMode.default) ∧
        (∀ q, y.withPrecision q = .ok y) ∧ ∀ mode, y.withMode mode = y := by
  have hy := wellFormed_of_steps h hx.wellFormed
  refine ⟨number_of_steps h, ?_, ?_⟩
  · rintro neg m e p mode rfl
    obtain ⟨hodd, hbits, hmax, he⟩ := hy
    have hpos : 1 ≤ Radix.significantBits m := Radix.significantBits_pos (by omega)
    exact ⟨⟨hodd, hpos, hbits, hmax, (exponentFits_iff e).1 he⟩,
      fun q z => withPrecision_finite_eq_ok, fun mode' => rfl⟩
  · rintro neg (rfl | rfl)
    · exact ⟨⟨rfl, rfl, rfl, rfl⟩, fun q => rfl, fun mode => rfl⟩
    · exact ⟨⟨rfl, rfl, rfl, rfl⟩, fun q => rfl, fun mode => rfl⟩

/-- Twelve eighths, declared with two bits of precision and then with another mode. -/
theorem regular_of_made_three_halves :
    let x : BigFloat := .finite false 3 1 8 .toNearestEven
    let y : BigFloat := .finite false 3 1 2 .toZero
    x.Made ∧ Relation.ReflTransGen Step x y ∧ y.number? = x.number? ∧
      ∀ q z, y.withPrecision q = .ok z ↔
        (1 ≤ q ∧ q ≤ maxPrecision ∧ Radix.significantBits 3 ≤ q) ∧ z = .finite false 3 1 q .toZero := by
  intro x y
  have hx : x.Made := @Made.ofScaled 12 (-3) 8 .toNearestEven x rfl
  have hprecision : Step x (.finite false 3 1 2 .toNearestEven) := .precision (p := 2) rfl
  have hmode : Step (.finite false 3 1 2 .toNearestEven) y := .mode _ .toZero
  have hsteps : Relation.ReflTransGen Step x y := .tail (.single hprecision) hmode
  obtain ⟨⟨-, hnumber⟩, hfinite, -⟩ := regular_of_made x y hx hsteps
  exact ⟨hx, hsteps, hnumber, (hfinite _ _ _ _ _ rfl).2.1⟩

end BigFloat
end SortKey
