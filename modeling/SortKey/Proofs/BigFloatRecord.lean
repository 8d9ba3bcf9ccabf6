import SortKey.BigFloat.Record
import SortKey.Proofs.BigFloatInvariant

/-! The records of big floats. What makes a record, and what changes it, does to it what is done to the value
that it stands for, so the records that can come about are those of the values that can: nothing is left
in the fields of a zero or an infinity, whatever precisions and modes it has been given. -/
namespace SortKey.BigFloat
open BigInteger (withSign natAbs_withSign)

theorem record_injective : Function.Injective record := by
  intro x y h
  rw [record, record, Record.mk.injEq] at h
  obtain ⟨hneg, hform, hm, he, hp, hmode⟩ := h
  cases x <;> cases y
  case finite.finite => rw [finite.injEq]; exact ⟨hneg, hm, he, hp, hmode⟩
  case zero.zero => rw [zero.injEq]; exact hneg
  case infinite.infinite => rw [infinite.injEq]; exact hneg
  all_goals cases hform

theorem record_ofMantissa (neg : Bool) (m : Nat) (e : Int) (p : Nat) (mode : RoundingMode) :
    (ofMantissa neg m e p mode).map record = Record.ofMantissa neg m e p mode := by
  unfold ofMantissa Record.ofMantissa
  split
  · rfl
  · split <;> rfl

theorem record_ofScaled (value scale : Int) (p : Nat) (mode : RoundingMode) :
    (ofScaled value scale p mode).map record = Record.ofScaled value scale p mode := by
  unfold ofScaled Record.ofScaled
  split
  · rfl
  · dsimp only
    split
    · exact record_ofMantissa _ _ _ _ _
    · rfl

theorem record_ofDouble (x : Ieee .double) : (ofDouble x).map record = Record.ofDouble x := by
  unfold ofDouble Record.ofDouble
  split
  · rfl
  split
  · rfl
  split
  · rfl
  · exact record_ofScaled _ _ _ _

theorem record_withPrecision (x : BigFloat) (p : Nat) :
    (x.withPrecision p).map record = x.record.withPrecision p := by
  cases x with
  | zero neg => rfl
  | infinite neg => rfl
  | finite neg m e q mode => exact record_ofMantissa neg m e p mode

theorem record_withMode (x : BigFloat) (mode : RoundingMode) :
    (x.withMode mode).record = x.record.withMode mode := by
  cases x <;> rfl

theorem WellFormed.ofScaled {neg : Bool} {m : Nat} {e : Int} {p : Nat} {mode : RoundingMode}
    (h : WellFormed (.finite neg m e p mode)) :
    ofScaled (withSign neg m) (e - (Radix.significantBits m : Int)) p mode =
      .ok (.finite neg m e p mode) := by
  have hm := h.mantissa_ne_zero
  have hmake := ofMantissa_of_wellFormed h
  obtain ⟨hodd, -, -, he⟩ := h
  have hself : Radix.oddPart m = m := Radix.oddPart_shiftLeft hodd 0
  have hvalue : withSign neg m ≠ 0 := by cases neg <;> simpa [withSign] using hm
  have hneg : decide (withSign neg m < 0) = neg := by
    cases neg with
    | false => simp [withSign]
    | true => simpa [withSign] using Nat.pos_of_ne_zero hm
  have hexponent : e - (Radix.significantBits m : Int) + Radix.significantBits m = e := by omega
  simp only [BigFloat.ofScaled, if_neg hvalue, natAbs_withSign, hself, hexponent, he, hneg, hmake,
    if_true]

theorem obtainable_iff {x : BigFloat} : x.Obtainable ↔ x.WellFormed := by
  refine ⟨Obtainable.wellFormed, fun h => Made.obtainable ?_⟩
  cases x with
  | zero neg => exact .zero neg
  | infinite neg => exact .infinite neg
  | finite neg m e p mode => exact .ofScaled h.ofScaled

namespace Record

/-- How a record can come about: made as such, or of the fields that a decoder has found and checked, or
given another precision or mode. -/
inductive Reachable : Record → Prop where
  | zero (neg : Bool) : Reachable (zero neg)
  | infinity (neg : Bool) : Reachable (infinity neg)
  | ofScaled {value scale : Int} {p : Nat} {mode : RoundingMode} {r : Record}
      (h : ofScaled value scale p mode = .ok r) : Reachable r
  | ofDouble {d : Ieee .double} {r : Record} (h : ofDouble d = .ok r) : Reachable r
  | decoded {neg : Bool} {f : Fields} {m : Nat} {e : Int} {p : Nat} {mode : RoundingMode} {r : Record}
      (he : FixedWidth.InRange .w32 f.exponent) (hf : f.checked neg = .ok (m, e, p, mode))
      (h : ofMantissa neg m e p mode = .ok r) : Reachable r
  | withPrecision {r s : Record} {p : Nat} (hr : Reachable r) (h : r.withPrecision p = .ok s) :
      Reachable s
  | withMode {r : Record} (hr : Reachable r) (mode : RoundingMode) : Reachable (r.withMode mode)

theorem Reachable.exists_wellFormed {r : Record} (h : r.Reachable) :
    ∃ x : BigFloat, x.WellFormed ∧ x.record = r := by
  induction h with
  | zero neg => exact ⟨.zero neg, trivial, rfl⟩
  | infinity neg => exact ⟨.infinite neg, trivial, rfl⟩
  | ofScaled h =>
    obtain ⟨x, hx, rfl⟩ := Outcome.map_eq_ok.1 ((record_ofScaled _ _ _ _).trans h)
    exact ⟨x, wellFormed_ofScaled hx, rfl⟩
  | ofDouble h =>
    obtain ⟨x, hx, rfl⟩ := Outcome.map_eq_ok.1 ((record_ofDouble _).trans h)
    exact ⟨x, wellFormed_ofDouble hx, rfl⟩
  | decoded he hf h =>
    obtain ⟨x, hx, rfl⟩ := Outcome.map_eq_ok.1 ((record_ofMantissa _ _ _ _ _).trans h)
    obtain ⟨⟨hodd, hfits⟩, -⟩ := checked_eq_ok he hf
    exact ⟨x, wellFormed_ofMantissa hodd hfits hx, rfl⟩
  | withPrecision hr h ih =>
    obtain ⟨x, hx, rfl⟩ := ih
    obtain ⟨y, hy, rfl⟩ := Outcome.map_eq_ok.1 ((record_withPrecision x _).trans h)
    exact ⟨y, (Step.precision hy).wellFormed hx, rfl⟩
  | withMode hr mode ih =>
    obtain ⟨x, hx, rfl⟩ := ih
    exact ⟨x.withMode mode, (Step.mode x mode).wellFormed hx, record_withMode x mode⟩

theorem reachable_record {x : BigFloat} (h : x.WellFormed) : x.record.Reachable := by
  cases x with
  | zero neg => exact .zero neg
  | infinite neg => exact .infinity neg
  | finite neg m e p mode =>
    have hmade : ofScaled (withSign neg m) (e - (Radix.significantBits m : Int)) p mode =
        .ok (record (.finite neg m e p mode)) := by
      rw [← record_ofScaled, h.ofScaled]
      rfl
    exact .ofScaled hmade

theorem reachable_iff {r : Record} : r.Reachable ↔ ∃ x : BigFloat, x.Obtainable ∧ x.record = r := by
  simp only [obtainable_iff]
  constructor
  · exact Reachable.exists_wellFormed
  · rintro ⟨x, hx, rfl⟩
    exact reachable_record hx

/-- A finite record keeps to the rules of finite values, and in any other there is nothing but its sign and
its form, which no other precision or mode changes. -/
theorem Reachable.regular {r : Record} (h : r.Reachable) :
    (r.form = .finite → (r.mantissa % 2 = 1 ∧ Radix.significantBits r.mantissa ≤ r.precision ∧
      r.precision ≤ maxPrecision ∧ exponentFits r.exponent = true)) ∧
    (r.form ≠ .finite → r = special r.negative r.form ∧ (∀ p, r.withPrecision p = .ok r) ∧
      ∀ mode, r.withMode mode = r) := by
  obtain ⟨x, hx, rfl⟩ := h.exists_wellFormed
  cases x with
  | zero neg => exact ⟨nofun, fun _ => ⟨rfl, fun _ => rfl, fun _ => rfl⟩⟩
  | infinite neg => exact ⟨nofun, fun _ => ⟨rfl, fun _ => rfl, fun _ => rfl⟩⟩
  | finite neg m e p mode => exact ⟨fun _ => hx, fun hform => (hform rfl).elim⟩

end Record
end SortKey.BigFloat
