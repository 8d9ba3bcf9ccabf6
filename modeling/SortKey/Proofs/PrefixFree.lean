import SortKey.Proofs.Encodable

/-! Codecs that need no terminator. Their encodings are not empty, and none is a proper prefix of another.
-/
namespace SortKey.Codec
open Bytes
variable {α : Type}

theorem apart_encode {c : Codec α} (hc : c.IsBuiltIn) (ht : c.requiresTerminator = false) {a b : α}
    {x y : Bytes} (hx : c.encode a = .ok x) (hy : c.encode b = .ok y) : Apart x y := by
  induction c generalizing x y with
  | leaf l => exact Leaf.apart_encoding ht hx hy
  | custom c => exact hc.elim
  | framed reversed c ih =>
    rw [encode_framed, Outcome.map_eq_ok] at hx hy
    obtain ⟨raw, -, rfl⟩ := hx
    obtain ⟨raw', -, rfl⟩ := hy
    exact Frame.apart_encode _ raw raw'
  | nullable order c ih =>
    have hb : c.IsBuiltIn := hc
    have hne : Presence.byte order true ≠ Presence.byte order false := by cases order <;> decide
    cases a with
    | none =>
      cases hx
      cases b with
      | none =>
        cases hy
        exact .refl _
      | some b =>
        rw [encode_nullable_some order hb, Outcome.map_eq_ok] at hy
        obtain ⟨y, -, rfl⟩ := hy
        exact .differ hne [] y
    | some a =>
      rw [encode_nullable_some order hb, Outcome.map_eq_ok] at hx
      obtain ⟨x, hx, rfl⟩ := hx
      cases b with
      | none =>
        cases hy
        exact .differ hne.symm x []
      | some b =>
        rw [encode_nullable_some order hb, Outcome.map_eq_ok] at hy
        obtain ⟨y, hy, rfl⟩ := hy
        exact .cons _ (ih hb ht hx hy)
  | seq c ih => cases ht
  | convert represent restore c ih => exact ih hc ht hx hy

theorem encode_ne_nil {c : Codec α} (hc : c.IsBuiltIn) (ht : c.requiresTerminator = false) {a : α}
    {x : Bytes} (hx : c.encode a = .ok x) : x ≠ [] := by
  induction c generalizing x with
  | leaf l => exact Leaf.encoding_ne_nil ht hx
  | custom c => exact hc.elim
  | framed reversed c ih =>
    rw [encode_framed, Outcome.map_eq_ok] at hx
    obtain ⟨raw, -, rfl⟩ := hx
    exact Frame.encode_ne_nil _ raw
  | nullable order c ih =>
    have hb : c.IsBuiltIn := hc
    cases a with
    | none =>
      cases hx
      exact List.cons_ne_nil _ _
    | some a =>
      rw [encode_nullable_some order hb, Outcome.map_eq_ok] at hx
      obtain ⟨x, -, rfl⟩ := hx
      exact List.cons_ne_nil _ x
  | seq c ih => cases ht
  | convert represent restore c ih => exact ih hc ht hx

theorem encode_unit_ne_nil {c : Codec α} (hc : c.IsBuiltIn) {a : α} {x : Bytes}
    (hx : c.unit.encode a = .ok x) : x ≠ [] :=
  encode_ne_nil (isBuiltIn_unit hc) c.requiresTerminator_unit hx

theorem apart_encode_unit {c : Codec α} (hc : c.IsBuiltIn) {a b : α} {x y : Bytes}
    (hx : c.unit.encode a = .ok x) (hy : c.unit.encode b = .ok y) : Apart x y :=
  apart_encode (isBuiltIn_unit hc) c.requiresTerminator_unit hx hy

end SortKey.Codec
