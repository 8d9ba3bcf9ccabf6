import SortKey.Proofs.PrefixFree

/-! The order of a codec, defined from the orders of its leaves. The encodings of a built-in codec sort in
that order. -/
namespace SortKey

def NilOrder.absent : NilOrder → Ordering
  | .first => .lt
  | .last => .gt

namespace Codec
open Bytes
variable {α : Type}

/-- The order of what is written, where both values can be written. -/
def writtenOrder (write : α → Writing Unit) (a b : α) : Ordering :=
  match (write a).encoding, (write b).encoding with
  | .ok x, .ok y => compare x y
  | _, _ => .eq

/-- Leaves have the order of their encodings; the other codecs have an order of their own, made from
those of their parts. -/
def order : {α : Type} → Codec α → α → α → Ordering
  | _, .leaf l, a, b => writtenOrder l.append a b
  | _, .custom c, a, b => writtenOrder c.append a b
  | _, .framed reversed c, a, b => if reversed then (c.order a b).swap else c.order a b
  | _, .nullable _ _, none, none => .eq
  | _, .nullable order _, none, some _ => order.absent
  | _, .nullable order _, some _, none => order.absent.swap
  | _, .nullable _ c, some a, some b => c.order a b
  | _, .seq c, as, bs => as.compareLex c.order bs
  | _, .convert represent _ c, a, b => c.order (represent a) (represent b)

@[simp] theorem order_terminate (c : Codec α) (a b : α) : c.terminate.order a b = c.order a b := by
  rw [order, if_neg Bool.false_ne_true]

@[simp] theorem order_negate (c : Codec α) (a b : α) : c.negate.order a b = (c.order a b).swap := by
  rw [order, if_pos rfl]

theorem order_negate_negate (c : Codec α) (a b : α) : c.negate.negate.order a b = c.order a b := by
  rw [order_negate, order_negate, Ordering.swap_swap]

theorem order_unit (c : Codec α) : c.unit.order = c.order := by
  funext a b
  obtain hu | hu := c.unit_eq_or <;> rw [hu]
  exact order_terminate c a b

theorem compare_presence (order : NilOrder) (x y : Bytes) :
    compare (Presence.byte order true :: x) (Presence.byte order false :: y) = order.absent := by
  cases order <;> rfl

theorem compare_presence_swap (order : NilOrder) (x y : Bytes) :
    compare (Presence.byte order false :: x) (Presence.byte order true :: y) = order.absent.swap := by
  cases order <;> rfl

theorem compare_encode_seq {c : Codec α} (hc : c.IsBuiltIn)
    (hu : ∀ {a b : α} {x y : Bytes}, c.unit.encode a = .ok x → c.unit.encode b = .ok y →
      compare x y = c.order a b)
    {as bs : List α} {x y : Bytes} (hx : (Codec.seq c).encode as = .ok x)
    (hy : (Codec.seq c).encode bs = .ok y) : compare x y = as.compareLex c.order bs := by
  induction as generalizing bs x y with
  | nil =>
    rw [encode_seq_nil] at hx
    cases hx
    cases bs with
    | nil =>
      rw [encode_seq_nil] at hy
      cases hy
      rfl
    | cons b bs =>
      -- an element has a byte, so that a list is below those that it begins
      obtain ⟨u, v, hb, -, rfl⟩ := exists_of_encode_seq_cons hc hy
      obtain ⟨d, u, rfl⟩ := List.exists_cons_of_ne_nil (encode_unit_ne_nil hc hb)
      rfl
  | cons a as ih =>
    obtain ⟨s, t, ha, has, rfl⟩ := exists_of_encode_seq_cons hc hx
    cases bs with
    | nil =>
      rw [encode_seq_nil] at hy
      cases hy
      obtain ⟨d, s, rfl⟩ := List.exists_cons_of_ne_nil (encode_unit_ne_nil hc ha)
      rfl
    | cons b bs =>
      obtain ⟨u, v, hb, hbs, rfl⟩ := exists_of_encode_seq_cons hc hy
      rw [(apart_encode_unit hc ha hb).compare_append, hu ha hb, ih has hbs,
        List.compareLex_cons_cons]

theorem compare_encode_framed {reversed : Bool} {c : Codec α} {a b : α}
    (h : ∀ {x y : Bytes}, c.encode a = .ok x → c.encode b = .ok y → compare x y = c.order a b)
    {x y : Bytes} (hx : (Codec.framed reversed c).encode a = .ok x)
    (hy : (Codec.framed reversed c).encode b = .ok y) :
    compare x y = (Codec.framed reversed c).order a b := by
  rw [encode_framed, Outcome.map_eq_ok] at hx hy
  obtain ⟨raw, hx, rfl⟩ := hx
  obtain ⟨raw', hy, rfl⟩ := hy
  rw [Frame.compare_encode_maskOf, h hx hy, order]

theorem compare_of_encode {c : Codec α} (hc : c.IsBuiltIn) {a b : α} {x y : Bytes}
    (hx : c.encode a = .ok x) (hy : c.encode b = .ok y) : compare x y = c.order a b := by
  induction c generalizing x y with
  | leaf l =>
    change (l.append a).encoding = .ok x at hx
    change (l.append b).encoding = .ok y at hy
    rw [order, writtenOrder, hx, hy]
  | custom c => exact hc.elim
  | framed reversed c ih => exact compare_encode_framed (ih hc) hx hy
  | nullable order c ih =>
    have hb : c.IsBuiltIn := hc
    cases a with
    | none =>
      cases hx
      cases b with
      | none =>
        cases hy
        exact Std.compare_self
      | some b =>
        rw [encode_nullable_some order hb, Outcome.map_eq_ok] at hy
        obtain ⟨y, -, rfl⟩ := hy
        exact compare_presence order [] y
    | some a =>
      rw [encode_nullable_some order hb, Outcome.map_eq_ok] at hx
      obtain ⟨x, hx, rfl⟩ := hx
      cases b with
      | none =>
        cases hy
        exact compare_presence_swap order x []
      | some b =>
        rw [encode_nullable_some order hb, Outcome.map_eq_ok] at hy
        obtain ⟨y, hy, rfl⟩ := hy
        rw [compare_cons_self]
        exact ih hb hx hy
  | seq c ih =>
    have hb : c.IsBuiltIn := hc
    refine compare_encode_seq hb (fun {a b x y} hx hy => ?_) hx hy
    -- an element is written as a unit, which has the order of the codec itself
    rw [← order_unit]
    obtain hu | hu := c.unit_eq_or <;> rw [hu] at hx hy ⊢
    · exact compare_encode_framed (ih hb) hx hy
    · exact ih hb hx hy
  | convert represent restore c ih => exact ih hc hx hy

/-- Encodings sort as the codec says, and are equal only where it finds no difference. -/
theorem compare_encode (c : Codec α) (hc : c.IsBuiltIn) (a b : α) (ha : c.Encodable a)
    (hb : c.Encodable b) :
    ∃ x y, c.encode a = .ok x ∧ c.encode b = .ok y ∧ compare x y = c.order a b ∧
      (x = y ↔ c.order a b = .eq) := by
  obtain ⟨x, hx⟩ := exists_encoding hc ha
  obtain ⟨y, hy⟩ := exists_encoding hc hb
  have h := compare_of_encode hc hx hy
  exact ⟨x, y, hx, hy, h, by rw [← h, compare_eq_eq_iff]⟩

theorem compare_encode_descending_options :
    let c : Codec (List (Option Int)) := .seq (.nullable .last (.negate (.leaf .integer)))
    c.IsBuiltIn ∧ c.Encodable [some 256, none] ∧ c.Encodable [some 255] ∧
      ∃ x y, c.encode [some 256, none] = .ok x ∧ c.encode [some 255] = .ok y ∧
        compare x y = .lt ∧ x ≠ y := by
  intro c
  have hc : c.IsBuiltIn := trivial
  have ha : c.Encodable [some 256, none] := by decide
  have hb : c.Encodable [some 255] := by decide
  have ho : c.order [some 256, none] [some 255] = .lt := by rfl
  obtain ⟨x, y, hx, hy, h, he⟩ := compare_encode c hc _ _ ha hb
  refine ⟨hc, ha, hb, x, y, hx, hy, h.trans ho, fun hxy => ?_⟩
  rw [he, ho] at hxy
  cases hxy

end Codec
end SortKey
