import SortKey.Proofs.PrefixFree

/-! When a codec needs a terminator. If it says that it needs none, no encoding is empty or the start of
another; if it says that it needs one, some encoding is the start of another, unless values are converted
before they are encoded. -/
namespace SortKey

theorem Leaf.exists_encodable {α : Type} (l : Leaf α) : ∃ v, l.Encodable v := by
  cases l with
  | bool => exact ⟨false, trivial⟩
  | unsigned w => exact ⟨0, trivial⟩
  | signed w => exact ⟨0, trivial⟩
  | float f => exact ⟨⟨0⟩, trivial⟩
  | bytes => exact ⟨[], trivial⟩
  | string => exact ⟨"", trivial⟩
  | integer => exact ⟨0, by decide⟩
  | rational => exact ⟨0, by decide⟩
  | bigFloat => exact ⟨.zero false, trivial⟩

namespace Codec
open Bytes
variable {α : Type}

/-- Every value is encoded as it is. -/
def Direct : {α : Type} → Codec α → Prop
  | _, .leaf _ => True
  | _, .custom _ => True
  | _, .framed _ c => c.Direct
  | _, .nullable _ c => c.Direct
  | _, .seq c => c.Direct
  | _, .convert _ _ _ => False

theorem exists_encodable {c : Codec α} (hc : c.IsBuiltIn) (hd : c.Direct) : ∃ v, c.Encodable v := by
  induction c with
  | leaf l => exact l.exists_encodable
  | custom c => exact hc.elim
  | framed reversed c ih => exact ih hc hd
  | nullable order c ih => exact ⟨none, fun v hv => by cases hv⟩
  | seq c ih => exact ⟨[], fun v hv => by cases hv⟩
  | convert represent restore c ih => exact hd.elim

/-- Two values of which the encoding of one is a proper prefix of the encoding of the other. -/
def Overlaps (c : Codec α) : Prop :=
  ∃ a b, c.Encodable a ∧ c.Encodable b ∧
    ∃ x y, c.encode a = .ok x ∧ c.encode b = .ok y ∧ x <+: y ∧ x ≠ y

theorem overlaps_leaf {l : Leaf α} (ht : l.requiresTerminator = true) : (Codec.leaf l).Overlaps := by
  cases l with
  | bytes => exact ⟨[], [0], trivial, trivial, [], [0], rfl, rfl, List.nil_prefix, nofun⟩
  | string =>
    exact ⟨"", "a", trivial, trivial, _, _, rfl, rfl, List.nil_prefix, by decide⟩
  | _ => cases ht

theorem Overlaps.nullable {c : Codec α} (hc : c.IsBuiltIn) (h : c.Overlaps) (order : NilOrder) :
    (Codec.nullable order c).Overlaps := by
  obtain ⟨a, b, ha, hb, x, y, hx, hy, hxy, hne⟩ := h
  refine ⟨some a, some b, ?_, ?_, Presence.byte order false :: x, Presence.byte order false :: y,
    ?_, ?_, ?_, ?_⟩
  · rintro u ⟨⟩
    exact ha
  · rintro u ⟨⟩
    exact hb
  · rw [encode_nullable_some order hc, hx]
    rfl
  · rw [encode_nullable_some order hc, hy]
    rfl
  · exact (List.prefix_cons_inj _).2 hxy
  · exact fun h => hne (List.cons_inj_right _ |>.1 h)

theorem overlaps_seq {c : Codec α} (hc : c.IsBuiltIn) {v : α} (hv : c.Encodable v) :
    (Codec.seq c).Overlaps := by
  have hone : (Codec.seq c).Encodable [v] := by
    intro u hu
    rwa [List.mem_singleton.1 hu]
  obtain ⟨y, hy⟩ := exists_encoding (c := Codec.seq c) hc hone
  refine ⟨[], [v], nofun, hone, [], y, encode_seq_nil c, hy, List.nil_prefix, ?_⟩
  obtain ⟨x, xs, hx, -, rfl⟩ := exists_of_encode_seq_cons hc hy
  exact (List.append_ne_nil_of_left_ne_nil (encode_unit_ne_nil hc hx) xs).symm

theorem overlaps_of_requiresTerminator {c : Codec α} (hc : c.IsBuiltIn) (hd : c.Direct)
    (ht : c.requiresTerminator = true) : c.Overlaps := by
  induction c with
  | leaf l => exact overlaps_leaf ht
  | custom c => exact hc.elim
  | framed reversed c ih => cases ht
  | nullable order c ih =>
    have hb : c.IsBuiltIn := hc
    exact (ih hb hd ht).nullable hb order
  | seq c ih =>
    obtain ⟨v, hv⟩ := exists_encodable (c := c) hc hd
    exact overlaps_seq hc hv
  | convert represent restore c ih => exact hd.elim

/-- A codec needs a terminator exactly if it says so. -/
theorem requiresTerminator_exact (c : Codec α) (hc : c.IsBuiltIn) :
    (c.requiresTerminator = false → ∀ a x, c.encode a = .ok x →
        x ≠ [] ∧ ∀ b y, c.encode b = .ok y → x <+: y → x = y) ∧
      (c.Direct → c.requiresTerminator = true → c.Overlaps) := by
  refine ⟨fun ht a x hx => ⟨encode_ne_nil hc ht hx, fun b y hy hxy => ?_⟩,
    fun hd ht => overlaps_of_requiresTerminator hc hd ht⟩
  exact (apart_encode hc ht hx hy).eq_of_isPrefix hxy

theorem requiresTerminator_exact_optional_bytes :
    let c : Codec (Option Bytes) := .nullable .last (.leaf .bytes)
    c.IsBuiltIn ∧ c.Direct ∧ c.requiresTerminator = true ∧ c.Overlaps ∧
      c.negate.requiresTerminator = false ∧ c.negate.encode none = .ok [0x02, 0xff] ∧
      ∀ b y, c.negate.encode b = .ok y → [0x02, 0xff] <+: y → [0x02, 0xff] = y := by
  intro c
  have hc : c.IsBuiltIn := trivial
  have hd : c.Direct := trivial
  have ht : c.requiresTerminator = true := rfl
  have hn : c.negate.requiresTerminator = false := rfl
  have hencode : c.negate.encode none = .ok [0x02, 0xff] := by rfl
  have hframed := (requiresTerminator_exact c.negate hc).1 hn none _ hencode
  exact ⟨hc, hd, ht, (requiresTerminator_exact c hc).2 hd ht, hn, hencode, hframed.2⟩

end Codec
end SortKey
