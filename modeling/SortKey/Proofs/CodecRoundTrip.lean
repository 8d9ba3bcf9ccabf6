import SortKey.Proofs.LeafRoundTrip
import SortKey.Proofs.PrefixFree

/-! Codecs read back. A built-in codec finds what was written and takes up no more than that, whatever
follows, or at the end of the input if it needs a terminator. -/
namespace SortKey.Codec
open Decoder
variable {α : Type}

/-- What represents a value restores it. -/
def Faithful : {α : Type} → Codec α → Prop
  | _, .leaf _ => True
  | _, .custom _ => True
  | _, .framed _ c => c.Faithful
  | _, .nullable _ c => c.Faithful
  | _, .seq c => c.Faithful
  | _, .convert represent restore c => (∀ v, restore (represent v) = v) ∧ c.Faithful

/-- The magnitudes of the integers in a value have no more than `n` bytes. -/
abbrev Within (n : Nat) (c : Codec α) (v : α) : Prop := c.Everywhere (Leaf.Within n) v

theorem decodes_presence (order : NilOrder) (isNil : Bool) :
    (Presence.decoder order).Decodes [Presence.byte order isNil] isNil :=
  (decodes_byte _).check (Presence.check_byte order isNil)

theorem decodes_framed {limits : Limits} (reversed : Bool) {c : Codec α} {v : α} {x : Bytes}
    (h : c.get limits x = .ok (v, x.length)) :
    ((Codec.framed reversed c).decoder limits).Decodes
      (Frame.encode (Frame.maskOf reversed) x) v := by
  rw [decoder_framed]
  refine (decodes_frame _ x).check ?_
  rw [Slice.whole, h]
  exact Slice.filled_eq_ok.2 ⟨rfl, rfl⟩

theorem elements_encode {limits : Limits} {c : Codec α} (hc : c.IsBuiltIn) {vs : List α}
    (hu : ∀ v ∈ vs, ∀ x, c.unit.encode v = .ok x → (c.unit.decoder limits).Decodes x v) {x : Bytes}
    (hx : (Codec.seq c).encode vs = .ok x) :
    elements (c.unit.get limits) x = .ok (vs, x.length) := by
  induction vs generalizing x with
  | nil =>
    rw [encode_seq_nil] at hx
    cases hx
    exact elements_nil _
  | cons v vs ih =>
    obtain ⟨u, y, hv, hvs, rfl⟩ := exists_of_encode_seq_cons hc hx
    have hne := encode_unit_ne_nil hc hv
    have hget : c.unit.get limits (u ++ y) = .ok (v, u.length) := hu v List.mem_cons_self u hv y
    have hrest := ih (fun w hw => hu w (List.mem_cons_of_mem v hw)) hvs
    rw [elements_of_ok (List.append_ne_nil_of_left_ne_nil hne y) (List.length_pos_of_ne_nil hne) hget,
      List.drop_left, hrest, Outcome.map_ok, List.length_append]

theorem get_append {limits : Limits} {c : Codec α} (hc : c.IsBuiltIn) (hf : c.Faithful) {v : α}
    (he : c.Encodable v) (hl : c.Within limits.integerBytes v) {x : Bytes} (hx : c.encode v = .ok x)
    {rest : Bytes} (hrest : c.requiresTerminator = true → rest = []) :
    c.get limits (x ++ rest) = .ok (v, x.length) := by
  induction c generalizing x rest with
  | leaf l => exact Leaf.get_append he hl hx hrest
  | custom c => exact hc.elim
  | framed reversed c ih =>
    rw [encode_framed, Outcome.map_eq_ok] at hx
    obtain ⟨raw, hraw, rfl⟩ := hx
    have hget : c.get limits (raw ++ []) = .ok (v, raw.length) := ih hc hf he hl hraw fun _ => rfl
    rw [List.append_nil] at hget
    exact decodes_framed reversed hget rest
  | nullable order c ih =>
    have hb : c.IsBuiltIn := hc
    rw [← run_decoder, decoder_nullable]
    cases v with
    | none =>
      cases hx
      exact ((decodes_presence order true).bind (.pure none)) rest
    | some v =>
      rw [encode_nullable_some order hb, Outcome.map_eq_ok] at hx
      obtain ⟨y, hy, rfl⟩ := hx
      have hget := ih hb hf (he v rfl) (hl v rfl) hy hrest
      have hpresence := decodes_presence order false (y ++ rest)
      rw [List.singleton_append] at hpresence
      simp [hpresence, present, hget, Nat.add_comm]
  | seq c ih =>
    have hb : c.IsBuiltIn := hc
    rw [hrest rfl, List.append_nil, get_seq]
    -- the elements follow one another, so each has to end by itself
    refine elements_encode hb (fun u hu y hy => ?_) hx
    cases ht : c.requiresTerminator with
    | false =>
      rw [unit_of_false ht] at hy ⊢
      exact fun more => ih hb hf (he u hu) (hl u hu) hy fun h => by rw [ht] at h; cases h
    | true =>
      rw [unit_of_true ht] at hy ⊢
      rw [encode_framed, Outcome.map_eq_ok] at hy
      obtain ⟨raw, hraw, rfl⟩ := hy
      have hget : c.get limits (raw ++ []) = .ok (u, raw.length) :=
        ih hb hf (he u hu) (hl u hu) hraw fun _ => rfl
      rw [List.append_nil] at hget
      exact decodes_framed false hget
  | convert represent restore c ih =>
    have hb : c.IsBuiltIn := hc
    have hget := ih hb hf.2 he hl hx hrest
    rw [← run_decoder, decoder_convert, run_map, run_decoder, hget, Outcome.map_ok, hf.1]

end SortKey.Codec
