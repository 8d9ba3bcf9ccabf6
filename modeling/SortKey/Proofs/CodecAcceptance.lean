import SortKey.Proofs.Acceptance

/-! What codecs accept. A built-in codec finds nothing but what has an encoding, and that is all of the
bytes that it takes up, or less of them where there are frames. -/
namespace SortKey

open scoped List

namespace Decoder
variable {α : Type} {d : Decoder α} {P : α → Bytes → Prop}

theorem Accepts.whole (hd : d.Accepts P) {raw : Bytes} {v : α}
    (h : Slice.whole d.run raw = .ok v) : P v raw := by
  obtain ⟨x, rest, rfl, hlen, hP⟩ := hd _ _ _ (Slice.whole_eq_ok.1 h)
  obtain rfl : rest = [] := List.length_eq_zero_iff.1 (by
    rw [List.length_append] at hlen
    omega)
  rwa [List.append_nil]

theorem Accepts.elements {Q : List α → Bytes → Prop} (hd : d.Accepts P) (hnil : Q [] [])
    (hcons : ∀ v x vs xs, P v x → Q vs xs → Q (v :: vs) (x ++ xs)) :
    Accepts ⟨Codec.elements d.run⟩ Q := by
  intro bs vs n hrun
  dsimp only at hrun
  fun_induction Codec.elements d.run bs generalizing vs n with
  | case1 =>
    cases hrun
    exact ⟨[], [], rfl, rfl, hnil⟩
  | case2 => cases hrun
  | case3 => cases hrun
  | case4 => cases hrun
  | case5 b rest v n hfirst vs m hrest ih =>
    cases hrun
    obtain ⟨x, tail, hx, hlen, hP⟩ := hd _ _ _ hfirst
    obtain ⟨xs, more, hxs, rfl, hQ⟩ := ih _ _ hrest
    have htail : rest.drop n = tail := by
      change (b :: rest).drop (n + 1) = tail
      rw [hx]
      exact List.drop_left' hlen
    refine ⟨x ++ xs, more, ?_, ?_, hcons v x vs xs hP hQ⟩
    · rw [hx, ← htail, hxs, List.append_assoc]
    · rw [List.length_append, hlen]

end Decoder

open Decoder

namespace Presence

theorem check_eq_ok {order : NilOrder} {b : UInt8} {isNil : Bool} (h : check order b = .ok isNil) :
    b = byte order isNil := by
  unfold check at h
  split at h
  · next hb =>
    cases h
    exact hb
  · split at h
    · next hb =>
      cases h
      exact hb
    · split at h <;> cases h

theorem accepts_decoder (order : NilOrder) :
    (decoder order).Accepts fun isNil x => x = [byte order isNil] :=
  accepts_byte.check fun b x isNil hx h => by rw [hx, check_eq_ok h]

end Presence

namespace Codec
variable {α : Type}

/-- What restores a value is what represents it. -/
def Canonical : {α : Type} → Codec α → Prop
  | _, .leaf _ => True
  | _, .custom _ => True
  | _, .framed _ c => c.Canonical
  | _, .nullable _ c => c.Canonical
  | _, .seq c => c.Canonical
  | _, .convert represent restore c => (∀ v, represent (restore v) = v) ∧ c.Canonical

/-- No part of an encoding stands in a frame. -/
def Unframed : {α : Type} → Codec α → Prop
  | _, .leaf l => l.Unframed
  | _, .custom _ => True
  | _, .framed _ _ => False
  | _, .nullable _ c => c.Unframed
  | _, .seq c => c.requiresTerminator = false ∧ c.Unframed
  | _, .convert _ _ c => c.Unframed

/-- `v` encodes to `x`, or to a subsequence of it if parts of the encoding stand in frames. -/
def Reduces (c : Codec α) (v : α) (x : Bytes) : Prop :=
  ∃ y, c.encode v = .ok y ∧ y <+ x ∧ (c.Unframed → y = x)

theorem Reduces.framed {c : Codec α} {v : α} {raw : Bytes} (h : c.Reduces v raw) (reversed : Bool)
    {x : Bytes} (hx : Frame.Frames (Frame.maskOf reversed) x raw) :
    (Codec.framed reversed c).Reduces v x := by
  obtain ⟨y, hy, hsub, -⟩ := h
  refine ⟨Frame.encode (Frame.maskOf reversed) y, ?_, ?_, False.elim⟩
  · rw [encode_framed, hy]
    rfl
  · exact (Frame.encode_sublist_encode _ hsub).trans hx.encode_sublist

/-- A frame is longer than its contents, so what it holds is not too long to be written either. -/
theorem accepts_framed {limits : Limits} {c : Codec α}
    (h : (c.decoder limits).Accepts fun v x => x.length < Bytes.lengthBound → c.Reduces v x)
    (reversed : Bool) :
    ((Codec.framed reversed c).decoder limits).Accepts fun v x =>
      x.length < Bytes.lengthBound → (Codec.framed reversed c).Reduces v x := by
  rw [decoder_framed]
  refine (accepts_frame _).check fun raw x v hx hv hlen => ?_
  exact (h.whole hv (hx.length_lt.trans hlen)).framed reversed hx

theorem accepts_decoder (limits : Limits) {c : Codec α} (hc : c.IsBuiltIn) (hr : c.Canonical) :
    (c.decoder limits).Accepts fun v x => x.length < Bytes.lengthBound → c.Reduces v x := by
  induction c with
  | leaf l =>
    rw [decoder_leaf]
    exact l.accepts_decoder limits
  | custom c => exact hc.elim
  | framed reversed c ih => exact accepts_framed (ih hc hr) reversed
  | nullable order c ih =>
    have hb : c.IsBuiltIn := hc
    rw [decoder_nullable]
    refine (Presence.accepts_decoder order).bind fun isNil x hx => ?_
    subst hx
    cases isNil with
    | true => exact accepts_pure fun _ => ⟨[Presence.byte order true], rfl, .refl _, fun _ => rfl⟩
    | false =>
      refine (ih hb hr).midway.map fun v x hv hlen => ?_
      obtain ⟨y, hy, hsub, hexact⟩ := hv (by rw [List.length_append] at hlen; omega)
      refine ⟨Presence.byte order false :: y, ?_, hsub.cons_cons _, fun hu => ?_⟩
      · rw [encode_nullable_some order hb, hy]
        rfl
      · rw [hexact hu]
        rfl
  | seq c ih =>
    have hb : c.IsBuiltIn := hc
    have hunit : (c.unit.decoder limits).Accepts fun v x =>
        x.length < Bytes.lengthBound → c.unit.Reduces v x := by
      obtain hu | hu := c.unit_eq_or <;> rw [hu]
      · exact accepts_framed (ih hb hr) false
      · exact ih hb hr
    rw [decoder_seq]
    refine hunit.elements (fun _ => ⟨[], encode_seq_nil c, .refl _, fun _ => rfl⟩) ?_
    intro v x vs xs hv hvs hlen
    rw [List.length_append] at hlen
    obtain ⟨y, hy, hsub, hexact⟩ := hv (by omega)
    obtain ⟨ys, hys, hsubs, hexacts⟩ := hvs (by omega)
    refine ⟨y ++ ys, ?_, hsub.append hsubs, fun hu => ?_⟩
    · rw [encode_seq_cons hb, hy, hys]
      rfl
    · rw [hexact (by rw [unit_of_false hu.1]; exact hu.2), hexacts hu]
  | convert represent restore c ih =>
    have hb : c.IsBuiltIn := hc
    rw [decoder_convert]
    refine (ih hb hr.2).map fun v x hv hlen => ?_
    obtain ⟨y, hy, hsub, hexact⟩ := hv hlen
    refine ⟨y, ?_, hsub, hexact⟩
    rw [← hy, encode, append, hr.1]
    rfl

theorem exists_encoding_of_get {c : Codec α} (hc : c.IsBuiltIn) (hr : c.Canonical) {limits : Limits}
    {bs : Bytes} (hlen : bs.length < Bytes.lengthBound) {v : α} {n : Nat}
    (h : c.get limits bs = .ok (v, n)) :
    n ≤ bs.length ∧ ∃ x, c.encode v = .ok x ∧ x <+ bs.take n ∧ (c.Unframed → x = bs.take n) := by
  obtain ⟨x, rest, rfl, rfl, hx⟩ := accepts_decoder limits hc hr bs v n h
  rw [List.length_append] at hlen
  rw [List.take_left, List.length_append]
  exact ⟨Nat.le_add_right _ _, hx (by omega)⟩

end Codec
end SortKey
