import Mathlib.Logic.Relation
import SortKey.KeyBuffer
import SortKey.Proofs.CheckedDecoding
import SortKey.Proofs.StreamAgreement

/-! The cursor of a key stays inside its bytes, whatever is done to them. -/
namespace SortKey.KeyBuffer
variable {α : Type}

def InBounds (k : KeyBuffer) : Prop := k.cursor ≤ k.bytes.length

/-- What can be done to a key, with whatever outcome. What the caller supplies is only asked not to touch
the bytes that it appends to, and to find values in bytes that are there. -/
inductive Step (limits : Limits) (k : KeyBuffer) : KeyBuffer → Prop where
  | seek (cursor : Nat) : Step limits k (k.seek cursor)
  | push (bs : Bytes) : Step limits k (k.push bs)
  | truncate (length : Nat) : Step limits k (k.truncate length)
  | xorAt (i : Nat) (mask : UInt8) : Step limits k (k.xorAt i mask)
  | append {α : Type} (c : Codec α) (hc : c.OnlyPushes) (v : α) : Step limits k (k.append c v).2
  | write {α : Type} (c : Codec α) (v : α) (grants : List Nat) (refusal : Option String) :
      Step limits k (k.write c v grants refusal).2
  | get {α : Type} (c : Codec α) (hc : c.Contained) : Step limits k (k.get limits c).2
  | read {α : Type} (c : Codec α) (hc : c.IsBuiltIn) (hlen : k.bytes.length < Bytes.lengthBound) :
      Step limits k (k.read limits c).2
  | frame (mask : UInt8) : Step limits k (k.frame mask)
  | unframe (mask : UInt8) : Step limits k (k.unframe mask).2
  | pushPresence (order : NilOrder) (isNil : Bool) : Step limits k (k.pushPresence order isNil)

theorem length_rest (k : KeyBuffer) : k.rest.length = k.bytes.length - k.cursor := List.length_drop

theorem inBounds_seek (k : KeyBuffer) (cursor : Nat) : (k.seek cursor).InBounds := Nat.min_le_right _ _

theorem InBounds.push {k : KeyBuffer} (h : k.InBounds) (bs : Bytes) : (k.push bs).InBounds := by
  have hlen : (k.push bs).bytes.length = k.bytes.length + bs.length := List.length_append
  exact (h.trans (Nat.le_add_right _ _)).trans_eq hlen.symm

theorem bytes_append (k : KeyBuffer) {c : Codec α} (hc : c.OnlyPushes) (v : α) :
    (k.append c v).2 = k.push ((c.append v).onto []).2 := by
  rw [append, Codec.additive_of_onlyPushes hc v k.bytes]
  rfl

theorem bytes_write (k : KeyBuffer) (c : Codec α) (v : α) (grants : List Nat) (refusal : Option String) :
    ∃ bs, (k.write c v grants refusal).2 = k.push bs := by
  rw [write, Codec.write]
  cases c.encode v with
  | error e => exact ⟨[], by simp [push]⟩
  | ok x =>
    refine ⟨(Sink.offer refusal grants x).1, ?_⟩
    dsimp only [Sink.writeAll]
    obtain ⟨accepted, left, _ | text⟩ := Sink.offer refusal grants x <;> rfl

theorem InBounds.get {k : KeyBuffer} (h : k.InBounds) (limits : Limits) {c : Codec α} (hc : c.Contained) :
    (k.get limits c).2.InBounds := by
  rw [KeyBuffer.get]
  split
  · next v n hget =>
    rw [← Codec.run_decoder] at hget
    have hn := Codec.within_decoder limits hc k.rest v n hget
    rw [length_rest] at hn
    change k.cursor + n ≤ k.bytes.length
    exact Nat.add_le_of_le_sub' h hn
  · exact h

theorem InBounds.read {k : KeyBuffer} (h : k.InBounds) (limits : Limits) {c : Codec α} (hc : c.IsBuiltIn)
    (hlen : k.bytes.length < Bytes.lengthBound) : (k.read limits c).2.InBounds := by
  have hrest := length_rest k
  obtain ⟨n, hn, ht, -⟩ := (Codec.twin limits hc).follows _ k.rest 0 (Source.holds_ofBytes k.rest)
    (by omega)
  rw [hrest] at hn
  change k.cursor + ((c.read limits).runFrom (Source.ofBytes k.rest)).2.delivered ≤ k.bytes.length
  rw [ht.delivered, Nat.zero_add]
  exact Nat.add_le_of_le_sub' h hn

theorem Step.inBounds {limits : Limits} {k k' : KeyBuffer} (hs : Step limits k k') (h : k.InBounds) :
    k'.InBounds := by
  cases hs with
  | seek cursor => exact k.inBounds_seek cursor
  | push bs => exact h.push bs
  | truncate length => exact inBounds_seek _ _
  | xorAt i mask => exact h.trans_eq (List.length_modify _ _ _).symm
  | append c hc v => exact bytes_append k hc v ▸ h.push _
  | write c v grants refusal =>
    obtain ⟨bs, hbs⟩ := bytes_write k c v grants refusal
    exact hbs ▸ h.push bs
  | get c hc => exact h.get limits hc
  | read c hc hlen => exact h.read limits hc hlen
  | frame mask => exact Nat.zero_le _
  | unframe mask =>
    rw [KeyBuffer.unframe]
    split
    · exact Nat.zero_le _
    · exact h
  | pushPresence order isNil => exact h.push _

theorem inBounds_of_steps {limits : Limits} {k k' : KeyBuffer}
    (hs : Relation.ReflTransGen (Step limits) k k') (h : k.InBounds) : k'.InBounds := by
  induction hs with
  | refl => exact h
  | tail _ hs ih => exact hs.inBounds ih

theorem xorAt_xorAt (k : KeyBuffer) (i : Nat) (mask : UInt8) : (k.xorAt i mask).xorAt i mask = k := by
  have hself : (· ^^^ mask) ∘ (· ^^^ mask) = (id : UInt8 → UInt8) :=
    funext fun b => Bytes.xor_xor_cancel b mask
  rw [xorAt, xorAt, List.modify_modify_eq, hself, List.modify_id]

theorem unframe_frame (k : KeyBuffer) (mask : UInt8) :
    (k.frame mask).unframe mask = (.ok (Frame.encode mask k.bytes).length, ⟨k.bytes, 0⟩) := by
  have hget := Frame.get_encode_append mask k.bytes []
  rw [List.append_nil] at hget
  rw [unframe, rest, frame, List.drop_zero, hget]

theorem isNil_pushPresence {k : KeyBuffer} (h : k.cursor = k.bytes.length) (order : NilOrder)
    (isNil : Bool) : (k.pushPresence order isNil).isNil order = .ok isNil := by
  have hrest : (k.pushPresence order isNil).rest = [Presence.byte order isNil] := by
    change (k.bytes ++ [Presence.byte order isNil]).drop k.cursor = _
    rw [h, List.drop_left]
  rw [KeyBuffer.isNil, hrest]
  exact Presence.check_byte order isNil

end SortKey.KeyBuffer
