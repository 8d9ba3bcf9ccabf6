import Mathlib.Data.List.Flatten
import SortKey.Proofs.FrameOrder

/-! The frames of a byte string: besides the encoding, those with escapes in front of bytes that need none.
A scan finds exactly these, whatever follows them, and not when they are cut off; the encoding is the
shortest of them and is left when the others lose the escapes they do not need. -/
namespace SortKey.Frame

open scoped List
open Bytes (xor_xor_cancel)

/-- `x` is a frame of `raw`. -/
inductive Frames (mask : UInt8) : Bytes → Bytes → Prop where
  | closed {b : UInt8} (h : b ^^^ mask = terminator) : Frames mask [b] []
  | escaped {b : UInt8} (h : b ^^^ mask = escape) (c : UInt8) {x raw : Bytes}
      (more : Frames mask x raw) : Frames mask (b :: c :: x) ((c ^^^ mask) :: raw)
  | plain {b : UInt8} (ht : b ^^^ mask ≠ terminator) (he : b ^^^ mask ≠ escape) {x raw : Bytes}
      (more : Frames mask x raw) : Frames mask (b :: x) ((b ^^^ mask) :: raw)

section
variable {mask b : UInt8}

theorem scan_cons_terminator (h : b ^^^ mask = terminator) (rest : Bytes) :
    scan mask (b :: rest) = some ([], 1) := by
  rw [scan.eq_def]
  simp only [h, if_true]

theorem scan_cons_escape (h : b ^^^ mask = escape) (c : UInt8) (rest : Bytes) :
    scan mask (b :: c :: rest) = (scan mask rest).map fun p => ((c ^^^ mask) :: p.1, p.2 + 2) := by
  have he : escape ≠ terminator := by decide
  rw [scan.eq_def]
  simp only [h, if_neg he, if_true]
  cases scan mask rest <;> rfl

theorem scan_cons_plain (ht : b ^^^ mask ≠ terminator) (he : b ^^^ mask ≠ escape) (rest : Bytes) :
    scan mask (b :: rest) = (scan mask rest).map fun p => ((b ^^^ mask) :: p.1, p.2 + 1) := by
  rw [scan.eq_def]
  simp only [if_neg ht, if_neg he]
  cases scan mask rest <;> rfl

theorem scan_singleton (h : b ^^^ mask ≠ terminator) : scan mask [b] = none := by
  rw [scan.eq_def]
  simp only [if_neg h, scan]
  split <;> rfl

end

namespace Frames
variable {mask : UInt8} {x raw : Bytes}

theorem scan_append (h : Frames mask x raw) (rest : Bytes) :
    scan mask (x ++ rest) = some (raw, x.length) := by
  induction h with
  | closed h => exact scan_cons_terminator h rest
  | escaped h c more ih =>
    rw [List.cons_append, List.cons_append, scan_cons_escape h, ih]
    rfl
  | plain ht he more ih =>
    rw [List.cons_append, scan_cons_plain ht he, ih]
    rfl

theorem scan_take (h : Frames mask x raw) {k : Nat} (hk : k < x.length) :
    scan mask (x.take k) = none := by
  induction h generalizing k with
  | closed h =>
    obtain rfl : k = 0 := Nat.lt_one_iff.1 hk
    rfl
  | @escaped b h c x raw more ih =>
    match k with
    | 0 => rfl
    | 1 =>
      have he : escape ≠ terminator := by decide
      exact scan_singleton (h ▸ he)
    | k + 2 =>
      rw [List.take_succ_cons, List.take_succ_cons, scan_cons_escape h, ih (by simpa using hk)]
      rfl
  | plain ht he more ih =>
    cases k with
    | zero => rfl
    | succ k =>
      rw [List.take_succ_cons, scan_cons_plain ht he, ih (by simpa using hk)]
      rfl

theorem ne_nil (h : Frames mask x raw) : x ≠ [] := by
  cases h <;> exact List.cons_ne_nil _ _

theorem get_append (h : Frames mask x raw) (rest : Bytes) :
    Frame.get mask (x ++ rest) = .ok (raw, x.length) := by
  rw [Frame.get, if_neg (by simp [h.ne_nil]), h.scan_append]

theorem encode_sublist (h : Frames mask x raw) : encode mask raw <+ x := by
  induction h with
  | @closed b h =>
    rw [encode_nil, ← h, xor_xor_cancel]
  | @escaped b h c x raw more ih =>
    rw [encode_cons, Frame.escaped]
    split
    · simpa [← h, xor_xor_cancel] using ih
    · simpa [xor_xor_cancel] using (ih.cons_cons c).cons b
  | @plain b ht he x raw more ih =>
    rw [encode_cons, Frame.escaped, if_neg (by simp [ht, he])]
    simpa [xor_xor_cancel] using ih

end Frames

theorem frames_of_scan {mask : UInt8} {bs raw : Bytes} {n : Nat} (h : scan mask bs = some (raw, n)) :
    ∃ x rest, bs = x ++ rest ∧ x.length = n ∧ Frames mask x raw := by
  -- on the length, since an escape takes two bytes away
  induction hlen : bs.length using Nat.strong_induction_on generalizing bs raw n with
  | _ m ih =>
  subst hlen
  cases bs with
  | nil => cases h
  | cons b bs =>
    by_cases ht : b ^^^ mask = terminator
    · rw [scan_cons_terminator ht] at h
      cases h
      exact ⟨[b], bs, rfl, rfl, .closed ht⟩
    by_cases he : b ^^^ mask = escape
    · cases bs with
      | nil =>
        rw [scan_singleton ht] at h
        cases h
      | cons c bs =>
        rw [scan_cons_escape he, Option.map_eq_some_iff] at h
        obtain ⟨⟨raw, n⟩, hscan, h⟩ := h
        cases h
        obtain ⟨x, rest, rfl, rfl, hx⟩ := ih bs.length (by simp only [List.length_cons]; omega) hscan rfl
        exact ⟨b :: c :: x, rest, rfl, rfl, .escaped he c hx⟩
    · rw [scan_cons_plain ht he, Option.map_eq_some_iff] at h
      obtain ⟨⟨raw, n⟩, hscan, h⟩ := h
      cases h
      obtain ⟨x, rest, rfl, rfl, hx⟩ := ih bs.length (by simp) hscan rfl
      exact ⟨b :: x, rest, rfl, rfl, .plain ht he hx⟩

theorem frames_of_get {mask : UInt8} {bs raw : Bytes} {n : Nat} (h : get mask bs = .ok (raw, n)) :
    ∃ x rest, bs = x ++ rest ∧ x.length = n ∧ Frames mask x raw := by
  rw [get] at h
  split at h
  · cases h
  split at h
  · cases h
  · next found hscan =>
    cases h
    exact frames_of_scan hscan

theorem frames_encode (mask : UInt8) (raw : Bytes) : Frames mask (encode mask raw) raw := by
  induction raw with
  | nil => exact .closed (xor_xor_cancel terminator mask)
  | cons b raw ih =>
    rw [encode_cons, escaped]
    split
    · have h := Frames.escaped (xor_xor_cancel escape mask) (b ^^^ mask) ih
      rwa [xor_xor_cancel] at h
    · next hb =>
      have h := Frames.plain (b := b ^^^ mask) (by rw [xor_xor_cancel]; exact (not_or.1 hb).1)
        (by rw [xor_xor_cancel]; exact (not_or.1 hb).2) ih
      rwa [xor_xor_cancel] at h

theorem length_lt_length_encode (mask : UInt8) (raw : Bytes) :
    raw.length < (encode mask raw).length := by
  induction raw with
  | nil => exact Nat.one_pos
  | cons b raw ih =>
    have hb : 0 < (escaped b).length := by
      rw [escaped]
      split <;> simp
    rw [encode_cons, List.length_append, Bytes.length_masked, List.length_cons]
    omega

theorem Frames.length_lt {mask : UInt8} {x raw : Bytes} (h : Frames mask x raw) :
    raw.length < x.length :=
  (length_lt_length_encode mask raw).trans_le h.encode_sublist.length_le

theorem encode_sublist_encode (mask : UInt8) {x y : Bytes} (h : x <+ y) :
    encode mask x <+ encode mask y :=
  ((h.flatMap escaped).append_right [terminator]).map _

end SortKey.Frame
