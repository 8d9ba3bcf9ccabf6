import SortKey.Codec.Get
import SortKey.Proofs.FrameForms

/-! Escapes in front of bytes that need none. They are all that sets a frame apart from the encoding of what
is found in it, so that among the frames without any each byte string has exactly one; with one of them, a
second frame of the same bytes is accepted. -/
namespace SortKey.Frame

open scoped List
open Bytes (masked)

/-- How many escapes there are, up to the terminator, in front of bytes that need none. -/
def needless (mask : UInt8) : Bytes → Nat
  | [] => 0
  | b :: rest =>
    if b ^^^ mask = terminator then 0
    else if b ^^^ mask = escape then
      match rest with
      | [] => 0
      | c :: rest => needless mask rest + if c ^^^ mask = terminator ∨ c ^^^ mask = escape then 0 else 1
    else needless mask rest

section
variable {mask b : UInt8}

theorem needless_cons_terminator (h : b ^^^ mask = terminator) (rest : Bytes) :
    needless mask (b :: rest) = 0 := by
  rw [needless.eq_def]
  simp only [if_pos h]

theorem needless_cons_escape (h : b ^^^ mask = escape) (c : UInt8) (rest : Bytes) :
    needless mask (b :: c :: rest) = needless mask rest +
      if c ^^^ mask = terminator ∨ c ^^^ mask = escape then 0 else 1 := by
  have he : escape ≠ terminator := by decide
  rw [needless.eq_def]
  simp only [h, if_neg he, if_true]

theorem needless_cons_plain (ht : b ^^^ mask ≠ terminator) (he : b ^^^ mask ≠ escape) (rest : Bytes) :
    needless mask (b :: rest) = needless mask rest := by
  rw [needless.eq_def]
  simp only [if_neg ht, if_neg he]

end

theorem Frames.length_eq {mask : UInt8} {x raw : Bytes} (h : Frames mask x raw) (rest : Bytes) :
    x.length = (encode mask raw).length + needless mask (x ++ rest) := by
  induction h with
  | closed h =>
    rw [List.singleton_append, needless_cons_terminator h]
    rfl
  | @escaped b h c x raw more ih =>
    rw [List.cons_append, List.cons_append, needless_cons_escape h, encode_cons, List.length_append,
      Bytes.length_masked, Frame.escaped, List.length_cons, List.length_cons, ih]
    split <;> simp only [List.length_cons, List.length_nil] <;> omega
  | plain ht he more ih =>
    rw [List.cons_append, needless_cons_plain ht he, encode_cons, List.length_append,
      Bytes.length_masked, Frame.escaped, if_neg (not_or.2 ⟨ht, he⟩), List.length_cons, ih]
    simp only [List.length_cons, List.length_nil]
    omega

theorem Frames.encode_eq_iff {mask : UInt8} {x raw : Bytes} (h : Frames mask x raw) :
    encode mask raw = x ↔ needless mask x = 0 := by
  have hlen := h.length_eq []
  rw [List.append_nil] at hlen
  constructor
  · intro he
    rw [he] at hlen
    omega
  · intro h0
    exact h.encode_sublist.eq_of_length (by omega)

theorem needless_encode_append (mask : UInt8) (raw rest : Bytes) :
    needless mask (encode mask raw ++ rest) = 0 := by
  have hlen := (frames_encode mask raw).length_eq rest
  omega

/-- What is found in a frame is encoded as the frame without its needless escapes, each of which is
one byte. So it is encoded as the frame itself exactly if there are none: the frames of that kind are
the encodings of all byte strings, each of one. -/
theorem needless_escapes_exact (mask : UInt8) (bs raw : Bytes) (n : Nat) :
    (get mask bs = .ok (raw, n) →
      encode mask raw <+ bs.take n ∧ n = (encode mask raw).length + needless mask bs ∧
        (encode mask raw = bs.take n ↔ needless mask bs = 0)) ∧
    (get mask bs = .ok (raw, n) ∧ needless mask bs = 0 ↔
      encode mask raw <+: bs ∧ n = (encode mask raw).length) := by
  have hforward (h : get mask bs = .ok (raw, n)) :
      encode mask raw <+ bs.take n ∧ n = (encode mask raw).length + needless mask bs ∧
        (encode mask raw = bs.take n ↔ needless mask bs = 0) := by
    obtain ⟨x, rest, rfl, rfl, hx⟩ := frames_of_get h
    have hlen := hx.length_eq rest
    rw [List.take_left]
    refine ⟨hx.encode_sublist, hlen, fun he => ?_, fun h0 => ?_⟩
    · rw [he] at hlen
      omega
    · exact hx.encode_sublist.eq_of_length (by omega)
  refine ⟨hforward, ?_, ?_⟩
  · rintro ⟨h, h0⟩
    obtain ⟨-, hn, he⟩ := hforward h
    refine ⟨?_, by omega⟩
    rw [he.2 h0]
    exact List.take_prefix n bs
  · rintro ⟨⟨rest, rfl⟩, rfl⟩
    exact ⟨get_encode_append mask raw rest, needless_encode_append mask raw rest⟩

theorem needless_escapes_exact_one_of_three :
    let bs : Bytes := [0x01, 0x00, 0x01, 0x41, 0x01, 0x01, 0x00, 0x07]
    get plain bs = .ok ([0x00, 0x41, 0x01], 7) ∧ encode plain [0x00, 0x41, 0x01] <+ bs.take 7 ∧
      encode plain [0x00, 0x41, 0x01] ≠ bs.take 7 := by
  intro bs
  have hget : get plain bs = .ok ([0x00, 0x41, 0x01], 7) := by rfl
  obtain ⟨hsublist, -, heq⟩ := (needless_escapes_exact plain bs _ 7).1 hget
  exact ⟨hget, hsublist, fun h => nomatch heq.1 h⟩

/-- Decoding takes frames for others' encodings: `0x41` is found after a needless escape too, and so
has two encodings that a framed codec accepts, in either order. -/
theorem needless_escape_accepted :
    ¬(∀ mask bs raw n, get mask bs = .ok (raw, n) → encode mask raw = bs.take n) ∧
      (Codec.terminate (.leaf .bytes)).decode {} [0x01, 0x41, 0x00] = .ok [0x41] ∧
      (Codec.terminate (.leaf .bytes)).decode {} [0x41, 0x00] = .ok [0x41] ∧
      (Codec.negate (.leaf .bytes)).decode {} [0xfe, 0xbe, 0xff] = .ok [0x41] ∧
      (Codec.negate (.leaf .bytes)).decode {} [0xbe, 0xff] = .ok [0x41] := by
  refine ⟨fun h => ?_, rfl, rfl, rfl, rfl⟩
  have hbad := h plain [0x01, 0x41, 0x00] [0x41] 3 rfl
  exact absurd hbad (by decide)

end SortKey.Frame
