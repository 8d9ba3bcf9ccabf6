import SortKey.Proofs.Acceptance

/-! What is decoded as a big integer: exactly the encodings of the integers whose magnitudes keep to the
limit, so that each of these has one encoding that is accepted and no larger one has any. -/
namespace SortKey

theorem Codec.decode_eq_ok_iff {α : Type} {limits : Limits} {c : Codec α} {bs : Bytes} {v : α} :
    c.decode limits bs = .ok v ↔ c.get limits bs = .ok (v, bs.length) := by
  unfold decode
  rw [Outcome.bind_eq_ok]
  constructor
  · rintro ⟨⟨u, n⟩, hget, hrest⟩
    obtain ⟨rfl, rfl⟩ := Slice.filled_eq_ok.1 hrest
    exact hget
  · intro hget
    exact ⟨(v, bs.length), hget, Slice.filled_eq_ok.2 ⟨rfl, rfl⟩⟩

theorem Codec.decode_eq_ok_iff_of_get {α : Type} {limits : Limits} {c : Codec α} {v : α} {P : Bytes → Prop}
    (h : ∀ bs n, c.get limits bs = .ok (v, n) ↔ n ≤ bs.length ∧ P (bs.take n)) {bs : Bytes} :
    c.decode limits bs = .ok v ↔ P bs := by
  rw [decode_eq_ok_iff, h, List.take_length]
  exact and_iff_right (Nat.le_refl _)

namespace BigInteger
open Bytes
variable {limits : Limits} {v : Int}

theorem get_eq_ok_iff (hv : size v < lengthBound) {bs : Bytes} {n : Nat} :
    get limits bs = .ok (v, n) ↔
      n ≤ bs.length ∧ size v ≤ limits.integerBytes ∧ bytes v = bs.take n := by
  rw [← run_decoder]
  apply (accepts_decoder limits).run_eq_ok_iff
  rintro x ⟨hlimit, rfl⟩
  exact decodes hv hlimit

theorem size_le_of_get {bs : Bytes} {n : Nat} (h : get limits bs = .ok (v, n)) :
    size v ≤ limits.integerBytes ∧ size v ≤ bs.length := by
  rw [← run_decoder] at h
  obtain ⟨x, rest, rfl, rfl, hlimit, rfl⟩ := accepts_decoder limits bs v n h
  simp
  omega

theorem decode_eq_ok_iff (hv : size v < lengthBound) {bs : Bytes} :
    (Codec.leaf .integer).decode limits bs = .ok v ↔ size v ≤ limits.integerBytes ∧ bytes v = bs := by
  apply Codec.decode_eq_ok_iff_of_get (P := fun x => size v ≤ limits.integerBytes ∧ bytes v = x)
  intro bs n
  exact get_eq_ok_iff hv

/-- What is found at the front is the encoding of an integer within the limit, and every such encoding
is found. Each integer within the limit, zero included, is decoded from one byte string; an integer
beyond it has an encoding, but is decoded from none. -/
theorem decoded_within_limit (limits : Limits) :
    (∀ bs v n, bs.length < lengthBound →
      ((Codec.leaf .integer).get limits bs = .ok (v, n) ↔
        n ≤ bs.length ∧ (Codec.leaf .integer).encode v = .ok (bs.take n) ∧
          size v ≤ limits.integerBytes)) ∧
    ∀ v, size v < lengthBound →
      (size v ≤ limits.integerBytes → ∃! x, (Codec.leaf .integer).decode limits x = .ok v) ∧
      (limits.integerBytes < size v → (∃ x, (Codec.leaf .integer).encode v = .ok x) ∧
        ∀ bs n, (Codec.leaf .integer).get limits bs ≠ .ok (v, n)) := by
  constructor
  · intro bs v n hbs
    constructor
    · intro hget
      obtain ⟨hlimit, hlen⟩ := size_le_of_get hget
      have hv : size v < lengthBound := by omega
      obtain ⟨hn, -, hbytes⟩ := (get_eq_ok_iff hv).1 hget
      exact ⟨hn, encoding_append_eq_ok.2 ⟨hv, hbytes.symm⟩, hlimit⟩
    · rintro ⟨hn, hencode, hlimit⟩
      obtain ⟨hv, hbytes⟩ := encoding_append_eq_ok.1 hencode
      exact (get_eq_ok_iff hv).2 ⟨hn, hlimit, hbytes.symm⟩
  · intro v hv
    constructor
    · intro hlimit
      refine ⟨bytes v, (decode_eq_ok_iff hv).2 ⟨hlimit, rfl⟩, ?_⟩
      intro x hx
      exact ((decode_eq_ok_iff hv).1 hx).2.symm
    · intro hlimit
      refine ⟨⟨bytes v, encoding_append_eq_ok.2 ⟨hv, rfl⟩⟩, ?_⟩
      intro bs n hget
      have := (size_le_of_get hget).1
      omega

/-- With room for two bytes, -256 is found in front of another byte, and 65536 nowhere. -/
theorem decoded_within_limit_two_bytes :
    let limits : Limits := ⟨2, 0⟩
    let bs : Bytes := [0x7f, 0xff, 0xff, 0xff, 0xff, 0xff, 0xff, 0xfe, 0xfe, 0xff, 0x07]
    (bs.length < lengthBound ∧ (Codec.leaf .integer).get limits bs = .ok (-256, 10) ∧
      (Codec.leaf .integer).encode (-256) = .ok (bs.take 10)) ∧
    size 65536 < lengthBound ∧ limits.integerBytes < size 65536 ∧
      (∃ x, (Codec.leaf .integer).encode 65536 = .ok x) ∧
        ∀ bs n, (Codec.leaf .integer).get limits bs ≠ .ok (65536, n) := by
  intro limits bs
  have hbs : bs.length < lengthBound := by decide
  have hget : (Codec.leaf .integer).get limits bs = .ok (-256, 10) := by decide
  have hsize : size 65536 < lengthBound := by decide
  have hlimit : limits.integerBytes < size 65536 := by decide
  obtain ⟨hexact, hvalues⟩ := decoded_within_limit limits
  obtain ⟨-, hencode, -⟩ := (hexact bs (-256) 10 hbs).1 hget
  exact ⟨⟨hbs, hget, hencode⟩, hsize, hlimit, (hvalues 65536 hsize).2 hlimit⟩

end BigInteger
end SortKey
