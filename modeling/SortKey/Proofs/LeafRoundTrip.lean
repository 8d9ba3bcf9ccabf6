import Mathlib.Data.Rat.Defs
import SortKey.Proofs.Decoder
import SortKey.Proofs.Encodable
import SortKey.Proofs.Utf8RoundTrip

/-! Leaves read back. A leaf that needs no terminator finds what was written, whatever follows it, if its
integers keep to the limit. -/
namespace SortKey

namespace Decoder
variable {α β : Type}

/-- `d` finds `a` in `x`, whatever follows. -/
def Decodes (d : Decoder α) (x : Bytes) (a : α) : Prop :=
  ∀ rest, d.run (x ++ rest) = .ok (a, x.length)

theorem Decodes.pure (a : α) : Decodes (pure a) [] a := fun _ => rfl

theorem Decodes.bind {d : Decoder α} {f : α → Decoder β} {x y : Bytes} {a : α} {b : β}
    (hd : d.Decodes x a) (hf : (f a).Decodes y b) : (d >>= f).Decodes (x ++ y) b := by
  intro rest
  rw [List.append_assoc, run_bind, hd, Outcome.ok_bind, List.drop_left, hf, Outcome.map_ok,
    List.length_append]

theorem Decodes.map {d : Decoder α} {x : Bytes} {a : α} (h : d.Decodes x a) (f : α → β) :
    (f <$> d).Decodes x (f a) := by
  intro rest
  rw [run_map, h, Outcome.map_ok]

theorem Decodes.midway {d : Decoder α} {x : Bytes} {a : α} (h : d.Decodes x a) :
    d.midway.Decodes x a := by
  intro rest
  rw [run_midway, h, Slice.midway_ok]

theorem decodes_ofOutcome (a : α) : (ofOutcome (.ok a)).Decodes [] a := fun _ => rfl

theorem Decodes.check {d : Decoder α} {f : α → Except Fault β} {x : Bytes} {a : α} {b : β}
    (hd : d.Decodes x a) (hf : f a = .ok b) : (d >>= fun a => ofOutcome (f a)).Decodes x b := by
  have hb : (ofOutcome (f a)).Decodes [] b := by
    rw [hf]
    exact decodes_ofOutcome b
  have h : (d >>= fun a => ofOutcome (f a)).Decodes (x ++ []) b := hd.bind hb
  rwa [List.append_nil] at h

theorem Decodes.ofOutcome_bind {r : Except Fault α} {f : α → Decoder β} {a : α} {b : β} {x : Bytes}
    (hr : r = .ok a) (hf : (f a).Decodes x b) : (ofOutcome r >>= f).Decodes x b := by
  rw [hr]
  exact (decodes_ofOutcome a).bind hf

theorem decodes_exactly (x : Bytes) : (exactly x.length).Decodes x x := by
  intro rest
  rw [run_exactly, Slice.exactly_append, Outcome.map_ok]

theorem decodes_byte (b : UInt8) : byte.Decodes [b] b := fun _ => rfl

theorem decodes_frame (mask : UInt8) (raw : Bytes) :
    (frame mask).Decodes (Frame.encode mask raw) raw := Frame.get_encode_append mask raw

end Decoder

open Decoder

namespace FixedWidth

theorem decodes (w : Width) (v : BitVec w.bits) : (decoder w).Decodes (encode w v) v := by
  intro rest
  rw [run_decoder, get_encode_append, length_encode]

theorem decodes_int {w : Width} {v : Int} (h : InRange w v) :
    (intDecoder w).Decodes (encodeInt w v) v := by
  intro rest
  rw [run_intDecoder, getInt_encodeInt_append h, length_encodeInt]

end FixedWidth

namespace BigInteger

theorem size_pos {v : Int} (h : v ≠ 0) : 0 < size v := by
  have := Radix.significantBits_pos (v := v.natAbs) (by omega)
  rw [size, Radix.length_magnitude, Radix.bytesFor]
  omega

theorem natAbs_withSign (negative : Bool) (n : Nat) : (withSign negative n).natAbs = n := by
  cases negative <;> simp [withSign]

theorem header_neg_iff (v : Int) : withSign (v < 0) (size v) < 0 ↔ v < 0 := by
  by_cases h : v < 0
  · have := size_pos (v := v) (by omega)
    simp [withSign, h]
    omega
  · simp [withSign, h]

theorem withSign_natAbs (v : Int) : withSign (v < 0) v.natAbs = v := by
  by_cases h : v < 0
  · simp only [withSign, h, decide_true, if_true]
    omega
  · simp only [withSign, h, decide_false, Bool.false_eq_true, if_false]
    omega

theorem build_magnitude {v : Int} (h : size v < Bytes.lengthBound) :
    build (v < 0) (Bytes.masked (Frame.maskOf (v < 0)) (Radix.magnitude v.natAbs)) = .ok v := by
  have hroom : ¬Bytes.lengthBound ≤ (Radix.magnitude v.natAbs).length := Nat.not_le.2 h
  rw [build, Bytes.masked_masked, if_neg (Radix.head_magnitude_ne_zero _), if_neg hroom,
    Radix.ofBigEndian_magnitude, withSign_natAbs]

theorem decodes {limits : Limits} {v : Int} (h : size v < Bytes.lengthBound)
    (hl : size v ≤ limits.integerBytes) : (decoder limits).Decodes (bytes v) v := by
  have hm : magnitudeSize limits (withSign (v < 0) (size v)) = .ok (size v) := by
    rw [magnitudeSize, natAbs_withSign, if_pos hl]
  have hb : build (withSign (v < 0) (size v) < 0)
      (Bytes.masked (Frame.maskOf (v < 0)) (Radix.magnitude v.natAbs)) = .ok v := by
    simp only [header_neg_iff]
    exact build_magnitude h
  have hx := decodes_exactly (Bytes.masked (Frame.maskOf (v < 0)) (Radix.magnitude v.natAbs))
  rw [Bytes.length_masked] at hx
  exact (FixedWidth.decodes_int (inRange_header h)).bind (.ofOutcome_bind hm (hx.midway.check hb))

end BigInteger

namespace Rational

theorem build_num_den (q : Rat) : build q.num q.den = .ok q := by
  have hden : ¬(q.den : Int) ≤ 0 := by
    have := q.den_pos
    omega
  rw [build, if_neg hden]
  dsimp only
  rw [Int.toNat_natCast, Rat.mkRat_self, if_pos rfl]

theorem decodes {limits : Limits} {q : Rat}
    (h : BigInteger.size q.num < Bytes.lengthBound ∧ BigInteger.size q.den < Bytes.lengthBound)
    (hl : BigInteger.size q.num ≤ limits.integerBytes ∧
      BigInteger.size q.den ≤ limits.integerBytes) :
    (decoder limits).Decodes (BigInteger.bytes q.num ++ BigInteger.bytes q.den) q :=
  (BigInteger.decodes h.1 hl.1).bind ((BigInteger.decodes h.2 hl.2).midway.check (build_num_den q))

end Rational

namespace BigFloat
open BigInteger (withSign)

theorem inRange_field {v : Int} (hl : lowestField < v) (hh : v < -lowestField) (neg : Bool) :
    FixedWidth.InRange .w32 (withSign neg v) := by
  have hb : (256 : Int) ^ Width.w32.bytes = -2 * lowestField := rfl
  rw [FixedWidth.InRange, hb, withSign]
  split <;> constructor <;> omega

theorem unsigned_withSign {v : Int} (h : v ≠ -lowestField) (neg : Bool) :
    unsigned neg (withSign neg v) = .ok v := by
  cases neg with
  | false => rfl
  | true =>
    have hne : -v ≠ lowestField := by omega
    simp [unsigned, withSign, hne]

theorem exponentFits_iff (e : Int) :
    exponentFits e = true ↔ lowestField < e ∧ e < -lowestField := by
  simp [exponentFits, lowestField]

theorem inRange_exponent {e : Int} (he : exponentFits e = true) (neg : Bool) :
    FixedWidth.InRange .w32 (withSign neg e) := by
  obtain ⟨hlow, hhigh⟩ := (exponentFits_iff e).1 he
  exact inRange_field hlow hhigh neg

theorem inRange_precision {p : Nat} (hp : p ≤ maxPrecision) (neg : Bool) :
    FixedWidth.InRange .w32 (withSign neg p) := by
  have hlow : lowestField = -2147483648 := rfl
  have hmax : maxPrecision = 2147483647 := rfl
  exact inRange_field (by omega) (by omega) neg

theorem ofByte_byte (mode : RoundingMode) : RoundingMode.ofByte mode.byte = .ok mode := by
  rw [RoundingMode.ofByte, RoundingMode.ofByte?_byte]

theorem ofMantissa_of_wellFormed {neg : Bool} {m : Nat} {e : Int} {p : Nat} {mode : RoundingMode}
    (h : WellFormed (.finite neg m e p mode)) :
    ofMantissa neg m e p mode = .ok (.finite neg m e p mode) := by
  obtain ⟨hodd, hp, hmax, -⟩ := h
  have hpos := Radix.significantBits_pos (v := m) (by omega)
  rw [ofMantissa, if_neg (by omega), if_neg (by omega)]

theorem checked_fields {neg : Bool} {m : Nat} {e : Int} {p : Nat} {mode : RoundingMode}
    (h : WellFormed (.finite neg m e p mode)) :
    Fields.checked neg ⟨withSign neg e, Radix.magnitude (aligned m p), withSign neg p, mode.byte⟩ =
      .ok (m, e, p, mode) := by
  have hhead := UInt8.not_lt.2 h.topBit_field
  obtain ⟨hodd, hp, hmax, he⟩ := h
  have hpos := Radix.significantBits_pos (v := m) (by omega)
  have hlow : lowestField = -2147483648 := rfl
  have hmaxp : maxPrecision = 2147483647 := rfl
  obtain ⟨hel, heh⟩ := (exponentFits_iff e).1 he
  have hlen := length_magnitude_aligned (m := m) (by omega) hp
  have hdigits : Radix.oddPart (Radix.ofBigEndian (Radix.magnitude (aligned m p))) = m := by
    rw [Radix.ofBigEndian_magnitude, aligned, Radix.oddPart_shiftLeft hodd]
  have hprecision : ¬(p : Int) ≤ 0 := by omega
  simp only [Fields.checked, unsigned_withSign (v := e) (by omega),
    unsigned_withSign (v := (p : Int)) (by omega), Outcome.ok_bind, if_neg hel.ne', if_neg hprecision,
    ofByte_byte, Int.toNat_natCast, hlen, ne_eq, not_true_eq_false, if_false, if_neg hhead, hdigits]
  rfl

theorem build_fields {neg : Bool} {m : Nat} {e : Int} {p : Nat} {mode : RoundingMode}
    (h : WellFormed (.finite neg m e p mode)) :
    Fields.build neg ⟨withSign neg e, Radix.magnitude (aligned m p), withSign neg p, mode.byte⟩ =
      .ok (.finite neg m e p mode) := by
  rw [Fields.build, checked_fields h, Outcome.ok_bind]
  dsimp only
  rw [ofMantissa_of_wellFormed h]
  rfl

/-- The fields after the kind of a finite value, with the frame in which the mantissa stands. -/
def framedFields (neg : Bool) (e : Int) (frame : Bytes) (p : Nat) (mode : RoundingMode) : Bytes :=
  FixedWidth.encodeInt .w32 (withSign neg e) ++ (frame ++
    (FixedWidth.encodeInt .w32 (withSign neg p) ++ [mode.byte]))

theorem decodes_fields {neg : Bool} {m : Nat} {e : Int} {p : Nat} {mode : RoundingMode}
    (h : WellFormed (.finite neg m e p mode)) {x field : Bytes}
    (hx : (frame (Frame.maskOf neg)).Decodes x field) :
    (fieldsDecoder neg).Decodes (framedFields neg e x p mode)
      ⟨withSign neg e, field, withSign neg p, mode.byte⟩ := by
  obtain ⟨-, -, hmax, he⟩ := h
  have hexponent := FixedWidth.decodes_int (inRange_exponent he neg)
  have hprecision := FixedWidth.decodes_int (inRange_precision hmax neg)
  exact hexponent.bind (hx.bind (hprecision.bind
    ((decodes_byte mode.byte).map fun b => (⟨_, _, _, b⟩ : Fields))))

/-- What the kind of a value tells of it: all there is to it, or the sign alone if it is finite. -/
def told : BigFloat → BigFloat ⊕ Bool
  | .finite neg _ _ _ _ => .inr neg
  | x => .inl x

theorem ofKind_kind (x : BigFloat) : ofKind x.kind = .ok x.told := by
  obtain (_ | _) | (_ | _) | ⟨_ | _, _, _, _, _⟩ := x <;> rfl

theorem decodes_finite {neg : Bool} {m : Nat} {e : Int} {p : Nat} {mode : RoundingMode}
    (h : WellFormed (.finite neg m e p mode)) {x : Bytes}
    (hx : (frame (Frame.maskOf neg)).Decodes x (Radix.magnitude (aligned m p))) :
    decoder.Decodes (FixedWidth.encodeInt .w8 (kind (.finite neg m e p mode)) ++
      framedFields neg e x p mode) (.finite neg m e p mode) :=
  (FixedWidth.decodes_int (inRange_kind _)).bind (.ofOutcome_bind (ofKind_kind (.finite neg m e p mode))
    ((decodes_fields h hx).midway.check (build_fields h)))

theorem decodes {x : BigFloat} (h : x.WellFormed) {bs : Bytes} (hbs : x.append.encoding = .ok bs) :
    decoder.Decodes bs x := by
  obtain ⟨rest, hrest, rfl⟩ := encoding_append_eq_ok.1 hbs
  have hkind := FixedWidth.decodes_int (inRange_kind x)
  cases x with
  | zero neg =>
    cases hrest
    exact hkind.bind (.ofOutcome_bind (ofKind_kind (.zero neg)) (.pure _))
  | infinite neg =>
    cases hrest
    exact hkind.bind (.ofOutcome_bind (ofKind_kind (.infinite neg)) (.pure _))
  | finite neg m e p mode =>
    rw [h.encoding_tail] at hrest
    cases hrest
    exact decodes_finite h (decodes_frame _ _)

end BigFloat

namespace Leaf
variable {α : Type}

/-- The magnitudes of integers and of the parts of fractions have no more than `n` bytes. -/
def Within (n : Nat) : {α : Type} → Leaf α → α → Prop
  | _, .integer, v => BigInteger.size v ≤ n
  | _, .rational, q => BigInteger.size q.num ≤ n ∧ BigInteger.size q.den ≤ n
  | _, _, _ => True

instance (n : Nat) : {α : Type} → (l : Leaf α) → (v : α) → Decidable (l.Within n v)
  | _, .integer, v => Nat.decLe (BigInteger.size v) n
  | _, .rational, _ => inferInstanceAs (Decidable (_ ∧ _))
  | _, .bool, _ | _, .unsigned _, _ | _, .signed _, _ | _, .float _, _ | _, .bytes, _
  | _, .string, _ | _, .bigFloat, _ => .isTrue trivial

theorem boolOf_boolByte (b : Bool) : boolOf (boolByte b) = .ok b := by
  cases b <;> rfl

theorem stringOf_encode (s : String) : stringOf (Utf8.encode s) = .ok s := by
  rw [stringOf, Utf8.decode_encode]
  rfl

theorem get_append {limits : Limits} {l : Leaf α} {v : α} (he : l.Encodable v)
    (hl : l.Within limits.integerBytes v) {x : Bytes} (hx : (l.append v).encoding = .ok x)
    {rest : Bytes} (hrest : l.requiresTerminator = true → rest = []) :
    l.get limits (x ++ rest) = .ok (v, x.length) := by
  rw [← run_decoder]
  cases l with
  | bool =>
    cases hx
    exact (decodes_byte _).check (boolOf_boolByte v) rest
  | unsigned w =>
    cases hx
    exact FixedWidth.decodes w v rest
  | signed w =>
    cases hx
    have h := (FixedWidth.decodes w (FixedWidth.flip w v)).map (FixedWidth.flip w)
    rw [FixedWidth.flip_flip] at h
    exact h rest
  | float f =>
    cases hx
    have h := (FixedWidth.decodes f.width v.toOrdered).map Ieee.ofOrdered
    rw [Ieee.ofOrdered_toOrdered] at h
    exact h rest
  | bytes =>
    cases hx
    rw [hrest rfl, List.append_nil]
    rfl
  | string =>
    cases hx
    rw [hrest rfl, List.append_nil]
    simp [decoder, stringOf_encode]
  | integer =>
    obtain ⟨-, rfl⟩ := BigInteger.encoding_append_eq_ok.1 hx
    exact BigInteger.decodes he hl rest
  | rational =>
    obtain ⟨-, rfl⟩ := Rational.encoding_append_eq_ok.1 hx
    exact Rational.decodes he hl rest
  | bigFloat => exact BigFloat.decodes he hx rest

end Leaf
end SortKey
