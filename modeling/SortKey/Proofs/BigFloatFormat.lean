import SortKey.Codec.Write
import SortKey.Proofs.BigFloatNumber
import SortKey.Proofs.DecoderFaults
import SortKey.Proofs.DecoderStart
import SortKey.Proofs.NeedlessEscapes

/-! The format of big floats. A big float is found at the front exactly where a first byte that tells all or
the fields of a finite value stand, which keep to one another; what is found is the number in the fields,
and whatever else stands there is reported by one of six kinds of faults. -/
namespace SortKey

open Decoder

namespace BigFloat
open Radix (bytesFor fraction magnitude oddPart ofBigEndian significantBits)

/-- What can be wrong with a byte string that is to hold a big float. -/
inductive FormatFault : Fault → Prop where
  | endOfInput : FormatFault .endOfInput
  | truncated : FormatFault .truncated
  | unterminated : FormatFault .unterminated
  | unknownKind (kind : Int) : FormatFault (.unknownKind kind)
  | unknownRounding (byte : UInt8) : FormatFault (.unknownRounding byte)
  | malformed (cause : Malformation) : FormatFault (.malformed cause)

theorem failsWith_fieldsDecoder (neg : Bool) : (fieldsDecoder neg).FailsWith FormatFault :=
  (FixedWidth.failsWith_intDecoder .w32 .endOfInput .truncated).bind fun _ =>
    (failsWith_frame _ .endOfInput .unterminated).bind fun _ =>
      (FixedWidth.failsWith_intDecoder .w32 .endOfInput .truncated).bind fun _ =>
        (failsWith_byte .endOfInput).map _

theorem failsWith_decoder : decoder.FailsWith FormatFault := by
  refine (FixedWidth.failsWith_intDecoder .w8 .endOfInput .truncated).bind fun kind => ?_
  refine (failsWith_ofOutcome fun e he => ?_).bind fun found => ?_
  · unfold ofKind at he
    split at he <;> cases he
    exact .unknownKind _
  · cases found with
    | inl x => exact failsWith_pure x
    | inr neg =>
      refine ((failsWith_fieldsDecoder neg).midway .truncated).bind fun fields => ?_
      apply failsWith_ofOutcome
      intro e he
      obtain ⟨cause, rfl, -⟩ | rfl := build_eq_error he
      · exact .malformed cause
      · exact .unknownRounding fields.mode

theorem Forms.decodes {v : BigFloat} {x : Bytes} (h : Forms v x) : decoder.Decodes x v := by
  cases h with
  | kindOnly h =>
    cases v with
    | zero neg => exact BigFloat.decodes (x := .zero neg) trivial rfl
    | infinite neg => exact BigFloat.decodes (x := .infinite neg) trivial rfl
    | finite => cases h
  | finite hwf hframe => exact decodes_finite hwf hframe.get_append

theorem get_eq_ok_iff {bs : Bytes} {v : BigFloat} {n : Nat} :
    get bs = .ok (v, n) ↔ ∃ x, Forms v x ∧ x <+: bs ∧ n = x.length := by
  rw [← run_decoder, accepts_forms.run_eq_ok_iff fun _ h => h.decodes]
  constructor
  · rintro ⟨hn, hx⟩
    exact ⟨_, hx, List.take_prefix n bs, (List.length_take_of_le hn).symm⟩
  · rintro ⟨x, hx, hbs, rfl⟩
    rw [← List.prefix_iff_eq_take.1 hbs]
    exact ⟨hbs.length_le, hx⟩

def firstByte : BigFloat → UInt8
  | .infinite true => 0x7d
  | .finite true .. => 0x7e
  | .zero true => 0x7f
  | .zero false => 0x80
  | .finite false .. => 0x81
  | .infinite false => 0x82

theorem encodeInt_kind (x : BigFloat) : FixedWidth.encodeInt .w8 x.kind = [x.firstByte] := by
  obtain (_ | _) | (_ | _) | ⟨_ | _, _, _, _, _⟩ := x
  all_goals
    simp only [kind, firstByte]
    rfl

/-- The fields of a finite value, as the format wants them: both numbers fit 32 bits in either sign, and
the mantissa, found in a frame, has the bytes that the precision needs, its first bit set, and no bit set
beyond the precision. -/
structure Layout where
  negative : Bool
  exponent : Int
  digits : Bytes
  frame : Bytes
  precision : Nat
  mode : RoundingMode
  exponentFits : BigFloat.exponentFits exponent = true
  framed : Frame.Frames (Frame.maskOf negative) frame digits
  precision_pos : 1 ≤ precision
  precision_le : precision ≤ maxPrecision
  length_digits : digits.length = bytesFor precision
  topBit : 0x80 ≤ digits.headD 0
  spareBits : 2 ^ (8 * bytesFor precision - precision) ∣ ofBigEndian digits

namespace Layout

def value (l : Layout) : BigFloat :=
  .finite l.negative (oddPart (ofBigEndian l.digits)) l.exponent l.precision l.mode

def bytes (l : Layout) : Bytes :=
  l.value.firstByte :: framedFields l.negative l.exponent l.frame l.precision l.mode

theorem wellFormed_value (l : Layout) : l.value.WellFormed := by
  have hne := ofBigEndian_ne_zero l.topBit
  have hodd := (Radix.exists_shiftLeft_oddPart hne).1
  have hbits := Radix.significantBits_oddPart_add_le hne l.spareBits
  have hle : l.precision ≤ 8 * bytesFor l.precision := by
    rw [bytesFor]
    omega
  rw [Radix.significantBits_ofBigEndian_of_full l.topBit, l.length_digits] at hbits
  exact ⟨hodd, by omega, l.precision_le, l.exponentFits⟩

theorem magnitude_aligned (l : Layout) :
    magnitude (aligned (oddPart (ofBigEndian l.digits)) l.precision) = l.digits :=
  magnitude_aligned_oddPart l.length_digits l.topBit

theorem forms (l : Layout) : Forms l.value l.bytes := by
  have h := Forms.finite l.wellFormed_value (l.magnitude_aligned ▸ l.framed)
  rwa [encodeInt_kind] at h

theorem exists_of_frames {neg : Bool} {m : Nat} {e : Int} {p : Nat} {mode : RoundingMode} {frame : Bytes}
    (h : WellFormed (.finite neg m e p mode))
    (hframe : Frame.Frames (Frame.maskOf neg) frame (magnitude (aligned m p))) :
    ∃ l : Layout, l.value = .finite neg m e p mode ∧
      l.bytes = l.value.firstByte :: framedFields neg e frame p mode := by
  have hm := h.mantissa_ne_zero
  have htop := h.topBit_field
  obtain ⟨hodd, hbits, hmax, he⟩ := h
  have hpos := Radix.significantBits_pos hm
  have hdvd : 2 ^ (8 * bytesFor p - p) ∣ aligned m p := by
    rw [aligned, Nat.shiftLeft_eq]
    exact Dvd.dvd.mul_left (Nat.pow_dvd_pow 2 (by omega)) m
  let l : Layout :=
    { negative := neg, exponent := e, digits := magnitude (aligned m p), frame := frame, precision := p,
      mode := mode, exponentFits := he, framed := hframe, precision_pos := by omega
      precision_le := hmax
      length_digits := length_magnitude_aligned hm hbits
      topBit := htop
      spareBits := by rwa [Radix.ofBigEndian_magnitude] }
  refine ⟨l, ?_, rfl⟩
  simp only [value, l, Radix.ofBigEndian_magnitude, aligned, Radix.oddPart_shiftLeft hodd]

theorem number?_value (l : Layout) :
    l.value.number? = some ((if l.negative then -1 else 1) * (fraction l.digits * 2 ^ l.exponent)) := by
  have hwf := l.wellFormed_value
  rw [value, number?_finite, ← fraction_field hwf.mantissa_ne_zero hwf.2.1, l.magnitude_aligned]

theorem encode_value_iff (l : Layout) :
    l.value.append.encoding = .ok l.bytes ↔ Frame.needless (Frame.maskOf l.negative) l.frame = 0 := by
  rw [value, encoding_append_finite l.wellFormed_value, encodeInt_kind, l.magnitude_aligned,
    ← l.framed.encode_eq_iff]
  simp [bytes, value, framedFields]

end Layout

theorem forms_iff {v : BigFloat} {x : Bytes} :
    Forms v x ↔ ((∃ neg, v = .zero neg ∨ v = .infinite neg) ∧ x = [v.firstByte]) ∨
      ∃ l : Layout, v = l.value ∧ x = l.bytes := by
  constructor
  · intro h
    cases h with
    | kindOnly h =>
      left
      refine ⟨?_, encodeInt_kind v⟩
      cases v with
      | finite => cases h
      | _ => simp
    | finite hwf hframe =>
      obtain ⟨l, hvalue, hbytes⟩ := Layout.exists_of_frames hwf hframe
      right
      refine ⟨l, hvalue.symm, ?_⟩
      rw [hbytes, hvalue, encodeInt_kind]
      rfl
  · rintro (⟨⟨neg, rfl | rfl⟩, rfl⟩ | ⟨l, rfl, rfl⟩)
    · exact encodeInt_kind (.zero neg) ▸ .kindOnly rfl
    · exact encodeInt_kind (.infinite neg) ▸ .kindOnly rfl
    · exact l.forms

/-- A big float is found exactly where its first byte tells all or a layout of it stands. What is found
is the number in the layout, and its encoding is what stands there unless the frame has an escape that
it does not need. Everything else is reported by a fault of the format. -/
theorem format_exact (limits : Limits) :
    (∀ bs v n, (Codec.leaf .bigFloat).get limits bs = .ok (v, n) ↔
      ((∃ neg, v = .zero neg ∨ v = .infinite neg) ∧ bs.head? = some v.firstByte ∧ n = 1) ∨
        ∃ l : Layout, v = l.value ∧ l.bytes <+: bs ∧ n = l.bytes.length) ∧
    (∀ l : Layout, (l.value.negative = l.negative ∧ l.value.precision = l.precision ∧
        l.value.mode = l.mode) ∧
      l.value.number? = some ((if l.negative then -1 else 1) * (fraction l.digits * 2 ^ l.exponent)) ∧
      ((Codec.leaf .bigFloat).encode l.value = .ok l.bytes ↔
        Frame.needless (Frame.maskOf l.negative) l.frame = 0)) ∧
    (∀ v : BigFloat, (∃ neg, v = .zero neg ∨ v = .infinite neg) →
      (Codec.leaf .bigFloat).encode v = .ok [v.firstByte]) ∧
    ∀ bs e, (Codec.leaf .bigFloat).get limits bs = .error e → FormatFault e := by
  refine ⟨fun bs v n => ?_, fun l => ⟨⟨rfl, rfl, rfl⟩, l.number?_value, l.encode_value_iff⟩, ?_, ?_⟩
  · change get bs = .ok (v, n) ↔ _
    simp only [get_eq_ok_iff, forms_iff]
    constructor
    · rintro ⟨x, ⟨hv, rfl⟩ | ⟨l, hv, rfl⟩, ⟨rest, rfl⟩, rfl⟩
      · left
        exact ⟨hv, rfl, rfl⟩
      · right
        exact ⟨l, hv, List.prefix_append _ _, rfl⟩
    · rintro (⟨hv, hhead, rfl⟩ | ⟨l, rfl, hbs, rfl⟩)
      · obtain ⟨rest, rfl⟩ := List.head?_eq_some_iff.1 hhead
        exact ⟨_, .inl ⟨hv, rfl⟩, ⟨rest, rfl⟩, rfl⟩
      · exact ⟨_, .inr ⟨l, rfl, rfl⟩, hbs, rfl⟩
  · rintro v ⟨neg, rfl | rfl⟩
    · rw [← encodeInt_kind]
      rfl
    · rw [← encodeInt_kind]
      rfl
  · intro bs e he
    apply failsWith_decoder bs e
    rw [run_decoder]
    exact he

/-- Minus one in eight bits, its only mantissa byte behind an escape; what follows it is left alone. There
is no kind with the first byte `0x83`. -/
theorem format_exact_needless_escape :
    let bs : Bytes :=
      [0x7e, 0x7f, 0xff, 0xff, 0xff, 0xfe, 0x7f, 0xff, 0x7f, 0xff, 0xff, 0xf8, 0x02, 0x09]
    let v : BigFloat := .finite true 1 1 8 .toZero
    (Codec.leaf .bigFloat).get {} bs = .ok (v, 13) ∧
      (Codec.leaf .bigFloat).encode v ≠ .ok (bs.take 13) ∧ v.number? = some (-1) ∧
      (Codec.leaf .bigFloat).get {} [0x83] = .error (.unknownKind 3) ∧ FormatFault (.unknownKind 3) := by
  intro bs v
  have hdigits : Frame.Frames Frame.complement [0xfe, 0x7f, 0xff] [0x80] :=
    .escaped (by decide) 0x7f (.closed (by decide))
  let l : Layout :=
    { negative := true, exponent := 1, digits := [0x80], frame := [0xfe, 0x7f, 0xff], precision := 8,
      mode := .toZero, exponentFits := rfl, framed := hdigits, precision_pos := by decide
      precision_le := by decide
      length_digits := rfl
      topBit := by decide
      spareBits := by decide }
  have hodd : oddPart (ofBigEndian [0x80]) = 1 := by rfl
  have hvalue : l.value = v := by rw [Layout.value, hodd]
  have hfields : bs.take 13 = 0x7e :: framedFields true 1 [0xfe, 0x7f, 0xff] 8 .toZero := by
    rfl
  have hbytes : l.bytes = bs.take 13 := hfields.symm
  have hneedless : Frame.needless (Frame.maskOf true) [0xfe, 0x7f, 0xff] ≠ 0 := by decide
  have herror : (Codec.leaf .bigFloat).get {} [0x83] = .error (.unknownKind 3) := by rfl
  obtain ⟨hget, hlayout, -, hfault⟩ := format_exact {}
  obtain ⟨-, hnumber, hencode⟩ := hlayout l
  refine ⟨(hget bs v 13).2 (.inr ⟨l, hvalue.symm, ?_, ?_⟩), ?_, ?_, herror, hfault _ _ herror⟩
  · rw [hbytes]
    exact List.take_prefix 13 bs
  · rw [hbytes]
    rfl
  · rw [← hvalue, ← hbytes]
    exact mt hencode.1 hneedless
  · rw [← hvalue, hnumber]
    simp [l, fraction, Radix.ofBigEndian]
    norm_num

end BigFloat
end SortKey
