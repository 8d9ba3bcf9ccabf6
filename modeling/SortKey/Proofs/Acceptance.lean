import SortKey.Proofs.FrameForms
import SortKey.Proofs.LeafRoundTrip
import SortKey.Proofs.Utf8Acceptance

/-! What decoders accept. A leaf accepts nothing but encodings, except that the frame around the mantissa of
a big float may hold escapes that it does not need. -/
namespace SortKey

open scoped List

namespace Decoder
variable {α β : Type}

/-- What is found stands at the front, and `P` holds of it and of the bytes that it takes up. -/
def Accepts (d : Decoder α) (P : α → Bytes → Prop) : Prop :=
  ∀ bs a n, d.run bs = .ok (a, n) → ∃ x rest, bs = x ++ rest ∧ x.length = n ∧ P a x

section
variable {d : Decoder α} {P Q : α → Bytes → Prop} {R : β → Bytes → Prop}

theorem Accepts.mono (h : d.Accepts P) (hPQ : ∀ a x, P a x → Q a x) : d.Accepts Q := by
  intro bs a n hrun
  obtain ⟨x, rest, hbs, hlen, hP⟩ := h bs a n hrun
  exact ⟨x, rest, hbs, hlen, hPQ a x hP⟩

theorem accepts_ofOutcome {r : Except Fault α} (h : ∀ a, r = .ok a → P a []) :
    (ofOutcome r).Accepts P := by
  intro bs a n hrun
  obtain ⟨b, hb, hab⟩ := Outcome.map_eq_ok.1 hrun
  cases hab
  exact ⟨[], bs, rfl, rfl, h _ hb⟩

theorem accepts_pure {a : α} (h : P a []) : (pure a : Decoder α).Accepts P := by
  intro bs b n hrun
  cases hrun
  exact ⟨[], bs, rfl, rfl, h⟩

theorem Accepts.bind {f : α → Decoder β} (hd : d.Accepts P)
    (hf : ∀ a x, P a x → (f a).Accepts fun b y => R b (x ++ y)) : (d >>= f).Accepts R := by
  intro bs b n hrun
  rw [run_bind, Outcome.bind_eq_ok] at hrun
  obtain ⟨⟨a, i⟩, ha, hrun⟩ := hrun
  obtain ⟨⟨c, j⟩, hb, hcb⟩ := Outcome.map_eq_ok.1 hrun
  cases hcb
  obtain ⟨x, rest, rfl, rfl, hP⟩ := hd bs a i ha
  rw [List.drop_left] at hb
  obtain ⟨y, rest, rfl, rfl, hR⟩ := hf a x hP rest c j hb
  exact ⟨x ++ y, rest, (List.append_assoc x y rest).symm, List.length_append, hR⟩

theorem Accepts.check {f : α → Except Fault β} (hd : d.Accepts P)
    (hf : ∀ a x b, P a x → f a = .ok b → R b x) : (d >>= fun a => ofOutcome (f a)).Accepts R :=
  hd.bind fun a x hP => accepts_ofOutcome fun b hb => by
    rw [List.append_nil]
    exact hf a x b hP hb

theorem accepts_ofOutcome_bind {r : Except Fault α} {f : α → Decoder β}
    (hf : ∀ a, r = .ok a → (f a).Accepts R) : (ofOutcome r >>= f).Accepts R :=
  (accepts_ofOutcome (P := fun a x => r = .ok a ∧ x = []) fun _ ha => ⟨ha, rfl⟩).bind
    fun a _ ⟨ha, hx⟩ => hx ▸ hf a ha

theorem Accepts.map {f : α → β} (hd : d.Accepts P) (hf : ∀ a x, P a x → R (f a) x) :
    (f <$> d).Accepts R :=
  hd.bind fun a x hP => accepts_pure (by
    rw [List.append_nil]
    exact hf a x hP)

theorem Accepts.midway (hd : d.Accepts P) : d.midway.Accepts P := by
  intro bs a n hrun
  rw [run_midway] at hrun
  cases h : d.run bs with
  | error e =>
    rw [h] at hrun
    cases hrun
  | ok p =>
    rw [h] at hrun
    cases hrun
    exact hd bs a n h

/-- What is accepted at all and is found wherever it stands is found exactly there. -/
theorem Accepts.run_eq_ok_iff (hd : d.Accepts P) {a : α} (hP : ∀ x, P a x → d.Decodes x a)
    {bs : Bytes} {n : Nat} : d.run bs = .ok (a, n) ↔ n ≤ bs.length ∧ P a (bs.take n) := by
  constructor
  · intro hrun
    obtain ⟨x, rest, rfl, rfl, hx⟩ := hd bs a n hrun
    rw [List.take_left, List.length_append]
    exact ⟨Nat.le_add_right _ _, hx⟩
  · rintro ⟨hn, hx⟩
    have hrun := hP _ hx (bs.drop n)
    rwa [List.take_append_drop, List.length_take_of_le hn] at hrun

end

theorem accepts_exactly (n : Nat) : (exactly n).Accepts fun a x => a = x ∧ x.length = n := by
  intro bs a m hrun
  obtain ⟨b, hb, hab⟩ := Outcome.map_eq_ok.1 hrun
  cases hab
  by_cases hn : n ≤ bs.length
  · rw [Slice.exactly_of_le hn] at hb
    cases hb
    have hlen : (bs.take n).length = n := List.length_take_of_le hn
    exact ⟨bs.take n, bs.drop n, (List.take_append_drop n bs).symm, hlen, rfl, hlen⟩
  · rw [Slice.exactly_of_lt (Nat.lt_of_not_le hn)] at hb
    cases hb

theorem accepts_byte : byte.Accepts fun b x => x = [b] := by
  intro bs b n hrun
  cases bs with
  | nil => cases hrun
  | cons c bs =>
    cases hrun
    exact ⟨[b], bs, rfl, rfl, rfl⟩

theorem accepts_remainder : remainder.Accepts fun a x => a = x := by
  intro bs a n hrun
  cases hrun
  exact ⟨bs, [], (List.append_nil bs).symm, rfl, rfl⟩

theorem accepts_frame (mask : UInt8) : (frame mask).Accepts fun raw x => Frame.Frames mask x raw :=
  fun _ _ _ hrun => Frame.frames_of_get hrun

end Decoder

open Decoder

namespace FixedWidth

theorem encode_ofBytes {w : Width} {bs : Bytes} (h : bs.length = w.bytes) :
    encode w (ofBytes w bs) = bs := by
  have hlt := Radix.ofBigEndian_lt bs
  rw [h, ← w.two_pow_bits] at hlt
  rw [encode, ofBytes, BitVec.toNat_ofNat, Nat.mod_eq_of_lt hlt, ← h, Radix.bigEndian_ofBigEndian]

theorem inRange_toInt {w : Width} (v : BitVec w.bits) : InRange w v.toInt := by
  have hlow := v.le_two_mul_toInt
  have hhigh := v.two_mul_toInt_lt
  have hb : ((2 ^ w.bits : Nat) : Int) = 256 ^ w.bytes := by rw [w.two_pow_bits, Nat.cast_pow]; rfl
  rw [InRange]
  push_cast at hb
  constructor <;> omega

theorem accepts_decoder (w : Width) : (decoder w).Accepts fun v x => encode w v = x :=
  (accepts_exactly w.bytes).map fun _ _ ⟨hx, hlen⟩ => by rw [hx, encode_ofBytes hlen]

theorem accepts_intDecoder (w : Width) :
    (intDecoder w).Accepts fun v x => InRange w v ∧ encodeInt w v = x :=
  (accepts_decoder w).map fun v _ hx =>
    ⟨inRange_toInt _, by rw [encodeInt, BitVec.ofInt_toInt, flip_flip, hx]⟩

end FixedWidth

namespace BigInteger
open Bytes

theorem build_eq_ok {negative : Bool} {field : Bytes} {v : Int} (h : build negative field = .ok v) :
    v = withSign negative v.natAbs ∧
      masked (Frame.maskOf negative) (Radix.magnitude v.natAbs) = field := by
  unfold build at h
  dsimp only at h
  split at h
  · cases h
  next hhead =>
  split at h
  · cases h
  · have hv := Except.ok.inj h
    have habs : v.natAbs = Radix.ofBigEndian (masked (Frame.maskOf negative) field) := by
      rw [← hv, natAbs_withSign]
    rw [habs, Radix.magnitude_ofBigEndian hhead, masked_masked]
    exact ⟨hv.symm, rfl⟩

theorem length_lt_of_build {negative : Bool} {field : Bytes} {v : Int}
    (h : build negative field = .ok v) : field.length < lengthBound := by
  unfold build at h
  dsimp only at h
  split at h
  · cases h
  split at h
  · cases h
  · next hlen => simpa using hlen

theorem eq_bytes {header v : Int} {field : Bytes} (hlen : field.length = header.natAbs)
    (h : build (header < 0) field = .ok v) :
    size v = field.length ∧ bytes v = FixedWidth.encodeInt .w64 header ++ field := by
  obtain ⟨hv, hfield⟩ := build_eq_ok h
  have hsize : size v = field.length := by rw [← hfield, length_masked, size]
  have hneg : v < 0 ↔ header < 0 := by
    constructor
    · intro hlt
      by_contra hheader
      simp only [withSign, hheader, decide_false, Bool.false_eq_true, if_false] at hv
      omega
    · intro hheader
      have hne : v ≠ 0 := by
        rintro rfl
        have hzero : size 0 = 0 := rfl
        omega
      simp only [withSign, hheader, decide_true, if_true] at hv
      omega
  have hheader : withSign (v < 0) (size v) = header := by
    rw [hsize, hlen, withSign]
    simp only [hneg, decide_eq_true_eq]
    split <;> omega
  refine ⟨hsize, ?_⟩
  rw [bytes, hheader]
  simp only [hneg, hfield]

theorem magnitudeSize_eq_ok {limits : Limits} {header : Int} {n : Nat}
    (h : magnitudeSize limits header = .ok n) : n = header.natAbs ∧ n ≤ limits.integerBytes := by
  unfold magnitudeSize at h
  split at h <;> cases h
  exact ⟨rfl, by assumption⟩

theorem accepts_decoder (limits : Limits) :
    (decoder limits).Accepts fun v x => size v ≤ limits.integerBytes ∧ bytes v = x := by
  refine (FixedWidth.accepts_intDecoder .w64).bind fun header x ⟨_, hx⟩ => ?_
  refine accepts_ofOutcome_bind fun n hn => ?_
  refine (accepts_exactly n).midway.check fun field y v ⟨hy, hlen⟩ hv => ?_
  obtain ⟨habs, hlimit⟩ := magnitudeSize_eq_ok hn
  subst hy
  obtain ⟨hsize, hbytes⟩ := eq_bytes (hlen.trans habs) hv
  exact ⟨by rwa [hsize, hlen], by rw [hbytes, hx]⟩

end BigInteger

namespace Rational

theorem build_eq_ok {num den : Int} {q : Rat} (h : build num den = .ok q) :
    q.num = num ∧ (q.den : Int) = den := by
  unfold build at h
  dsimp only at h
  split at h
  · cases h
  next hpos =>
  split at h
  · next hden =>
    have hne : den.toNat ≠ 0 := by omega
    have hself := Rat.mkRat_self (mkRat num den.toNat)
    rw [Rat.mkRat_eq_iff (Rat.den_nz _) hne] at hself
    have hden' : ((mkRat num den.toNat).den : Int) = den.toNat := by omega
    rw [hden'] at hself
    cases h
    exact ⟨Int.eq_of_mul_eq_mul_right (by omega) hself, hden⟩
  · cases h

theorem accepts_decoder (limits : Limits) :
    (decoder limits).Accepts fun q x =>
      (BigInteger.size q.num ≤ limits.integerBytes ∧ BigInteger.size q.den ≤ limits.integerBytes) ∧
        BigInteger.bytes q.num ++ BigInteger.bytes q.den = x := by
  refine (BigInteger.accepts_decoder limits).bind fun num x ⟨hnum, hx⟩ => ?_
  refine (BigInteger.accepts_decoder limits).midway.check fun den y q ⟨hden, hy⟩ hq => ?_
  obtain ⟨hqnum, hqden⟩ := build_eq_ok hq
  rw [hqnum, hqden, hx, hy]
  exact ⟨⟨hnum, hden⟩, rfl⟩

end Rational

namespace BigFloat
open BigInteger (withSign)

theorem unsigned_eq_ok {negative : Bool} {field v : Int} (h : unsigned negative field = .ok v) :
    field = withSign negative v ∧ (negative = true → field ≠ lowestField) := by
  unfold unsigned at h
  cases negative with
  | false =>
    cases h
    exact ⟨rfl, nofun⟩
  | true =>
    rw [if_pos rfl] at h
    split at h
    · cases h
    next hlow =>
    cases h
    exact ⟨(Int.neg_neg field).symm, fun _ => hlow⟩

theorem exponentFits_of_unsigned {negative : Bool} {field e : Int}
    (hf : FixedWidth.InRange .w32 field) (h : unsigned negative field = .ok e)
    (he : e ≠ lowestField) : exponentFits e = true := by
  obtain ⟨hfield, hlow⟩ := unsigned_eq_ok h
  have hb : (256 : Int) ^ Width.w32.bytes = -2 * lowestField := rfl
  rw [FixedWidth.InRange, hb] at hf
  have hl : lowestField = -2147483648 := rfl
  rw [exponentFits_iff]
  cases negative with
  | false =>
    simp only [withSign, Bool.false_eq_true, if_false] at hfield
    omega
  | true =>
    have := hlow rfl
    simp only [withSign, if_true] at hfield
    omega

theorem ofByte_eq_ok {b : UInt8} {mode : RoundingMode} (h : RoundingMode.ofByte b = .ok mode) :
    mode.byte = b := by
  unfold RoundingMode.ofByte at h
  split at h
  · next hmode =>
    cases h
    exact RoundingMode.byte_of_ofByte? hmode
  · cases h

theorem ofMantissa_eq_ok {negative : Bool} {m : Nat} {e : Int} {p : Nat} {mode : RoundingMode}
    {x : BigFloat} (h : ofMantissa negative m e p mode = .ok x) :
    x = .finite negative m e p mode ∧ 1 ≤ p ∧ p ≤ maxPrecision ∧ Radix.significantBits m ≤ p := by
  unfold ofMantissa at h
  split at h
  · cases h
  · split at h
    · cases h
    · cases h
      exact ⟨rfl, by omega, by omega, by omega⟩

theorem ofBigEndian_ne_zero {bs : Bytes} (hfull : 0x80 ≤ bs.headD 0) : Radix.ofBigEndian bs ≠ 0 := by
  intro hz
  have hbits := Radix.significantBits_ofBigEndian_of_full hfull
  rw [hz] at hbits
  obtain rfl : bs = [] := List.length_eq_zero_iff.1 (by simpa [Radix.significantBits] using hbits)
  exact absurd hfull (by decide)

theorem magnitude_aligned_oddPart {bs : Bytes} {p : Nat} (hlen : bs.length = Radix.bytesFor p)
    (hfull : 0x80 ≤ bs.headD 0) :
    Radix.magnitude (aligned (Radix.oddPart (Radix.ofBigEndian bs)) p) = bs := by
  have hbits := Radix.significantBits_ofBigEndian_of_full hfull
  obtain ⟨-, k, hk, hshift⟩ := Radix.exists_shiftLeft_oddPart (ofBigEndian_ne_zero hfull)
  have hk' : 8 * Radix.bytesFor p - Radix.significantBits (Radix.oddPart (Radix.ofBigEndian bs)) = k := by
    omega
  rw [aligned, hk', ← hk]
  apply Radix.magnitude_ofBigEndian
  cases bs with
  | nil => simp
  | cons b bs =>
    rintro ⟨⟩
    exact absurd hfull (show ¬(0x80 : UInt8) ≤ 0 by decide)

theorem checked_eq_ok {negative : Bool} {f : Fields} {m : Nat} {e : Int} {p : Nat} {mode : RoundingMode}
    (he : FixedWidth.InRange .w32 f.exponent) (h : f.checked negative = .ok (m, e, p, mode)) :
    (m % 2 = 1 ∧ exponentFits e = true) ∧
      f = ⟨withSign negative e, Radix.magnitude (aligned m p), withSign negative p, mode.byte⟩ := by
  obtain ⟨fexponent, fmantissa, fprecision, fmode⟩ := f
  unfold Fields.checked at h
  obtain ⟨e', hexponent, h⟩ := Outcome.bind_eq_ok.1 h
  dsimp only at h hexponent he
  split at h
  · cases h
  next hlow =>
  obtain ⟨p', hprecision, h⟩ := Outcome.bind_eq_ok.1 h
  split at h
  · cases h
  next hpos =>
  obtain ⟨mode', hmode, h⟩ := Outcome.bind_eq_ok.1 h
  split at h
  · cases h
  next hlen =>
  split at h
  · cases h
  next hfull =>
  cases h
  replace hfull := UInt8.not_lt.1 hfull
  have hodd := (Radix.exists_shiftLeft_oddPart (ofBigEndian_ne_zero hfull)).1
  have hdigits := magnitude_aligned_oddPart (Decidable.not_not.1 hlen) hfull
  have hp : (p'.toNat : Int) = p' := by omega
  refine ⟨⟨hodd, exponentFits_of_unsigned he hexponent hlow⟩, ?_⟩
  rw [hdigits, hp, ← (unsigned_eq_ok hexponent).1, ← (unsigned_eq_ok hprecision).1, ofByte_eq_ok hmode]

theorem build_eq_ok {negative : Bool} {f : Fields} {x : BigFloat}
    (he : FixedWidth.InRange .w32 f.exponent) (h : f.build negative = .ok x) :
    ∃ m e p mode, x = .finite negative m e p mode ∧ x.WellFormed ∧
      f = ⟨withSign negative e, Radix.magnitude (aligned m p), withSign negative p, mode.byte⟩ := by
  obtain ⟨⟨m, e, p, mode⟩, hchecked, h⟩ := Outcome.bind_eq_ok.1 h
  obtain ⟨⟨hodd, hfits⟩, hf⟩ := checked_eq_ok he hchecked
  dsimp only at h
  cases hm : ofMantissa negative m e p mode with
  | error refusal =>
    rw [hm] at h
    cases h
  | ok y =>
    rw [hm] at h
    cases h
    obtain ⟨rfl, -, hmax, hbits⟩ := ofMantissa_eq_ok hm
    exact ⟨m, e, p, mode, rfl, ⟨hodd, hbits, hmax, hfits⟩, hf⟩

theorem accepts_fieldsDecoder (negative : Bool) :
    (fieldsDecoder negative).Accepts fun f x => FixedWidth.InRange .w32 f.exponent ∧
      ∃ frame, Frame.Frames (Frame.maskOf negative) frame f.mantissa ∧
        x = FixedWidth.encodeInt .w32 f.exponent ++ (frame ++
          (FixedWidth.encodeInt .w32 f.precision ++ [f.mode])) := by
  refine (FixedWidth.accepts_intDecoder .w32).bind fun e x ⟨he, hx⟩ => ?_
  refine (accepts_frame _).bind fun field y hy => ?_
  refine (FixedWidth.accepts_intDecoder .w32).bind fun p z ⟨_, hz⟩ => ?_
  refine accepts_byte.map fun mode u hu => ⟨he, y, hy, ?_⟩
  rw [← hx, ← hz, hu]

theorem ofKind_eq_ok {k : Int} {found : BigFloat ⊕ Bool} (h : ofKind k = .ok found) :
    (∃ x : BigFloat, found = .inl x ∧ x.WellFormed ∧ x.kind = k ∧ x.told = .inl x) ∨
      ∃ negative, found = .inr negative ∧ ∀ m e p mode, kind (.finite negative m e p mode) = k := by
  unfold ofKind at h
  split at h <;> cases h <;> simp [kind, told, WellFormed]

/-- The byte strings that a value is found in: its kind alone if that tells all, or its kind and its fields,
with the mantissa in any frame. -/
inductive Forms : BigFloat → Bytes → Prop where
  | kindOnly {v : BigFloat} (h : v.told = .inl v) : Forms v (FixedWidth.encodeInt .w8 v.kind)
  | finite {neg : Bool} {m : Nat} {e : Int} {p : Nat} {mode : RoundingMode} {frame : Bytes}
      (h : WellFormed (.finite neg m e p mode))
      (hframe : Frame.Frames (Frame.maskOf neg) frame (Radix.magnitude (aligned m p))) :
      Forms (.finite neg m e p mode) (FixedWidth.encodeInt .w8 (kind (.finite neg m e p mode)) ++
        framedFields neg e frame p mode)

theorem Forms.wellFormed {v : BigFloat} {x : Bytes} (h : Forms v x) : v.WellFormed := by
  cases h with
  | kindOnly h =>
    cases v with
    | finite => cases h
    | _ => trivial
  | finite hwf _ => exact hwf

theorem accepts_forms : decoder.Accepts Forms := by
  refine (FixedWidth.accepts_intDecoder .w8).bind fun k x ⟨_, hx⟩ => ?_
  refine accepts_ofOutcome_bind fun found hfound => ?_
  obtain ⟨v, rfl, -, hk, ht⟩ | ⟨negative, rfl, hk⟩ := ofKind_eq_ok hfound
  · apply accepts_pure
    rw [List.append_nil, ← hx, ← hk]
    exact .kindOnly ht
  · refine (accepts_fieldsDecoder negative).midway.check fun f y v ⟨he, frame, hframe, hy⟩ hv => ?_
    obtain ⟨m, e, p, mode, rfl, hwf, rfl⟩ := build_eq_ok he hv
    rw [hy, ← hx, ← hk m e p mode]
    exact .finite hwf hframe

theorem encoding_append_finite {neg : Bool} {m : Nat} {e : Int} {p : Nat} {mode : RoundingMode}
    (h : WellFormed (.finite neg m e p mode)) :
    (append (.finite neg m e p mode)).encoding =
      .ok (FixedWidth.encodeInt .w8 (kind (.finite neg m e p mode)) ++ framedFields neg e
        (Frame.encode (Frame.maskOf neg) (Radix.magnitude (aligned m p))) p mode) := by
  rw [encoding_append, h.encoding_tail]
  rfl

theorem Forms.encoding_sublist {v : BigFloat} {x : Bytes} (h : Forms v x) :
    ∃ y, v.append.encoding = .ok y ∧ y <+ x := by
  cases h with
  | kindOnly ht =>
    have htail : v.tail.encoding = .ok [] := by
      cases v with
      | finite => cases ht
      | _ => rfl
    refine ⟨_, encoding_append_eq_ok.2 ⟨[], htail, rfl⟩, ?_⟩
    simp
  | finite hwf hframe =>
    refine ⟨_, encoding_append_finite hwf, ?_⟩
    simp [framedFields, hframe.encode_sublist]

theorem accepts_decoder :
    decoder.Accepts fun v x => v.WellFormed ∧ ∃ y, v.append.encoding = .ok y ∧ y <+ x :=
  accepts_forms.mono fun _ _ h => ⟨h.wellFormed, h.encoding_sublist⟩

end BigFloat

namespace Leaf
variable {α : Type}

/-- No part of the encoding stands in a frame. -/
def Unframed : {α : Type} → Leaf α → Prop
  | _, .bigFloat => False
  | _, _ => True

theorem boolOf_eq_ok {b : UInt8} {v : Bool} (h : boolOf b = .ok v) : boolByte v = b := by
  unfold boolOf at h
  split at h
  · next hb =>
    cases h
    exact hb.symm
  · split at h
    · next hb =>
      cases h
      exact hb.symm
    · cases h

theorem stringOf_eq_ok {bs : Bytes} {s : String} (h : stringOf bs = .ok s) : Utf8.encode s = bs := by
  unfold stringOf at h
  cases hs : Utf8.decode bs with
  | error e =>
    rw [hs] at h
    cases h
  | ok t =>
    rw [hs] at h
    cases h
    exact Utf8.encode_of_decode hs

/-- Nothing but an encoding is accepted, up to the frame in a big float. -/
theorem accepts_decoder (limits : Limits) (l : Leaf α) :
    (l.decoder limits).Accepts fun v x => x.length < Bytes.lengthBound →
      ∃ y, (l.append v).encoding = .ok y ∧ y <+ x ∧ (l.Unframed → y = x) := by
  have hexact {v : α} {x : Bytes} (h : (l.append v).encoding = .ok x) :
      ∃ y, (l.append v).encoding = .ok y ∧ y <+ x ∧ (l.Unframed → y = x) :=
    ⟨x, h, .refl x, fun _ => rfl⟩
  cases l with
  | bool =>
    refine accepts_byte.check fun b x v hx hv hlen => hexact ?_
    rw [hx, ← boolOf_eq_ok hv]
    rfl
  | unsigned w =>
    exact (FixedWidth.accepts_decoder w).mono fun v x hx _ => hexact (by rw [← hx]; rfl)
  | signed w =>
    refine (FixedWidth.accepts_decoder w).map fun v x hx _ => hexact ?_
    rw [append, FixedWidth.flip_flip, hx]
    rfl
  | float f =>
    refine (FixedWidth.accepts_decoder f.width).map fun v x hx _ => hexact ?_
    rw [append, Ieee.toOrdered_ofOrdered, hx]
    rfl
  | bytes => exact accepts_remainder.mono fun v x hx _ => hexact (by rw [← hx]; rfl)
  | string =>
    refine accepts_remainder.check fun bs x v hx hv _ => hexact ?_
    rw [← hx, ← stringOf_eq_ok hv]
    rfl
  | integer =>
    refine (BigInteger.accepts_decoder limits).mono fun v x ⟨_, hx⟩ hlen => hexact ?_
    rw [← hx, BigInteger.length_bytes] at hlen
    exact BigInteger.encoding_append_eq_ok.2 ⟨by omega, hx.symm⟩
  | rational =>
    refine (Rational.accepts_decoder limits).mono fun q x ⟨_, hx⟩ hlen => hexact ?_
    rw [← hx, List.length_append, BigInteger.length_bytes, BigInteger.length_bytes] at hlen
    exact Rational.encoding_append_eq_ok.2 ⟨⟨by omega, by omega⟩, hx.symm⟩
  | bigFloat =>
    refine BigFloat.accepts_decoder.mono fun v x ⟨_, y, hy, hsub⟩ _ => ?_
    exact ⟨y, hy, hsub, False.elim⟩

end Leaf
end SortKey
