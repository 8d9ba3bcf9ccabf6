import SortKey.Proofs.Decoder
import SortKey.Proofs.FrameForms

/-! The first byte of a value. Unless a built-in codec takes whatever there is, it reports that the input
ended before a value on the empty input and on no other, and takes up at least one byte; if it takes
whatever there is, it never reports that. -/
namespace SortKey

namespace Outcome
variable {α : Type}

/-- The outcome of a check on what was found: what it refuses is neither the end of the input nor an
element that takes up nothing. -/
def IsVerdict (o : Except Fault α) : Prop :=
  ∀ e, o = .error e → e ≠ .endOfInput ∧ e ≠ .malformed .emptyElement

theorem isVerdict_ok (a : α) : IsVerdict (.ok a) := nofun

theorem isVerdict_error {e : Fault} (h : e ≠ .endOfInput) (h' : e ≠ .malformed .emptyElement) :
    IsVerdict (.error e : Except Fault α) :=
  fun _ he => Except.error.inj he ▸ ⟨h, h'⟩

theorem IsVerdict.ne_endOfInput {o : Except Fault α} (h : IsVerdict o) : o ≠ .error .endOfInput :=
  fun ho => (h _ ho).1 rfl

end Outcome

open Outcome (IsVerdict isVerdict_ok isVerdict_error)

theorem Slice.isVerdict_filled {α : Type} (length : Nat) (v : α) (n : Nat) :
    IsVerdict (filled length v n) := by
  unfold filled
  split
  · exact isVerdict_ok v
  · exact isVerdict_error nofun nofun

namespace Decoder
variable {α β : Type}

/-- The value has a first byte, and it is missed only where there is none at all. -/
structure Starts (d : Decoder α) : Prop where
  nil : d.run [] = .error .endOfInput
  cons {bs : Bytes} (h : bs ≠ []) : d.run bs ≠ .error .endOfInput
  pos {bs : Bytes} {a : α} {n : Nat} (h : d.run bs = .ok (a, n)) : 0 < n

/-- The end of the input is never taken for the end before a value. -/
def Underway (d : Decoder α) : Prop := ∀ bs, d.run bs ≠ .error .endOfInput

theorem underway_pure (a : α) : (pure a : Decoder α).Underway := fun _ => nofun

theorem underway_midway (d : Decoder α) : d.midway.Underway := by
  intro bs h
  rw [run_midway] at h
  cases hd : d.run bs with
  | error e =>
    rw [hd, Slice.midway_error, Except.error.injEq] at h
    exact e.midway_ne_endOfInput h
  | ok p =>
    rw [hd] at h
    cases h

theorem underway_ofOutcome {r : Except Fault α} (h : r ≠ .error .endOfInput) :
    (ofOutcome r).Underway := by
  intro bs
  rw [run_ofOutcome]
  cases r with
  | error e => exact fun he => h (congrArg Except.error (Except.error.inj he))
  | ok a => exact nofun

theorem Underway.bind {d : Decoder α} {f : α → Decoder β} (hd : d.Underway)
    (hf : ∀ a, (f a).Underway) : (d >>= f).Underway := by
  intro bs h
  rw [run_bind, Outcome.bind_eq_error] at h
  obtain h | ⟨p, -, h⟩ := h
  · exact hd bs h
  · exact hf p.1 _ (Outcome.map_eq_error.1 h)

theorem Starts.bind {d : Decoder α} {f : α → Decoder β} (hd : d.Starts)
    (hf : ∀ a, (f a).Underway) : (d >>= f).Starts where
  nil := by
    rw [run_bind, hd.nil]
    rfl
  cons := by
    intro bs hbs h
    rw [run_bind, Outcome.bind_eq_error] at h
    obtain h | ⟨p, -, h⟩ := h
    · exact hd.cons hbs h
    · exact hf p.1 _ (Outcome.map_eq_error.1 h)
  pos := by
    intro bs b n h
    rw [run_bind, Outcome.bind_eq_ok] at h
    obtain ⟨p, hp, h⟩ := h
    obtain ⟨q, -, hq⟩ := Outcome.map_eq_ok.1 h
    have hpos := hd.pos hp
    rw [Prod.mk.injEq] at hq
    omega

theorem Starts.map {d : Decoder α} (hd : d.Starts) (f : α → β) : (f <$> d).Starts :=
  hd.bind fun a => underway_pure (f a)

theorem starts_exactly {n : Nat} (hn : 0 < n) : (exactly n).Starts where
  nil := by
    rw [run_exactly, Slice.exactly_of_lt hn]
    rfl
  cons := by
    intro bs hbs h
    rw [run_exactly] at h
    by_cases hlen : n ≤ bs.length
    · rw [Slice.exactly_of_le hlen] at h
      cases h
    · rw [Slice.exactly_of_lt (Nat.lt_of_not_le hlen), if_neg (by simpa using hbs)] at h
      cases h
  pos := by
    intro bs a m h
    obtain ⟨x, -, hx⟩ := Outcome.map_eq_ok.1 h
    rw [Prod.mk.injEq] at hx
    omega

theorem starts_byte : byte.Starts where
  nil := rfl
  cons := by
    intro bs hbs h
    cases bs with
    | nil => exact hbs rfl
    | cons b bs => cases h
  pos := by
    intro bs a n h
    obtain ⟨b, -, hb⟩ := Outcome.map_eq_ok.1 h
    rw [Prod.mk.injEq] at hb
    omega

theorem underway_remainder : remainder.Underway := fun _ => nofun

theorem underway_elements {d : Decoder α} (hd : d.Starts) :
    (⟨Codec.elements d.run⟩ : Decoder (List α)).Underway := by
  intro bs
  -- an element is looked for only where there is a byte
  induction hlen : bs.length using Nat.strong_induction_on generalizing bs with
  | _ n ih =>
  subst hlen
  change Codec.elements d.run bs ≠ .error .endOfInput
  by_cases hbs : bs = []
  · rw [hbs, Codec.elements_nil]
    exact nofun
  cases hrun : d.run bs with
  | error e =>
    have he : e ≠ .endOfInput := fun he => hd.cons hbs (he ▸ hrun)
    rw [Codec.elements_of_error hbs hrun]
    exact fun h => he (Except.error.inj h)
  | ok p =>
    have hpos := hd.pos hrun
    have hlt : (bs.drop p.2).length < bs.length := by
      have := List.length_pos_of_ne_nil hbs
      rw [List.length_drop]
      omega
    rw [Codec.elements_of_ok hbs hpos hrun]
    exact fun h => ih _ hlt _ rfl (Outcome.map_eq_error.1 h)

theorem starts_frame (mask : UInt8) : (frame mask).Starts where
  nil := rfl
  cons := by
    intro bs hbs h
    rw [run_frame, Frame.get, if_neg (by simpa using hbs)] at h
    split at h <;> cases h
  pos := by
    intro bs raw n h
    -- even an empty frame has its terminator
    obtain ⟨x, _, -, rfl, hx⟩ := Frame.frames_of_get h
    exact List.length_pos_of_ne_nil hx.ne_nil

end Decoder

open Decoder

theorem FixedWidth.starts_decoder (w : Width) : (decoder w).Starts :=
  (starts_exactly w.bytes_pos).map _

theorem FixedWidth.starts_intDecoder (w : Width) : (intDecoder w).Starts :=
  (starts_decoder w).map _

namespace BigInteger

theorem isVerdict_magnitudeSize (limits : Limits) (header : Int) :
    IsVerdict (magnitudeSize limits header) := by
  unfold magnitudeSize
  split
  · exact isVerdict_ok _
  · exact isVerdict_error nofun nofun

theorem isVerdict_build (neg : Bool) (field : Bytes) : IsVerdict (build neg field) := by
  unfold build
  dsimp only
  split
  · exact isVerdict_error nofun nofun
  split
  · exact isVerdict_error nofun nofun
  · exact isVerdict_ok _

theorem starts_decoder (limits : Limits) : (decoder limits).Starts :=
  (FixedWidth.starts_intDecoder .w64).bind fun header =>
    (underway_ofOutcome (isVerdict_magnitudeSize limits header).ne_endOfInput).bind fun _ =>
      (underway_midway _).bind fun field => underway_ofOutcome (isVerdict_build _ field).ne_endOfInput

end BigInteger

namespace Rational

theorem isVerdict_build (num den : Int) : IsVerdict (build num den) := by
  unfold build
  dsimp only
  split
  · exact isVerdict_error nofun nofun
  split
  · exact isVerdict_ok _
  · exact isVerdict_error nofun nofun

theorem starts_decoder (limits : Limits) : (decoder limits).Starts :=
  (BigInteger.starts_decoder limits).bind fun num => (underway_midway _).bind fun den =>
    underway_ofOutcome (isVerdict_build num den).ne_endOfInput

end Rational

namespace BigFloat

theorem unsigned_eq_error {neg : Bool} {v : Int} {e : Fault} (h : unsigned neg v = .error e) :
    e = .malformed (.field v) := by
  unfold unsigned at h
  split at h
  · split at h
    · exact (Except.error.inj h).symm
    · cases h
  · cases h

theorem ofByte_eq_error {b : UInt8} {e : Fault} (h : RoundingMode.ofByte b = .error e) :
    e = .unknownRounding b := by
  unfold RoundingMode.ofByte at h
  split at h
  · cases h
  · exact (Except.error.inj h).symm

theorem checked_eq_error {neg : Bool} {f : Fields} {e : Fault} (h : f.checked neg = .error e) :
    (∃ cause, e = .malformed cause ∧ cause ≠ .emptyElement) ∨ e = .unknownRounding f.mode := by
  unfold Fields.checked at h
  obtain h | ⟨exponent, -, h⟩ := Outcome.bind_eq_error.1 h
  · exact .inl ⟨_, unsigned_eq_error h, nofun⟩
  dsimp only at h
  split at h
  · exact .inl ⟨_, (Except.error.inj h).symm, nofun⟩
  obtain h | ⟨precision, -, h⟩ := Outcome.bind_eq_error.1 h
  · exact .inl ⟨_, unsigned_eq_error h, nofun⟩
  split at h
  · exact .inl ⟨_, (Except.error.inj h).symm, nofun⟩
  obtain h | ⟨mode, -, h⟩ := Outcome.bind_eq_error.1 h
  · exact .inr (ofByte_eq_error h)
  split at h
  · exact .inl ⟨_, (Except.error.inj h).symm, nofun⟩
  split at h
  · exact .inl ⟨_, (Except.error.inj h).symm, nofun⟩
  cases h

theorem build_eq_error {neg : Bool} {f : Fields} {e : Fault} (h : f.build neg = .error e) :
    (∃ cause, e = .malformed cause ∧ cause ≠ .emptyElement) ∨ e = .unknownRounding f.mode := by
  obtain h | ⟨⟨mantissa, exponent, precision, mode⟩, -, h⟩ := Outcome.bind_eq_error.1 h
  · exact checked_eq_error h
  dsimp only at h
  cases hm : ofMantissa neg mantissa exponent precision mode with
  | error refusal =>
    rw [hm] at h
    exact .inl ⟨_, (Except.error.inj h).symm, nofun⟩
  | ok x =>
    rw [hm] at h
    cases h

theorem isVerdict_build (neg : Bool) (f : Fields) : IsVerdict (f.build neg) := by
  intro e he
  obtain ⟨cause, rfl, hcause⟩ | rfl := build_eq_error he
  · exact ⟨nofun, fun h => hcause (Fault.malformed.inj h)⟩
  · exact ⟨nofun, nofun⟩

theorem isVerdict_ofKind (kind : Int) : IsVerdict (ofKind kind) := by
  unfold ofKind
  split
  case h_7 => exact isVerdict_error nofun nofun
  all_goals exact isVerdict_ok _

theorem starts_decoder : decoder.Starts := by
  refine (FixedWidth.starts_intDecoder .w8).bind fun kind =>
    (underway_ofOutcome (isVerdict_ofKind kind).ne_endOfInput).bind fun found => ?_
  cases found with
  | inl x => exact underway_pure x
  | inr neg =>
    exact (underway_midway _).bind fun fields =>
      underway_ofOutcome (isVerdict_build neg fields).ne_endOfInput

end BigFloat

namespace Leaf
variable {α : Type}

theorem isVerdict_boolOf (b : UInt8) : IsVerdict (boolOf b) := by
  unfold boolOf
  split
  · exact isVerdict_ok _
  split
  · exact isVerdict_ok _
  · exact isVerdict_error nofun nofun

theorem starts_decoder (limits : Limits) {l : Leaf α} (hl : l.requiresTerminator = false) :
    (l.decoder limits).Starts := by
  cases l with
  | bool => exact starts_byte.bind fun b => underway_ofOutcome (isVerdict_boolOf b).ne_endOfInput
  | unsigned w => exact FixedWidth.starts_decoder w
  | signed w => exact (FixedWidth.starts_decoder w).map _
  | float f => exact (FixedWidth.starts_decoder f.width).map _
  | bytes => cases hl
  | string => cases hl
  | integer => exact BigInteger.starts_decoder limits
  | rational => exact Rational.starts_decoder limits
  | bigFloat => exact BigFloat.starts_decoder

theorem isVerdict_stringOf (bs : Bytes) : IsVerdict (stringOf bs) := by
  unfold stringOf
  cases Utf8.decode bs with
  | ok s => exact isVerdict_ok s
  | error flaw => exact isVerdict_error nofun nofun

theorem underway_decoder (limits : Limits) {l : Leaf α} (hl : l.requiresTerminator = true) :
    (l.decoder limits).Underway := by
  cases l with
  | bytes => exact underway_remainder
  | string =>
    exact underway_remainder.bind fun bs => underway_ofOutcome (isVerdict_stringOf bs).ne_endOfInput
  | _ => cases hl

end Leaf

namespace Presence

theorem isVerdict_check (order : NilOrder) (b : UInt8) : IsVerdict (check order b) := by
  unfold check
  split
  · exact isVerdict_ok _
  split
  · exact isVerdict_ok _
  split <;> exact isVerdict_error nofun nofun

theorem starts_decoder (order : NilOrder) : (decoder order).Starts :=
  starts_byte.bind fun b => underway_ofOutcome (isVerdict_check order b).ne_endOfInput

end Presence

namespace Codec
variable {α : Type}

/-- Takes up whatever there is, even if there is nothing. -/
def IsOpen : {α : Type} → Codec α → Prop
  | _, .leaf l => l.requiresTerminator = true
  | _, .custom _ => False
  | _, .framed _ _ => False
  | _, .nullable _ _ => False
  | _, .seq _ => True
  | _, .convert _ _ c => c.IsOpen

theorem requiresTerminator_of_isOpen {c : Codec α} (h : c.IsOpen) : c.requiresTerminator = true := by
  induction c with
  | leaf l => exact h
  | seq c ih => rfl
  | convert represent restore c ih => exact ih h
  | _ => exact h.elim

theorem whole_ne_endOfInput (get : Bytes → Except Fault (α × Nat)) (raw : Bytes) :
    Slice.whole get raw ≠ .error .endOfInput := by
  intro h
  unfold Slice.whole at h
  split at h
  · next e he => exact e.midway_ne_endOfInput (Except.error.inj h)
  · exact (Slice.isVerdict_filled _ _ _).ne_endOfInput h

theorem starts_decoder (limits : Limits) {c : Codec α} (hc : c.IsBuiltIn) (ho : ¬c.IsOpen) :
    (c.decoder limits).Starts := by
  induction c with
  | leaf l =>
    rw [decoder_leaf]
    exact Leaf.starts_decoder limits (Bool.eq_false_of_not_eq_true ho)
  | custom c => exact hc.elim
  | framed reversed c ih =>
    rw [decoder_framed]
    exact (starts_frame _).bind fun raw => underway_ofOutcome (whole_ne_endOfInput _ raw)
  | nullable order c ih =>
    rw [decoder_nullable]
    refine (Presence.starts_decoder order).bind fun isNil => ?_
    cases isNil with
    | true => exact underway_pure none
    | false => exact (underway_midway _).bind fun v => underway_pure (some v)
  | seq c ih => exact (ho trivial).elim
  | convert represent restore c ih =>
    rw [decoder_convert]
    exact (ih hc ho).map restore

theorem not_isOpen_unit (c : Codec α) : ¬c.unit.IsOpen := by
  intro h
  have ht := requiresTerminator_of_isOpen h
  rw [requiresTerminator_unit] at ht
  cases ht

theorem starts_decoder_unit (limits : Limits) {c : Codec α} (hc : c.IsBuiltIn) :
    (c.unit.decoder limits).Starts :=
  starts_decoder limits (isBuiltIn_unit hc) (not_isOpen_unit c)

theorem underway_decoder (limits : Limits) {c : Codec α} (hc : c.IsBuiltIn) (ho : c.IsOpen) :
    (c.decoder limits).Underway := by
  induction c with
  | leaf l =>
    rw [decoder_leaf]
    exact Leaf.underway_decoder limits ho
  | seq c ih =>
    rw [decoder_seq]
    exact underway_elements (starts_decoder_unit limits hc)
  | convert represent restore c ih =>
    rw [decoder_convert]
    exact (ih hc ho).bind fun v => underway_pure (restore v)
  | _ => exact ho.elim

end Codec
end SortKey
