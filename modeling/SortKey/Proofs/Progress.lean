import SortKey.Proofs.CheckedDecoding
import SortKey.Proofs.CleanEnd
import SortKey.Proofs.DecoderFaults

/-! Sequences make progress. The bytes that a decoder reports as taken up are there, and no decoder gets
stuck, whatever codecs of the caller's own it contains, as long as those take up no more than there is; a
built-in codec also takes up a byte where there is one, so that neither decoding nor reading with it ever
comes upon an element that takes up nothing. -/
namespace SortKey
variable {α β : Type}

/-! ### Elements that take up nothing -/

def Fault.Progresses (e : Fault) : Prop := e ≠ .malformed .emptyElement

def Outcome.Progresses (o : Except Fault α) : Prop := ∀ e, o = .error e → e.Progresses

namespace Outcome

theorem progresses_ok (a : α) : Progresses (.ok a) := nofun

theorem progresses_error {e : Fault} (h : e.Progresses) : Progresses (.error e : Except Fault α) :=
  fun _ he => Except.error.inj he ▸ h

theorem Progresses.midway {o : Except Fault α} (h : Progresses o) :
    Progresses (o.mapError Fault.midway) := by
  intro e he
  cases o with
  | ok a => cases he
  | error e' =>
    cases he
    have hprogresses := h e' rfl
    cases e' with
    | endOfInput => exact nofun
    | _ => exact hprogresses

end Outcome

open Outcome (Progresses progresses_ok progresses_error)

namespace Reading
variable {r : Reading α}

/-- No source makes `r` report that an element took up nothing. -/
def Progresses (r : Reading α) : Prop := ∀ s, Outcome.Progresses (r.runFrom s).1

theorem progresses_pure (a : α) : (pure a : Reading α).Progresses := fun _ => progresses_ok a

theorem progresses_throw {e : Fault} (h : e.Progresses) : (throw e : Reading α).Progresses :=
  fun _ => progresses_error h

theorem progresses_liftM {o : Except Fault α} (h : Outcome.Progresses o) :
    (liftM o : Reading α).Progresses := by
  intro s
  rw [runFrom_liftM]
  exact h

theorem Progresses.bind (h : r.Progresses) {f : α → Reading β} (hf : ∀ a, (f a).Progresses) :
    (r >>= f).Progresses := by
  intro s
  have hr := h s
  rw [runFrom_bind]
  generalize r.runFrom s = x at hr ⊢
  obtain ⟨e | a, t⟩ := x
  · exact progresses_error (hr e rfl)
  · exact hf a t

theorem Progresses.midway (h : r.Progresses) : r.midway.Progresses := by
  intro s
  rw [runFrom_midway]
  exact (h s).midway

theorem Progresses.optional (h : r.Progresses) : (optional r).Progresses := by
  intro s
  have hr := h s
  cases hrun : r.runFrom s with
  | mk o t =>
  rw [hrun] at hr
  cases o with
  | ok a =>
    rw [optional_of_ok hrun]
    exact progresses_ok _
  | error e =>
    by_cases he : e = .endOfInput
    · subst he
      rw [optional_of_endOfInput hrun]
      exact progresses_ok _
    · rw [optional_of_error hrun he]
      exact progresses_error (hr e rfl)

theorem progresses_exactly (n : Nat) : (exactly n).Progresses := by
  intro s
  rw [runFrom_exactly]
  obtain ⟨⟨got, stop⟩, t⟩ := Source.draw n s
  cases stop with
  | filled => exact progresses_ok got
  | ended =>
    cases got with
    | nil => exact progresses_error nofun
    | cons b bs => exact progresses_error nofun
  | failed text => exact progresses_error nofun

theorem progresses_announced (n : Nat) : (announced n).Progresses := by
  unfold announced
  split
  · exact progresses_throw nofun
  · exact (progresses_exactly n).midway

theorem progresses_remainder (limit : Nat) : (remainder limit).Progresses := by
  intro s
  rw [runFrom_remainder]
  obtain ⟨⟨got, stop⟩, t⟩ := Source.draw (min (limit + 1) 18446744073709551615) s
  unfold remainderOutcome
  cases stop with
  | failed text => exact progresses_error nofun
  | _ =>
    dsimp only
    split
    · exact progresses_error nofun
    · exact progresses_ok got

theorem progresses_byte : byte.Progresses := by
  refine (progresses_exactly 1).bind fun got => ?_
  cases got with
  | nil => exact progresses_throw nofun
  | cons b bs => exact progresses_pure b

theorem Progresses.elements (h : r.Progresses) (room : Nat) (taken : List α) :
    (elements r room taken).Progresses := by
  induction room generalizing taken with
  | zero => exact progresses_throw nofun
  | succ room ih =>
    refine h.optional.bind fun found => ?_
    cases found with
    | none => exact progresses_pure taken.reverse
    | some v => exact ih (v :: taken)

end Reading

namespace Frame
open Reading

theorem progresses_unit (mask : UInt8) : (unit mask).Progresses := by
  refine progresses_byte.bind fun b => ?_
  dsimp only
  split
  · exact progresses_pure none
  split
  · exact progresses_byte.midway.bind fun c => progresses_pure (some (c ^^^ mask))
  · exact progresses_pure (some (b ^^^ mask))

theorem progresses_collect (mask : UInt8) (limit room : Nat) (taken : Bytes) (next : Option UInt8) :
    (collect mask limit room taken next).Progresses := by
  induction room generalizing taken next with
  | zero =>
    cases next with
    | none => exact progresses_pure taken.reverse
    | some b => exact progresses_throw nofun
  | succ room ih =>
    cases next with
    | none => exact progresses_pure taken.reverse
    | some b => exact (progresses_unit mask).midway.bind fun next => ih (b :: taken) next

theorem progresses_read (mask : UInt8) (limit : Nat) : (read mask limit).Progresses :=
  (progresses_unit mask).bind fun next => progresses_collect mask limit limit [] next

end Frame

/-- Neither decoding nor reading reports that an element took up nothing. -/
structure Progress (d : Decoder α) (r : Reading α) : Prop where
  decoding : d.FailsWith Fault.Progresses
  reading : r.Progresses

namespace Progress
variable {d : Decoder α} {r : Reading α}

theorem ofOutcome {o : Except Fault α} (h : Outcome.Progresses o) :
    Progress (Decoder.ofOutcome o) (liftM o) :=
  ⟨Decoder.failsWith_ofOutcome h, Reading.progresses_liftM h⟩

theorem check {o : Except Fault α} (h : Outcome.IsVerdict o) : Progress (Decoder.ofOutcome o) (liftM o) :=
  ofOutcome fun e he => (h e he).2

theorem pure (a : α) : Progress (pure a) (pure a) := ofOutcome (progresses_ok a)

theorem exactly (n : Nat) : Progress (Decoder.exactly n) (Reading.exactly n) :=
  ⟨Decoder.failsWith_exactly n nofun nofun, Reading.progresses_exactly n⟩

theorem byte : Progress Decoder.byte Reading.byte :=
  ⟨Decoder.failsWith_byte nofun, Reading.progresses_byte⟩

theorem frame (mask : UInt8) (limit : Nat) : Progress (Decoder.frame mask) (Frame.read mask limit) :=
  ⟨Decoder.failsWith_frame mask nofun nofun, Frame.progresses_read mask limit⟩

theorem remainder (limit : Nat) : Progress Decoder.remainder (Reading.remainder limit) :=
  ⟨Decoder.failsWith_remainder, Reading.progresses_remainder limit⟩

theorem bind (h : Progress d r) {f : α → Decoder β} {g : α → Reading β}
    (hf : ∀ a, Progress (f a) (g a)) : Progress (d >>= f) (r >>= g) :=
  ⟨h.decoding.bind fun a => (hf a).decoding, h.reading.bind fun a => (hf a).reading⟩

theorem map (h : Progress d r) (f : α → β) : Progress (f <$> d) (r >>= fun a => Pure.pure (f a)) :=
  h.bind fun a => pure (f a)

theorem midway (h : Progress d r) : Progress d.midway r.midway :=
  ⟨h.decoding.midway nofun, h.reading.midway⟩

theorem announced (n : Nat) : Progress (Decoder.exactly n).midway (Reading.announced n) :=
  ⟨(exactly n).midway.decoding, Reading.progresses_announced n⟩

theorem elements (hd : d.Starts) (h : Progress d r) (room : Nat) :
    Progress ⟨Codec.elements d.run⟩ (Reading.elements r room []) :=
  ⟨h.decoding.elements hd, h.reading.elements room []⟩

end Progress

theorem FixedWidth.progress (w : Width) : Progress (decoder w) (read w) := (Progress.exactly w.bytes).map _

theorem FixedWidth.progress_int (w : Width) : Progress (intDecoder w) (readInt w) := (progress w).map _

namespace BigInteger

theorem progress (limits : Limits) : Progress (decoder limits) (read limits) :=
  (FixedWidth.progress_int .w64).bind fun header =>
    (Progress.check (isVerdict_magnitudeSize limits header)).bind fun size =>
      (Progress.announced size).bind fun field => .check (isVerdict_build _ field)

end BigInteger

namespace Rational

theorem progress (limits : Limits) : Progress (decoder limits) (read limits) :=
  (BigInteger.progress limits).bind fun num => (BigInteger.progress limits).midway.bind fun den =>
    .check (isVerdict_build num den)

end Rational

namespace BigFloat

theorem progress_fields (limits : Limits) (negative : Bool) :
    Progress (fieldsDecoder negative) (readFields limits negative) :=
  (FixedWidth.progress_int .w32).bind fun _ => (Progress.frame _ _).bind fun _ =>
    (FixedWidth.progress_int .w32).bind fun _ => Progress.byte.bind fun _ => .pure _

theorem progress (limits : Limits) : Progress decoder (read limits) := by
  refine (FixedWidth.progress_int .w8).bind fun kind =>
    (Progress.check (isVerdict_ofKind kind)).bind fun found => ?_
  cases found with
  | inl x => exact .pure x
  | inr negative =>
    exact (progress_fields limits negative).midway.bind fun fields =>
      .check (isVerdict_build negative fields)

end BigFloat

namespace Leaf

theorem progress (limits : Limits) (l : Leaf α) : Progress (l.decoder limits) (l.read limits) := by
  cases l with
  | bool => exact Progress.byte.bind fun b => .check (isVerdict_boolOf b)
  | unsigned w => exact FixedWidth.progress w
  | signed w => exact (FixedWidth.progress w).map _
  | float f => exact (FixedWidth.progress f.width).map _
  | bytes => exact .remainder _
  | string => exact (Progress.remainder _).bind fun bs => .check (isVerdict_stringOf bs)
  | integer => exact BigInteger.progress limits
  | rational => exact Rational.progress limits
  | bigFloat => exact BigFloat.progress limits

end Leaf

namespace Presence

theorem progress (order : NilOrder) : Progress (decoder order) (read order) :=
  Progress.byte.bind fun b => .check (isVerdict_check order b)

end Presence

namespace Codec

theorem progresses_whole {get : Bytes → Except Fault (α × Nat)} {raw : Bytes}
    (h : Progresses (get raw)) : Progresses (Slice.whole get raw) := by
  unfold Slice.whole
  split
  · next e he =>
    rw [he] at h
    exact progresses_error (h.midway e.midway rfl)
  · exact fun e he => (Slice.isVerdict_filled _ _ _ e he).2

theorem progress_framed {limits : Limits} {c : Codec α}
    (h : (c.decoder limits).FailsWith Fault.Progresses) (reversed : Bool) :
    Progress ((Codec.framed reversed c).decoder limits) ((Codec.framed reversed c).read limits) := by
  rw [decoder_framed]
  exact (Progress.frame _ _).bind fun raw => .ofOutcome (progresses_whole (h raw))

theorem progress (limits : Limits) {c : Codec α} (hc : c.IsBuiltIn) :
    Progress (c.decoder limits) (c.read limits) := by
  induction c with
  | leaf l =>
    rw [decoder_leaf]
    exact l.progress limits
  | custom c => exact hc.elim
  | framed reversed c ih => exact progress_framed (ih hc).decoding reversed
  | nullable order c ih =>
    rw [decoder_nullable]
    refine (Presence.progress order).bind fun isNil => ?_
    cases isNil with
    | true => exact .pure none
    | false => exact (ih hc).midway.map some
  | seq c ih =>
    have hunit : Progress (c.unit.decoder limits) (c.unit.read limits) := by
      obtain hu | hu := c.unit_eq_or <;> rw [hu]
      · exact progress_framed (ih hc).decoding false
      · exact ih hc
    rw [decoder_seq, read_seq]
    exact hunit.elements (starts_decoder_unit (c := c) limits hc) _
  | convert represent restore c ih =>
    rw [decoder_convert]
    exact (ih hc).map restore

theorem length_le_of_isOpen {limits : Limits} {c : Codec α} (ho : c.IsOpen) {bs : Bytes} {v : α} {n : Nat}
    (h : c.get limits bs = .ok (v, n)) : bs.length ≤ n := by
  induction c with
  | leaf l =>
    cases l with
    | bytes =>
      cases h
      exact Nat.le_refl _
    | string =>
      obtain ⟨s, -, hs⟩ := Outcome.bind_eq_ok.1 h
      cases hs
      exact Nat.le_refl _
    | _ => cases ho
  | seq c ih =>
    rw [get_seq] at h
    exact length_le_of_elements h
  | convert represent restore c ih =>
    obtain ⟨⟨w, m⟩, hw, hwn⟩ := Outcome.bind_eq_ok.1 h
    cases hwn
    exact ih ho hw
  | _ => exact ho.elim

theorem pos_of_get {limits : Limits} {c : Codec α} (hc : c.IsBuiltIn) {bs : Bytes} (hbs : bs ≠ [])
    {v : α} {n : Nat} (h : c.get limits bs = .ok (v, n)) : 1 ≤ n := by
  by_cases ho : c.IsOpen
  · exact (List.length_pos_of_ne_nil hbs).trans_le (length_le_of_isOpen ho h)
  · exact (starts_decoder limits hc ho).pos h

theorem length_le_count {get : Bytes → Except Fault (α × Nat)} {bs : Bytes} {vs : List α} {n : Nat}
    (h : elements get bs = .ok (vs, n)) : vs.length ≤ n := by
  fun_induction elements get bs generalizing vs n with
  | case1 =>
    cases h
    exact Nat.le_refl _
  | case2 => cases h
  | case3 => cases h
  | case4 => cases h
  | case5 b rest v k hfirst ws m hrest ih =>
    cases h
    have hle := ih hrest
    rw [List.length_cons]
    omega

/-- Where a decoder stops is never behind the end of its input, unless a codec of the caller's own says so
of an input of its own; then every slice starts within what is sliced, no count falls below zero, and a
sequence ends within as many rounds as there are bytes, even if an element takes up none of them. A
built-in codec takes up a byte where there is one, so that none of its sequences is ever refused for an
element that takes up nothing. -/
theorem never_stuck (c : Codec α) (limits : Limits) (bs : Bytes) :
    (c.Contained →
      (∀ v n, c.get limits bs = .ok (v, n) → n ≤ bs.length) ∧
      (c.getChecked limits bs).run = some (c.get limits bs) ∧
      (c.decodeChecked limits bs).run = some (c.decode limits bs) ∧
      ((Codec.seq c).getChecked limits bs).run = some ((Codec.seq c).get limits bs) ∧
      ∀ vs n, (Codec.seq c).get limits bs = .ok (vs, n) → vs.length ≤ bs.length) ∧
    (c.IsBuiltIn →
      c.Contained ∧
      (∀ v n, c.get limits bs = .ok (v, n) → bs ≠ [] → 1 ≤ n) ∧
      c.get limits bs ≠ .error (.malformed .emptyElement) ∧
      c.decode limits bs ≠ .error (.malformed .emptyElement) ∧
      ∀ s, ((c.read limits).runFrom s).1 ≠ .error (.malformed .emptyElement)) := by
  constructor
  · intro hc
    have hseq : (Codec.seq c).Contained := hc
    refine ⟨within_decoder limits hc bs, yields_getChecked limits hc bs, yields_decodeChecked limits hc bs,
      yields_getChecked limits hseq bs, fun vs n h => ?_⟩
    have hn := within_decoder limits hseq bs vs n h
    rw [get_seq] at h
    exact (length_le_count h).trans hn
  · intro hc
    have hprogress := progress limits hc
    have hget : c.get limits bs ≠ .error (.malformed .emptyElement) :=
      fun h => hprogress.decoding bs _ h rfl
    refine ⟨contained_of_isBuiltIn hc, fun v n h hbs => pos_of_get hc hbs h, hget, fun h => ?_,
      fun s h => hprogress.reading s _ h rfl⟩
    rw [decode, Outcome.bind_eq_error] at h
    obtain h | ⟨⟨v, n⟩, -, h⟩ := h
    · exact hget h
    · exact (Slice.isVerdict_filled _ _ _ _ h).2 rfl

/-- A codec whose values take up no bytes, and optional byte strings in frames. -/
theorem never_stuck_idle_elements :
    let idle : Codec Unit :=
      .custom ⟨"idle", fun _ => pure (), fun _ => .ok ((), 0), throw .endOfInput, false⟩
    let c : Codec (Option Bytes) := .nullable .first (.terminate (.leaf .bytes))
    let bs : Bytes := [0x03, 0x61, 0x00, 0x02]
    idle.Contained ∧
      ((Codec.seq idle).getChecked {} [0x07]).run = some (.error (.malformed .emptyElement)) ∧
      (idle.decodeChecked {} [0x07]).run = some (.error (.trailing 1)) ∧
    c.IsBuiltIn ∧ c.Contained ∧ c.get {} bs = .ok (some [0x61], 3) ∧ bs ≠ [] ∧ 1 ≤ 3 ∧ 3 ≤ bs.length ∧
      (c.decodeChecked {} bs).run = some (.error (.trailing 1)) ∧
      (Codec.seq c).get {} bs = .ok ([some [0x61], none], 4) ∧
      ([some [0x61], none] : List (Option Bytes)).length ≤ bs.length ∧
      ((Codec.seq c).decodeChecked {} bs).run = some (.ok [some [0x61], none]) ∧
      ∀ s, (((Codec.seq c).read {}).runFrom s).1 ≠ .error (.malformed .emptyElement) := by
  intro idle c bs
  have hidle : idle.Contained := by
    intro bs v n h
    cases h
    exact Nat.zero_le _
  have hc : c.IsBuiltIn := trivial
  have hbs : bs ≠ [] := List.cons_ne_nil _ _
  have hget : c.get {} bs = .ok (some [0x61], 3) := by rfl
  have hseq : (Codec.seq c).get {} bs = .ok ([some [0x61], none], 4) := by decide +kernel
  have hempty : (Codec.seq idle).get {} [0x07] = .error (.malformed .emptyElement) := by decide +kernel
  obtain ⟨-, -, hdecodeIdle, hseqIdle, -⟩ := (never_stuck idle {} [0x07]).1 hidle
  obtain ⟨hcontained, hpos, -, -, -⟩ := (never_stuck c {} bs).2 hc
  obtain ⟨hle, -, hdecode, -, hlen⟩ := (never_stuck c {} bs).1 hcontained
  obtain ⟨-, -, hdecodeSeq, -, -⟩ := (never_stuck (.seq c) {} bs).1 hcontained
  obtain ⟨-, -, -, -, hread⟩ := (never_stuck (.seq c) {} bs).2 hc
  rw [hempty] at hseqIdle
  rw [decode, hseq] at hdecodeSeq
  exact ⟨hidle, hseqIdle, hdecodeIdle, hc, hcontained, hget, hbs, hpos _ 3 hget hbs, hle _ 3 hget, hdecode,
    hseq, hlen _ 4 hseq, hdecodeSeq, hread⟩

end Codec
end SortKey
