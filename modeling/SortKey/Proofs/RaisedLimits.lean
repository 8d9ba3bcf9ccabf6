import SortKey.Proofs.Arrival
import SortKey.Proofs.FrameReading
import SortKey.Proofs.Outcome

/-! Decoding under two settings of the limits. Where nothing is too large under the tighter one, a built-in
codec comes to the same under the other one, from as many bytes. -/
namespace SortKey
variable {α β : Type}

namespace Outcome
variable {o o' : Except Fault α}

def TooLarge (o : Except Fault α) : Prop := ∃ size limit, o = .error (.tooLarge size limit)

theorem tooLarge_error (size limit : Nat) :
    TooLarge (.error (.tooLarge size limit) : Except Fault α) := ⟨size, limit, rfl⟩

/-- `o'` is `o`, unless something is too large in `o`. -/
def Keeps (o o' : Except Fault α) : Prop := TooLarge o ∨ o' = o

theorem Keeps.refl (o : Except Fault α) : Keeps o o := .inr rfl

theorem Keeps.bind {f f' : α → Except Fault β} (h : Keeps o o') (hf : ∀ a, Keeps (f a) (f' a)) :
    Keeps (o >>= f) (o' >>= f') := by
  obtain ⟨size, limit, rfl⟩ | rfl := h
  · exact .inl (tooLarge_error size limit)
  cases o' with
  | error e => exact .refl _
  | ok a => exact hf a

theorem Keeps.map (h : Keeps o o') (f : α → β) : Keeps (f <$> o) (f <$> o') := by
  obtain ⟨size, limit, rfl⟩ | rfl := h
  · exact .inl (tooLarge_error size limit)
  · exact .refl _

theorem Keeps.midway (h : Keeps o o') :
    Keeps (o.mapError Fault.midway) (o'.mapError Fault.midway) := by
  obtain ⟨size, limit, rfl⟩ | rfl := h
  · exact .inl (tooLarge_error size limit)
  · exact .refl _

theorem Keeps.whole {get get' : Bytes → Except Fault (α × Nat)} {raw : Bytes}
    (h : Keeps (get raw) (get' raw)) : Keeps (Slice.whole get raw) (Slice.whole get' raw) := by
  rw [Slice.whole, Slice.whole]
  obtain ⟨size, limit, hlarge⟩ | hsame := h
  · rw [hlarge]
    exact .inl (tooLarge_error size limit)
  · rw [hsame]
    exact .refl _

end Outcome

open Outcome (TooLarge tooLarge_error)

namespace Source
variable {n m : Nat} {s : Source}

theorem gather_of_length_lt {ds : List Delivery} (h : (contents ds).length < n) :
    (gather ds n).2 = [] := by
  induction ds generalizing n with
  | nil => rfl
  | cons d ds ih =>
    have hn : n ≠ 0 := by omega
    cases d with
    | interruption =>
      rw [gather, if_neg hn]
      exact ih h
    | piece b bs =>
      rw [contents, List.length_append] at h
      have hle : (b :: bs).length ≤ n := by omega
      rw [gather, if_neg hn]
      dsimp only
      rw [List.drop_of_length_le hle, List.take_of_length_le hle]
      exact ih (by omega)

theorem draw_of_cut_short (hn : n ≤ m) (h : (draw n s).1.2 ≠ .filled) : draw m s = draw n s := by
  rw [draw_eq] at h
  have hlt : (contents s.deliveries).length < n := by
    by_contra hle
    rw [drawn_of_le_length (Nat.le_of_not_lt hle)] at h
    exact h rfl
  have hlt' := hlt.trans_le hn
  have hdrawn : drawn m (contents s.deliveries) s.ending s.delivered =
      drawn n (contents s.deliveries) s.ending s.delivered := by
    cases hending : s.ending with
    | closed => rw [drawn_closed hlt, drawn_closed hlt']
    | failing text => rw [drawn_failing hlt, drawn_failing hlt']
    | endless byteAt =>
      rw [hending, drawn_endless] at h
      exact (h rfl).elim
  rw [draw_eq, draw_eq, hdrawn, gather_of_length_lt hlt, gather_of_length_lt hlt']

end Source

namespace Decoder

/-- `d'` comes to the same as `d` wherever nothing is too large for `d`. -/
def Keeps (d d' : Decoder α) : Prop := ∀ bs, Outcome.Keeps (d.run bs) (d'.run bs)

theorem Keeps.refl (d : Decoder α) : d.Keeps d := fun bs => .refl (d.run bs)

theorem keeps_ofOutcome {o o' : Except Fault α} (h : Outcome.Keeps o o') :
    (ofOutcome o).Keeps (ofOutcome o') := fun _ => h.map (·, 0)

theorem Keeps.bind {d d' : Decoder α} {f f' : α → Decoder β} (h : d.Keeps d')
    (hf : ∀ a, (f a).Keeps (f' a)) : (d >>= f).Keeps (d' >>= f') := by
  intro bs
  rw [run_bind, run_bind]
  exact (h bs).bind fun p => (hf p.1 (bs.drop p.2)).map _

theorem Keeps.midway {d d' : Decoder α} (h : d.Keeps d') : d.midway.Keeps d'.midway :=
  fun bs => (h bs).midway

theorem Keeps.elements {d d' : Decoder α} (h : d.Keeps d') :
    (⟨Codec.elements d.run⟩ : Decoder (List α)).Keeps ⟨Codec.elements d'.run⟩ := by
  intro bs
  -- on the number of bytes left, of which every element takes up some
  induction hlen : bs.length using Nat.strong_induction_on generalizing bs with
  | _ n ih =>
  subst hlen
  change Outcome.Keeps (Codec.elements d.run bs) (Codec.elements d'.run bs)
  cases bs with
  | nil =>
    rw [Codec.elements_nil, Codec.elements_nil]
    exact .refl _
  | cons b rest =>
    rw [Codec.elements_cons, Codec.elements_cons]
    refine (h (b :: rest)).bind fun p => ?_
    split
    next => exact .refl _
    next hp =>
      have hlt : ((b :: rest).drop p.2).length < (b :: rest).length := by
        rw [List.length_drop, List.length_cons]
        omega
      exact (ih _ hlt _ rfl).map _

end Decoder

namespace Reading

/-- `r'` comes to the same as `r`, and leaves the same of the source, wherever nothing is too large for
`r`. -/
def Keeps (r r' : Reading α) : Prop := ∀ s, TooLarge (r.runFrom s).1 ∨ r'.runFrom s = r.runFrom s

theorem Keeps.refl (r : Reading α) : r.Keeps r := fun _ => .inr rfl

theorem keeps_liftM {o o' : Except Fault α} (h : Outcome.Keeps o o') :
    (liftM o : Reading α).Keeps (liftM o') := by
  intro s
  rw [runFrom_liftM, runFrom_liftM]
  obtain h | rfl := h
  · exact .inl h
  · exact .inr rfl

theorem Keeps.bind {r r' : Reading α} {f f' : α → Reading β} (h : r.Keeps r')
    (hf : ∀ a, (f a).Keeps (f' a)) : (r >>= f).Keeps (r' >>= f') := by
  intro s
  have hr := h s
  rw [runFrom_bind, runFrom_bind]
  generalize r.runFrom s = z at hr ⊢
  obtain ⟨o, t⟩ := z
  obtain ⟨size, limit, hlarge⟩ | hsame := hr
  · dsimp only at hlarge
    subst hlarge
    exact .inl (tooLarge_error size limit)
  rw [hsame]
  cases o with
  | error e => exact .inr rfl
  | ok a => exact hf a t

theorem Keeps.midway {r r' : Reading α} (h : r.Keeps r') : r.midway.Keeps r'.midway := by
  intro s
  rw [runFrom_midway, runFrom_midway]
  obtain ⟨size, limit, hlarge⟩ | hsame := h s
  · rw [hlarge]
    exact .inl (tooLarge_error size limit)
  · exact .inr (by rw [hsame])

theorem Keeps.optional {r r' : Reading α} (h : r.Keeps r') :
    (optional r).Keeps (Reading.optional r') := by
  intro s
  obtain ⟨size, limit, hlarge⟩ | hsame := h s
  · left
    cases hrun : r.runFrom s with
    | mk o t =>
    rw [hrun] at hlarge
    dsimp only at hlarge
    subst hlarge
    rw [optional_of_error hrun nofun]
    exact tooLarge_error size limit
  · right
    simp only [Reading.optional, runFrom_tryCatch, runFrom_map, hsame]

theorem Keeps.elements {r r' : Reading α} (h : r.Keeps r') (room : Nat) (taken : List α) :
    (elements r room taken).Keeps (elements r' room taken) := by
  induction room generalizing taken with
  | zero => exact .refl _
  | succ room ih =>
    refine h.optional.bind fun found => ?_
    cases found with
    | none => exact .refl _
    | some v => exact ih (v :: taken)

/-- All that is left is compared with the limit only after it has come. -/
theorem keeps_remainderOutcome {limit limit' : Nat} (h : limit ≤ limit') (got : Bytes)
    (stop : Source.Stop) :
    Outcome.Keeps (remainderOutcome limit got stop) (remainderOutcome limit' got stop) := by
  unfold remainderOutcome
  cases stop with
  | failed text => exact .refl _
  | _ =>
    dsimp only
    by_cases hl : limit < got.length
    · rw [if_pos hl]
      exact .inl (tooLarge_error _ _)
    · rw [if_neg hl, if_neg (by omega)]
      exact .refl _

theorem keeps_remainder {limit limit' : Nat} (h : limit ≤ limit') :
    (remainder limit).Keeps (remainder limit') := by
  intro s
  have hle : min (limit + 1) 18446744073709551615 ≤ min (limit' + 1) 18446744073709551615 := by omega
  rw [runFrom_remainder, runFrom_remainder]
  by_cases hsame : Source.draw (min (limit' + 1) 18446744073709551615) s =
      Source.draw (min (limit + 1) 18446744073709551615) s
  · rw [hsame]
    obtain hlarge | heq := keeps_remainderOutcome h
      (Source.draw (min (limit + 1) 18446744073709551615) s).1.1
      (Source.draw (min (limit + 1) 18446744073709551615) s).1.2
    · exact .inl hlarge
    · exact .inr (Prod.ext heq rfl)
  · -- the greater limit asks for more, and the smaller request was met: it is beyond its limit
    have hfilled : (Source.draw (min (limit + 1) 18446744073709551615) s).1.2 = .filled := by
      by_contra hcut
      exact hsame (Source.draw_of_cut_short hle hcut)
    have hne : min (limit + 1) 18446744073709551615 ≠ min (limit' + 1) 18446744073709551615 :=
      fun heq => hsame (by rw [heq])
    rw [Source.draw_eq] at hfilled ⊢
    have hlen := Source.length_drawn_of_filled hfilled
    left
    dsimp only
    rw [hfilled]
    dsimp only [remainderOutcome]
    rw [if_pos (by omega)]
    exact tooLarge_error _ _

end Reading

namespace Frame
open Reading (Keeps)

theorem keeps_collect (mask : UInt8) {limit limit' room room' : Nat} (h : room ≤ room')
    (taken : Bytes) (next : Option UInt8) :
    (collect mask limit room taken next).Keeps (collect mask limit' room' taken next) := by
  induction room generalizing room' taken next with
  | zero =>
    cases next with
    | none =>
      rw [collect_none, collect_none]
      exact .refl _
    | some b => exact fun s => .inl (tooLarge_error _ _)
  | succ room ih =>
    cases next with
    | none =>
      rw [collect_none, collect_none]
      exact .refl _
    | some b =>
      obtain ⟨room', rfl⟩ := Nat.exists_eq_succ_of_ne_zero (Nat.ne_of_gt (Nat.zero_lt_of_lt h))
      have hroom : room ≤ room' := Nat.le_of_succ_le_succ h
      exact (Keeps.refl _).bind fun next => ih hroom (b :: taken) next

theorem keeps_read (mask : UInt8) {limit limit' : Nat} (h : limit ≤ limit') :
    (read mask limit).Keeps (read mask limit') :=
  (Keeps.refl (unit mask)).bind fun next => keeps_collect mask h [] next

end Frame

/-- Decoding by `d` and reading by `r` come to the same with `d'` and `r'` wherever nothing is too large. -/
structure Relaxed (d d' : Decoder α) (r r' : Reading α) : Prop where
  decodes : d.Keeps d'
  reads : r.Keeps r'

namespace Relaxed
variable {d d' : Decoder α} {r r' : Reading α}

theorem refl (d : Decoder α) (r : Reading α) : Relaxed d d r r := ⟨.refl d, .refl r⟩

theorem ofOutcome {o o' : Except Fault α} (h : Outcome.Keeps o o') :
    Relaxed (Decoder.ofOutcome o) (Decoder.ofOutcome o') (liftM o) (liftM o') :=
  ⟨Decoder.keeps_ofOutcome h, Reading.keeps_liftM h⟩

theorem bind {f f' : α → Decoder β} {g g' : α → Reading β} (h : Relaxed d d' r r')
    (hf : ∀ a, Relaxed (f a) (f' a) (g a) (g' a)) :
    Relaxed (d >>= f) (d' >>= f') (r >>= g) (r' >>= g') :=
  ⟨h.decodes.bind fun a => (hf a).decodes, h.reads.bind fun a => (hf a).reads⟩

theorem map (h : Relaxed d d' r r') (f : α → β) :
    Relaxed (f <$> d) (f <$> d') (r >>= fun a => pure (f a)) (r' >>= fun a => pure (f a)) :=
  h.bind fun _ => .refl _ _

theorem midway (h : Relaxed d d' r r') : Relaxed d.midway d'.midway r.midway r'.midway :=
  ⟨h.decodes.midway, h.reads.midway⟩

theorem elements (h : Relaxed d d' r r') :
    Relaxed ⟨Codec.elements d.run⟩ ⟨Codec.elements d'.run⟩
      (Reading.elements r Bytes.lengthBound []) (Reading.elements r' Bytes.lengthBound []) :=
  ⟨h.decodes.elements, h.reads.elements Bytes.lengthBound []⟩

theorem remainder {limit limit' : Nat} (h : limit ≤ limit') :
    Relaxed Decoder.remainder Decoder.remainder (Reading.remainder limit)
      (Reading.remainder limit') :=
  ⟨.refl _, Reading.keeps_remainder h⟩

/-- A byte string is not held to the limit on frames. -/
theorem frame (mask : UInt8) {limit limit' : Nat} (h : limit ≤ limit') :
    Relaxed (Decoder.frame mask) (Decoder.frame mask) (Frame.read mask limit)
      (Frame.read mask limit') :=
  ⟨.refl _, Frame.keeps_read mask h⟩

end Relaxed

section
variable {limits limits' : Limits} (hi : limits.integerBytes ≤ limits'.integerBytes)
  (hf : limits.frameBytes ≤ limits'.frameBytes)
include hi

theorem BigInteger.keeps_magnitudeSize (header : Int) :
    Outcome.Keeps (magnitudeSize limits header) (magnitudeSize limits' header) := by
  unfold magnitudeSize
  by_cases h : header.natAbs ≤ limits.integerBytes
  · rw [if_pos h, if_pos (h.trans hi)]
    exact .refl _
  · rw [if_neg h]
    exact .inl (tooLarge_error _ _)

theorem BigInteger.relaxed :
    Relaxed (decoder limits) (decoder limits') (read limits) (read limits') :=
  (Relaxed.refl _ _).bind fun header => (Relaxed.ofOutcome (keeps_magnitudeSize hi header)).bind
    fun _ => .refl _ _

theorem Rational.relaxed :
    Relaxed (decoder limits) (decoder limits') (read limits) (read limits') :=
  (BigInteger.relaxed hi).bind fun _ => (BigInteger.relaxed hi).midway.bind fun _ => .refl _ _

omit hi
include hf

theorem BigFloat.relaxed : Relaxed decoder decoder (read limits) (read limits') := by
  refine (Relaxed.refl _ _).bind fun kind => (Relaxed.refl _ _).bind fun found => ?_
  cases found with
  | inl x => exact .refl _ _
  | inr neg =>
    have hfields : Relaxed (fieldsDecoder neg) (fieldsDecoder neg) (readFields limits neg)
        (readFields limits' neg) :=
      (Relaxed.refl _ _).bind fun _ => (Relaxed.frame _ hf).bind fun _ => .refl _ _
    exact hfields.midway.bind fun _ => .refl _ _

theorem Codec.relaxed_framed (reversed : Bool) {c : Codec α}
    (h : (c.decoder limits).Keeps (c.decoder limits')) :
    Relaxed ((Codec.framed reversed c).decoder limits) ((Codec.framed reversed c).decoder limits')
      ((Codec.framed reversed c).read limits) ((Codec.framed reversed c).read limits') := by
  rw [decoder_framed, decoder_framed]
  exact (Relaxed.frame _ hf).bind fun raw => .ofOutcome (h raw).whole

include hi

theorem Leaf.relaxed (l : Leaf α) :
    Relaxed (l.decoder limits) (l.decoder limits') (l.read limits) (l.read limits') := by
  cases l with
  | bytes => exact .remainder hf
  | string => exact (Relaxed.remainder hf).bind fun _ => .refl _ _
  | integer => exact BigInteger.relaxed hi
  | rational => exact Rational.relaxed hi
  | bigFloat => exact BigFloat.relaxed hf
  | _ => exact .refl _ _

theorem Codec.relaxed {c : Codec α} (hc : c.IsBuiltIn) :
    Relaxed (c.decoder limits) (c.decoder limits') (c.read limits) (c.read limits') := by
  induction c with
  | leaf l =>
    rw [decoder_leaf, decoder_leaf]
    exact l.relaxed hi hf
  | custom c => exact hc.elim
  | framed reversed c ih => exact relaxed_framed hf reversed (ih hc).decodes
  | nullable order c ih =>
    have hb : c.IsBuiltIn := hc
    rw [decoder_nullable, decoder_nullable]
    refine (Relaxed.refl _ _).bind fun isNil => ?_
    cases isNil with
    | true => exact .refl _ _
    | false => exact (ih hb).midway.map some
  | seq c ih =>
    have hb : c.IsBuiltIn := hc
    rw [decoder_seq, decoder_seq, read_seq, read_seq]
    refine Relaxed.elements ?_
    obtain hu | hu := c.unit_eq_or <;> rw [hu]
    · exact relaxed_framed hf false (ih hb).decodes
    · exact ih hb
  | convert represent restore c ih =>
    rw [decoder_convert, decoder_convert]
    exact (ih hc).map restore

end

/-- Limits only decide whether something is too large. Where decoding does not end so, it comes to the
same under limits that are as high or higher, after the same number of bytes; and so does reading,
which leaves the source at the same place. -/
theorem Codec.same_under_higher_limits (c : Codec α) (hc : c.IsBuiltIn) (limits limits' : Limits)
    (hi : limits.integerBytes ≤ limits'.integerBytes) (hf : limits.frameBytes ≤ limits'.frameBytes) :
    (∀ bs, (∀ size limit, c.get limits bs ≠ .error (.tooLarge size limit)) →
      c.get limits' bs = c.get limits bs) ∧
    ∀ s, (∀ size limit, ((c.read limits).runFrom s).1 ≠ .error (.tooLarge size limit)) →
      (c.read limits').runFrom s = (c.read limits).runFrom s := by
  have h := relaxed hi hf hc
  constructor
  · intro bs hbs
    obtain ⟨size, limit, hlarge⟩ | hsame := h.decodes bs
    · exact (hbs size limit hlarge).elim
    · exact hsame
  · intro s hs
    obtain ⟨size, limit, hlarge⟩ | hsame := h.reads s
    · exact (hs size limit hlarge).elim
    · exact hsame

/-- A frame holds an integer of one byte in nine bytes, and the source fails after it: both limits are
met exactly, so higher ones make no difference, though lower ones would. -/
theorem Codec.same_under_higher_limits_integer :
    let c : Codec (List Int) := .terminate (.seq (.leaf .integer))
    let x : Bytes := [0x80, 1, 0, 1, 0, 1, 0, 1, 0, 1, 0, 1, 0, 1, 1, 7, 0]
    let s : Source := ⟨[.piece 0x80 (x.drop 1), .interruption, .piece 5 []], .failing "disk on fire", 0⟩
    c.IsBuiltIn ∧ c.get ⟨1, 9⟩ x = .ok ([7], 17) ∧ ((c.read ⟨1, 9⟩).runFrom s).1 = .ok [7] ∧
      ((c.read ⟨1, 9⟩).runFrom s).2.delivered = 17 ∧
      c.get ⟨0, 9⟩ x = .error (.tooLarge 1 0) ∧
      ((c.read ⟨1, 8⟩).runFrom s).1 = .error (.tooLarge 9 8) ∧
      c.get ⟨16, 1024⟩ x = .ok ([7], 17) ∧ ((c.read ⟨16, 1024⟩).runFrom s).1 = .ok [7] ∧
      ((c.read ⟨16, 1024⟩).runFrom s).2.delivered = 17 := by
  intro c x s
  have hc : c.IsBuiltIn := trivial
  have hget : c.get ⟨1, 9⟩ x = .ok ([7], 17) := by decide +kernel
  have hread : ((c.read ⟨1, 9⟩).runFrom s).1 = .ok [7] := by decide +kernel
  have hplace : ((c.read ⟨1, 9⟩).runFrom s).2.delivered = 17 := by decide +kernel
  have hinteger : c.get ⟨0, 9⟩ x = .error (.tooLarge 1 0) := by decide +kernel
  have hframe : ((c.read ⟨1, 8⟩).runFrom s).1 = .error (.tooLarge 9 8) := by decide +kernel
  obtain ⟨hgets, hreads⟩ := same_under_higher_limits c hc ⟨1, 9⟩ ⟨16, 1024⟩ (by decide) (by decide)
  have hget' := hgets x fun size limit h => by
    rw [hget] at h
    cases h
  have hread' := hreads s fun size limit h => by
    rw [hread] at h
    cases h
  refine ⟨hc, hget, hread, hplace, hinteger, hframe, hget'.trans hget, ?_, ?_⟩
  · rw [hread', hread]
  · rw [hread', hplace]

end SortKey
