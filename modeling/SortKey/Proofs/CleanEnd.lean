import SortKey.Proofs.Arrival

/-! The end of the input in front of a value. A built-in codec reports it exactly if there was no byte at
all and the codec does not take that for a value; so a sequence that is read ends only between two elements.
-/
namespace SortKey

namespace Source

/-- Has closed, with nothing left to deliver. -/
def Exhausted (s : Source) : Prop := s.Holds [] s.delivered

end Source

namespace Reading
open Source (Exhausted)
variable {α β : Type}

/-- The end of the input is never taken for the end before a value. -/
def Underway (r : Reading α) : Prop := ∀ s, (r.runFrom s).1 ≠ .error .endOfInput

/-- The end before a value is reported if the source has closed and has nothing left, and not
otherwise. -/
def Starts (r : Reading α) : Prop := ∀ s, (r.runFrom s).1 = .error .endOfInput ↔ s.Exhausted

theorem underway_pure (a : α) : (pure a : Reading α).Underway := fun _ => nofun

theorem underway_throw {e : Fault} (h : e ≠ .endOfInput) : (throw e : Reading α).Underway :=
  fun _ he => h (Except.error.inj he)

theorem underway_liftM {o : Except Fault α} (h : o ≠ .error .endOfInput) :
    (liftM o : Reading α).Underway := by
  intro s
  rw [runFrom_liftM]
  exact h

theorem underway_midway (r : Reading α) : r.midway.Underway := by
  intro s h
  rw [runFrom_midway] at h
  generalize (r.runFrom s).1 = o at h
  cases o with
  | error e => exact e.midway_ne_endOfInput (Except.error.inj h)
  | ok a => cases h

theorem underway_announced (n : Nat) : (announced n).Underway := by
  unfold announced
  split
  · exact underway_throw nofun
  · exact underway_midway _

theorem underway_optional (r : Reading α) : (optional r).Underway := by
  intro s
  cases hr : r.runFrom s with
  | mk o t =>
  cases o with
  | ok a =>
    rw [optional_of_ok hr]
    exact nofun
  | error e =>
    by_cases he : e = .endOfInput
    · subst he
      rw [optional_of_endOfInput hr]
      exact nofun
    · rw [optional_of_error hr he]
      exact fun h => he (Except.error.inj h)

theorem Underway.bind {r : Reading α} {f : α → Reading β} (h : r.Underway)
    (hf : ∀ a, (f a).Underway) : (r >>= f).Underway := by
  intro s
  have hr := h s
  rw [runFrom_bind]
  generalize r.runFrom s = x at hr ⊢
  obtain ⟨_ | a, t⟩ := x
  · exact fun he => hr (congrArg Except.error (Except.error.inj he))
  · exact hf a t

theorem Starts.bind {r : Reading α} {f : α → Reading β} (h : r.Starts)
    (hf : ∀ a, (f a).Underway) : (r >>= f).Starts := by
  intro s
  rw [← h s, runFrom_bind]
  generalize r.runFrom s = x
  obtain ⟨e | a, t⟩ := x
  · exact ⟨fun he => congrArg Except.error (Except.error.inj he),
      fun he => congrArg Except.error (Except.error.inj he)⟩
  · exact ⟨fun he => (hf a t he).elim, nofun⟩

theorem Starts.map {r : Reading α} (h : r.Starts) (f : α → β) :
    (r >>= fun a => pure (f a)).Starts :=
  h.bind fun a => underway_pure (f a)

theorem starts_exactly {n : Nat} (hn : 0 < n) : (exactly n).Starts := by
  intro s
  constructor
  · intro h
    rw [runFrom_exactly, Source.draw_eq] at h
    by_cases hle : n ≤ (Source.contents s.deliveries).length
    · rw [Source.drawn_of_le_length hle] at h
      cases h
    have hlt := Nat.lt_of_not_le hle
    cases hending : s.ending with
    | closed =>
      rw [hending, Source.drawn_closed hlt] at h
      cases hleft : Source.contents s.deliveries with
      | nil => exact ⟨hleft, hending, rfl⟩
      | cons b bs =>
        rw [hleft] at h
        cases h
    | failing text =>
      rw [hending, Source.drawn_failing hlt] at h
      cases h
    | endless byteAt =>
      rw [hending, Source.drawn_endless] at h
      cases h
  · intro hs
    obtain ⟨t, hrun, -⟩ := exactly_of_lt hs hn
    rw [hrun]
    rfl

theorem length_of_exactly {n : Nat} {s t : Source} {got : Bytes}
    (h : (exactly n).runFrom s = (.ok got, t)) : got.length = n := by
  rw [runFrom_exactly, Source.draw_eq] at h
  have hlen := @Source.length_drawn_of_filled n (Source.contents s.deliveries) s.ending s.delivered
  generalize Source.drawn n (Source.contents s.deliveries) s.ending s.delivered = x at h hlen
  obtain ⟨bs, stop⟩ := x
  cases stop with
  | filled =>
    cases h
    exact hlen rfl
  | ended => cases h
  | failed text => cases h

theorem starts_byte : byte.Starts := by
  intro s
  rw [← starts_exactly Nat.one_pos s, byte, runFrom_bind]
  cases hrun : (exactly 1).runFrom s with
  | mk o t =>
  cases o with
  | error e =>
    exact ⟨fun he => congrArg Except.error (Except.error.inj he),
      fun he => congrArg Except.error (Except.error.inj he)⟩
  | ok got =>
    obtain ⟨b, rfl⟩ := List.length_eq_one_iff.1 (length_of_exactly hrun)
    constructor <;> intro h <;> cases h

theorem underway_remainder (limit : Nat) : (remainder limit).Underway := by
  intro s
  rw [runFrom_remainder]
  obtain ⟨⟨got, stop⟩, t⟩ := Source.draw (min (limit + 1) 18446744073709551615) s
  unfold remainderOutcome
  cases stop with
  | failed text => exact nofun
  | _ =>
    dsimp only
    split <;> exact nofun

theorem underway_elements (r : Reading α) (room : Nat) (taken : List α) :
    (elements r room taken).Underway := by
  induction room generalizing taken with
  | zero => exact underway_throw nofun
  | succ room ih =>
    refine (underway_optional r).bind fun found => ?_
    cases found with
    | none => exact underway_pure taken.reverse
    | some v => exact ih (v :: taken)

inductive Each (r : Reading α) : Source → List α → Source → Prop where
  | nil (s : Source) : Each r s [] s
  | cons {s t u : Source} {v : α} {vs : List α} (h : r.runFrom s = (.ok v, t))
      (more : Each r t vs u) : Each r s (v :: vs) u

theorem each_of_elements {r : Reading α} (hr : r.Starts) {room : Nat} {taken vs : List α}
    {s t : Source} (h : (elements r room taken).runFrom s = (.ok vs, t)) :
    ∃ ws u, vs = taken.reverse ++ ws ∧ Each r s ws u ∧ u.Exhausted := by
  induction room generalizing taken s with
  | zero => cases h
  | succ room ih =>
    rw [elements, runFrom_bind] at h
    cases hrun : r.runFrom s with
    | mk o s' =>
    cases o with
    | ok v =>
      rw [optional_of_ok hrun] at h
      obtain ⟨ws, u, rfl, hws, hu⟩ := ih h
      exact ⟨v :: ws, u, by simp, .cons hrun hws, hu⟩
    | error e =>
      by_cases he : e = .endOfInput
      · subst he
        rw [optional_of_endOfInput hrun] at h
        cases h
        exact ⟨[], s, (List.append_nil _).symm, .nil s, (hr s).1 (by rw [hrun])⟩
      · rw [optional_of_error hrun he] at h
        cases h

theorem elements_of_exhausted {r : Reading α} (hr : r.Starts) {room : Nat} (hroom : 0 < room)
    {s : Source} (hs : s.Exhausted) : ((elements r room []).runFrom s).1 = .ok [] := by
  obtain ⟨room, rfl⟩ := Nat.exists_eq_succ_of_ne_zero hroom.ne'
  have hend := (hr s).2 hs
  cases hrun : r.runFrom s with
  | mk o t =>
  rw [hrun] at hend
  dsimp only at hend
  subst hend
  rw [elements, runFrom_bind, optional_of_endOfInput hrun]
  rfl

end Reading

namespace Frame
open Reading

theorem starts_unit (mask : UInt8) : (unit mask).Starts := by
  refine starts_byte.bind fun b => ?_
  dsimp only
  split
  · exact underway_pure none
  split
  · exact (underway_midway byte).bind fun c => underway_pure (some (c ^^^ mask))
  · exact underway_pure (some (b ^^^ mask))

theorem underway_collect (mask : UInt8) (limit room : Nat) (taken : Bytes) (next : Option UInt8) :
    (collect mask limit room taken next).Underway := by
  induction room generalizing taken next with
  | zero =>
    cases next with
    | none => exact underway_pure taken.reverse
    | some b => exact underway_throw nofun
  | succ room ih =>
    cases next with
    | none => exact underway_pure taken.reverse
    | some b => exact (underway_midway (unit mask)).bind fun next => ih (b :: taken) next

theorem starts_read (mask : UInt8) (limit : Nat) : (read mask limit).Starts :=
  (starts_unit mask).bind fun next => underway_collect mask limit limit [] next

end Frame

open Reading

theorem FixedWidth.starts_read (w : Width) : (read w).Starts := (starts_exactly w.bytes_pos).map _

theorem FixedWidth.starts_readInt (w : Width) : (readInt w).Starts := (starts_read w).map _

theorem BigInteger.starts_read (limits : Limits) : (read limits).Starts :=
  (FixedWidth.starts_readInt .w64).bind fun header =>
    (underway_liftM (isVerdict_magnitudeSize limits header).ne_endOfInput).bind fun size =>
      (underway_announced size).bind fun field => underway_liftM (isVerdict_build _ field).ne_endOfInput

theorem Rational.starts_read (limits : Limits) : (read limits).Starts :=
  (BigInteger.starts_read limits).bind fun num => (underway_midway _).bind fun den =>
    underway_liftM (isVerdict_build num den).ne_endOfInput

theorem BigFloat.starts_read (limits : Limits) : (read limits).Starts := by
  refine (FixedWidth.starts_readInt .w8).bind fun kind =>
    (underway_liftM (isVerdict_ofKind kind).ne_endOfInput).bind fun found => ?_
  cases found with
  | inl x => exact underway_pure x
  | inr neg =>
    exact (underway_midway _).bind fun fields => underway_liftM (isVerdict_build neg fields).ne_endOfInput

theorem Presence.starts_read (order : NilOrder) : (read order).Starts :=
  starts_byte.bind fun b => underway_liftM (isVerdict_check order b).ne_endOfInput

namespace Leaf
variable {α : Type}

theorem starts_read (limits : Limits) {l : Leaf α} (hl : l.requiresTerminator = false) :
    (l.read limits).Starts := by
  cases l with
  | bool => exact starts_byte.bind fun b => underway_liftM (isVerdict_boolOf b).ne_endOfInput
  | unsigned w => exact FixedWidth.starts_read w
  | signed w => exact (FixedWidth.starts_read w).map _
  | float f => exact (FixedWidth.starts_read f.width).map _
  | bytes => cases hl
  | string => cases hl
  | integer => exact BigInteger.starts_read limits
  | rational => exact Rational.starts_read limits
  | bigFloat => exact BigFloat.starts_read limits

/-- The value that no bytes at all stand for. -/
def empty? : {α : Type} → Leaf α → Option α
  | _, .bytes => some []
  | _, .string => some ""
  | _, _ => none

theorem stringOf_nil : stringOf [] = .ok "" := by
  rw [stringOf, Utf8.decode, Utf8.charsFrom_nil]
  rfl

theorem underway_read (limits : Limits) {l : Leaf α} (hl : l.requiresTerminator = true) :
    (l.read limits).Underway := by
  cases l with
  | bytes => exact underway_remainder _
  | string =>
    exact (underway_remainder _).bind fun bs => underway_liftM (isVerdict_stringOf bs).ne_endOfInput
  | _ => cases hl

theorem exists_empty (limits : Limits) {l : Leaf α} (hl : l.requiresTerminator = true) :
    ∃ v, l.empty? = some v ∧ l.get limits [] = .ok (v, 0) ∧
      ∀ s, s.Exhausted → ((l.read limits).runFrom s).1 = .ok v := by
  cases l with
  | bytes =>
    refine ⟨[], rfl, rfl, fun s hs => ?_⟩
    obtain ⟨t, hrun, -⟩ := remainder_of_le hs (by decide) (Nat.zero_le limits.frameBytes)
    rw [Leaf.read, hrun]
  | string =>
    refine ⟨"", rfl, by rw [Leaf.get, stringOf_nil]; rfl, fun s hs => ?_⟩
    obtain ⟨t, hrun, -⟩ := remainder_of_le hs (by decide) (Nat.zero_le limits.frameBytes)
    rw [Leaf.read, runFrom_bind, hrun]
    dsimp only
    rw [stringOf_nil]
    rfl
  | _ => cases hl

end Leaf

namespace Codec
variable {α : Type}

def empty? : {α : Type} → Codec α → Option α
  | _, .leaf l => l.empty?
  | _, .seq _ => some []
  | _, .convert _ restore c => c.empty?.map restore
  | _, _ => none

theorem starts_read (limits : Limits) {c : Codec α} (hc : c.IsBuiltIn) (ho : ¬c.IsOpen) :
    (c.read limits).Starts := by
  induction c with
  | leaf l => exact Leaf.starts_read limits (Bool.eq_false_of_not_eq_true ho)
  | custom c => exact hc.elim
  | framed reversed c ih =>
    exact (Frame.starts_read _ _).bind fun raw => underway_liftM (whole_ne_endOfInput _ raw)
  | nullable order c ih =>
    refine (Presence.starts_read order).bind fun isNil => ?_
    cases isNil with
    | true => exact underway_pure none
    | false => exact (underway_midway _).bind fun v => underway_pure (some v)
  | seq c ih => exact (ho trivial).elim
  | convert represent restore c ih => exact (ih hc ho).map restore

theorem starts_read_unit (limits : Limits) {c : Codec α} (hc : c.IsBuiltIn) :
    (c.unit.read limits).Starts :=
  starts_read limits (isBuiltIn_unit hc) (not_isOpen_unit c)

theorem underway_read (limits : Limits) {c : Codec α} (ho : c.IsOpen) : (c.read limits).Underway := by
  induction c with
  | leaf l => exact Leaf.underway_read limits ho
  | seq c ih =>
    rw [read_seq]
    exact underway_elements _ _ _
  | convert represent restore c ih => exact (ih ho).bind fun v => underway_pure (restore v)
  | _ => exact ho.elim

theorem exists_empty (limits : Limits) {c : Codec α} (hc : c.IsBuiltIn) (ho : c.IsOpen) :
    ∃ v, c.empty? = some v ∧ c.get limits [] = .ok (v, 0) ∧
      ∀ s, s.Exhausted → ((c.read limits).runFrom s).1 = .ok v := by
  induction c with
  | leaf l => exact Leaf.exists_empty limits ho
  | seq c ih =>
    refine ⟨[], rfl, by rw [get_seq, elements_nil], fun s hs => ?_⟩
    have hroom : 0 < Bytes.lengthBound := by decide
    rw [read_seq]
    exact elements_of_exhausted (starts_read_unit limits (c := c) hc) hroom hs
  | convert represent restore c ih =>
    obtain ⟨v, hv, hget, hread⟩ := ih hc ho
    refine ⟨restore v, by rw [empty?, hv]; rfl, ?_, fun s hs => ?_⟩
    · rw [get, hget]
      rfl
    · have hrun := hread s hs
      change ((c.read limits >>= fun v => pure (restore v)).runFrom s).1 = _
      rw [runFrom_bind]
      generalize (c.read limits).runFrom s = x at hrun ⊢
      obtain ⟨o, t⟩ := x
      dsimp only at hrun
      subst hrun
      rfl
  | _ => exact ho.elim

/-- The end of the input is reported exactly if nothing was there and the codec needs something: on
the empty byte string, and on a source that closes without a byte. What needs nothing finds its empty
value there. A sequence ends where the source does, after its last whole element. -/
theorem endOfInput_iff (c : Codec α) (hc : c.IsBuiltIn) (limits : Limits) :
    (∀ bs, c.get limits bs = .error .endOfInput ↔ bs = [] ∧ ¬c.IsOpen) ∧
    (∀ s, ((c.read limits).runFrom s).1 = .error .endOfInput ↔ ¬c.IsOpen ∧ s.Exhausted) ∧
    (c.IsOpen → ∃ v, c.empty? = some v ∧ c.get limits [] = .ok (v, 0) ∧
      ∀ s, s.Exhausted → ((c.read limits).runFrom s).1 = .ok v) ∧
    ∀ s vs t, ((Codec.seq c).read limits).runFrom s = (.ok vs, t) →
      ∃ u, Each (c.unit.read limits) s vs u ∧ u.Exhausted := by
  refine ⟨fun bs => ?_, fun s => ?_, exists_empty limits hc, fun s vs t h => ?_⟩
  · by_cases ho : c.IsOpen
    · exact ⟨fun h => (underway_decoder limits hc ho bs h).elim, fun h => (h.2 ho).elim⟩
    · have hstarts := starts_decoder limits hc ho
      refine ⟨fun h => ⟨?_, ho⟩, ?_⟩
      · by_contra hbs
        exact hstarts.cons hbs h
      · rintro ⟨rfl, -⟩
        exact hstarts.nil
  · by_cases ho : c.IsOpen
    · exact ⟨fun h => (underway_read limits ho s h).elim, fun h => (h.1 ho).elim⟩
    · rw [starts_read limits hc ho s]
      exact (and_iff_right ho).symm
  · rw [read_seq] at h
    obtain ⟨ws, u, rfl, hws, hu⟩ := each_of_elements (starts_read_unit limits hc) h
    exact ⟨u, hws, hu⟩

/-- An optional string has a first byte; a sequence of them has none if it is empty. An interruption
is not an end, and neither is a failure. -/
theorem endOfInput_iff_optional_strings :
    let c : Codec (Option String) := .nullable .last (.leaf .string)
    let ended : Source := ⟨[.interruption], .closed, 7⟩
    let failed : Source := ⟨[.interruption], .failing "disk on fire", 7⟩
    c.IsBuiltIn ∧ c.get {} [] = .error .endOfInput ∧ c.get {} [0x03] ≠ .error .endOfInput ∧
      ((c.read {}).runFrom ended).1 = .error .endOfInput ∧
      ((c.read {}).runFrom failed).1 ≠ .error .endOfInput ∧
      (Codec.seq c).get {} [] = .ok ([], 0) ∧ (((Codec.seq c).read {}).runFrom ended).1 = .ok [] := by
  intro c ended failed
  have hc : c.IsBuiltIn := trivial
  have hs : (Codec.seq c).IsBuiltIn := trivial
  have ho : ¬c.IsOpen := id
  have hended : ended.Exhausted := ⟨rfl, rfl, rfl⟩
  have hfailed : ¬failed.Exhausted := fun h => nomatch h.closed
  obtain ⟨hget, hread, -, -⟩ := endOfInput_iff c hc {}
  obtain ⟨-, -, hempty, -⟩ := endOfInput_iff (Codec.seq c) hs {}
  obtain ⟨v, hv, hgets, hreads⟩ := hempty trivial
  cases hv
  have hnil := (hget []).2 ⟨rfl, ho⟩
  have hcons : c.get {} [0x03] ≠ .error .endOfInput := fun h => nomatch ((hget _).1 h).1
  exact ⟨hc, hnil, hcons, (hread ended).2 ⟨ho, hended⟩, fun h => hfailed ((hread failed).1 h).2, hgets,
    hreads ended hended⟩

end Codec
end SortKey
