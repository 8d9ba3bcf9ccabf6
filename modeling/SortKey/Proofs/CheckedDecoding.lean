import SortKey.Proofs.Concatenation

/-! Decoding with every offset checked. The decoders take a slice that starts behind the end to be empty and
let a count below zero wrap around. Here either leaves decoding stuck, without any outcome, and so does a
loop that has not ended after as many rounds as there are bytes. Unless a codec of the caller's own takes up
more bytes than there are, nothing gets stuck, and the outcome is the same. -/
namespace SortKey
variable {α β : Type}

/-- The outcome of decoding, if it does not get stuck. -/
abbrev Checked := ExceptT Fault Option

namespace Checked

def stuck : Checked α := ExceptT.mk none

def rest (bs : Bytes) (n : Nat) : Checked Bytes := if n ≤ bs.length then return bs.drop n else stuck

def left (bs : Bytes) (n : Nat) : Checked Nat := if n ≤ bs.length then return bs.length - n else stuck

def midway (x : Checked α) : Checked α := ExceptT.adapt Fault.midway x

def filling (found : Checked (α × Nat)) (bs : Bytes) : Checked α := do
  let (v, n) ← found
  let count ← left bs n
  if count = 0 then return v else throw (.trailing count)

def framed (mask : UInt8) (get : Bytes → Checked (α × Nat)) (bs : Bytes) : Checked (α × Nat) := do
  let (raw, n) ← Frame.get mask bs
  return (← filling (midway (get raw)) raw, n)

/-- Elements from `n` on up to the end of `bs`, after those `taken`, which stand in reverse. There is time
for as many rounds as the first argument says. -/
def elements (element : Bytes → Checked (α × Nat)) (bs : Bytes) :
    Nat → Nat → List α → Checked (List α × Nat)
  | 0, n, taken => if bs.length ≤ n then return (taken.reverse, n) else stuck
  | room + 1, n, taken =>
    if bs.length ≤ n then return (taken.reverse, n)
    else do
      let (v, len) ← element (← rest bs n)
      if len = 0 then throw (.malformed .emptyElement)
      elements element bs room (n + len) (v :: taken)

end Checked

def BigInteger.getChecked (limits : Limits) (bs : Bytes) : Checked (Int × Nat) := do
  let (header, n) ← FixedWidth.getInt .w64 bs
  let size ← magnitudeSize limits header
  let field ← Slice.midway (Slice.exactly size (← Checked.rest bs n))
  return (← build (header < 0) field, n + size)

def Rational.getChecked (limits : Limits) (bs : Bytes) : Checked (Rat × Nat) := do
  let (num, n) ← BigInteger.getChecked limits bs
  let (den, m) ← Checked.midway (BigInteger.getChecked limits (← Checked.rest bs n))
  return (← build num den, n + m)

def BigFloat.getFieldsChecked (negative : Bool) (bs : Bytes) : Checked (Fields × Nat) := do
  let (exponent, i) ← FixedWidth.getInt .w32 bs
  let (mantissa, j) ← Frame.get (Frame.maskOf negative) (← Checked.rest bs i)
  let (precision, k) ← FixedWidth.getInt .w32 (← Checked.rest bs (i + j))
  let mode ← Slice.byte (← Checked.rest bs (i + j + k))
  return (⟨exponent, mantissa, precision, mode⟩, i + j + k + 1)

def BigFloat.getChecked (bs : Bytes) : Checked (BigFloat × Nat) := do
  let (kind, n) ← FixedWidth.getInt .w8 bs
  match ← ofKind kind with
  | .inl x => return (x, n)
  | .inr negative =>
    let (fields, m) ← Checked.midway (getFieldsChecked negative (← Checked.rest bs n))
    return (← fields.build negative, n + m)

def Leaf.getChecked (limits : Limits) : {α : Type} → Leaf α → Bytes → Checked (α × Nat)
  | _, .integer, bs => BigInteger.getChecked limits bs
  | _, .rational, bs => Rational.getChecked limits bs
  | _, .bigFloat, bs => BigFloat.getChecked bs
  | _, l, bs => l.get limits bs

namespace Codec

def getChecked (limits : Limits) : {α : Type} → Codec α → Bytes → Checked (α × Nat)
  | _, .leaf l, bs => l.getChecked limits bs
  | _, .custom c, bs => c.get bs
  | _, .framed reversed c, bs => Checked.framed (Frame.maskOf reversed) (c.getChecked limits) bs
  | _, .nullable order c, bs => do
    if ← Presence.get order bs then return (none, 1)
    let (v, n) ← Checked.midway (c.getChecked limits (← Checked.rest bs 1))
    return (some v, n + 1)
  | _, .seq c, bs =>
    Checked.elements
      (if c.requiresTerminator then Checked.framed Frame.plain (c.getChecked limits)
        else c.getChecked limits) bs bs.length 0 []
  | _, .convert _ restore c, bs => do
    let (v, n) ← c.getChecked limits bs
    return (restore v, n)

def decodeChecked (limits : Limits) (c : Codec α) (bs : Bytes) : Checked α :=
  Checked.filling (c.getChecked limits bs) bs

/-- No codec of the caller's own takes up more bytes than there are. -/
def Contained : {α : Type} → Codec α → Prop
  | _, .leaf _ => True
  | _, .custom c => ∀ bs v n, c.get bs = .ok (v, n) → n ≤ bs.length
  | _, .framed _ c => c.Contained
  | _, .nullable _ c => c.Contained
  | _, .seq c => c.Contained
  | _, .convert _ _ c => c.Contained

theorem contained_of_isBuiltIn {c : Codec α} (h : c.IsBuiltIn) : c.Contained := by
  induction c with
  | leaf l => trivial
  | custom c => exact h.elim
  | framed reversed c ih => exact ih h
  | nullable order c ih => exact ih h
  | seq c ih => exact ih h
  | convert represent restore c ih => exact ih h

theorem contained_unit {c : Codec α} (h : c.Contained) : c.unit.Contained := by
  obtain hu | hu := c.unit_eq_or <;> rw [hu] <;> exact h

theorem getChecked_seq (limits : Limits) (c : Codec α) (bs : Bytes) :
    (Codec.seq c).getChecked limits bs =
      Checked.elements (c.unit.getChecked limits) bs bs.length 0 [] := by
  rw [getChecked]
  congr 1
  cases h : c.requiresTerminator with
  | false => rw [unit_of_false h, if_neg Bool.false_ne_true]
  | true =>
    rw [unit_of_true h, if_pos rfl]
    rfl

end Codec

/-! ### Counts -/

namespace Decoder
variable {d : Decoder α}

def Within (d : Decoder α) : Prop := ∀ bs a n, d.run bs = .ok (a, n) → n ≤ bs.length

theorem Accepts.within {P : α → Bytes → Prop} (h : d.Accepts P) : d.Within := by
  intro bs a n hrun
  obtain ⟨x, rest, rfl, rfl, -⟩ := h bs a n hrun
  rw [List.length_append]
  exact Nat.le_add_right _ _

theorem Within.accepts (h : d.Within) : d.Accepts fun _ _ => True := by
  intro bs a n hrun
  have hn := h bs a n hrun
  exact ⟨bs.take n, bs.drop n, (List.take_append_drop n bs).symm, List.length_take_of_le hn, trivial⟩

theorem within_framed (limits : Limits) (reversed : Bool) (c : Codec α) :
    ((Codec.framed reversed c).decoder limits).Within := by
  rw [Codec.decoder_framed]
  exact ((accepts_frame _).check (R := fun _ _ => True) fun _ _ _ _ _ => trivial).within

end Decoder

namespace Codec
open Decoder

theorem within_decoder (limits : Limits) {c : Codec α} (hc : c.Contained) :
    (c.decoder limits).Within := by
  induction c with
  | leaf l =>
    rw [decoder_leaf]
    exact (l.accepts_decoder limits).within
  | custom c => exact hc
  | framed reversed c ih => exact within_framed limits reversed c
  | nullable order c ih =>
    rw [decoder_nullable]
    refine ((Presence.accepts_decoder order).bind (R := fun _ _ => True) fun isNil x hx => ?_).within
    cases isNil with
    | true => exact accepts_pure trivial
    | false => exact (ih hc).accepts.midway.map fun _ _ _ => trivial
  | seq c ih =>
    rw [decoder_seq]
    have hunit : (c.unit.decoder limits).Within := by
      obtain hu | hu := c.unit_eq_or <;> rw [hu]
      · exact within_framed limits false c
      · exact ih hc
    exact (hunit.accepts.elements (Q := fun _ _ => True) trivial fun _ _ _ _ _ _ => trivial).within
  | convert represent restore c ih =>
    rw [decoder_convert]
    exact ((ih hc).accepts.map (R := fun _ _ => True) fun _ _ h => h).within

end Codec

theorem FixedWidth.le_length_of_getInt {w : Width} {bs : Bytes} {v : Int} {n : Nat}
    (h : getInt w bs = .ok (v, n)) : n ≤ bs.length := by
  rw [← run_intDecoder] at h
  exact (accepts_intDecoder w).within bs v n h

theorem BigInteger.le_length_of_get {limits : Limits} {bs : Bytes} {v : Int} {n : Nat}
    (h : get limits bs = .ok (v, n)) : n ≤ bs.length := by
  rw [← run_decoder] at h
  exact (accepts_decoder limits).within bs v n h

theorem Frame.le_length_of_get {mask : UInt8} {bs raw : Bytes} {n : Nat}
    (h : get mask bs = .ok (raw, n)) : n ≤ bs.length :=
  (Decoder.accepts_frame mask).within bs raw n h

/-! ### Outcomes -/

namespace Checked
variable {x : Checked α} {r : Except Fault α}

/-- `x` does not get stuck, and comes to `r`. -/
def Yields (x : Checked α) (r : Except Fault α) : Prop := x.run = some r

theorem yields_lift (r : Except Fault α) : Yields (liftM r) r := rfl

theorem Yields.bind (h : Yields x r) {f : α → Checked β} {g : α → Except Fault β}
    (hf : ∀ a, r = .ok a → Yields (f a) (g a)) : Yields (x >>= f) (r >>= g) := by
  rw [Yields, ExceptT.run_bind, h]
  cases r with
  | error e => rfl
  | ok a => exact hf a rfl

theorem Yields.midway (h : Yields x r) : Yields x.midway (Slice.midway r) := by
  change Except.mapError Fault.midway <$> x.run = _
  rw [h]
  rfl

theorem yields_rest {bs : Bytes} {n : Nat} (hn : n ≤ bs.length) {f : Bytes → Checked β}
    {o : Except Fault β} (h : Yields (f (bs.drop n)) o) : Yields (rest bs n >>= f) o := by
  rw [rest, if_pos hn, pure_bind]
  exact h

theorem yields_left {bs : Bytes} {n : Nat} (hn : n ≤ bs.length) {f : Nat → Checked β}
    {o : Except Fault β} (h : Yields (f (bs.length - n)) o) : Yields (left bs n >>= f) o := by
  rw [left, if_pos hn, pure_bind]
  exact h

theorem yields_filling {found : Checked (α × Nat)} {o : Except Fault (α × Nat)} {bs : Bytes}
    (h : Yields found o) (hn : ∀ v n, o = .ok (v, n) → n ≤ bs.length) :
    Yields (filling found bs) (o >>= fun p => Slice.filled bs.length p.1 p.2) := by
  refine h.bind ?_
  intro ⟨v, n⟩ hfound
  have hle := hn v n hfound
  dsimp only
  rw [Slice.filled_of_le hle]
  refine yields_left hle ?_
  split <;> rfl

theorem yields_whole {found : Checked (α × Nat)} {get : Bytes → Except Fault (α × Nat)} {raw : Bytes}
    (h : Yields found (get raw)) (hn : ∀ v n, get raw = .ok (v, n) → n ≤ raw.length) :
    Yields (filling (midway found) raw) (Slice.whole get raw) := by
  rw [Slice.whole]
  cases hget : get raw with
  | error e =>
    rw [hget] at h
    refine yields_filling h.midway ?_
    intro v n hfound
    cases hfound
  | ok p =>
    rw [hget] at h hn
    exact yields_filling h.midway hn

end Checked

open Checked

theorem BigInteger.yields_getChecked (limits : Limits) (bs : Bytes) :
    Yields (getChecked limits bs) (get limits bs) := by
  refine (yields_lift _).bind ?_
  intro ⟨header, n⟩ h
  refine (yields_lift _).bind fun size _ => yields_rest (FixedWidth.le_length_of_getInt h) ?_
  exact (yields_lift _).bind fun field _ => (yields_lift _).bind fun v _ => rfl

theorem Rational.yields_getChecked (limits : Limits) (bs : Bytes) :
    Yields (getChecked limits bs) (get limits bs) := by
  refine (BigInteger.yields_getChecked limits bs).bind ?_
  intro ⟨num, n⟩ h
  refine yields_rest (BigInteger.le_length_of_get h) ?_
  refine (BigInteger.yields_getChecked limits _).midway.bind ?_
  intro ⟨den, m⟩ _
  exact (yields_lift _).bind fun q _ => rfl

namespace BigFloat

theorem yields_getFieldsChecked (negative : Bool) (bs : Bytes) :
    Yields (getFieldsChecked negative bs) (getFields negative bs) := by
  refine (yields_lift _).bind ?_
  intro ⟨exponent, i⟩ hi
  have hle := FixedWidth.le_length_of_getInt hi
  refine yields_rest hle ((yields_lift _).bind ?_)
  intro ⟨mantissa, j⟩ hj
  have hle' := Frame.le_length_of_get hj
  rw [List.length_drop] at hle'
  refine yields_rest (by omega) ((yields_lift _).bind ?_)
  intro ⟨precision, k⟩ hk
  have hle'' := FixedWidth.le_length_of_getInt hk
  rw [List.length_drop] at hle''
  exact yields_rest (by omega) ((yields_lift _).bind fun mode _ => rfl)

theorem yields_getChecked (bs : Bytes) : Yields (getChecked bs) (get bs) := by
  refine (yields_lift _).bind ?_
  intro ⟨kind, n⟩ hn
  refine (yields_lift _).bind fun found _ => ?_
  cases found with
  | inl x => rfl
  | inr negative =>
    refine yields_rest (FixedWidth.le_length_of_getInt hn) ?_
    refine (yields_getFieldsChecked negative _).midway.bind ?_
    intro ⟨fields, m⟩ _
    exact (yields_lift _).bind fun x _ => rfl

end BigFloat

theorem Leaf.yields_getChecked (limits : Limits) (l : Leaf α) (bs : Bytes) :
    Yields (l.getChecked limits bs) (l.get limits bs) := by
  cases l with
  | integer => exact BigInteger.yields_getChecked limits bs
  | rational => exact Rational.yields_getChecked limits bs
  | bigFloat => exact BigFloat.yields_getChecked bs
  | _ => rfl

namespace Checked

theorem yields_framed (mask : UInt8) {checked : Bytes → Checked (α × Nat)}
    {get : Bytes → Except Fault (α × Nat)} (h : ∀ raw, Yields (checked raw) (get raw))
    (hn : ∀ raw v n, get raw = .ok (v, n) → n ≤ raw.length) (bs : Bytes) :
    Yields (framed mask checked bs) (Frame.getWhole mask get bs) := by
  refine (yields_lift _).bind ?_
  intro ⟨raw, n⟩ _
  exact (yields_whole (h raw) (hn raw)).bind fun v _ => rfl

theorem elements_of_le (checked : Bytes → Checked (α × Nat)) {bs : Bytes} (room : Nat) {n : Nat}
    (taken : List α) (hn : bs.length ≤ n) :
    elements checked bs room n taken = pure (taken.reverse, n) := by
  cases room <;> rw [elements, if_pos hn]

/-- Each round leaves fewer bytes, since an element that takes up none of them ends the sequence. -/
theorem yields_elements {checked : Bytes → Checked (α × Nat)} {get : Bytes → Except Fault (α × Nat)}
    (h : ∀ raw, Yields (checked raw) (get raw)) (hget : ∀ raw v n, get raw = .ok (v, n) → n ≤ raw.length)
    (bs : Bytes) (room n : Nat) (taken : List α) (hn : n ≤ bs.length) (hroom : bs.length ≤ n + room) :
    Yields (elements checked bs room n taken)
      ((fun p => (taken.reverse ++ p.1, n + p.2)) <$> Codec.elements get (bs.drop n)) := by
  induction room generalizing n taken with
  | zero =>
    have hend : bs.length ≤ n := hroom
    rw [elements_of_le checked 0 taken hend, List.drop_of_length_le hend, Codec.elements_nil]
    simp [Yields]
  | succ room ih =>
    by_cases hend : bs.length ≤ n
    · rw [elements_of_le checked _ taken hend, List.drop_of_length_le hend, Codec.elements_nil]
      simp [Yields]
    have hmore : bs.drop n ≠ [] := by simpa [List.drop_eq_nil_iff] using hend
    obtain ⟨b, tail, htail⟩ := List.exists_cons_of_ne_nil hmore
    rw [elements, if_neg hend, htail, Codec.elements_cons, ← htail, map_bind]
    refine yields_rest hn ((h _).bind ?_)
    intro ⟨v, len⟩ hv
    have hle := hget _ v len hv
    rw [List.length_drop] at hle
    dsimp only
    by_cases hlen : len = 0
    · rw [if_pos hlen, if_pos hlen]
      rfl
    · have hrest := ih (n + len) (v :: taken) (by omega) (by omega)
      rw [if_neg hlen, if_neg hlen, List.drop_drop]
      convert hrest using 1
      cases Codec.elements get (bs.drop (n + len)) <;> simp [Nat.add_assoc]

end Checked

namespace Codec

theorem yields_getChecked (limits : Limits) {c : Codec α} (hc : c.Contained) (bs : Bytes) :
    Yields (c.getChecked limits bs) (c.get limits bs) := by
  induction c generalizing bs with
  | leaf l => exact l.yields_getChecked limits bs
  | custom c => exact yields_lift _
  | framed reversed c ih => exact yields_framed _ (ih hc) (within_decoder limits (c := c) hc) bs
  | nullable order c ih =>
    refine (yields_lift _).bind fun isNil hnil => ?_
    cases isNil with
    | true => rfl
    | false =>
      have hlen : 1 ≤ bs.length := by
        cases bs with
        | nil => cases hnil
        | cons b bs => exact Nat.le_add_left 1 _
      refine yields_rest hlen ((ih hc _).midway.bind ?_)
      intro ⟨v, n⟩ _
      rfl
  | seq c ih =>
    have hunit : ∀ raw, Yields (c.unit.getChecked limits raw) (c.unit.get limits raw) := by
      obtain hu | hu := c.unit_eq_or <;> rw [hu]
      · exact yields_framed _ (ih hc) (within_decoder limits hc)
      · exact ih hc
    have hwithin := within_decoder limits (contained_unit (c := c) hc)
    have h := yields_elements hunit hwithin bs bs.length 0 [] (Nat.zero_le _) (by omega)
    rw [getChecked_seq, get_seq]
    convert h using 1
    rw [List.drop_zero]
    cases elements (c.unit.get limits) bs <;> simp
  | convert represent restore c ih =>
    refine (ih hc bs).bind ?_
    intro ⟨v, n⟩ _
    rfl

theorem yields_decodeChecked (limits : Limits) {c : Codec α} (hc : c.Contained) (bs : Bytes) :
    Yields (c.decodeChecked limits bs) (c.decode limits bs) := by
  have hwithin := within_decoder limits hc
  exact yields_filling (yields_getChecked limits hc bs) (hwithin bs)

/-- A codec that takes up one byte more than there are is where decoding gets stuck. -/
example : (decodeChecked {} (.custom ⟨"greedy", fun _ => pure (), fun bs => .ok ((), bs.length + 1),
    throw .endOfInput, false⟩ : Codec Unit) [0x07]).run = none := by rfl

end Codec
end SortKey
