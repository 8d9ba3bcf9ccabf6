import SortKey.Codec.Get
import SortKey.Proofs.Encoding

/-! Decoders put together from parts. What finds a leaf or a codec at the front of a byte string finds its
parts one after another, each where the last one ended. -/
namespace SortKey

/-- Finds a value at the front, and the number of bytes it takes up. -/
structure Decoder (α : Type) where
  run : Bytes → Except Fault (α × Nat)

namespace Decoder
variable {α β : Type}

/-- The second part starts where the first one ends. -/
instance : Monad Decoder where
  pure a := ⟨fun _ => .ok (a, 0)⟩
  bind d f := ⟨fun bs => do
    let p ← d.run bs
    let q ← (f p.1).run (bs.drop p.2)
    return (q.1, p.2 + q.2)⟩

def ofOutcome (r : Except Fault α) : Decoder α := ⟨fun _ => (·, 0) <$> r⟩

def midway (d : Decoder α) : Decoder α := ⟨fun bs => Slice.midway (d.run bs)⟩

def exactly (n : Nat) : Decoder Bytes := ⟨fun bs => (·, n) <$> Slice.exactly n bs⟩

def byte : Decoder UInt8 := ⟨fun bs => (·, 1) <$> Slice.byte bs⟩

def frame (mask : UInt8) : Decoder Bytes := ⟨Frame.get mask⟩

def remainder : Decoder Bytes := ⟨fun bs => .ok (bs, bs.length)⟩

@[simp] theorem run_pure (a : α) (bs : Bytes) : (pure a : Decoder α).run bs = pure (a, 0) := rfl

@[simp] theorem run_bind (d : Decoder α) (f : α → Decoder β) (bs : Bytes) :
    (d >>= f).run bs =
      d.run bs >>= fun p => (fun q => (q.1, p.2 + q.2)) <$> (f p.1).run (bs.drop p.2) := by
  change (d.run bs >>= _) = _
  simp

@[simp] theorem run_map (f : α → β) (d : Decoder α) (bs : Bytes) :
    (f <$> d).run bs = (fun p => (f p.1, p.2)) <$> d.run bs := by
  change (d.run bs >>= _) = _
  cases d.run bs <;> rfl

@[simp] theorem run_ofOutcome (r : Except Fault α) (bs : Bytes) :
    (ofOutcome r).run bs = (·, 0) <$> r := rfl

@[simp] theorem run_exactly (n : Nat) (bs : Bytes) :
    (exactly n).run bs = (·, n) <$> Slice.exactly n bs := rfl

@[simp] theorem run_byte (bs : Bytes) : byte.run bs = (·, 1) <$> Slice.byte bs := rfl

@[simp] theorem run_frame (mask : UInt8) (bs : Bytes) : (frame mask).run bs = Frame.get mask bs := rfl

@[simp] theorem run_remainder (bs : Bytes) : remainder.run bs = .ok (bs, bs.length) := rfl

@[simp] theorem run_midway (d : Decoder α) (bs : Bytes) :
    d.midway.run bs = Slice.midway (d.run bs) := rfl

theorem byte_eq : byte = exactly 1 >>= fun
    | b :: _ => pure b
    | [] => ofOutcome (.error .endOfInput) := by
  rw [byte, Decoder.mk.injEq]
  funext bs
  cases bs with
  | nil => rfl
  | cons b bs => rfl

@[simp] theorem midway_map (f : α → β) (r : Except Fault α) :
    Slice.midway (f <$> r) = f <$> Slice.midway r := by
  cases r <;> rfl

end Decoder

open Decoder

def FixedWidth.decoder (w : Width) : Decoder (BitVec w.bits) := ofBytes w <$> exactly w.bytes

theorem FixedWidth.run_decoder (w : Width) : (decoder w).run = get w := by
  funext bs
  simp [decoder, get]

def FixedWidth.intDecoder (w : Width) : Decoder Int := (fun v => (flip w v).toInt) <$> decoder w

theorem FixedWidth.run_intDecoder (w : Width) : (intDecoder w).run = getInt w := by
  funext bs
  simp [intDecoder, getInt, run_decoder]

def BigInteger.decoder (limits : Limits) : Decoder Int := do
  let header ← FixedWidth.intDecoder .w64
  let size ← ofOutcome (magnitudeSize limits header)
  let field ← midway (exactly size)
  ofOutcome (build (header < 0) field)

theorem BigInteger.run_decoder (limits : Limits) : (decoder limits).run = get limits := by
  funext bs
  simp [decoder, get, FixedWidth.run_intDecoder]

def Rational.decoder (limits : Limits) : Decoder Rat := do
  let num ← BigInteger.decoder limits
  let den ← midway (BigInteger.decoder limits)
  ofOutcome (build num den)

theorem Rational.run_decoder (limits : Limits) : (decoder limits).run = get limits := by
  funext bs
  simp [decoder, get, BigInteger.run_decoder]

def BigFloat.fieldsDecoder (negative : Bool) : Decoder Fields := do
  let exponent ← FixedWidth.intDecoder .w32
  let mantissa ← frame (Frame.maskOf negative)
  let precision ← FixedWidth.intDecoder .w32
  let mode ← byte
  return ⟨exponent, mantissa, precision, mode⟩

theorem BigFloat.run_fieldsDecoder (negative : Bool) :
    (fieldsDecoder negative).run = getFields negative := by
  funext bs
  simp [fieldsDecoder, getFields, FixedWidth.run_intDecoder, Nat.add_assoc]

def BigFloat.decoder : Decoder BigFloat := do
  let kind ← FixedWidth.intDecoder .w8
  match ← ofOutcome (ofKind kind) with
  | .inl x => return x
  | .inr negative =>
    let fields ← midway (fieldsDecoder negative)
    ofOutcome (fields.build negative)

theorem BigFloat.run_decoder : decoder.run = get := by
  funext bs
  simp only [decoder, get, run_bind, FixedWidth.run_intDecoder]
  congr 1
  funext p
  cases h : ofKind p.1 with
  | error e => simp
  | ok found => cases found <;> simp [run_fieldsDecoder]

namespace Leaf
variable {α : Type}

def decoder (limits : Limits) : {α : Type} → Leaf α → Decoder α
  | _, .bool => do ofOutcome (boolOf (← byte))
  | _, .unsigned w => FixedWidth.decoder w
  | _, .signed w => FixedWidth.flip w <$> FixedWidth.decoder w
  | _, .float f => Ieee.ofOrdered <$> FixedWidth.decoder f.width
  | _, .bytes => remainder
  | _, .string => do ofOutcome (stringOf (← remainder))
  | _, .integer => BigInteger.decoder limits
  | _, .rational => Rational.decoder limits
  | _, .bigFloat => BigFloat.decoder

theorem run_decoder (limits : Limits) (l : Leaf α) : (l.decoder limits).run = l.get limits := by
  funext bs
  cases l with
  | bool => simp [decoder, get]
  | unsigned w => simp [decoder, get, FixedWidth.run_decoder]
  | signed w => simp [decoder, get, FixedWidth.run_decoder]
  | float f => simp [decoder, get, FixedWidth.run_decoder]
  | bytes => simp [decoder, get]
  | string => simp [decoder, get]
  | integer => simp [decoder, get, BigInteger.run_decoder]
  | rational => simp [decoder, get, Rational.run_decoder]
  | bigFloat => simp [decoder, get, BigFloat.run_decoder]

end Leaf

def Presence.decoder (order : NilOrder) : Decoder Bool := do ofOutcome (check order (← Decoder.byte))

namespace Codec
variable {α β : Type}

def decoder (limits : Limits) (c : Codec α) : Decoder α := ⟨c.get limits⟩

@[simp] theorem run_decoder (limits : Limits) (c : Codec α) : (c.decoder limits).run = c.get limits :=
  rfl

theorem decoder_leaf (limits : Limits) (l : Leaf α) :
    (Codec.leaf l).decoder limits = l.decoder limits := by
  rw [decoder, Decoder.mk.injEq, Leaf.run_decoder]
  rfl

theorem decoder_framed (limits : Limits) (reversed : Bool) (c : Codec α) :
    (Codec.framed reversed c).decoder limits =
      frame (Frame.maskOf reversed) >>= fun raw => ofOutcome (Slice.whole (c.get limits) raw) := by
  rw [decoder, Decoder.mk.injEq]
  funext bs
  simp [get, Frame.getWhole]

def present (limits : Limits) (c : Codec α) (isNil : Bool) : Decoder (Option α) :=
  if isNil then pure none else some <$> (c.decoder limits).midway

theorem decoder_nullable (limits : Limits) (order : NilOrder) (c : Codec α) :
    (Codec.nullable order c).decoder limits = Presence.decoder order >>= c.present limits := by
  rw [decoder, Decoder.mk.injEq]
  funext bs
  cases bs with
  | nil => rfl
  | cons b bs =>
    cases h : Presence.check order b with
    | error e => simp [get, Presence.get, Presence.decoder, Slice.byte, h]
    | ok isNil =>
      cases isNil <;>
        simp [get, Presence.get, Presence.decoder, Slice.byte, h, present, Nat.add_comm]

theorem decoder_convert (limits : Limits) (represent : α → β) (restore : β → α) (c : Codec β) :
    (Codec.convert represent restore c).decoder limits = restore <$> c.decoder limits := by
  rw [decoder, Decoder.mk.injEq]
  funext bs
  simp [get]

theorem elements_nil (get : Bytes → Except Fault (α × Nat)) : elements get [] = .ok ([], 0) := by
  rw [elements]

theorem elements_of_error {get : Bytes → Except Fault (α × Nat)} {bs : Bytes} (hbs : bs ≠ [])
    {e : Fault} (h : get bs = .error e) : elements get bs = .error e := by
  obtain ⟨b, rest, rfl⟩ := List.exists_cons_of_ne_nil hbs
  rw [elements, h]

theorem elements_of_ok {get : Bytes → Except Fault (α × Nat)} {bs : Bytes} (hbs : bs ≠ []) {v : α}
    {n : Nat} (hn : 0 < n) (h : get bs = .ok (v, n)) :
    elements get bs = (fun p => (v :: p.1, n + p.2)) <$> elements get (bs.drop n) := by
  obtain ⟨b, rest, rfl⟩ := List.exists_cons_of_ne_nil hbs
  obtain ⟨m, rfl⟩ := Nat.exists_eq_succ_of_ne_zero hn.ne'
  rw [elements, h, List.drop_succ_cons]
  dsimp only
  cases elements get (rest.drop m) <;> rfl

theorem elements_cons (get : Bytes → Except Fault (α × Nat)) (b : UInt8) (rest : Bytes) :
    elements get (b :: rest) = get (b :: rest) >>= fun p =>
      if p.2 = 0 then .error (.malformed .emptyElement)
      else (fun q => (p.1 :: q.1, p.2 + q.2)) <$> elements get ((b :: rest).drop p.2) := by
  cases hget : get (b :: rest) with
  | error e => exact elements_of_error (List.cons_ne_nil b rest) hget
  | ok p =>
    obtain ⟨v, n⟩ := p
    rw [Outcome.ok_bind]
    by_cases hn : n = 0
    · subst hn
      rw [elements, hget]
      rfl
    · rw [elements_of_ok (List.cons_ne_nil b rest) (Nat.pos_of_ne_zero hn) hget, if_neg hn]

theorem get_seq (limits : Limits) (c : Codec α) (bs : Bytes) :
    (Codec.seq c).get limits bs = elements (c.unit.get limits) bs := by
  rw [get]
  congr 1
  cases h : c.requiresTerminator with
  | false => rw [unit_of_false h, if_neg Bool.false_ne_true]
  | true =>
    rw [unit_of_true h, if_pos rfl]
    rfl

theorem decoder_seq (limits : Limits) (c : Codec α) :
    (Codec.seq c).decoder limits = ⟨elements (c.unit.decoder limits).run⟩ := by
  rw [decoder, Decoder.mk.injEq]
  funext bs
  exact get_seq limits c bs

end Codec
end SortKey
