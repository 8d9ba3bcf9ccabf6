import SortKey.Codec.Read
import SortKey.Proofs.Acceptance
import SortKey.Proofs.DecoderStart

/-! Decoding from a byte string and from a byte source, side by side. A built-in codec does both in the same
steps, and takes nothing but what shows its own end unless it needs a terminator. -/
namespace SortKey
variable {α β : Type}

/-- What `f` makes of as many bytes as `size` says. -/
def Decoder.payload (size : Except Fault Nat) (f : Bytes → Except Fault α) : Decoder α := do
  let n ← ofOutcome size
  let field ← midway (exactly n)
  ofOutcome (f field)

def Reading.payload (size : Except Fault Nat) (f : Bytes → Except Fault α) : Reading α := do
  let n ← size
  let field ← announced n
  f field

theorem Decoder.payload_ok (n : Nat) (f : Bytes → Except Fault α) :
    payload (.ok n) f = (exactly n).midway >>= fun field => ofOutcome (f field) := by
  rw [Decoder.mk.injEq]
  funext bs
  rw [payload, run_bind, run_ofOutcome, Outcome.map_ok, Outcome.ok_bind, List.drop_zero]
  simp only [Nat.zero_add]
  exact id_map _

theorem Reading.payload_ok (n : Nat) (f : Bytes → Except Fault α) :
    payload (.ok n) f = announced n >>= fun field => liftM (f field) := rfl

/-- `d` and `r` are put together in the same way from the same fields. -/
inductive Twin (limits : Limits) : {α : Type} → Decoder α → Reading α → Prop where
  | ofOutcome {α : Type} (o : Except Fault α) : Twin limits (Decoder.ofOutcome o) (liftM o)
  | exactly (n : Nat) : Twin limits (Decoder.exactly n) (Reading.exactly n)
  | payload {α : Type} {size : Except Fault Nat} {f : Bytes → Except Fault α}
      (hsize : ∀ n, size = .ok n → n ≤ limits.integerBytes)
      (hf : ∀ x a, f x = .ok a → x.length < Bytes.lengthBound) :
      Twin limits (Decoder.payload size f) (Reading.payload size f)
  | frame (mask : UInt8) : Twin limits (Decoder.frame mask) (Frame.read mask limits.frameBytes)
  | remainder : Twin limits Decoder.remainder (Reading.remainder limits.frameBytes)
  | bind {α β : Type} {d : Decoder α} {r : Reading α} {f : α → Decoder β} {g : α → Reading β}
      (h : Twin limits d r) (hf : ∀ a, Twin limits (f a) (g a)) : Twin limits (d >>= f) (r >>= g)
  | midway {α : Type} {d : Decoder α} {r : Reading α} (h : Twin limits d r) :
      Twin limits d.midway r.midway
  | elements {α : Type} {d : Decoder α} {r : Reading α} (hd : d.Starts) (h : Twin limits d r) :
      Twin limits ⟨Codec.elements d.run⟩ (Reading.elements r Bytes.lengthBound [])

/-- `d` and `r` are put together in the same way from fields that show their own end. -/
inductive Closed (limits : Limits) : {α : Type} → Decoder α → Reading α → Prop where
  | ofOutcome {α : Type} (o : Except Fault α) : Closed limits (Decoder.ofOutcome o) (liftM o)
  | exactly (n : Nat) : Closed limits (Decoder.exactly n) (Reading.exactly n)
  | payload {α : Type} {size : Except Fault Nat} {f : Bytes → Except Fault α}
      (hsize : ∀ n, size = .ok n → n ≤ limits.integerBytes)
      (hf : ∀ x a, f x = .ok a → x.length < Bytes.lengthBound) :
      Closed limits (Decoder.payload size f) (Reading.payload size f)
  | frame (mask : UInt8) : Closed limits (Decoder.frame mask) (Frame.read mask limits.frameBytes)
  | bind {α β : Type} {d : Decoder α} {r : Reading α} {f : α → Decoder β} {g : α → Reading β}
      (h : Closed limits d r) (hf : ∀ a, Closed limits (f a) (g a)) :
      Closed limits (d >>= f) (r >>= g)
  | midway {α : Type} {d : Decoder α} {r : Reading α} (h : Closed limits d r) :
      Closed limits d.midway r.midway

namespace Twin
variable {limits : Limits} {d : Decoder α} {r : Reading α}

theorem pure (a : α) : Twin limits (pure a) (pure a) := .ofOutcome (.ok a)

theorem map (f : α → β) (h : Twin limits d r) : Twin limits (f <$> d) (r >>= fun a => Pure.pure (f a)) :=
  h.bind fun a => pure (f a)

end Twin

namespace Closed
variable {limits : Limits} {d : Decoder α} {r : Reading α}

theorem twin (h : Closed limits d r) : Twin limits d r := by
  induction h with
  | ofOutcome o => exact .ofOutcome o
  | exactly n => exact .exactly n
  | payload hsize hf => exact .payload hsize hf
  | frame mask => exact .frame mask
  | bind _ _ ih ihf => exact .bind ih ihf
  | midway _ ih => exact .midway ih

theorem pure (a : α) : Closed limits (pure a) (pure a) := .ofOutcome (.ok a)

theorem map (f : α → β) (h : Closed limits d r) :
    Closed limits (f <$> d) (r >>= fun a => Pure.pure (f a)) :=
  h.bind fun a => pure (f a)

theorem byte : Closed limits Decoder.byte Reading.byte := by
  rw [Decoder.byte_eq]
  refine (Closed.exactly 1).bind fun got => ?_
  cases got with
  | nil => exact .ofOutcome (.error .endOfInput)
  | cons b bs => exact pure b

end Closed

theorem FixedWidth.closed (limits : Limits) (w : Width) : Closed limits (decoder w) (read w) :=
  (Closed.exactly w.bytes).map _

theorem FixedWidth.closed_int (limits : Limits) (w : Width) :
    Closed limits (intDecoder w) (readInt w) :=
  (closed limits w).map _

theorem BigInteger.closed (limits : Limits) : Closed limits (decoder limits) (read limits) := by
  refine (FixedWidth.closed_int limits .w64).bind fun header => ?_
  exact .payload (fun n hn => (magnitudeSize_eq_ok hn).2) fun field v hv => length_lt_of_build hv

theorem Rational.closed (limits : Limits) : Closed limits (decoder limits) (read limits) :=
  (BigInteger.closed limits).bind fun _ => (BigInteger.closed limits).midway.bind fun _ => .ofOutcome _

namespace BigFloat

theorem closed_fields (limits : Limits) (neg : Bool) :
    Closed limits (fieldsDecoder neg) (readFields limits neg) :=
  (FixedWidth.closed_int _ .w32).bind fun _ => (Closed.frame _).bind fun _ =>
    (FixedWidth.closed_int _ .w32).bind fun _ => Closed.byte.bind fun _ => .pure _

theorem closed (limits : Limits) : Closed limits decoder (read limits) := by
  refine (FixedWidth.closed_int _ .w8).bind fun kind => (Closed.ofOutcome _).bind fun found => ?_
  cases found with
  | inl x => exact .pure x
  | inr neg => exact (closed_fields limits neg).midway.bind fun fields => .ofOutcome _

end BigFloat

namespace Leaf

theorem closed (limits : Limits) {l : Leaf α} (hl : l.requiresTerminator = false) :
    Closed limits (l.decoder limits) (l.read limits) := by
  cases l with
  | bool => exact Closed.byte.bind fun _ => .ofOutcome _
  | unsigned w => exact FixedWidth.closed _ w
  | signed w => exact (FixedWidth.closed _ w).map _
  | float f => exact (FixedWidth.closed _ f.width).map _
  | bytes => cases hl
  | string => cases hl
  | integer => exact BigInteger.closed limits
  | rational => exact Rational.closed limits
  | bigFloat => exact BigFloat.closed limits

theorem twin (limits : Limits) (l : Leaf α) :
    Twin limits (l.decoder limits) (l.read limits) := by
  cases hl : l.requiresTerminator with
  | false => exact (closed limits hl).twin
  | true =>
    cases l with
    | bytes => exact .remainder
    | string => exact Twin.remainder.bind fun _ => .ofOutcome _
    | _ => cases hl

end Leaf

theorem Presence.closed (limits : Limits) (order : NilOrder) :
    Closed limits (decoder order) (read order) :=
  Closed.byte.bind fun _ => .ofOutcome _

namespace Codec

theorem read_seq (limits : Limits) (c : Codec α) :
    (Codec.seq c).read limits = Reading.elements (c.unit.read limits) Bytes.lengthBound [] := by
  rw [read]
  congr 1
  cases h : c.requiresTerminator with
  | false => rw [unit_of_false h, if_neg Bool.false_ne_true]
  | true =>
    rw [unit_of_true h, if_pos rfl]
    rfl

theorem closed_framed (limits : Limits) (reversed : Bool) (c : Codec α) :
    Closed limits ((Codec.framed reversed c).decoder limits)
      ((Codec.framed reversed c).read limits) := by
  rw [decoder_framed]
  exact (Closed.frame _).bind fun _ => .ofOutcome _

theorem closed (limits : Limits) {c : Codec α} (hc : c.IsBuiltIn)
    (ht : c.requiresTerminator = false) :
    Closed limits (c.decoder limits) (c.read limits) := by
  induction c with
  | leaf l =>
    rw [decoder_leaf]
    exact Leaf.closed limits ht
  | custom c => exact hc.elim
  | framed reversed c ih => exact closed_framed limits reversed c
  | nullable order c ih =>
    have hb : c.IsBuiltIn := hc
    rw [decoder_nullable]
    refine (Presence.closed _ order).bind fun isNil => ?_
    cases isNil with
    | true => exact .pure none
    | false => exact (ih hb ht).midway.map some
  | seq c ih => cases ht
  | convert represent restore c ih =>
    rw [decoder_convert]
    exact (ih hc ht).map restore

theorem twin (limits : Limits) {c : Codec α} (hc : c.IsBuiltIn) :
    Twin limits (c.decoder limits) (c.read limits) := by
  induction c with
  | leaf l =>
    rw [decoder_leaf]
    exact l.twin limits
  | custom c => exact hc.elim
  | framed reversed c ih => exact (closed_framed limits reversed c).twin
  | nullable order c ih =>
    have hb : c.IsBuiltIn := hc
    rw [decoder_nullable]
    refine (Presence.closed _ order).twin.bind fun isNil => ?_
    cases isNil with
    | true => exact .pure none
    | false => exact (ih hb).midway.map some
  | seq c ih =>
    have hb : c.IsBuiltIn := hc
    rw [decoder_seq, read_seq]
    refine .elements (starts_decoder_unit limits hb) ?_
    obtain hu | hu := c.unit_eq_or <;> rw [hu]
    · exact (closed_framed limits false c).twin
    · exact ih hb
  | convert represent restore c ih =>
    rw [decoder_convert]
    exact (ih hc).map restore

end Codec
end SortKey
