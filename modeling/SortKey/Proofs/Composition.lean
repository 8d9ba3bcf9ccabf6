import SortKey.Proofs.Twin

/-! Readings as they are put together. What a built-in codec reads is made of requests for so many bytes,
one after another, and of the faults that they end with, of which only the end of the input is ever looked
at. A property that each way of putting readings together preserves is thereby a property of every built-in
codec. -/
namespace SortKey

namespace Reading
variable {α : Type}

inductive Composed : {α : Type} → Reading α → Prop where
  | liftM {α : Type} (o : Except Fault α) : Composed (liftM o : Reading α)
  | exactly (n : Nat) : Composed (exactly n)
  | remainder (limit : Nat) : Composed (remainder limit)
  | bind {α β : Type} {r : Reading α} {f : α → Reading β} (h : Composed r)
      (hf : ∀ a, Composed (f a)) : Composed (r >>= f)
  | midway {α : Type} {r : Reading α} (h : Composed r) : Composed r.midway
  | optional {α : Type} {r : Reading α} (h : Composed r) : Composed (optional r)

namespace Composed

theorem pure (a : α) : (pure a : Reading α).Composed := .liftM (.ok a)

theorem throw (e : Fault) : (throw e : Reading α).Composed := .liftM (.error e)

theorem byte : byte.Composed := by
  refine (Composed.exactly 1).bind fun got => ?_
  cases got with
  | nil => exact throw .endOfInput
  | cons b bs => exact pure b

theorem announced (n : Nat) : (announced n).Composed := by
  unfold Reading.announced
  split
  · exact throw _
  · exact (Composed.exactly n).midway

theorem payload (size : Except Fault Nat) (f : Bytes → Except Fault α) : (payload size f).Composed :=
  (Composed.liftM size).bind fun n => (announced n).bind fun field => .liftM (f field)

theorem elements {r : Reading α} (h : r.Composed) (room : Nat) (taken : List α) :
    (elements r room taken).Composed := by
  induction room generalizing taken with
  | zero => exact throw _
  | succ room ih =>
    refine h.optional.bind fun found => ?_
    cases found with
    | none => exact pure taken.reverse
    | some v => exact ih (v :: taken)

end Composed
end Reading

namespace Frame
open Reading

theorem composed_unit (mask : UInt8) : (unit mask).Composed := by
  refine Composed.byte.bind fun b => ?_
  dsimp only
  split
  · exact .pure none
  split
  · exact Composed.byte.midway.bind fun c => .pure (some (c ^^^ mask))
  · exact .pure (some (b ^^^ mask))

theorem composed_collect (mask : UInt8) (limit room : Nat) (taken : Bytes) (next : Option UInt8) :
    (collect mask limit room taken next).Composed := by
  induction room generalizing taken next with
  | zero =>
    cases next with
    | none => exact .pure taken.reverse
    | some b => exact .throw _
  | succ room ih =>
    cases next with
    | none => exact .pure taken.reverse
    | some b => exact (composed_unit mask).midway.bind fun next => ih (b :: taken) next

theorem composed_read (mask : UInt8) (limit : Nat) : (read mask limit).Composed :=
  (composed_unit mask).bind fun next => composed_collect mask limit limit [] next

end Frame

theorem Twin.composed {α : Type} {limits : Limits} {d : Decoder α} {r : Reading α}
    (h : Twin limits d r) : r.Composed := by
  induction h with
  | ofOutcome o => exact .liftM o
  | exactly n => exact .exactly n
  | payload _ _ => exact .payload _ _
  | frame mask => exact Frame.composed_read mask limits.frameBytes
  | remainder => exact .remainder limits.frameBytes
  | bind _ _ ih ihf => exact ih.bind ihf
  | midway _ ih => exact ih.midway
  | elements _ _ ih => exact ih.elements Bytes.lengthBound []

theorem Codec.composed_read {α : Type} (limits : Limits) {c : Codec α} (hc : c.IsBuiltIn) :
    (c.read limits).Composed :=
  (twin limits hc).composed

end SortKey
