import SortKey.Proofs.Arrival

/-! How much a reading takes from its source. Unless a sequence stands outside every frame, what reading by
a built-in codec draws is bounded by the limits alone, on endless sources too. -/
namespace SortKey
variable {α β : Type}

namespace Source

theorem delivered_draw_le (n : Nat) (s : Source) : (draw n s).2.delivered ≤ s.delivered + n := by
  rw [draw_eq]
  exact Nat.add_le_add_left (length_drawn_le _ _ _ _) _

end Source

namespace Reading
variable {n m : Nat} {r : Reading α}

/-- Draws no more than `n` bytes, whatever the source and the outcome. -/
def DrawsAtMost (n : Nat) (r : Reading α) : Prop :=
  ∀ s, (r.runFrom s).2.delivered ≤ s.delivered + n

theorem DrawsAtMost.mono (h : r.DrawsAtMost n) (hm : n ≤ m) : r.DrawsAtMost m :=
  fun s => (h s).trans (Nat.add_le_add_left hm _)

theorem drawsAtMost_liftM (o : Except Fault α) (n : Nat) : (liftM o : Reading α).DrawsAtMost n := by
  intro s
  rw [runFrom_liftM]
  exact Nat.le_add_right _ n

theorem drawsAtMost_pure (a : α) (n : Nat) : (pure a : Reading α).DrawsAtMost n :=
  drawsAtMost_liftM (.ok a) n

theorem drawsAtMost_throw (e : Fault) (n : Nat) : (throw e : Reading α).DrawsAtMost n :=
  drawsAtMost_liftM (.error e) n

theorem DrawsAtMost.bind {f : α → Reading β} (h : r.DrawsAtMost n)
    (hf : ∀ a, (f a).DrawsAtMost m) : (r >>= f).DrawsAtMost (n + m) := by
  intro s
  have hr := h s
  rw [runFrom_bind]
  generalize r.runFrom s = z at hr ⊢
  obtain ⟨e | a, t⟩ := z
  · exact hr.trans (by omega)
  · have hfa := hf a t
    dsimp only at hr hfa ⊢
    omega

theorem drawsAtMost_check {o : Except Fault α} {f : α → Reading β}
    (hf : ∀ a, o = .ok a → (f a).DrawsAtMost n) : (liftM o >>= f : Reading β).DrawsAtMost n := by
  intro s
  rw [runFrom_bind, runFrom_liftM]
  cases o with
  | error e => exact Nat.le_add_right _ n
  | ok a => exact hf a rfl s

theorem DrawsAtMost.settle (h : r.DrawsAtMost n) (f : α → Except Fault β) :
    (r >>= fun a => liftM (f a)).DrawsAtMost n :=
  h.bind fun a => drawsAtMost_liftM (f a) 0

theorem DrawsAtMost.map (h : r.DrawsAtMost n) (f : α → β) :
    (r >>= fun a => pure (f a)).DrawsAtMost n :=
  h.settle fun a => .ok (f a)

theorem DrawsAtMost.midway (h : r.DrawsAtMost n) : r.midway.DrawsAtMost n := by
  intro s
  rw [runFrom_midway]
  exact h s

theorem drawsAtMost_exactly (n : Nat) : (exactly n).DrawsAtMost n := by
  intro s
  have hdraw := Source.delivered_draw_le n s
  rw [runFrom_exactly]
  generalize Source.draw n s = x at hdraw ⊢
  obtain ⟨⟨got, stop⟩, t⟩ := x
  cases stop <;> exact hdraw

theorem drawsAtMost_announced (n : Nat) : (announced n).DrawsAtMost n := by
  unfold announced
  split
  · exact drawsAtMost_throw _ n
  · exact (drawsAtMost_exactly n).midway

theorem drawsAtMost_byte : byte.DrawsAtMost 1 := by
  refine (drawsAtMost_exactly 1).bind (m := 0) fun got => ?_
  cases got with
  | nil => exact drawsAtMost_throw _ 0
  | cons b bs => exact drawsAtMost_pure b 0

theorem drawsAtMost_remainder (limit : Nat) : (remainder limit).DrawsAtMost (limit + 1) := by
  intro s
  have hdraw := Source.delivered_draw_le (min (limit + 1) 18446744073709551615) s
  have hle : min (limit + 1) 18446744073709551615 ≤ limit + 1 := Nat.min_le_left _ _
  rw [runFrom_remainder]
  exact hdraw.trans (Nat.add_le_add_left hle _)

end Reading

open Reading

namespace Frame

theorem drawsAtMost_unit (mask : UInt8) : (unit mask).DrawsAtMost 2 := by
  refine drawsAtMost_byte.bind (m := 1) fun b => ?_
  dsimp only
  split
  · exact drawsAtMost_pure none 1
  split
  · exact drawsAtMost_byte.midway.map _
  · exact drawsAtMost_pure _ 1

theorem drawsAtMost_collect (mask : UInt8) (limit room : Nat) (taken : Bytes) (next : Option UInt8) :
    (collect mask limit room taken next).DrawsAtMost (2 * room) := by
  induction room generalizing taken next with
  | zero =>
    cases next with
    | none => exact drawsAtMost_pure _ 0
    | some b => exact drawsAtMost_throw _ 0
  | succ room ih =>
    cases next with
    | none => exact drawsAtMost_pure _ _
    | some b =>
      have hnext := (drawsAtMost_unit mask).midway.bind fun next => ih (b :: taken) next
      exact hnext.mono (by omega)

theorem drawsAtMost_read (mask : UInt8) (limit : Nat) : (read mask limit).DrawsAtMost (2 * limit + 2) :=
  ((drawsAtMost_unit mask).bind fun next => drawsAtMost_collect mask limit limit [] next).mono
    (by omega)

end Frame

theorem FixedWidth.drawsAtMost_read (w : Width) : (read w).DrawsAtMost w.bytes :=
  (drawsAtMost_exactly w.bytes).map _

theorem FixedWidth.drawsAtMost_readInt (w : Width) : (readInt w).DrawsAtMost w.bytes :=
  (drawsAtMost_read w).map _

theorem BigInteger.drawsAtMost_read (limits : Limits) :
    (read limits).DrawsAtMost (8 + limits.integerBytes) := by
  refine (FixedWidth.drawsAtMost_readInt .w64).bind fun header => drawsAtMost_check fun size hsize => ?_
  have hle : size ≤ limits.integerBytes := (magnitudeSize_eq_ok hsize).2
  exact ((drawsAtMost_announced size).mono hle).settle _

theorem Rational.drawsAtMost_read (limits : Limits) :
    (read limits).DrawsAtMost (2 * (8 + limits.integerBytes)) := by
  have hinteger := BigInteger.drawsAtMost_read limits
  exact (hinteger.bind fun _ => hinteger.midway.settle _).mono (by omega)

namespace BigFloat

theorem drawsAtMost_readFields (limits : Limits) (neg : Bool) :
    (readFields limits neg).DrawsAtMost (4 + (2 * limits.frameBytes + 2) + 4 + 1) := by
  have hword := FixedWidth.drawsAtMost_readInt .w32
  have hframe := Frame.drawsAtMost_read (Frame.maskOf neg) limits.frameBytes
  have hsize : Width.w32.bytes = 4 := rfl
  have hfields := hword.bind fun exponent => hframe.bind fun mantissa => hword.bind fun precision =>
    drawsAtMost_byte.map fun mode => (⟨exponent, mantissa, precision, mode⟩ : Fields)
  exact hfields.mono (by omega)

theorem drawsAtMost_read (limits : Limits) :
    (read limits).DrawsAtMost (2 * limits.frameBytes + 12) := by
  have hkind := FixedWidth.drawsAtMost_readInt .w8
  have hsize : Width.w8.bytes = 1 := rfl
  refine (hkind.bind (m := 2 * limits.frameBytes + 11) fun kind => ?_).mono (by omega)
  refine drawsAtMost_check fun found _ => ?_
  cases found with
  | inl x => exact drawsAtMost_pure x _
  | inr neg => exact ((drawsAtMost_readFields limits neg).midway.mono (by omega)).settle _

end BigFloat

namespace Leaf

/-- How many bytes reading draws at most. -/
def drawBound (limits : Limits) : {α : Type} → Leaf α → Nat
  | _, .bool => 1
  | _, .unsigned w => w.bytes
  | _, .signed w => w.bytes
  | _, .float f => f.width.bytes
  | _, .bytes => limits.frameBytes + 1
  | _, .string => limits.frameBytes + 1
  | _, .integer => 8 + limits.integerBytes
  | _, .rational => 2 * (8 + limits.integerBytes)
  | _, .bigFloat => 2 * limits.frameBytes + 12

theorem drawsAtMost_read (limits : Limits) (l : Leaf α) :
    (l.read limits).DrawsAtMost (l.drawBound limits) := by
  cases l with
  | bool => exact drawsAtMost_byte.settle _
  | unsigned w => exact FixedWidth.drawsAtMost_read w
  | signed w => exact (FixedWidth.drawsAtMost_read w).map _
  | float f => exact (FixedWidth.drawsAtMost_read f.width).map _
  | bytes => exact drawsAtMost_remainder _
  | string => exact (drawsAtMost_remainder _).settle _
  | integer => exact BigInteger.drawsAtMost_read limits
  | rational => exact Rational.drawsAtMost_read limits
  | bigFloat => exact BigFloat.drawsAtMost_read limits

end Leaf

namespace Codec

/-- No sequence stands outside every frame, where it would go on as long as its source. -/
def FramesSequences : {α : Type} → Codec α → Prop
  | _, .leaf _ => True
  | _, .custom _ => True
  | _, .framed _ _ => True
  | _, .nullable _ c => c.FramesSequences
  | _, .seq _ => False
  | _, .convert _ _ c => c.FramesSequences

def drawBound? (limits : Limits) : {α : Type} → Codec α → Option Nat
  | _, .leaf l => some (l.drawBound limits)
  | _, .custom _ => none
  | _, .framed _ _ => some (2 * limits.frameBytes + 2)
  | _, .nullable _ c => (c.drawBound? limits).map (1 + ·)
  | _, .seq _ => none
  | _, .convert _ _ c => c.drawBound? limits

theorem drawsAtMost_read (limits : Limits) {c : Codec α} (hc : c.IsBuiltIn)
    (hf : c.FramesSequences) : ∃ n, c.drawBound? limits = some n ∧ (c.read limits).DrawsAtMost n := by
  induction c with
  | leaf l => exact ⟨_, rfl, l.drawsAtMost_read limits⟩
  | custom c => exact hc.elim
  | framed reversed c ih => exact ⟨_, rfl, (Frame.drawsAtMost_read _ _).settle _⟩
  | nullable order c ih =>
    obtain ⟨n, hn, hread⟩ := ih hc hf
    refine ⟨1 + n, by rw [drawBound?, hn]; rfl, ?_⟩
    refine (drawsAtMost_byte.settle _).bind fun isNil => ?_
    cases isNil with
    | true => exact drawsAtMost_pure none n
    | false => exact hread.midway.map some
  | seq c ih => exact hf.elim
  | convert represent restore c ih =>
    obtain ⟨n, hn, hread⟩ := ih hc hf
    exact ⟨n, hn, hread.map restore⟩

/-- However long a source goes on, reading from it ends after so many bytes as the limits allow for the
fields of the codec. -/
theorem read_draws_at_most (c : Codec α) (hc : c.IsBuiltIn) (hf : c.FramesSequences)
    (limits : Limits) :
    ∃ n, c.drawBound? limits = some n ∧
      ∀ s, ((c.read limits).runFrom s).2.delivered ≤ s.delivered + n :=
  drawsAtMost_read limits hc hf

/-- A frame whose contents are all escaped, on a source that never ends: the bound is met. -/
theorem read_draws_at_most_endless_escapes :
    let c : Codec (Option (List Int)) := .nullable .last (.negate (.seq (.leaf .integer)))
    let s : Source := ⟨[.piece 0x03 [], .interruption], .endless fun _ => 0xfe, 0⟩
    c.IsBuiltIn ∧ c.FramesSequences ∧ c.drawBound? ⟨16, 4⟩ = some 11 ∧
      ((c.read ⟨16, 4⟩).runFrom s).1 = .error (.tooLarge 5 4) ∧
      ((c.read ⟨16, 4⟩).runFrom s).2.delivered = 11 ∧
      ∀ s, ((c.read ⟨16, 4⟩).runFrom s).2.delivered ≤ s.delivered + 11 := by
  intro c s
  have hc : c.IsBuiltIn := trivial
  have hf : c.FramesSequences := trivial
  obtain ⟨n, hn, hread⟩ := read_draws_at_most c hc hf ⟨16, 4⟩
  cases hn
  exact ⟨hc, hf, rfl, by decide, by decide, hread⟩

end Codec
end SortKey
