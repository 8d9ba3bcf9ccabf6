import SortKey.Proofs.Encoding
import SortKey.Proofs.Magnitude

/-! The values that have encodings. A built-in codec encodes every value whose big floats are well formed
and whose integers have magnitudes of a length that their header can hold. -/
namespace SortKey

namespace BigFloat

/-- What every way to make a big float ensures: the mantissa is odd and fits the precision, and both
numbers fit their fields in either sign. -/
def WellFormed : BigFloat → Prop
  | .finite _ m e p _ =>
    m % 2 = 1 ∧ Radix.significantBits m ≤ p ∧ p ≤ maxPrecision ∧ exponentFits e = true
  | _ => True

instance : DecidablePred WellFormed
  | .zero _ => .isTrue trivial
  | .infinite _ => .isTrue trivial
  | .finite .. => inferInstanceAs (Decidable (_ ∧ _ ∧ _ ∧ _))

/-- The mantissa shifted up to fill the bytes of its precision. -/
def aligned (m p : Nat) : Nat := m <<< (8 * Radix.bytesFor p - Radix.significantBits m)

theorem significantBits_aligned {m p : Nat} (hm : m ≠ 0) (hp : Radix.significantBits m ≤ p) :
    Radix.significantBits (aligned m p) = 8 * Radix.bytesFor p := by
  rw [aligned, Radix.significantBits_shiftLeft hm, Radix.bytesFor]
  omega

theorem length_magnitude_aligned {m p : Nat} (hm : m ≠ 0) (hp : Radix.significantBits m ≤ p) :
    (Radix.magnitude (aligned m p)).length = Radix.bytesFor p := by
  rw [Radix.length_magnitude, significantBits_aligned hm hp, Radix.bytesFor, Radix.bytesFor]
  omega

theorem mantissaField_of_le {m p : Nat} (hm : m ≠ 0) (hp : Radix.significantBits m ≤ p) :
    mantissaField m p = .ok (Radix.magnitude (aligned m p)) := by
  have hlt : ¬8 * Radix.bytesFor p < Radix.significantBits m := by
    rw [Radix.bytesFor]
    omega
  rw [mantissaField, if_neg hlt, ← aligned, if_pos (length_magnitude_aligned hm hp)]

theorem WellFormed.mantissa_ne_zero {neg : Bool} {m : Nat} {e : Int} {p : Nat} {mode : RoundingMode}
    (h : WellFormed (.finite neg m e p mode)) : m ≠ 0 := by
  have hodd := h.1
  omega

theorem WellFormed.topBit_field {neg : Bool} {m : Nat} {e : Int} {p : Nat} {mode : RoundingMode}
    (h : WellFormed (.finite neg m e p mode)) : 0x80 ≤ (Radix.magnitude (aligned m p)).headD 0 := by
  have hm := h.mantissa_ne_zero
  have hpos := Radix.significantBits_pos hm
  obtain ⟨-, hbits, -⟩ := h
  obtain ⟨n, hn⟩ : ∃ n, Radix.bytesFor p = n + 1 :=
    Nat.exists_eq_succ_of_ne_zero (by rw [Radix.bytesFor]; omega)
  exact Radix.head_magnitude_of_full (hn ▸ significantBits_aligned hm hbits)

theorem WellFormed.encoding_tail {neg : Bool} {m : Nat} {e : Int} {p : Nat} {mode : RoundingMode}
    (h : WellFormed (.finite neg m e p mode)) :
    (tail (.finite neg m e p mode)).encoding =
      .ok (fieldBytes neg e (Radix.magnitude (aligned m p)) p mode) := by
  rw [encoding_tail_finite, mantissaField_of_le h.mantissa_ne_zero h.2.1]
  rfl

theorem exists_encoding {x : BigFloat} (h : x.WellFormed) : ∃ bs, x.append.encoding = .ok bs := by
  rw [encoding_append]
  cases x with
  | zero neg => exact ⟨_, rfl⟩
  | infinite neg => exact ⟨_, rfl⟩
  | finite neg m e p mode =>
    rw [h.encoding_tail]
    exact ⟨_, rfl⟩

end BigFloat

namespace Leaf
variable {α : Type}

/-- Integers of fewer than `2 ^ 63` bytes, and big floats as they can be made. -/
def Encodable : {α : Type} → Leaf α → α → Prop
  | _, .integer, v => BigInteger.size v < Bytes.lengthBound
  | _, .rational, q =>
    BigInteger.size q.num < Bytes.lengthBound ∧ BigInteger.size q.den < Bytes.lengthBound
  | _, .bigFloat, x => x.WellFormed
  | _, _, _ => True

instance : {α : Type} → (l : Leaf α) → (v : α) → Decidable (l.Encodable v)
  | _, .integer, v => Nat.decLt (BigInteger.size v) _
  | _, .rational, _ => inferInstanceAs (Decidable (_ ∧ _))
  | _, .bigFloat, x => inferInstanceAs (Decidable x.WellFormed)
  | _, .bool, _ | _, .unsigned _, _ | _, .signed _, _ | _, .float _, _ | _, .bytes, _
  | _, .string, _ => .isTrue trivial

theorem exists_encoding {l : Leaf α} {v : α} (h : l.Encodable v) :
    ∃ x, (l.append v).encoding = .ok x := by
  cases l with
  | integer => exact ⟨_, BigInteger.encoding_append_eq_ok.2 ⟨h, rfl⟩⟩
  | rational => exact ⟨_, Rational.encoding_append_eq_ok.2 ⟨h, rfl⟩⟩
  | bigFloat => exact BigFloat.exists_encoding h
  | _ => exact ⟨_, rfl⟩

end Leaf

namespace Codec
variable {α : Type}

/-- Every leaf of the codec can encode what it is given. -/
abbrev Encodable (c : Codec α) (v : α) : Prop := c.Everywhere Leaf.Encodable v

theorem exists_encoding {c : Codec α} (hc : c.IsBuiltIn) {v : α} (h : c.Encodable v) :
    ∃ x, c.encode v = .ok x := by
  induction c with
  | leaf l => exact Leaf.exists_encoding h
  | custom c => exact hc.elim
  | framed reversed c ih =>
    obtain ⟨x, hx⟩ := ih hc h
    exact ⟨_, by rw [encode_framed, hx]; rfl⟩
  | nullable order c ih =>
    have hb : c.IsBuiltIn := hc
    cases v with
    | none => exact ⟨_, rfl⟩
    | some v =>
      obtain ⟨x, hx⟩ := ih hb (h v rfl)
      exact ⟨_, by rw [encode_nullable_some order hb, hx]; rfl⟩
  | seq c ih =>
    have hb : c.IsBuiltIn := hc
    induction v with
    | nil => exact ⟨[], encode_seq_nil c⟩
    | cons v vs ihs =>
      obtain ⟨xs, hxs⟩ := ihs fun u hu => h u (List.mem_cons_of_mem v hu)
      obtain ⟨raw, hraw⟩ := ih hb (h v List.mem_cons_self)
      have hu : ∃ x, c.unit.encode v = .ok x := by
        obtain hu | hu := c.unit_eq_or <;> rw [hu]
        · exact ⟨_, by rw [encode_framed, hraw]; rfl⟩
        · exact ⟨raw, hraw⟩
      obtain ⟨x, hx⟩ := hu
      exact ⟨x ++ xs, by rw [encode_seq_cons hb, hx, hxs]; rfl⟩
  | convert represent restore c ih => exact ih hc h

end Codec
end SortKey
