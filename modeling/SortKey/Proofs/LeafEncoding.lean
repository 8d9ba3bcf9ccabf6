import SortKey.FixedWidth.Lemmas
import SortKey.Leaf
import SortKey.Proofs.FrameOrder
import SortKey.Proofs.Outcome
import SortKey.Proofs.Pushing

/-! The encodings of leaves, field by field. A leaf pushes the same bytes onto every buffer, and the
encodings of a leaf that needs no terminator are not empty and none is the start of another. -/
namespace SortKey

namespace FixedWidth

/-- The integers of two's complement. -/
def InRange (w : Width) (v : Int) : Prop := -256 ^ w.bytes ≤ v * 2 ∧ v * 2 < 256 ^ w.bytes

theorem toInt_ofInt {w : Width} {v : Int} (h : InRange w v) : (BitVec.ofInt w.bits v).toInt = v := by
  obtain ⟨hlow, hhigh⟩ := h
  rw [BitVec.toInt_ofInt, w.two_pow_bits]
  apply Int.bmod_eq_of_le_mul_two <;> push_cast <;> assumption

theorem getInt_encodeInt_append {w : Width} {v : Int} (h : InRange w v) (rest : Bytes) :
    getInt w (encodeInt w v ++ rest) = .ok (v, w.bytes) := by
  rw [getInt, encodeInt, get_encode_append]
  simp only [bind, Except.bind, flip_flip, toInt_ofInt h, pure, Except.pure]

theorem encodeInt_injective {w : Width} {u v : Int} (hu : InRange w u) (hv : InRange w v)
    (h : encodeInt w u = encodeInt w v) : u = v := by
  have hg := getInt_encodeInt_append hu []
  rw [h, getInt_encodeInt_append hv [], Except.ok.injEq, Prod.mk.injEq] at hg
  exact hg.1.symm

theorem apart_encodeInt (w : Width) (u v : Int) : Bytes.Apart (encodeInt w u) (encodeInt w v) :=
  .of_length_eq (by rw [length_encodeInt, length_encodeInt])

theorem encode_ne_nil (w : Width) (v : BitVec w.bits) : encode w v ≠ [] := by
  have h := w.bytes_pos
  exact List.ne_nil_of_length_pos (by rwa [length_encode])

theorem encodeInt_ne_nil (w : Width) (v : Int) : encodeInt w v ≠ [] := encode_ne_nil w _

end FixedWidth

namespace BigInteger
open Bytes

def size (v : Int) : Nat := (Radix.magnitude v.natAbs).length

def bytes (v : Int) : Bytes :=
  FixedWidth.encodeInt .w64 (withSign (v < 0) (size v)) ++
    masked (Frame.maskOf (v < 0)) (Radix.magnitude v.natAbs)

theorem encoding_append (v : Int) :
    (append v).encoding =
      if lengthBound ≤ size v then .error (.unwritable .magnitudeLength) else .ok (bytes v) := by
  unfold append size
  dsimp only
  split <;> rfl

theorem additive_append (v : Int) : (append v).Additive := by
  unfold append
  dsimp only
  split
  · exact Writing.additive_throw _
  · exact (Writing.additive_push _).andThen (Writing.additive_push _)

theorem encoding_append_eq_ok {v : Int} {x : Bytes} :
    (append v).encoding = .ok x ↔ size v < lengthBound ∧ x = bytes v := by
  rw [encoding_append]
  split <;> rename_i h
  · simp [Nat.not_lt.2 h]
  · simp [Nat.not_le.1 h, eq_comm]

theorem inRange_header {v : Int} (h : size v < lengthBound) :
    FixedWidth.InRange .w64 (withSign (v < 0) (size v)) := by
  have hb : (256 : Int) ^ Width.w64.bytes = 2 * lengthBound := rfl
  rw [FixedWidth.InRange, hb, withSign]
  split <;> constructor <;> omega

theorem apart_bytes {u v : Int} (hu : size u < lengthBound) (hv : size v < lengthBound) :
    Apart (bytes u) (bytes v) := by
  refine (FixedWidth.apart_encodeInt .w64 _ _).append fun h => .of_length_eq ?_
  have hs := FixedWidth.encodeInt_injective (inRange_header hu) (inRange_header hv) h
  rw [length_masked, length_masked]
  unfold withSign at hs
  change size u = size v
  split at hs <;> split at hs <;> omega

@[simp] theorem length_bytes (v : Int) : (bytes v).length = 8 + size v := by
  rw [bytes, List.length_append, FixedWidth.length_encodeInt, length_masked]
  rfl

theorem bytes_ne_nil (v : Int) : bytes v ≠ [] :=
  List.append_ne_nil_of_left_ne_nil (FixedWidth.encodeInt_ne_nil _ _) _

end BigInteger

namespace Rational
open Bytes

theorem additive_append (q : Rat) : (append q).Additive :=
  (BigInteger.additive_append _).andThen (BigInteger.additive_append _)

theorem encoding_append_eq_ok {q : Rat} {x : Bytes} :
    (append q).encoding = .ok x ↔
      (BigInteger.size q.num < lengthBound ∧ BigInteger.size q.den < lengthBound) ∧
        x = BigInteger.bytes q.num ++ BigInteger.bytes q.den := by
  rw [append, Writing.encoding_andThen (BigInteger.additive_append _), BigInteger.encoding_append,
    BigInteger.encoding_append]
  split <;> split <;> simp [bind, Except.bind, Except.map, eq_comm] <;> omega

end Rational

namespace BigFloat
open Bytes
open BigInteger (withSign)

def fieldBytes (neg : Bool) (e : Int) (field : Bytes) (p : Nat) (mode : RoundingMode) : Bytes :=
  FixedWidth.encodeInt .w32 (withSign neg e) ++ (Frame.encode (Frame.maskOf neg) field ++
    (FixedWidth.encodeInt .w32 (withSign neg p) ++ [mode.byte]))

/-- What is written after the kind. -/
def tail : BigFloat → Writing Unit
  | .finite neg m e p mode => do
    let field ← mantissaField m p
    Writing.push (FixedWidth.encodeInt .w32 (withSign neg e))
    Writing.push (Frame.encode (Frame.maskOf neg) field)
    Writing.push (FixedWidth.encodeInt .w32 (withSign neg p))
    Writing.push [mode.byte]
  | _ => pure ()

theorem append_eq (x : BigFloat) :
    x.append = Writing.push (FixedWidth.encodeInt .w8 x.kind) >>= fun _ => x.tail := rfl

theorem additive_tail (x : BigFloat) : x.tail.Additive := by
  cases x with
  | zero neg => exact Writing.additive_pure
  | infinite neg => exact Writing.additive_pure
  | finite neg m e p mode =>
    refine Writing.additive_ofExcept _ fun field => ?_
    exact (Writing.additive_push _).andThen ((Writing.additive_push _).andThen
      ((Writing.additive_push _).andThen (Writing.additive_push _)))

theorem additive_append (x : BigFloat) : x.append.Additive := by
  rw [append_eq]
  exact (Writing.additive_push _).andThen x.additive_tail

theorem encoding_tail_finite (neg : Bool) (m : Nat) (e : Int) (p : Nat) (mode : RoundingMode) :
    (tail (.finite neg m e p mode)).encoding =
      (mantissaField m p).map (fieldBytes neg e · p mode) := by
  rw [tail, Writing.encoding_ofExcept]
  cases mantissaField m p with
  | error e => rfl
  | ok field =>
    rw [Outcome.ok_bind]
    simp [Except.map, Writing.encoding, Writing.onto_andThen, fieldBytes]

theorem encoding_append (x : BigFloat) :
    x.append.encoding = x.tail.encoding.map (FixedWidth.encodeInt .w8 x.kind ++ ·) := by
  rw [append_eq, Writing.encoding_andThen x.additive_tail]
  rfl

theorem kind_mem (x : BigFloat) : -3 ≤ x.kind ∧ x.kind ≤ 2 := by
  obtain (_ | _) | (_ | _) | ⟨_ | _, _, _, _, _⟩ := x <;> simp [kind]

theorem inRange_kind (x : BigFloat) : FixedWidth.InRange .w8 x.kind := by
  have hb : (256 : Int) ^ Width.w8.bytes = 256 := rfl
  have hk := x.kind_mem
  rw [FixedWidth.InRange, hb]
  omega

theorem apart_fieldBytes (neg : Bool) (e f : Int) (xs ys : Bytes) (p q : Nat)
    (m n : RoundingMode) : Apart (fieldBytes neg e xs p m) (fieldBytes neg f ys q n) :=
  (FixedWidth.apart_encodeInt .w32 _ _).append fun _ => (Frame.apart_encode _ xs ys).append fun _ =>
    (FixedWidth.apart_encodeInt .w32 _ _).append fun _ => .of_length_eq rfl

theorem encoding_append_eq_ok {x : BigFloat} {bs : Bytes} :
    x.append.encoding = .ok bs ↔
      ∃ rest, x.tail.encoding = .ok rest ∧ bs = FixedWidth.encodeInt .w8 x.kind ++ rest := by
  rw [encoding_append, Outcome.map_eq_ok]
  simp only [eq_comm]

theorem apart_tail {a b : BigFloat} (hk : a.kind = b.kind) {x y : Bytes}
    (hx : a.tail.encoding = .ok x) (hy : b.tail.encoding = .ok y) : Apart x y := by
  obtain na | na | ⟨na, m, e, p, mode⟩ := a <;> obtain nb | nb | ⟨nb, m', e', p', mode'⟩ := b
  case finite.finite =>
    obtain rfl : na = nb := by cases na <;> cases nb <;> simp_all [kind]
    rw [encoding_tail_finite, Outcome.map_eq_ok] at hx hy
    obtain ⟨xs, -, rfl⟩ := hx
    obtain ⟨ys, -, rfl⟩ := hy
    exact apart_fieldBytes na e e' xs ys p p' mode mode'
  case zero.finite | infinite.finite | finite.zero | finite.infinite =>
    cases na <;> cases nb <;> simp [kind] at hk
  all_goals
    cases hx
    cases hy
    exact .nil

end BigFloat

namespace Leaf
open Bytes
variable {α : Type}

theorem additive_append (l : Leaf α) (v : α) : (l.append v).Additive := by
  cases l with
  | integer => exact BigInteger.additive_append v
  | rational => exact Rational.additive_append v
  | bigFloat => exact BigFloat.additive_append v
  | _ => exact Writing.additive_push _

theorem apart_encoding {l : Leaf α} (hl : l.requiresTerminator = false) {a b : α} {x y : Bytes}
    (hx : (l.append a).encoding = .ok x) (hy : (l.append b).encoding = .ok y) : Apart x y := by
  cases l with
  | bool =>
    cases hx
    cases hy
    exact .of_length_eq rfl
  | unsigned w =>
    cases hx
    cases hy
    exact .of_length_eq (by simp)
  | signed w =>
    cases hx
    cases hy
    exact .of_length_eq (by simp)
  | float f =>
    cases hx
    cases hy
    exact .of_length_eq (by simp)
  | bytes => cases hl
  | string => cases hl
  | integer =>
    obtain ⟨ha, rfl⟩ := BigInteger.encoding_append_eq_ok.1 hx
    obtain ⟨hb, rfl⟩ := BigInteger.encoding_append_eq_ok.1 hy
    exact BigInteger.apart_bytes ha hb
  | rational =>
    obtain ⟨ha, rfl⟩ := Rational.encoding_append_eq_ok.1 hx
    obtain ⟨hb, rfl⟩ := Rational.encoding_append_eq_ok.1 hy
    exact (BigInteger.apart_bytes ha.1 hb.1).append fun _ => BigInteger.apart_bytes ha.2 hb.2
  | bigFloat =>
    obtain ⟨s, hs, rfl⟩ := BigFloat.encoding_append_eq_ok.1 hx
    obtain ⟨t, ht, rfl⟩ := BigFloat.encoding_append_eq_ok.1 hy
    refine (FixedWidth.apart_encodeInt .w8 _ _).append fun h => BigFloat.apart_tail ?_ hs ht
    exact FixedWidth.encodeInt_injective (BigFloat.inRange_kind a) (BigFloat.inRange_kind b) h

theorem encoding_ne_nil {l : Leaf α} (hl : l.requiresTerminator = false) {a : α} {x : Bytes}
    (hx : (l.append a).encoding = .ok x) : x ≠ [] := by
  cases l with
  | bool =>
    cases hx
    exact List.cons_ne_nil _ _
  | unsigned w =>
    cases hx
    exact FixedWidth.encode_ne_nil w a
  | signed w =>
    cases hx
    exact FixedWidth.encode_ne_nil w _
  | float f =>
    cases hx
    exact FixedWidth.encode_ne_nil _ _
  | bytes => cases hl
  | string => cases hl
  | integer =>
    obtain ⟨-, rfl⟩ := BigInteger.encoding_append_eq_ok.1 hx
    exact BigInteger.bytes_ne_nil a
  | rational =>
    obtain ⟨-, rfl⟩ := Rational.encoding_append_eq_ok.1 hx
    exact List.append_ne_nil_of_left_ne_nil (BigInteger.bytes_ne_nil _) _
  | bigFloat =>
    obtain ⟨x, -, rfl⟩ := BigFloat.encoding_append_eq_ok.1 hx
    exact List.append_ne_nil_of_left_ne_nil (FixedWidth.encodeInt_ne_nil _ _) _

end Leaf
end SortKey
