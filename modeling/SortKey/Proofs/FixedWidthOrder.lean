import SortKey.Codec.Get
import SortKey.Codec.Write
import SortKey.Proofs.Acceptance
import SortKey.Proofs.DigitOrder

/-! The order of words. The encodings of the words of a width are the byte strings of that width, in the
order of the numbers that the words stand for, with a sign or without. -/
namespace SortKey.FixedWidth
variable {w : Width} {limits : Limits}

/-- The encodings that `l` makes are the byte strings of the width, in the order of the numbers that the
words stand for. Every byte string that is long enough begins with one, and the word found there is the
one that has this encoding. -/
structure OrderIsomorphic (limits : Limits) (l : Leaf (BitVec w.bits)) (number : BitVec w.bits → Int) :
    Prop where
  compare_eq (u v : BitVec w.bits) : ∃ x y, (Codec.leaf l).encode u = .ok x ∧
    (Codec.leaf l).encode v = .ok y ∧ compare x y = compare (number u) (number v)
  exists_encode_iff (x : Bytes) : (∃ v, (Codec.leaf l).encode v = .ok x) ↔ x.length = w.bytes
  exists_get_iff (bs : Bytes) :
    (∃ v, (Codec.leaf l).get limits bs = .ok (v, w.bytes)) ↔ w.bytes ≤ bs.length
  get_iff (bs : Bytes) (v : BitVec w.bits) (n : Nat) : (Codec.leaf l).get limits bs = .ok (v, n) ↔
    n = w.bytes ∧ n ≤ bs.length ∧ (Codec.leaf l).encode v = .ok (bs.take n)

theorem get_eq_ok_iff {bs : Bytes} {v : BitVec w.bits} {n : Nat} :
    get w bs = .ok (v, n) ↔ n = w.bytes ∧ n ≤ bs.length ∧ encode w v = bs.take n := by
  by_cases h : w.bytes ≤ bs.length
  · rw [get_of_le h, Except.ok.injEq, Prod.mk.injEq]
    constructor
    · rintro ⟨rfl, rfl⟩
      exact ⟨rfl, h, encode_ofBytes (List.length_take_of_le h)⟩
    · rintro ⟨rfl, -, hv⟩
      rw [← hv, ofBytes_encode]
      exact ⟨rfl, rfl⟩
  · rw [get_of_lt (Nat.not_le.1 h)]
    constructor
    · intro hget
      cases hget
    · rintro ⟨rfl, hn, -⟩
      exact (h hn).elim

theorem orderIsomorphic_of_involution {l : Leaf (BitVec w.bits)} {number : BitVec w.bits → Int}
    {f : BitVec w.bits → BitVec w.bits} (hf : ∀ v, f (f v) = v)
    (hencode : ∀ v, (Codec.leaf l).encode v = .ok (encode w (f v)))
    (hget : ∀ bs, (Codec.leaf l).get limits bs = (fun r => (f r.1, r.2)) <$> get w bs)
    (hcompare : ∀ u v, compare (encode w (f u)) (encode w (f v)) = compare (number u) (number v)) :
    OrderIsomorphic limits l number where
  compare_eq u v := ⟨_, _, hencode u, hencode v, hcompare u v⟩
  exists_encode_iff x := by
    simp only [hencode, Except.ok.injEq]
    constructor
    · rintro ⟨v, rfl⟩
      exact length_encode w (f v)
    · intro h
      exact ⟨f (ofBytes w x), by rw [hf, encode_ofBytes h]⟩
  exists_get_iff bs := by
    rw [hget]
    by_cases h : w.bytes ≤ bs.length
    · simp [get_of_le h, h]
    · simp [get_of_lt (Nat.not_le.1 h), h]
  get_iff bs v n := by
    have hback : (fun r => (f r.1, r.2)) <$> get w bs = .ok (v, n) ↔ get w bs = .ok (f v, n) := by
      cases get w bs with
      | error e => simp
      | ok r => simp [Prod.ext_iff, Function.Involutive.eq_iff hf]
    rw [hget, hback, get_eq_ok_iff, hencode, Except.ok.injEq]

/-- Unsigned or of two's complement, the words of a width are in order the byte strings of that width. -/
theorem order_isomorphism (limits : Limits) (w : Width) :
    OrderIsomorphic limits (.unsigned w) (fun v => v.toNat) ∧
      OrderIsomorphic limits (.signed w) BitVec.toInt := by
  constructor
  · apply orderIsomorphic_of_involution (f := id) (fun _ => rfl) (fun _ => rfl)
    · intro bs
      exact (id_map (get w bs)).symm
    · intro u v
      rw [compare_natCast]
      exact compare_encode_toNat w u v
  · apply orderIsomorphic_of_involution (flip_flip w) (fun _ => rfl)
    · intro bs
      change (get w bs >>= fun r => pure (flip w r.1, r.2)) = _
      rw [bind_pure_comp]
    · exact compare_encode_flip w

end SortKey.FixedWidth
