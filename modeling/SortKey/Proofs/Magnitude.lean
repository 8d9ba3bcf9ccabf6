import Mathlib.Data.Nat.Factorization.Basic
import Mathlib.Tactic.Ring
import SortKey.Radix.Lemmas

/-! Magnitudes. A magnitude stands for its number and has no leading zero, bytes with no leading zero are
the magnitude of their number, a number with a whole number of bytes of significant bits fills them, and
shifting an odd number up only adds trailing zeros. -/
namespace SortKey.Radix

theorem significantBits_le_iff (v k : Nat) : significantBits v ≤ k ↔ v < 2 ^ k := by
  by_cases hv : v = 0
  · simp [significantBits, hv]
  · rw [significantBits, if_neg hv, Nat.succ_le_iff, Nat.log2_lt hv]

theorem significantBits_pos {v : Nat} (hv : v ≠ 0) : 0 < significantBits v := by
  rw [significantBits, if_neg hv]
  omega

theorem two_pow_le_of_significantBits {v k : Nat} (h : significantBits v = k + 1) : 2 ^ k ≤ v := by
  refine Nat.le_of_not_lt fun hlt => ?_
  have := (significantBits_le_iff v k).2 hlt
  omega

theorem significantBits_shiftLeft {v : Nat} (hv : v ≠ 0) (k : Nat) :
    significantBits (v <<< k) = significantBits v + k := by
  have hle : significantBits v + k ≤ significantBits (v <<< k) := by
    obtain ⟨i, hi⟩ := Nat.exists_eq_succ_of_ne_zero (significantBits_pos hv).ne'
    have hv' : 2 ^ (i + k) ≤ v <<< k := by
      rw [Nat.shiftLeft_eq, Nat.pow_add]
      exact Nat.mul_le_mul_right _ (two_pow_le_of_significantBits hi)
    have := mt (significantBits_le_iff (v <<< k) (i + k)).1 (Nat.not_lt.2 hv')
    omega
  have hge : significantBits (v <<< k) ≤ significantBits v + k := by
    rw [significantBits_le_iff, Nat.shiftLeft_eq, Nat.pow_add]
    have hlt := (significantBits_le_iff v _).1 (Nat.le_refl _)
    exact Nat.mul_lt_mul_of_pos_right hlt (Nat.two_pow_pos k)
  omega

@[simp] theorem length_magnitude (v : Nat) :
    (magnitude v).length = bytesFor (significantBits v) := length_bigEndian _ _

theorem pow_two_eight_mul (n : Nat) : 2 ^ (8 * n) = 256 ^ n := by rw [Nat.pow_mul]

theorem lt_pow_bytesFor (v : Nat) : v < 256 ^ bytesFor (significantBits v) := by
  rw [← pow_two_eight_mul, ← significantBits_le_iff, bytesFor]
  omega

theorem ofBigEndian_magnitude (v : Nat) : ofBigEndian (magnitude v) = v := by
  rw [magnitude, ofBigEndian_bigEndian, Nat.mod_eq_of_lt (lt_pow_bytesFor v)]

theorem bigEndian_succ {n v : Nat} (h : v < 256 ^ (n + 1)) :
    ∃ b rest, bigEndian (n + 1) v = b :: rest ∧ b.toNat = v / 2 ^ (8 * n) := by
  refine ⟨_, _, rfl, ?_⟩
  have hq : v / 2 ^ (8 * n) < 256 := by
    rw [Nat.div_lt_iff_lt_mul (Nat.two_pow_pos _), pow_two_eight_mul, ← Nat.pow_succ']
    exact h
  rw [UInt8.toNat_ofNat', Nat.shiftRight_eq_div_pow, Nat.mod_eq_of_lt hq]

theorem head_magnitude_ne_zero (v : Nat) : (magnitude v).head? ≠ some 0 := by
  rw [magnitude]
  have hlt := lt_pow_bytesFor v
  cases hn : bytesFor (significantBits v) with
  | zero => exact nofun
  | succ n =>
    rw [hn] at hlt
    obtain ⟨b, rest, hb, hq⟩ := bigEndian_succ hlt
    have hbits : 8 * n < significantBits v := by
      rw [bytesFor] at hn
      omega
    have hpos : 0 < v / 2 ^ (8 * n) := by
      refine Nat.div_pos ?_ (Nat.two_pow_pos _)
      exact Nat.le_of_not_lt (mt (significantBits_le_iff v (8 * n)).2 (by omega))
    rw [hb, List.head?_cons]
    intro h
    rw [Option.some.inj h, UInt8.toNat_zero] at hq
    omega

theorem ofBigEndian_injective {xs ys : Bytes} (hlen : xs.length = ys.length)
    (h : ofBigEndian xs = ofBigEndian ys) : xs = ys := by
  induction xs generalizing ys with
  | nil => exact (List.length_eq_zero_iff.1 hlen.symm).symm
  | cons x xs ih =>
    cases ys with
    | nil => cases hlen
    | cons y ys =>
      have hrest : xs.length = ys.length := Nat.succ.inj hlen
      have hx := ofBigEndian_lt xs
      have hy := ofBigEndian_lt ys
      rw [ofBigEndian_cons, ofBigEndian_cons, hrest] at h
      rw [hrest] at hx
      have hpos : 0 < 256 ^ ys.length := Nat.pow_pos (by decide)
      have hfirst : x.toNat = y.toNat := by
        have := congrArg (· / 256 ^ ys.length) h
        simpa only [Nat.mul_comm _ (256 ^ ys.length), Nat.mul_add_div hpos, Nat.div_eq_of_lt hx,
          Nat.div_eq_of_lt hy, Nat.add_zero] using this
      rw [UInt8.toNat_inj.1 hfirst, ih hrest (by rw [hfirst] at h; exact Nat.add_left_cancel h)]

theorem bigEndian_ofBigEndian (bs : Bytes) : bigEndian bs.length (ofBigEndian bs) = bs := by
  refine ofBigEndian_injective (length_bigEndian _ _) ?_
  rw [ofBigEndian_bigEndian, Nat.mod_eq_of_lt (ofBigEndian_lt bs)]

theorem lt_significantBits_ofBigEndian {b : UInt8} {k : Nat} (h : 2 ^ k ≤ b.toNat) (bs : Bytes) :
    8 * bs.length + k < significantBits (ofBigEndian (b :: bs)) := by
  refine Nat.lt_of_not_le fun hle => ?_
  have hlt := (significantBits_le_iff _ _).1 hle
  have hmul : 2 ^ k * 256 ^ bs.length ≤ b.toNat * 256 ^ bs.length := Nat.mul_le_mul_right _ h
  rw [ofBigEndian_cons, Nat.add_comm (8 * bs.length), Nat.pow_add, pow_two_eight_mul] at hlt
  omega

theorem significantBits_ofBigEndian_le (bs : Bytes) :
    significantBits (ofBigEndian bs) ≤ 8 * bs.length := by
  rw [significantBits_le_iff, pow_two_eight_mul]
  exact ofBigEndian_lt bs

theorem magnitude_ofBigEndian {bs : Bytes} (h : bs.head? ≠ some 0) : magnitude (ofBigEndian bs) = bs := by
  have hlen : bytesFor (significantBits (ofBigEndian bs)) = bs.length := by
    have hle := significantBits_ofBigEndian_le bs
    cases bs with
    | nil => rfl
    | cons b bs =>
      have hb : 2 ^ 0 ≤ b.toNat := by
        refine Nat.pos_of_ne_zero fun hz => h ?_
        rw [List.head?_cons, UInt8.toNat_inj.1 (hz.trans UInt8.toNat_zero.symm)]
      have hlt := lt_significantBits_ofBigEndian hb bs
      rw [List.length_cons] at hle ⊢
      rw [bytesFor]
      omega
  rw [magnitude, hlen, bigEndian_ofBigEndian]

theorem significantBits_ofBigEndian_of_full {bs : Bytes} (h : 0x80 ≤ bs.headD 0) :
    significantBits (ofBigEndian bs) = 8 * bs.length := by
  have hle := significantBits_ofBigEndian_le bs
  cases bs with
  | nil => exact absurd h (by decide)
  | cons b bs =>
    have hb : 2 ^ 7 ≤ b.toNat := UInt8.le_iff_toNat_le.1 h
    have hlt := lt_significantBits_ofBigEndian hb bs
    rw [List.length_cons] at hle ⊢
    omega

theorem head_magnitude_of_full {v n : Nat} (h : significantBits v = 8 * (n + 1)) :
    0x80 ≤ (magnitude v).headD 0 := by
  have hn : bytesFor (significantBits v) = n + 1 := by
    rw [bytesFor, h]
    omega
  have hlt := lt_pow_bytesFor v
  rw [hn] at hlt
  obtain ⟨b, rest, hb, hq⟩ := bigEndian_succ hlt
  have hv : 128 * 2 ^ (8 * n) ≤ v := by
    have := two_pow_le_of_significantBits (v := v) (k := 8 * n + 7) (by omega)
    rw [Nat.pow_add] at this
    omega
  have hle : 128 ≤ v / 2 ^ (8 * n) := (Nat.le_div_iff_mul_le (Nat.two_pow_pos _)).2 hv
  rw [magnitude, hn, hb, List.headD_cons, UInt8.le_iff_toNat_le, hq]
  exact hle

theorem trailingZeros_of_odd {v : Nat} (h : v % 2 = 1) : trailingZeros v = 0 := by
  have hd : (v ^^^ (v - 1)) / 2 = 0 := by
    rw [Nat.xor_div_two]
    have : (v - 1) / 2 = v / 2 := by omega
    rw [this, Nat.xor_self]
  rw [trailingZeros, Nat.log2_def, if_neg (by omega)]

theorem trailingZeros_two_mul {v : Nat} (h : v ≠ 0) : trailingZeros (2 * v) = trailingZeros v + 1 := by
  have hd : (2 * v ^^^ (2 * v - 1)) / 2 = v ^^^ (v - 1) := by
    rw [Nat.xor_div_two]
    congr 1 <;> omega
  have hne : (v ^^^ (v - 1)) % 2 = 1 := Nat.xor_mod_two_eq_one.2 (by omega)
  rw [trailingZeros, Nat.log2_def, if_pos (by omega), hd, trailingZeros]

theorem trailingZeros_shiftLeft {v : Nat} (h : v % 2 = 1) (k : Nat) : trailingZeros (v <<< k) = k := by
  induction k with
  | zero => exact trailingZeros_of_odd h
  | succ k ih =>
    have hne : v <<< k ≠ 0 := by
      rw [Nat.shiftLeft_eq]
      exact Nat.mul_ne_zero (by omega) (Nat.two_pow_pos k).ne'
    rw [Nat.shiftLeft_succ, trailingZeros_two_mul hne, ih]

theorem oddPart_shiftLeft {v : Nat} (h : v % 2 = 1) (k : Nat) : oddPart (v <<< k) = v := by
  rw [oddPart, trailingZeros_shiftLeft h, Nat.shiftLeft_shiftRight]

theorem exists_shiftLeft_oddPart {v : Nat} (h : v ≠ 0) :
    oddPart v % 2 = 1 ∧
      ∃ k, v = oddPart v <<< k ∧ significantBits v = significantBits (oddPart v) + k := by
  obtain ⟨k, m, hm, rfl⟩ := Nat.exists_eq_two_pow_mul_odd h
  have hodd := Nat.odd_iff.1 hm
  have hshift : 2 ^ k * m = m <<< k := by rw [Nat.shiftLeft_eq, Nat.mul_comm]
  rw [hshift, oddPart_shiftLeft hodd]
  exact ⟨hodd, k, rfl, significantBits_shiftLeft (by omega) k⟩

theorem significantBits_oddPart_add_le {v j : Nat} (hv : v ≠ 0) (h : 2 ^ j ∣ v) :
    significantBits (oddPart v) + j ≤ significantBits v := by
  obtain ⟨hodd, k, hk, hbits⟩ := exists_shiftLeft_oddPart hv
  have hjk : j ≤ k := by
    refine Nat.le_of_not_lt fun hlt => ?_
    have hdvd : 2 ^ k * 2 ∣ 2 ^ k * oddPart v := by
      rw [← Nat.pow_succ, Nat.mul_comm, ← Nat.shiftLeft_eq, ← hk]
      exact (Nat.pow_dvd_pow 2 hlt).trans h
    have := Nat.dvd_of_mul_dvd_mul_left (Nat.two_pow_pos k) hdvd
    omega
  omega

end SortKey.Radix
