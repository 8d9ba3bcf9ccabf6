import SortKey.Proofs.DecoderFaults
import SortKey.Proofs.IntegerDecoding
import SortKey.Proofs.StreamAgreement

/-! What is decoded as a rational: exactly the encodings of the rationals whose parts, in lowest terms, keep
to the limit; two integers that are not the parts of a rational are malformed. -/
namespace SortKey.Rational
open Bytes
open BigInteger (size)
variable {limits : Limits} {q : Rat} {num den : Int}

theorem get_eq_ok_iff (hq : size q.num < lengthBound ∧ size q.den < lengthBound) {bs : Bytes} {n : Nat} :
    get limits bs = .ok (q, n) ↔
      n ≤ bs.length ∧ (size q.num ≤ limits.integerBytes ∧ size q.den ≤ limits.integerBytes) ∧
        BigInteger.bytes q.num ++ BigInteger.bytes q.den = bs.take n := by
  rw [← run_decoder]
  apply (accepts_decoder limits).run_eq_ok_iff
  rintro x ⟨hlimit, rfl⟩
  exact decodes hq hlimit

theorem size_le_of_get {bs : Bytes} {n : Nat} (h : get limits bs = .ok (q, n)) :
    size q.num ≤ bs.length ∧ size q.den ≤ bs.length := by
  rw [← run_decoder] at h
  obtain ⟨x, rest, rfl, rfl, -, rfl⟩ := accepts_decoder limits bs q n h
  simp only [List.length_append, BigInteger.length_bytes]
  omega

/-- The two integers are not the parts of a rational: the lower one is not positive, or some factor
could be cancelled. -/
def Unfit (num den : Int) : Prop := den ≤ 0 ∨ ∃ k : Int, 1 < k ∧ k ∣ num ∧ k ∣ den

def unfitness (num den : Int) : Malformation :=
  if den ≤ 0 then .denominator den else .notReduced num den

/-- A rational is made with the parts in lowest terms, so that they are the ones given only if these
have no factor in common. -/
theorem build_of_unfit (h : Unfit num den) : build num den = .error (.malformed (unfitness num den)) := by
  rw [unfitness]
  by_cases hpos : den ≤ 0
  · rw [build, if_pos hpos, if_pos hpos]
  obtain hle | ⟨k, hk, hnum, hden⟩ := h
  · exact (hpos hle).elim
  cases hbuild : build num den with
  | ok q =>
    obtain ⟨hqnum, hqden⟩ := build_eq_ok hbuild
    have hone : 1 < k.natAbs := by omega
    have hdvdnum : k.natAbs ∣ q.num.natAbs := by rwa [Int.natAbs_dvd_natAbs, hqnum]
    have hdvdden : k.natAbs ∣ q.den := by rwa [← Int.natCast_dvd_natCast, Int.natAbs_dvd, hqden]
    exact (Nat.not_coprime_of_dvd_of_dvd hone hdvdnum hdvdden q.reduced).elim
  | error e =>
    unfold build at hbuild
    rw [if_neg hpos] at hbuild
    dsimp only at hbuild
    split at hbuild <;> cases hbuild
    rw [if_neg hpos]

theorem rejects_of_unfit (h : Unfit num den) (hnum : size num < lengthBound) (hden : size den < lengthBound)
    (hlnum : size num ≤ limits.integerBytes) (hlden : size den ≤ limits.integerBytes) :
    (decoder limits).Rejects (BigInteger.bytes num ++ BigInteger.bytes den)
      (.malformed (unfitness num den)) :=
  (BigInteger.decodes hnum hlnum).rejects_bind
    ((BigInteger.decodes hden hlden).midway.rejects_check (build_of_unfit h))

/-- What is found at the front is the encoding of a rational whose parts are within the limit, and every
such encoding is found. Two integers within the limit that are not the parts of a rational are refused
in a byte string and in a source, whatever follows them. -/
theorem decoded_in_lowest_terms (limits : Limits) :
    (∀ bs q n, bs.length < lengthBound →
      ((Codec.leaf .rational).get limits bs = .ok (q, n) ↔
        n ≤ bs.length ∧ (Codec.leaf .rational).encode q = .ok (bs.take n) ∧
          size q.num ≤ limits.integerBytes ∧ size q.den ≤ limits.integerBytes)) ∧
    ∀ num den x y, Unfit num den →
      (Codec.leaf .integer).encode num = .ok x → size num ≤ limits.integerBytes →
      (Codec.leaf .integer).encode den = .ok y → size den ≤ limits.integerBytes →
        (∀ rest, (Codec.leaf .rational).get limits (x ++ y ++ rest) =
          .error (.malformed (unfitness num den))) ∧
        ∀ rest s pos, (x ++ y ++ rest).length < lengthBound → s.Holds (x ++ y ++ rest) pos →
          ∃ t, ((Codec.leaf .rational).read limits).runFrom s =
            (.error (.malformed (unfitness num den)), t) := by
  constructor
  · intro bs q n hbs
    constructor
    · intro hget
      obtain ⟨hnum, hden⟩ := size_le_of_get hget
      have hq : size q.num < lengthBound ∧ size q.den < lengthBound := by omega
      obtain ⟨hn, hlimit, hbytes⟩ := (get_eq_ok_iff hq).1 hget
      exact ⟨hn, encoding_append_eq_ok.2 ⟨hq, hbytes.symm⟩, hlimit⟩
    · rintro ⟨hn, hencode, hlimit⟩
      obtain ⟨hq, hbytes⟩ := encoding_append_eq_ok.1 hencode
      exact (get_eq_ok_iff hq).2 ⟨hn, hlimit, hbytes.symm⟩
  · intro num den x y h hx hlnum hy hlden
    obtain ⟨hnum, rfl⟩ := BigInteger.encoding_append_eq_ok.1 hx
    obtain ⟨hden, rfl⟩ := BigInteger.encoding_append_eq_ok.1 hy
    have hrejects := rejects_of_unfit h hnum hden hlnum hlden
    constructor
    · intro rest
      have hrun := hrejects rest
      rwa [run_decoder] at hrun
    · intro rest s pos hlen hs
      -- integers have no frame, so that any limit on payloads will do
      have hfollows (payload : Nat) :
          Follows ⟨limits.integerBytes, payload⟩ (decoder limits) (read limits) :=
        (closed ⟨limits.integerBytes, payload⟩).twin.follows
      exact (hfollows _).runFrom_of_error hlen (Nat.le_refl _) (hrejects rest) nofun nofun hs

/-- With room for two bytes, -3/256 is found in front of another byte, and -6/512 is refused. -/
theorem decoded_in_lowest_terms_minus_three_256ths :
    let limits : Limits := ⟨2, 0⟩
    let q := mkRat (-3) 256
    let bs : Bytes := [0x7f, 0xff, 0xff, 0xff, 0xff, 0xff, 0xff, 0xff, 0xfc,
      0x80, 0x00, 0x00, 0x00, 0x00, 0x00, 0x00, 0x02, 0x01, 0x00, 0x07]
    let x : Bytes := [0x7f, 0xff, 0xff, 0xff, 0xff, 0xff, 0xff, 0xff, 0xf9]
    let y : Bytes := [0x80, 0x00, 0x00, 0x00, 0x00, 0x00, 0x00, 0x02, 0x02, 0x00]
    (bs.length < lengthBound ∧ (Codec.leaf .rational).get limits bs = .ok (q, 19) ∧
      (Codec.leaf .rational).encode q = .ok (bs.take 19)) ∧
    Unfit (-6) 512 ∧
    (Codec.leaf .integer).encode (-6) = .ok x ∧ size (-6) ≤ limits.integerBytes ∧
    (Codec.leaf .integer).encode 512 = .ok y ∧ size 512 ≤ limits.integerBytes ∧
      (∀ rest, (Codec.leaf .rational).get limits (x ++ y ++ rest) =
        .error (.malformed (.notReduced (-6) 512))) ∧
      (x ++ y ++ []).length < lengthBound ∧ (Source.ofBytes (x ++ y ++ [])).Holds (x ++ y ++ []) 0 ∧
      ∃ t, ((Codec.leaf .rational).read limits).runFrom (.ofBytes (x ++ y ++ [])) =
        (.error (.malformed (.notReduced (-6) 512)), t) := by
  intro limits q bs x y
  have hbs : bs.length < lengthBound := by decide
  have hget : (Codec.leaf .rational).get limits bs = .ok (q, 19) := by decide
  have hunfit : Unfit (-6) 512 := .inr ⟨2, by decide⟩
  have hx : (Codec.leaf .integer).encode (-6) = .ok x := by rfl
  have hxlimit : size (-6) ≤ limits.integerBytes := by decide
  have hy : (Codec.leaf .integer).encode 512 = .ok y := by rfl
  have hylimit : size 512 ≤ limits.integerBytes := by decide
  have hlen : (x ++ y ++ []).length < lengthBound := by decide
  have hholds := Source.holds_ofBytes (x ++ y ++ [])
  obtain ⟨hexact, hrefused⟩ := decoded_in_lowest_terms limits
  obtain ⟨-, hencode, -⟩ := (hexact bs q 19 hbs).1 hget
  obtain ⟨hslice, hsource⟩ := hrefused (-6) 512 x y hunfit hx hxlimit hy hylimit
  exact ⟨⟨hbs, hget, hencode⟩, hunfit, hx, hxlimit, hy, hylimit, hslice, hlen, hholds,
    hsource [] _ 0 hlen hholds⟩

end SortKey.Rational
