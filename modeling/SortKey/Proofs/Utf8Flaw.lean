import Mathlib.Order.Bounds.Basic
import SortKey.Proofs.Utf8Acceptance

/-! What is wrong with bytes that are not UTF-8. A flaw tells how long the longest start is that is the
encoding of a string, how many bytes after it could still have belonged to one, and whether all of them
could. -/
namespace SortKey.Utf8

/-- What a flaw says of the bytes in which it is found. A first byte that begins no scalar value counts
towards `length` all the same. -/
structure Flaw.Describes (flaw : Flaw) (bs : Bytes) : Prop where
  validUpTo_isGreatest : IsGreatest {n | ∃ s, encode s = bs.take n} flaw.validUpTo
  length_eq_none_iff : flaw.length = none ↔ ∃ s, bs <+: encode s
  length_eq_some_iff (n : Nat) : flaw.length = some n ↔
    ∃ k, IsGreatest {k | ∃ s, bs.take k <+: encode s} k ∧ n = max 1 (k - flaw.validUpTo)

/-! ### What a first byte announces -/

def Lead.ranges : Lead → List (UInt8 × UInt8)
  | .one => []
  | .two => [(0x80, 0xbf)]
  | .three low high => [(low, high), (0x80, 0xbf)]
  | .four low high => [(low, high), (0x80, 0xbf), (0x80, 0xbf)]

/-- The number of bytes at the front that keep to the ranges. -/
def matched : List (UInt8 × UInt8) → Bytes → Nat
  | (low, high) :: ranges, b :: bs => if within low high b then matched ranges bs + 1 else 0
  | _, _ => 0

@[simp] theorem matched_nil (ranges : List (UInt8 × UInt8)) : matched ranges [] = 0 := by
  cases ranges <;> rfl

section
variable {ranges : List (UInt8 × UInt8)} {bs : Bytes}

/-- The first byte outside its range decides, whatever comes after it. -/
theorem matched_take_append (hr : matched ranges bs < ranges.length) (hb : matched ranges bs < bs.length)
    (more : Bytes) : matched ranges (bs.take (matched ranges bs + 1) ++ more) = matched ranges bs := by
  induction ranges generalizing bs with
  | nil => exact (Nat.not_lt_zero _ hr).elim
  | cons r ranges ih =>
    cases bs with
    | nil => exact (Nat.not_lt_zero _ hb).elim
    | cons b bs =>
      cases h : within r.1 r.2 b with
      | false => simp [matched, h]
      | true =>
        simp only [matched, h, if_true, List.length_cons, Nat.add_lt_add_iff_right] at hr hb ⊢
        rw [List.take_succ_cons, List.cons_append, matched, if_pos h, ih hr hb]

theorem matched_le_length (ranges : List (UInt8 × UInt8)) (bs : Bytes) :
    matched ranges bs ≤ bs.length := by
  induction ranges generalizing bs with
  | nil => exact Nat.zero_le _
  | cons r ranges ih =>
    cases bs with
    | nil => exact Nat.zero_le _
    | cons b bs => cases h : within r.1 r.2 b <;> simp [matched, h, ih]

theorem matched_take (ranges : List (UInt8 × UInt8)) (bs : Bytes) :
    matched ranges (bs.take (matched ranges bs)) = matched ranges bs := by
  induction ranges generalizing bs with
  | nil => rfl
  | cons r ranges ih =>
    cases bs with
    | nil => rfl
    | cons b bs => cases h : within r.1 r.2 b <;> simp [matched, h, ih]

theorem matched_append_lows (hlow : ∀ r ∈ ranges, within r.1 r.2 r.1 = true)
    (h : matched ranges bs = bs.length) :
    matched ranges (bs ++ (ranges.map Prod.fst).drop bs.length) = ranges.length := by
  induction ranges generalizing bs with
  | nil => rfl
  | cons r ranges ih =>
    have hlow' : ∀ r ∈ ranges, within r.1 r.2 r.1 = true := fun r hr => hlow r (List.mem_cons_of_mem _ hr)
    cases bs with
    | nil => simpa [matched, hlow] using ih hlow' (matched_nil ranges)
    | cons b bs =>
      cases hb : within r.1 r.2 b with
      | false => simp [matched, hb] at h
      | true =>
        simp only [matched, hb, if_true, List.length_cons, Nat.add_right_cancel_iff] at h
        simp [matched, hb, ih hlow' h]

end

/-- The bytes that keep to the ranges tell what is wrong: either they are all there are, or the next one is
out of its range. -/
theorem next_eq_error_iff {a : UInt8} {rest : Bytes} {l : Lead} (hl : lead? a = some l)
    {length : Option Nat} :
    next a rest = .error length ↔ matched l.ranges rest < l.ranges.length ∧
      (if matched l.ranges rest = rest.length then none else some (matched l.ranges rest + 1)) = length := by
  have hcontinues : within 0x80 0xbf = continues := rfl
  rw [next.eq_def, hl]
  -- the one split over the lengths of sequences; what follows only counts the bytes that match
  cases l with
  | one => simp [Lead.ranges]
  | two =>
    cases rest with
    | nil => simp [Lead.ranges]
    | cons b more => cases hb : continues b <;> simp [Lead.ranges, matched, hcontinues, hb]
  | three low high =>
    obtain _ | ⟨b, _ | ⟨d, more⟩⟩ := rest
    · simp [Lead.ranges]
    · cases hb : within low high b <;> simp [Lead.ranges, matched, hb]
    · cases hb : within low high b <;> cases hd : continues d <;>
        simp [Lead.ranges, matched, hcontinues, hb, hd]
  | four low high =>
    obtain _ | ⟨b, _ | ⟨d, _ | ⟨e, more⟩⟩⟩ := rest
    · simp [Lead.ranges]
    · cases hb : within low high b <;> simp [Lead.ranges, matched, hb]
    · cases hb : within low high b <;> cases hd : continues d <;>
        simp [Lead.ranges, matched, hcontinues, hb, hd]
    · cases hb : within low high b <;> cases hd : continues d <;> cases he : continues e <;>
        simp [Lead.ranges, matched, hcontinues, hb, hd, he]

theorem next_of_lead?_eq_none {a : UInt8} (hl : lead? a = none) (rest : Bytes) :
    next a rest = .error (some 1) := by
  rw [next.eq_def, hl]

theorem within_low_of_lead? {a : UInt8} {l : Lead} (hl : lead? a = some l) :
    ∀ r ∈ l.ranges, within r.1 r.2 r.1 = true := by
  rw [lead?_eq] at hl
  repeat' split at hl
  all_goals cases hl
  all_goals simp [Lead.ranges, within]

/-! ### One scalar value -/

section
variable {a : UInt8} {rest : Bytes}

theorem exists_of_next_eq_none (h : next a rest = .error none) :
    ∃ c, a :: rest <+: String.utf8EncodeChar c := by
  cases hl : lead? a with
  | none =>
    rw [next_of_lead?_eq_none hl] at h
    cases h
  | some l =>
    have hlen := ((next_eq_error_iff hl).1 h).2
    have hmatched : matched l.ranges rest = rest.length := by simpa using hlen
    have hfull := matched_append_lows (within_low_of_lead? hl) hmatched
    cases hnext : next a (rest ++ (l.ranges.map Prod.fst).drop rest.length) with
    | error length => exact (((next_eq_error_iff hl).1 hnext).1.ne hfull).elim
    | ok found =>
      obtain ⟨c, k⟩ := found
      obtain hprefix | ⟨tail, htail⟩ := List.prefix_or_prefix_of_prefix
        (List.prefix_append (a :: rest) _) ⟨_, utf8EncodeChar_of_next hnext⟩
      · exact ⟨c, hprefix⟩
      · -- a scalar value that ended before the sequence stops would have been found
        obtain ⟨b, more, m, heq, hok, -⟩ := next_utf8EncodeChar c tail
        rw [htail] at heq
        cases heq
        rw [h] at hok
        cases hok

theorem exists_of_next_eq_some {n : Nat} (h : next a rest = .error (some n)) :
    ∃ g ≤ rest.length, n = max 1 g ∧ (∃ s, (a :: rest).take g <+: encode s) ∧
      ∀ more, next a (rest.take g ++ more) = .error (some n) := by
  cases hl : lead? a with
  | none =>
    rw [next_of_lead?_eq_none hl] at h
    cases h
    exact ⟨0, Nat.zero_le _, rfl, ⟨"", List.nil_prefix⟩, next_of_lead?_eq_none hl⟩
  | some l =>
    obtain ⟨hranges, hlen⟩ := (next_eq_error_iff hl).1 h
    have hle := matched_le_length l.ranges rest
    have hne : matched l.ranges rest ≠ rest.length := by
      intro heq
      simp [heq] at hlen
    have hn : matched l.ranges rest + 1 = n := by simpa [hne] using hlen
    have hlt : matched l.ranges rest < rest.length := by omega
    have hstart : next a (rest.take (matched l.ranges rest)) = .error none := by
      rw [next_eq_error_iff hl, matched_take]
      simp [hranges, hle]
    refine ⟨n, by omega, by omega, ?_, fun more => ?_⟩
    · obtain ⟨c, hc⟩ := exists_of_next_eq_none hstart
      refine ⟨String.singleton c, ?_⟩
      simpa [← hn, encode] using hc
    · rw [← hn, next_eq_error_iff hl, matched_take_append hranges hlt]
      refine ⟨hranges, if_neg ?_⟩
      rw [List.length_append, List.length_take_of_le hlt]
      omega

end

/-! ### Strings -/

theorem encode_append (s t : String) : encode (s ++ t) = encode s ++ encode t := by
  simp [encode]

theorem length_of_next {a : UInt8} {rest : Bytes} {c : Char} {k : Nat} (h : next a rest = .ok (c, k)) :
    (String.utf8EncodeChar c).length = k + 1 := by
  obtain ⟨b, more, m, heq, hnext, -, hlen⟩ := next_utf8EncodeChar c (rest.drop k)
  rw [utf8EncodeChar_of_next h] at heq
  cases heq
  rw [h] at hnext
  cases hnext
  exact hlen

section
variable {i : Nat} {bs : Bytes} {flaw : Flaw}

theorem exists_of_charsFrom_eq_error (h : charsFrom i bs = .error flaw) :
    ∃ s a rest, bs = encode s ++ a :: rest ∧ next a rest = .error flaw.length ∧
      flaw.validUpTo = i + (encode s).length := by
  induction i, bs using charsFrom.induct with
  | case1 i =>
    rw [charsFrom_nil] at h
    cases h
  | case2 i a rest length hnext =>
    rw [charsFrom, hnext] at h
    cases h
    exact ⟨"", a, rest, rfl, hnext, rfl⟩
  | case3 i a rest c k hnext ih =>
    rw [charsFrom, hnext] at h
    obtain ⟨s, b, more, hrest, hflaw, hindex⟩ := ih (Outcome.map_eq_error.1 h)
    have hc : encode (String.singleton c) = String.utf8EncodeChar c := by simp [encode]
    refine ⟨String.singleton c ++ s, b, more, ?_, hflaw, ?_⟩
    · rw [encode_append, hc, List.append_assoc, ← hrest, utf8EncodeChar_of_next hnext]
    · rw [hindex, encode_append, hc, List.length_append, length_of_next hnext]
      omega

theorem decode_eq_error_iff : decode bs = .error flaw ↔ charsFrom 0 bs = .error flaw :=
  Outcome.map_eq_error

theorem decode_encode_append_eq_error_iff {s : String} {more : Bytes} :
    decode (encode s ++ more) = .error flaw ↔ charsFrom (encode s).length more = .error flaw := by
  rw [decode_eq_error_iff, encode, charsFrom_flatMap_append, ← encode, Nat.zero_add]
  exact Outcome.map_eq_error

theorem not_isPrefix_encode {s t : String} {a : UInt8} {rest : Bytes} {length : Option Nat}
    (h : ∀ more, next a (rest ++ more) = .error length) : ¬encode s ++ a :: rest <+: encode t := by
  rintro ⟨more, ht⟩
  have herror : decode (encode t) = .error ⟨(encode s).length, length⟩ := by
    rw [← ht, List.append_assoc, List.cons_append, decode_encode_append_eq_error_iff, charsFrom, h]
  rw [decode_encode] at herror
  cases herror

theorem isGreatest_validUpTo (h : decode bs = .error flaw) :
    IsGreatest {n | ∃ s, encode s = bs.take n} flaw.validUpTo := by
  constructor
  · obtain ⟨s, a, rest, rfl, -, hindex⟩ := exists_of_charsFrom_eq_error (decode_eq_error_iff.1 h)
    refine ⟨s, ?_⟩
    rw [hindex, Nat.zero_add, List.take_left]
  · rintro n ⟨s, hs⟩
    rw [← List.take_append_drop n bs, ← hs, decode_encode_append_eq_error_iff] at h
    have hn : n < bs.length := by
      by_contra hn
      rw [List.drop_of_length_le (Nat.not_lt.1 hn), charsFrom_nil] at h
      cases h
    obtain ⟨t, a, rest, -, -, hindex⟩ := exists_of_charsFrom_eq_error h
    rw [hs, List.length_take_of_le hn.le] at hindex
    rw [hindex]
    exact Nat.le_add_right n _

theorem exists_isGreatest_of_length {n : Nat} (h : decode bs = .error flaw) (hn : flaw.length = some n) :
    ∃ k, IsGreatest {k | ∃ s, bs.take k <+: encode s} k ∧ n = max 1 (k - flaw.validUpTo) := by
  obtain ⟨s, a, rest, rfl, hnext, hindex⟩ := exists_of_charsFrom_eq_error (decode_eq_error_iff.1 h)
  rw [hn] at hnext
  obtain ⟨g, hg, hmax, ⟨t, ht⟩, hwrong⟩ := exists_of_next_eq_some hnext
  refine ⟨(encode s).length + g, ⟨⟨s ++ t, ?_⟩, ?_⟩, by omega⟩
  · rw [List.take_length_add_append, encode_append]
    exact (List.prefix_append_right_inj _).2 ht
  · rintro k ⟨u, hu⟩
    by_contra hk
    obtain ⟨d, rfl⟩ : ∃ d, k = (encode s).length + (g + d + 1) :=
      ⟨k - (encode s).length - g - 1, by omega⟩
    rw [List.take_length_add_append, List.take_succ_cons, List.take_add] at hu
    have hstill (more : Bytes) :
        next a (rest.take g ++ (rest.drop g).take d ++ more) = .error (some n) := by
      rw [List.append_assoc]
      exact hwrong _
    exact not_isPrefix_encode hstill hu

theorem not_isGreatest_of_isPrefix {s : String} (h : bs <+: encode s) (k : Nat) :
    ¬IsGreatest {k | ∃ s, bs.take k <+: encode s} k := by
  intro hk
  have hle : k + 1 ≤ k := hk.2 ⟨s, (List.take_prefix _ _).trans h⟩
  omega

theorem length_eq_none_iff (h : decode bs = .error flaw) :
    flaw.length = none ↔ ∃ s, bs <+: encode s := by
  constructor
  · intro hnone
    obtain ⟨s, a, rest, rfl, hnext, -⟩ := exists_of_charsFrom_eq_error (decode_eq_error_iff.1 h)
    rw [hnone] at hnext
    obtain ⟨c, hc⟩ := exists_of_next_eq_none hnext
    refine ⟨s ++ String.singleton c, ?_⟩
    rw [encode_append]
    exact (List.prefix_append_right_inj _).2 (by simpa [encode] using hc)
  · rintro ⟨s, hs⟩
    by_contra hsome
    obtain ⟨n, hn⟩ := Option.ne_none_iff_exists'.1 hsome
    obtain ⟨k, hk, -⟩ := exists_isGreatest_of_length h hn
    exact not_isGreatest_of_isPrefix hs k hk

theorem describes_of_decode (h : decode bs = .error flaw) : flaw.Describes bs where
  validUpTo_isGreatest := isGreatest_validUpTo h
  length_eq_none_iff := length_eq_none_iff h
  length_eq_some_iff n := by
    constructor
    · exact exists_isGreatest_of_length h
    · rintro ⟨k, hk, rfl⟩
      cases hlen : flaw.length with
      | none =>
        obtain ⟨s, hs⟩ := (length_eq_none_iff h).1 hlen
        exact (not_isGreatest_of_isPrefix hs k hk).elim
      | some n =>
        obtain ⟨m, hm, rfl⟩ := exists_isGreatest_of_length h hlen
        rw [hk.unique hm]

end

end SortKey.Utf8
