import SortKey.Proofs.StreamAgreement

/-! What is wrong with bytes that are not decoded as a big integer. Each fault is reported exactly for its
own reason, under every limit, in a byte string and in a source, and a header that announces too much is
refused before any more is read. -/
namespace SortKey

theorem FixedWidth.readInt_of_le {w : Width} {s : Source} {bs : Bytes} {pos : Nat} (hs : s.Holds bs pos)
    (h : w.bytes ≤ bs.length) :
    ∃ t, (readInt w).runFrom s = (.ok (flip w (ofBytes w (bs.take w.bytes))).toInt, t) ∧
      t.Holds (bs.drop w.bytes) (pos + w.bytes) := by
  obtain ⟨t, hrun, ht⟩ := Reading.exactly_of_le hs h
  refine ⟨t, ?_, ht⟩
  rw [readInt, Reading.runFrom_bind, read, Reading.runFrom_bind, hrun]
  rfl

namespace BigInteger
open Bytes

/-- The length that the first eight bytes announce, with the sign of the integer. -/
def header (bs : Bytes) : Int := (FixedWidth.flip .w64 (FixedWidth.ofBytes .w64 (bs.take 8))).toInt

/-- There is a header, and the limit allows what it announces. -/
def Admitted (limits : Limits) (bs : Bytes) : Prop :=
  8 ≤ bs.length ∧ (header bs).natAbs ≤ limits.integerBytes

/-- The first byte after the header as it is in the magnitude, which is complemented below zero. -/
def leading (bs : Bytes) : Option UInt8 := (masked (Frame.maskOf (header bs < 0)) (bs.drop 8)).head?

/-- What is wrong with the bytes at the front. -/
def fault? (limits : Limits) (bs : Bytes) : Option Fault :=
  if bs.length = 0 then some .endOfInput
  else if bs.length < 8 then some .truncated
  else if limits.integerBytes < (header bs).natAbs then
    some (.tooLarge (header bs).natAbs limits.integerBytes)
  else if bs.length < 8 + (header bs).natAbs then some .truncated
  else if 1 ≤ (header bs).natAbs ∧ leading bs = some 0 then some (.malformed .leadingZero)
  else if lengthBound ≤ (header bs).natAbs then some (.device (.memory (header bs).natAbs))
  else none

section
variable {limits : Limits} {bs : Bytes}

theorem get_of_lt (h : bs.length < 8) :
    get limits bs = .error (if bs.isEmpty then .endOfInput else .truncated) := by
  rw [get, FixedWidth.getInt_of_lt h, Outcome.error_bind]

theorem get_of_le (h : 8 ≤ bs.length) :
    get limits bs = magnitudeSize limits (header bs) >>= fun size =>
      Slice.midway (Slice.exactly size (bs.drop 8)) >>= fun field =>
        (·, 8 + size) <$> build (header bs < 0) field := by
  have hheader : FixedWidth.getInt .w64 bs = .ok (header bs, 8) := FixedWidth.getInt_of_le h
  rw [get, hheader]
  rfl

theorem get_of_tooLong (h : 8 ≤ bs.length) (hlimit : limits.integerBytes < (header bs).natAbs) :
    get limits bs = .error (.tooLarge (header bs).natAbs limits.integerBytes) := by
  rw [get_of_le h, magnitudeSize, if_neg (Nat.not_le.2 hlimit), Outcome.error_bind]

theorem get_of_cut (h : Admitted limits bs) (hlen : bs.length < 8 + (header bs).natAbs) :
    get limits bs = .error .truncated := by
  have hlong := h.1
  have hrest : (bs.drop 8).length < (header bs).natAbs := by
    rw [List.length_drop]
    omega
  rw [get_of_le hlong, magnitudeSize, if_pos h.2, Outcome.ok_bind, Slice.exactly_of_lt hrest]
  cases (bs.drop 8).isEmpty <;> rfl

theorem head?_masked_take (mask : UInt8) {n : Nat} (hn : n ≠ 0) (bs : Bytes) :
    (masked mask (bs.take n)).head? = (masked mask bs).head? := by
  obtain ⟨m, rfl⟩ := Nat.exists_eq_succ_of_ne_zero hn
  cases bs <;> rfl

theorem build_take (hlen : 8 + (header bs).natAbs ≤ bs.length) :
    build (header bs < 0) ((bs.drop 8).take (header bs).natAbs) =
      if 1 ≤ (header bs).natAbs ∧ leading bs = some 0 then .error (.malformed .leadingZero)
      else if lengthBound ≤ (header bs).natAbs then .error (.device (.memory (header bs).natAbs))
      else .ok (withSign (header bs < 0) (Radix.ofBigEndian
        (masked (Frame.maskOf (header bs < 0)) ((bs.drop 8).take (header bs).natAbs)))) := by
  have htake : ((bs.drop 8).take (header bs).natAbs).length = (header bs).natAbs := by
    rw [List.length_take, List.length_drop]
    omega
  rw [build, length_masked, htake]
  by_cases hzero : (header bs).natAbs = 0
  · simp [hzero]
  · simp [head?_masked_take _ hzero, leading, Nat.one_le_iff_ne_zero, hzero]

theorem get_of_whole (h : Admitted limits bs) (hlen : 8 + (header bs).natAbs ≤ bs.length) :
    get limits bs = (·, 8 + (header bs).natAbs) <$>
      build (header bs < 0) ((bs.drop 8).take (header bs).natAbs) := by
  have hrest : (header bs).natAbs ≤ (bs.drop 8).length := by
    rw [List.length_drop]
    omega
  rw [get_of_le h.1, magnitudeSize, if_pos h.2, Outcome.ok_bind, Slice.exactly_of_le hrest]
  rfl

theorem get_eq_error_iff {e : Fault} : get limits bs = .error e ↔ fault? limits bs = some e := by
  rw [fault?]
  split
  · next hnil =>
    rw [List.length_eq_zero_iff.1 hnil, get_of_lt (by decide)]
    simp
  split
  · next hnil hshort =>
    have hne : bs.isEmpty = false := by simpa [List.length_eq_zero_iff] using hnil
    rw [get_of_lt hshort]
    simp [hne]
  split
  · next hlong hlimit =>
    rw [get_of_tooLong (Nat.not_lt.1 hlong) hlimit]
    simp
  next hlong hlimit =>
  have hadmitted : Admitted limits bs := ⟨Nat.not_lt.1 hlong, Nat.not_lt.1 hlimit⟩
  split
  · next hcut =>
    rw [get_of_cut hadmitted hcut]
    simp
  · next hcut =>
    have hwhole := Nat.not_lt.1 hcut
    rw [get_of_whole hadmitted hwhole, build_take hwhole]
    split
    · simp
    · split <;> simp

/-! ### The reasons, one by one -/

theorem fault?_eq_endOfInput : fault? limits bs = some .endOfInput ↔ bs = [] := by
  rw [← List.length_eq_zero_iff]
  unfold fault?
  split_ifs <;> simp_all

theorem fault?_eq_tooLarge {size limit : Nat} :
    fault? limits bs = some (.tooLarge size limit) ↔
      (8 ≤ bs.length ∧ limits.integerBytes < (header bs).natAbs) ∧
        size = (header bs).natAbs ∧ limit = limits.integerBytes := by
  unfold fault?
  generalize (header bs).natAbs = n
  split_ifs <;> simp <;> omega

theorem fault?_eq_truncated :
    fault? limits bs = some .truncated ↔
      (1 ≤ bs.length ∧ bs.length ≤ 7) ∨ Admitted limits bs ∧ bs.length < 8 + (header bs).natAbs := by
  unfold fault? Admitted
  generalize (header bs).natAbs = n
  split_ifs <;> simp <;> omega

theorem fault?_eq_malformed {cause : Malformation} :
    fault? limits bs = some (.malformed cause) ↔
      (Admitted limits bs ∧ 1 ≤ (header bs).natAbs ∧ 8 + (header bs).natAbs ≤ bs.length ∧
        leading bs = some 0) ∧ cause = .leadingZero := by
  unfold fault? Admitted
  generalize (header bs).natAbs = n
  by_cases hzero : leading bs = some 0
  · simp only [hzero, and_true]
    by_cases hcause : cause = .leadingZero
    · simp only [hcause, and_true]
      split_ifs <;> simp <;> omega
    · split_ifs <;> simp [hcause, Ne.symm hcause]
  · simp only [hzero, and_false, false_and, if_false]
    split_ifs <;> simp

/-! ### Reading -/

variable {s : Source} {pos : Nat}

theorem read_of_le (limits : Limits) (hs : s.Holds bs pos) (h : 8 ≤ bs.length) :
    ∃ t, t.Holds (bs.drop 8) (pos + 8) ∧ (read limits).runFrom s =
      (Reading.payload (magnitudeSize limits (header bs)) (build (header bs < 0))).runFrom t := by
  obtain ⟨t, hheader, ht⟩ := FixedWidth.readInt_of_le (w := .w64) hs h
  have hrun : (FixedWidth.readInt .w64).runFrom s = (.ok (header bs), t) := hheader
  refine ⟨t, ht, ?_⟩
  rw [read, Reading.runFrom_bind, hrun]
  rfl

theorem runFrom_read_of_tooLong (hs : s.Holds bs pos) (h : 8 ≤ bs.length)
    (hlimit : limits.integerBytes < (header bs).natAbs) :
    ∃ t, (read limits).runFrom s =
      (.error (.tooLarge (header bs).natAbs limits.integerBytes), t) ∧ t.Holds (bs.drop 8) (pos + 8) := by
  obtain ⟨t, ht, hrun⟩ := read_of_le limits hs h
  refine ⟨t, ?_, ht⟩
  rw [hrun, magnitudeSize, if_neg (Nat.not_le.2 hlimit)]
  rfl

theorem runFrom_read_of_vast (hs : s.Holds bs pos) (h : Admitted limits bs)
    (hvast : lengthBound ≤ (header bs).natAbs) :
    ∃ t, (read limits).runFrom s = (.error (.device (.memory (header bs).natAbs)), t) ∧
      t.Holds (bs.drop 8) (pos + 8) := by
  obtain ⟨t, ht, hrun⟩ := read_of_le limits hs h.1
  refine ⟨t, ?_, ht⟩
  rw [hrun, magnitudeSize, if_pos h.2, Reading.payload_ok, Reading.announced_of_le hvast]
  rfl

theorem runFrom_read (hs : s.Holds bs pos) (hroom : Admitted limits bs → (header bs).natAbs < lengthBound) :
    ∃ t, (read limits).runFrom s = (Prod.fst <$> get limits bs, t) := by
  by_cases hlong : 8 ≤ bs.length
  · obtain ⟨t, ht, hrun⟩ := read_of_le limits hs hlong
    rw [hrun, get_of_le hlong]
    by_cases hlimit : (header bs).natAbs ≤ limits.integerBytes
    · obtain ⟨u, hfield⟩ := Reading.runFrom_exactly_of_holds ht (header bs).natAbs
      rw [magnitudeSize, if_pos hlimit, Reading.payload_ok,
        Reading.announced_of_lt (hroom ⟨hlong, hlimit⟩), Reading.runFrom_bind, Reading.runFrom_midway,
        hfield, Outcome.ok_bind]
      cases Slice.exactly (header bs).natAbs (bs.drop 8) with
      | error e => exact ⟨u, rfl⟩
      | ok field =>
        refine ⟨u, ?_⟩
        dsimp only [Except.mapError, Slice.midway]
        rw [Reading.runFrom_liftM, Outcome.ok_bind]
        cases build (header bs < 0) field <;> rfl
    · rw [magnitudeSize, if_neg hlimit]
      exact ⟨t, rfl⟩
  · have hshort : bs.length < Width.w64.bytes := Nat.lt_of_not_le hlong
    obtain ⟨t, hrun, -⟩ := Reading.exactly_of_lt hs hshort
    refine ⟨t, ?_⟩
    rw [get_of_lt hshort, read, Reading.runFrom_bind, FixedWidth.readInt, Reading.runFrom_bind,
      FixedWidth.read, Reading.runFrom_bind, hrun]
    rfl

end

/-- Each fault has its own reason, whatever the limit. The lowest header announces `2 ^ 63` bytes, which are
too large for every limit below that number and are not there under a higher limit. Reading fails like
decoding, as long as it does not ask for as many bytes; what is too large is refused right after the
header. -/
theorem fault_reasons (limits : Limits) (bs : Bytes) :
    ((Codec.leaf .integer).get limits bs = .error .endOfInput ↔ bs = []) ∧
    (∀ size limit, (Codec.leaf .integer).get limits bs = .error (.tooLarge size limit) ↔
      (8 ≤ bs.length ∧ limits.integerBytes < (header bs).natAbs) ∧
        size = (header bs).natAbs ∧ limit = limits.integerBytes) ∧
    ((Codec.leaf .integer).get limits bs = .error .truncated ↔
      (1 ≤ bs.length ∧ bs.length ≤ 7) ∨ Admitted limits bs ∧ bs.length < 8 + (header bs).natAbs) ∧
    (∀ cause, (Codec.leaf .integer).get limits bs = .error (.malformed cause) ↔
      (Admitted limits bs ∧ 1 ≤ (header bs).natAbs ∧ 8 + (header bs).natAbs ≤ bs.length ∧
        leading bs = some 0) ∧ cause = .leadingZero) ∧
    (8 ≤ bs.length → bs.length < lengthBound → header bs = -2 ^ 63 →
      (Codec.leaf .integer).get limits bs = .error
        (if limits.integerBytes < 2 ^ 63 then .tooLarge (2 ^ 63) limits.integerBytes else .truncated)) ∧
    ∀ s pos, s.Holds bs pos → bs.length < lengthBound →
      (Admitted limits bs → (header bs).natAbs < lengthBound) →
        ∃ t, ((Codec.leaf .integer).read limits).runFrom s =
            (Prod.fst <$> (Codec.leaf .integer).get limits bs, t) ∧
          (8 ≤ bs.length ∧ limits.integerBytes < (header bs).natAbs → t.Holds (bs.drop 8) (pos + 8)) := by
  have hget {e : Fault} : (Codec.leaf .integer).get limits bs = .error e ↔ fault? limits bs = some e :=
    get_eq_error_iff
  refine ⟨hget.trans fault?_eq_endOfInput, fun _ _ => hget.trans fault?_eq_tooLarge,
    hget.trans fault?_eq_truncated, fun _ => hget.trans fault?_eq_malformed, ?_, ?_⟩
  · intro hlong hlen hheader
    have habs : (header bs).natAbs = 2 ^ 63 := by rw [hheader]; rfl
    rw [lengthBound] at hlen
    split
    · next hlimit => exact hget.2 (fault?_eq_tooLarge.2 ⟨⟨hlong, by omega⟩, habs.symm, rfl⟩)
    · next hlimit => exact hget.2 (fault?_eq_truncated.2 (.inr ⟨⟨hlong, by omega⟩, by omega⟩))
  · intro s pos hs _ hroom
    by_cases h : 8 ≤ bs.length ∧ limits.integerBytes < (header bs).natAbs
    · obtain ⟨t, hrun, ht⟩ := runFrom_read_of_tooLong hs h.1 h.2
      refine ⟨t, ?_, fun _ => ht⟩
      rw [hget.2 (fault?_eq_tooLarge.2 ⟨h, rfl, rfl⟩)]
      exact hrun
    · obtain ⟨t, hrun⟩ := runFrom_read hs hroom
      exact ⟨t, hrun, fun h' => (h h').elim⟩

/-- A magnitude of two bytes is refused where one is the limit, as soon as the header is read. -/
theorem fault_reasons_minus_two :
    let limits : Limits := ⟨1, 0⟩
    let bs : Bytes := [0x7f, 0xff, 0xff, 0xff, 0xff, 0xff, 0xff, 0xfe, 0xfe, 0xff]
    let lowest : Bytes := [0, 0, 0, 0, 0, 0, 0, 0]
    (Codec.leaf .integer).get limits bs = .error (.tooLarge 2 1) ∧
    (Source.ofBytes bs).Holds bs 0 ∧ bs.length < lengthBound ∧
    (Admitted limits bs → (header bs).natAbs < lengthBound) ∧
    (8 ≤ bs.length ∧ limits.integerBytes < (header bs).natAbs) ∧
      (∃ t, ((Codec.leaf .integer).read limits).runFrom (.ofBytes bs) = (.error (.tooLarge 2 1), t) ∧
        t.Holds [0xfe, 0xff] 8) ∧
    8 ≤ lowest.length ∧ lowest.length < lengthBound ∧ header lowest = -2 ^ 63 ∧
      (Codec.leaf .integer).get limits lowest = .error (.tooLarge (2 ^ 63) 1) := by
  intro limits bs lowest
  have hheader : header bs = -2 := by decide
  have hlowest : header lowest = -2 ^ 63 := by decide
  have hholds := Source.holds_ofBytes bs
  have hlen : bs.length < lengthBound := by decide
  have hlen' : lowest.length < lengthBound := by decide
  have hsize : Admitted limits bs → (header bs).natAbs < lengthBound := fun _ => by rw [hheader]; decide
  have hlong : 8 ≤ bs.length ∧ limits.integerBytes < (header bs).natAbs := by rw [hheader]; decide
  obtain ⟨-, htooLarge, -, -, -, hread⟩ := fault_reasons limits bs
  obtain ⟨-, -, -, -, hbound, -⟩ := fault_reasons limits lowest
  have hget := (htooLarge 2 1).2 ⟨hlong, by rw [hheader]; decide⟩
  obtain ⟨t, hrun, ht⟩ := hread _ 0 hholds hlen hsize
  rw [hget] at hrun
  exact ⟨hget, hholds, hlen, hsize, hlong, ⟨t, hrun, ht hlong⟩, by decide, hlen', hlowest,
    hbound (by decide) hlen' hlowest⟩

/-- Under the lowest limit that allows `2 ^ 63` bytes the lowest header, which belongs to no integer, is not
refused for its size. -/
theorem lowest_header_admitted :
    let limits : Limits := ⟨2 ^ 63, 0⟩
    let bs : Bytes := [0, 0, 0, 0, 0, 0, 0, 0]
    header bs = -2 ^ 63 ∧ (Codec.leaf .integer).get limits bs = .error .truncated ∧
      ¬∀ (limits : Limits) (bs : Bytes),
        (∃ size limit, (Codec.leaf .integer).get limits bs = .error (.tooLarge size limit)) ↔
          8 ≤ bs.length ∧ (header bs = -2 ^ 63 ∨ limits.integerBytes < (header bs).natAbs) := by
  intro limits bs
  have hheader : header bs = -2 ^ 63 := by decide
  have hget : (Codec.leaf .integer).get limits bs = .error .truncated := by decide
  refine ⟨hheader, hget, fun h => ?_⟩
  obtain ⟨size, limit, htooLarge⟩ := (h limits bs).2 ⟨by decide, .inl hheader⟩
  rw [hget] at htooLarge
  cases htooLarge

end BigInteger
end SortKey
