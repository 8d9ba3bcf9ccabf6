import SortKey.Frame

/-! Reading from a source that closes after its last byte. However its bytes are cut up, a request finds the
next ones and leaves the others. -/
namespace SortKey

namespace Source

/-- Has delivered `pos` bytes, has `bs` left and then closes. -/
structure Holds (s : Source) (bs : Bytes) (pos : Nat) : Prop where
  left : contents s.deliveries = bs
  closed : s.ending = .closed
  delivered : s.delivered = pos

theorem holds_ofBytes (bs : Bytes) : (ofBytes bs).Holds bs 0 :=
  ⟨by simp [ofBytes], rfl, rfl⟩

theorem Holds.draw {s : Source} {bs : Bytes} {pos : Nat} (h : s.Holds bs pos) (n : Nat) :
    ∃ t, draw n s = ((bs.take n, if n ≤ bs.length then .filled else .ended), t) ∧
      t.Holds (bs.drop n) (pos + min n bs.length) := by
  obtain ⟨hcontents, hclosed, hpos⟩ := h
  have hgot : (gather s.deliveries n).1 = bs.take n := by rw [gather_fst, hcontents]
  have hleft : Source.contents (gather s.deliveries n).2 = bs.drop n := by
    rw [contents_gather_snd, hcontents]
  by_cases hn : n ≤ bs.length
  · have hlen : (bs.take n).length = n := List.length_take_of_le hn
    refine ⟨⟨(gather s.deliveries n).2, s.ending, s.delivered + n⟩, ?_, hleft, hclosed, ?_⟩
    · simp [Source.draw, hgot, hlen, hn]
    · rw [hpos, Nat.min_eq_left hn]
  · have htake : bs.take n = bs := List.take_of_length_le (Nat.le_of_not_le hn)
    have hne : ¬bs.length = n := by omega
    refine ⟨⟨(gather s.deliveries n).2, s.ending, s.delivered + bs.length⟩, ?_, hleft, hclosed, ?_⟩
    · simp [Source.draw, hgot, htake, hne, hclosed, hn]
    · rw [hpos, Nat.min_eq_right (Nat.le_of_not_le hn)]

end Source

namespace Reading
open Source
variable {α β : Type} {s : Source} {bs : Bytes} {pos : Nat}

theorem runFrom_liftM (o : Except Fault α) (s : Source) :
    (liftM o : Reading α).runFrom s = (o, s) := by
  cases o <;> rfl

theorem runFrom_map (f : α → β) (r : Reading α) (s : Source) :
    (f <$> r).runFrom s = ((r.runFrom s).1.map f, (r.runFrom s).2) := by
  rw [← bind_pure_comp, runFrom_bind]
  obtain ⟨_ | _, _⟩ := r.runFrom s <;> rfl

theorem runFrom_tryCatch (r : Reading α) (f : Fault → Reading α) (s : Source) :
    (tryCatch r f).runFrom s =
      match r.runFrom s with
      | (.ok a, t) => (.ok a, t)
      | (.error e, t) => (f e).runFrom t := by
  simp only [runFrom, ExceptT.run, tryCatch, tryCatchThe, MonadExceptOf.tryCatch, ExceptT.tryCatch,
    ExceptT.mk, StateT.run_bind]
  obtain ⟨_ | _, _⟩ := StateT.run r s <;> rfl

theorem optional_of_ok {r : Reading α} {t : Source} {a : α} (h : r.runFrom s = (.ok a, t)) :
    (optional r).runFrom s = (.ok (some a), t) := by
  rw [optional, runFrom_tryCatch, runFrom_map, h]
  rfl

theorem optional_of_endOfInput {r : Reading α} {t : Source}
    (h : r.runFrom s = (.error .endOfInput, t)) : (optional r).runFrom s = (.ok none, t) := by
  rw [optional, runFrom_tryCatch, runFrom_map, h]
  rfl

theorem optional_of_error {r : Reading α} {t : Source} {e : Fault} (h : r.runFrom s = (.error e, t))
    (he : e ≠ .endOfInput) : (optional r).runFrom s = (.error e, t) := by
  rw [optional, runFrom_tryCatch, runFrom_map, h]
  cases e with
  | endOfInput => exact (he rfl).elim
  | _ => rfl

def remainderOutcome (limit : Nat) (got : Bytes) : Stop → Except Fault Bytes
  | .failed text => .error (.device text)
  | _ => if limit < got.length then .error (.tooLarge got.length limit) else .ok got

theorem runFrom_remainder (limit : Nat) (s : Source) :
    (remainder limit).runFrom s =
      match draw (min (limit + 1) 18446744073709551615) s with
      | ((got, stop), t) => (remainderOutcome limit got stop, t) := by
  have h : (remainder limit).runFrom s =
      match draw (min (limit + 1) 18446744073709551615) s with
      | ((got, stop), t) => Reading.runFrom (match stop with
        | .failed text => throw (.device text)
        | _ => if limit < got.length then throw (.tooLarge got.length limit) else return got) t := rfl
  rw [h]
  obtain ⟨⟨got, stop⟩, t⟩ := draw (min (limit + 1) 18446744073709551615) s
  unfold remainderOutcome
  cases stop with
  | failed text => rfl
  | _ =>
    dsimp only
    split <;> rfl

theorem exactly_of_le (h : s.Holds bs pos) {n : Nat} (hn : n ≤ bs.length) :
    ∃ t, (exactly n).runFrom s = (.ok (bs.take n), t) ∧ t.Holds (bs.drop n) (pos + n) := by
  obtain ⟨t, hdraw, ht⟩ := h.draw n
  rw [if_pos hn] at hdraw
  rw [Nat.min_eq_left hn] at ht
  exact ⟨t, by rw [runFrom_exactly, hdraw], ht⟩

theorem exactly_of_lt (h : s.Holds bs pos) {n : Nat} (hn : bs.length < n) :
    ∃ t, (exactly n).runFrom s = (.error (if bs.isEmpty then .endOfInput else .truncated), t) ∧
      t.Holds [] (pos + bs.length) := by
  obtain ⟨t, hdraw, ht⟩ := h.draw n
  have hle := Nat.le_of_lt hn
  rw [if_neg (Nat.not_le.2 hn), List.take_of_length_le hle] at hdraw
  rw [Nat.min_eq_right hle, List.drop_eq_nil_of_le hle] at ht
  exact ⟨t, by rw [runFrom_exactly, hdraw], ht⟩

theorem runFrom_exactly_of_holds (h : s.Holds bs pos) (n : Nat) :
    ∃ t, (exactly n).runFrom s = (Slice.exactly n bs, t) := by
  by_cases hn : n ≤ bs.length
  · obtain ⟨t, hrun, -⟩ := exactly_of_le h hn
    exact ⟨t, by rw [hrun, Slice.exactly_of_le hn]⟩
  · obtain ⟨t, hrun, -⟩ := exactly_of_lt h (Nat.lt_of_not_le hn)
    exact ⟨t, by rw [hrun, Slice.exactly_of_lt (Nat.lt_of_not_le hn)]⟩

theorem byte_nil (h : s.Holds [] pos) :
    ∃ t, byte.runFrom s = (.error .endOfInput, t) ∧ t.Holds [] pos := by
  obtain ⟨t, hrun, ht⟩ := exactly_of_lt h Nat.one_pos
  exact ⟨t, by rw [byte, runFrom_bind, hrun]; rfl, ht⟩

theorem byte_cons {b : UInt8} (h : s.Holds (b :: bs) pos) :
    ∃ t, byte.runFrom s = (.ok b, t) ∧ t.Holds bs (pos + 1) := by
  obtain ⟨t, hrun, ht⟩ := exactly_of_le h (Nat.le_add_left 1 bs.length)
  exact ⟨t, by rw [byte, runFrom_bind, hrun]; rfl, ht⟩

theorem remainder_of_le (h : s.Holds bs pos) (hlen : bs.length < Bytes.lengthBound) {limit : Nat}
    (hl : bs.length ≤ limit) :
    ∃ t, (remainder limit).runFrom s = (.ok bs, t) ∧ t.Holds [] (pos + bs.length) := by
  have hn : bs.length < min (limit + 1) 18446744073709551615 := by
    rw [Bytes.lengthBound] at hlen
    omega
  have hle := Nat.le_of_lt hn
  obtain ⟨t, hdraw, ht⟩ := h.draw (min (limit + 1) 18446744073709551615)
  rw [if_neg (Nat.not_le.2 hn), List.take_of_length_le hle] at hdraw
  rw [Nat.min_eq_right hle, List.drop_eq_nil_of_le hle] at ht
  refine ⟨t, ?_, ht⟩
  rw [runFrom_remainder, hdraw]
  dsimp only [remainderOutcome]
  rw [if_neg (Nat.not_lt.2 hl)]

theorem remainder_of_lt (h : s.Holds bs pos) (hlen : bs.length < Bytes.lengthBound) {limit : Nat}
    (hl : limit < bs.length) :
    ∃ t, (remainder limit).runFrom s = (.error (.tooLarge (limit + 1) limit), t) ∧
      t.Holds (bs.drop (limit + 1)) (pos + (limit + 1)) := by
  have hn : min (limit + 1) 18446744073709551615 = limit + 1 := by
    rw [Bytes.lengthBound] at hlen
    omega
  have hle : limit + 1 ≤ bs.length := hl
  obtain ⟨t, hdraw, ht⟩ := h.draw (limit + 1)
  rw [if_pos hle] at hdraw
  rw [Nat.min_eq_left hle] at ht
  refine ⟨t, ?_, ht⟩
  rw [runFrom_remainder, hn, hdraw]
  dsimp only [remainderOutcome]
  rw [List.length_take_of_le hle, if_pos (Nat.lt_succ_self limit)]

end Reading
end SortKey
