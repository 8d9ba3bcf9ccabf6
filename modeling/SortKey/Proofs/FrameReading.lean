import SortKey.Proofs.ClosedSource
import SortKey.Proofs.FrameForms
import SortKey.Proofs.Outcome

/-! Reading a frame byte by byte: what each byte of a closed source adds to the contents of the frame, and
what it adds when the frame is in a byte string. -/
namespace SortKey.Frame
open Reading
variable {mask : UInt8} {s : Source} {bs rest : Bytes} {pos : Nat}

theorem unit_nil (mask : UInt8) (h : s.Holds [] pos) :
    ∃ t, (unit mask).runFrom s = (.error .endOfInput, t) ∧ t.Holds [] pos := by
  obtain ⟨t, hrun, ht⟩ := byte_nil h
  exact ⟨t, by rw [unit, runFrom_bind, hrun], ht⟩

theorem unit_terminator {b : UInt8} (h : s.Holds (b :: rest) pos) (hb : b ^^^ mask = terminator) :
    ∃ t, (unit mask).runFrom s = (.ok none, t) ∧ t.Holds rest (pos + 1) := by
  obtain ⟨t, hrun, ht⟩ := byte_cons h
  refine ⟨t, ?_, ht⟩
  rw [unit, runFrom_bind, hrun]
  dsimp only
  rw [if_pos hb, runFrom_pure]

theorem unit_plain {b : UInt8} (h : s.Holds (b :: rest) pos) (hb : b ^^^ mask ≠ terminator)
    (he : b ^^^ mask ≠ escape) :
    ∃ t, (unit mask).runFrom s = (.ok (some (b ^^^ mask)), t) ∧ t.Holds rest (pos + 1) := by
  obtain ⟨t, hrun, ht⟩ := byte_cons h
  refine ⟨t, ?_, ht⟩
  rw [unit, runFrom_bind, hrun]
  dsimp only
  rw [if_neg hb, if_neg he, runFrom_pure]

theorem unit_escape {b c : UInt8} (h : s.Holds (b :: c :: rest) pos) (hb : b ^^^ mask = escape) :
    ∃ t, (unit mask).runFrom s = (.ok (some (c ^^^ mask)), t) ∧ t.Holds rest (pos + 2) := by
  obtain ⟨t, hrun, ht⟩ := byte_cons h
  obtain ⟨u, hrun', hu⟩ := byte_cons ht
  refine ⟨u, ?_, hu⟩
  have he : escape ≠ terminator := by decide
  rw [unit, runFrom_bind, hrun]
  dsimp only
  rw [hb, if_neg he, if_pos rfl, runFrom_bind, runFrom_midway, hrun']
  rfl

theorem unit_escape_nil {b : UInt8} (h : s.Holds [b] pos) (hb : b ^^^ mask = escape) :
    ∃ t, (unit mask).runFrom s = (.error .truncated, t) ∧ t.Holds [] (pos + 1) := by
  obtain ⟨t, hrun, ht⟩ := byte_cons h
  obtain ⟨u, hrun', hu⟩ := byte_nil ht
  refine ⟨u, ?_, hu⟩
  have he : escape ≠ terminator := by decide
  rw [unit, runFrom_bind, hrun]
  dsimp only
  rw [hb, if_neg he, if_pos rfl, runFrom_bind, runFrom_midway, hrun']
  rfl

/-- In front of a first byte the end of the input is never what is read. -/
theorem runFrom_midway_unit {b : UInt8} (h : s.Holds (b :: rest) pos) :
    (midway (unit mask)).runFrom s = (unit mask).runFrom s := by
  have hne : ((unit mask).runFrom s).1 ≠ .error .endOfInput := by
    by_cases hb : b ^^^ mask = terminator
    · obtain ⟨t, hrun, -⟩ := unit_terminator h hb
      rw [hrun]
      exact nofun
    by_cases he : b ^^^ mask = escape
    · cases rest with
      | nil =>
        obtain ⟨t, hrun, -⟩ := unit_escape_nil h he
        rw [hrun]
        exact nofun
      | cons c rest =>
        obtain ⟨t, hrun, -⟩ := unit_escape h he
        rw [hrun]
        exact nofun
    · obtain ⟨t, hrun, -⟩ := unit_plain h hb he
      rw [hrun]
      exact nofun
  rw [runFrom_midway, Outcome.mapError_midway hne]

theorem runFrom_read_cons {b : UInt8} (h : s.Holds (b :: rest) pos) (limit : Nat) :
    (read mask limit).runFrom s =
      (midway (unit mask) >>= collect mask limit limit []).runFrom s := by
  rw [read, runFrom_bind, runFrom_bind, runFrom_midway_unit h]

theorem collect_none (mask : UInt8) (limit room : Nat) (taken : Bytes) :
    collect mask limit room taken none = pure taken.reverse := by
  cases room <;> rfl

/-- What a slice holds of a frame whose first bytes have been `taken` already, in reverse. -/
def resume (mask : UInt8) (taken bs : Bytes) : Except Fault (Bytes × Nat) :=
  match scan mask bs with
  | none => .error .unterminated
  | some (raw, n) => .ok (taken.reverse ++ raw, n)

theorem get_cons (mask b : UInt8) (rest : Bytes) :
    get mask (b :: rest) = resume mask [] (b :: rest) := by
  rw [get, resume, if_neg (by simp)]
  cases scan mask (b :: rest) <;> rfl

theorem resume_terminator {b : UInt8} (taken rest : Bytes) (hb : b ^^^ mask = terminator) :
    resume mask taken (b :: rest) = .ok (taken.reverse, 1) := by
  rw [resume, scan_cons_terminator hb]
  dsimp only
  rw [List.append_nil]

theorem resume_plain {b : UInt8} (taken rest : Bytes) (hb : b ^^^ mask ≠ terminator)
    (he : b ^^^ mask ≠ escape) :
    resume mask taken (b :: rest) =
      (fun q => (q.1, 1 + q.2)) <$> resume mask ((b ^^^ mask) :: taken) rest := by
  rw [resume, resume, scan_cons_plain hb he]
  cases scan mask rest <;> simp [Nat.add_comm]

theorem resume_escape {b c : UInt8} (taken rest : Bytes) (hb : b ^^^ mask = escape) :
    resume mask taken (b :: c :: rest) =
      (fun q => (q.1, 2 + q.2)) <$> resume mask ((c ^^^ mask) :: taken) rest := by
  rw [resume, resume, scan_cons_escape hb]
  cases scan mask rest <;> simp [Nat.add_comm]

theorem resume_escape_nil {b : UInt8} (taken : Bytes) (hb : b ^^^ mask = escape) :
    resume mask taken [b] = .error .unterminated := by
  have he : escape ≠ terminator := by decide
  rw [resume, scan_singleton (hb ▸ he)]

end SortKey.Frame
