import SortKey.Codec.Read
import SortKey.Proofs.WithinLimits

/-! What reading a frame comes to, and how far it goes. A frame within the limit is read as from a byte
string, a longer one as far as the byte of contents that is one too many, and anything else to its end.
Codecs of frames, the caller's own inside them included, leave a source behind the frame. -/
namespace SortKey.Frame
open Reading
variable {mask : UInt8} {bs rest raw taken : Bytes} {s t : Source} {pos limit room m k : Nat}

/-- The contents of the frame at the front, as far as the bytes go. -/
def yielded (mask : UInt8) : Bytes → Bytes
  | [] => []
  | b :: rest =>
    if b ^^^ mask = terminator then []
    else if b ^^^ mask = escape then
      match rest with
      | [] => []
      | c :: rest => (c ^^^ mask) :: yielded mask rest
    else (b ^^^ mask) :: yielded mask rest

section
variable {b : UInt8}

theorem yielded_terminator (h : b ^^^ mask = terminator) (rest : Bytes) :
    yielded mask (b :: rest) = [] := by
  rw [yielded.eq_def]
  simp only [h, if_true]

theorem yielded_escape (h : b ^^^ mask = escape) (c : UInt8) (rest : Bytes) :
    yielded mask (b :: c :: rest) = (c ^^^ mask) :: yielded mask rest := by
  have he : escape ≠ terminator := by decide
  rw [yielded.eq_def]
  simp only [h, if_neg he, if_true]

theorem yielded_escape_nil (h : b ^^^ mask = escape) : yielded mask [b] = [] := by
  have he : escape ≠ terminator := by decide
  rw [yielded.eq_def]
  simp only [h, if_neg he, if_true]

theorem yielded_plain (ht : b ^^^ mask ≠ terminator) (he : b ^^^ mask ≠ escape) (rest : Bytes) :
    yielded mask (b :: rest) = (b ^^^ mask) :: yielded mask rest := by
  rw [yielded.eq_def]
  simp only [if_neg ht, if_neg he]

end

theorem length_yielded_le (mask : UInt8) (bs : Bytes) : (yielded mask bs).length ≤ bs.length := by
  induction bs using yielded.induct mask with
  | case1 => exact Nat.le_refl 0
  | case2 b rest ht => simp [yielded_terminator ht]
  | case3 b ht he => simp [yielded_escape_nil he]
  | case4 b ht he c rest ih =>
    rw [yielded_escape he]
    exact Nat.succ_le_succ (Nat.le_succ_of_le ih)
  | case5 b rest ht he ih =>
    rw [yielded_plain ht he]
    exact Nat.succ_le_succ ih

theorem Frames.yielded_append {x : Bytes} (h : Frames mask x raw) (rest : Bytes) :
    yielded mask (x ++ rest) = raw := by
  induction h with
  | closed h => exact yielded_terminator h rest
  | escaped h c more ih => rw [List.cons_append, List.cons_append, yielded_escape h, ih]
  | plain ht he more ih => rw [List.cons_append, yielded_plain ht he, ih]

/-- The first `k` bytes yield `m` bytes of contents, and no fewer bytes do. -/
structure Shortest (mask : UInt8) (m : Nat) (bs : Bytes) (k : Nat) : Prop where
  le_length : k ≤ bs.length
  yields : (yielded mask (bs.take k)).length = m
  yields_less : ∀ j < k, (yielded mask (bs.take j)).length < m

namespace Shortest
variable {b : UInt8}

theorem zero (mask : UInt8) (bs : Bytes) : Shortest mask 0 bs 0 :=
  ⟨Nat.zero_le _, rfl, fun _ hj => (Nat.not_lt_zero _ hj).elim⟩

theorem escape (h : Shortest mask m rest k) (hb : b ^^^ mask = escape) (c : UInt8) :
    Shortest mask (m + 1) (b :: c :: rest) (k + 2) where
  le_length := by
    have := h.le_length
    simp only [List.length_cons]
    omega
  yields := by
    rw [List.take_succ_cons, List.take_succ_cons, yielded_escape hb, List.length_cons, h.yields]
  yields_less j hj := by
    -- the escape alone yields nothing
    match j with
    | 0 => exact Nat.succ_pos m
    | 1 =>
      rw [List.take_succ_cons, List.take_zero, yielded_escape_nil hb]
      exact Nat.succ_pos m
    | j + 2 =>
      rw [List.take_succ_cons, List.take_succ_cons, yielded_escape hb, List.length_cons]
      exact Nat.succ_lt_succ (h.yields_less j (by omega))

theorem plain (h : Shortest mask m rest k) (ht : b ^^^ mask ≠ terminator)
    (he : b ^^^ mask ≠ Frame.escape) :
    Shortest mask (m + 1) (b :: rest) (k + 1) where
  le_length := Nat.succ_le_succ h.le_length
  yields := by rw [List.take_succ_cons, yielded_plain ht he, List.length_cons, h.yields]
  yields_less j hj := by
    cases j with
    | zero => exact Nat.succ_pos m
    | succ j =>
      rw [List.take_succ_cons, yielded_plain ht he, List.length_cons]
      exact Nat.succ_lt_succ (h.yields_less j (by omega))

end Shortest

/-- More contents than there may be: `m` bytes of them are drawn, and nothing behind them. -/
inductive Overrun (mask : UInt8) (limit m : Nat) (bs : Bytes) (pos : Nat) :
    Except Fault Bytes × Source → Prop where
  | intro {k : Nat} {t : Source} (hk : Shortest mask m bs k) (ht : t.Holds (bs.drop k) (pos + k)) :
    Overrun mask limit m bs pos (.error (.tooLarge (limit + 1) limit), t)

theorem overrun_collect_some {c : UInt8} (ht : t.Holds rest pos)
    (hroom : room ≤ (yielded mask rest).length)
    (ih : ∀ room < (yielded mask rest).length, Overrun mask limit (room + 1) rest pos
      ((midway (unit mask) >>= collect mask limit room (c :: taken)).runFrom t)) :
    Overrun mask limit room rest pos ((collect mask limit room taken (some c)).runFrom t) := by
  cases room with
  | zero => exact .intro (.zero mask rest) ht
  | succ room => exact ih room hroom

theorem Overrun.escape {b : UInt8} {z : Except Fault Bytes × Source}
    (h : Overrun mask limit m rest (pos + 2) z) (hb : b ^^^ mask = escape) (c : UInt8) :
    Overrun mask limit (m + 1) (b :: c :: rest) pos z := by
  cases h with
  | intro hk ht => exact .intro (hk.escape hb c) (by rwa [Nat.add_assoc, Nat.add_comm 2] at ht)

theorem Overrun.plain {b : UInt8} {z : Except Fault Bytes × Source}
    (h : Overrun mask limit m rest (pos + 1) z) (ht : b ^^^ mask ≠ terminator)
    (he : b ^^^ mask ≠ Frame.escape) : Overrun mask limit (m + 1) (b :: rest) pos z := by
  cases h with
  | intro hk hz => exact .intro (hk.plain ht he) (by rwa [Nat.add_assoc, Nat.add_comm 1] at hz)

theorem overrun_collect (limit : Nat) (h : room < (yielded mask bs).length) (taken : Bytes)
    (hs : s.Holds bs pos) :
    Overrun mask limit (room + 1) bs pos
      ((midway (unit mask) >>= collect mask limit room taken).runFrom s) := by
  induction bs using yielded.induct mask generalizing room taken s pos with
  | case1 => cases h
  | case2 b rest hb =>
    rw [yielded_terminator hb] at h
    cases h
  | case3 b hb he =>
    rw [yielded_escape_nil he] at h
    cases h
  | case4 b hb he c rest ih =>
    rw [yielded_escape he, List.length_cons] at h
    obtain ⟨t, hrun, ht⟩ := unit_escape hs he
    rw [runFrom_bind, runFrom_midway, hrun]
    exact (overrun_collect_some ht (Nat.le_of_lt_succ h) fun room hroom => ih hroom _ ht).escape he c
  | case5 b rest hb he ih =>
    rw [yielded_plain hb he, List.length_cons] at h
    obtain ⟨t, hrun, ht⟩ := unit_plain hs hb he
    rw [runFrom_bind, runFrom_midway, hrun]
    exact (overrun_collect_some ht (Nat.le_of_lt_succ h) fun room hroom => ih hroom _ ht).plain hb he

theorem truncated_collect_some {c : UInt8} (hroom : (yielded mask rest).length < room)
    (ih : ∀ room, (yielded mask rest).length ≤ room →
      ∃ u, (midway (unit mask) >>= collect mask limit room (c :: taken)).runFrom t =
        (.error .truncated, u) ∧ u.Holds [] pos) :
    ∃ u, (collect mask limit room taken (some c)).runFrom t = (.error .truncated, u) ∧
      u.Holds [] pos := by
  cases room with
  | zero => cases hroom
  | succ room => exact ih room (Nat.le_of_lt_succ hroom)

theorem collect_truncated (hscan : scan mask bs = none) (h : (yielded mask bs).length ≤ room)
    (taken : Bytes) (hs : s.Holds bs pos) :
    ∃ t, (midway (unit mask) >>= collect mask limit room taken).runFrom s = (.error .truncated, t) ∧
      t.Holds [] (pos + bs.length) := by
  induction bs using yielded.induct mask generalizing room taken s pos with
  | case1 =>
    obtain ⟨t, hrun, ht⟩ := unit_nil mask hs
    exact ⟨t, by rw [runFrom_bind, runFrom_midway, hrun]; rfl, ht⟩
  | case2 b rest hb =>
    rw [scan_cons_terminator hb] at hscan
    cases hscan
  | case3 b hb he =>
    obtain ⟨t, hrun, ht⟩ := unit_escape_nil hs he
    exact ⟨t, by rw [runFrom_bind, runFrom_midway, hrun]; rfl, ht⟩
  | case4 b hb he c rest ih =>
    rw [yielded_escape he, List.length_cons] at h
    rw [scan_cons_escape he, Option.map_eq_none_iff] at hscan
    obtain ⟨t, hrun, ht⟩ := unit_escape hs he
    have hend : pos + (b :: c :: rest).length = pos + 2 + rest.length := by
      simp only [List.length_cons]
      omega
    rw [runFrom_bind, runFrom_midway, hrun, hend]
    exact truncated_collect_some h fun room hroom => ih hscan hroom _ ht
  | case5 b rest hb he ih =>
    rw [yielded_plain hb he, List.length_cons] at h
    rw [scan_cons_plain hb he, Option.map_eq_none_iff] at hscan
    obtain ⟨t, hrun, ht⟩ := unit_plain hs hb he
    have hend : pos + (b :: rest).length = pos + 1 + rest.length := by
      simp only [List.length_cons]
      omega
    rw [runFrom_bind, runFrom_midway, hrun, hend]
    exact truncated_collect_some h fun room hroom => ih hscan hroom _ ht

theorem read_of_get {n : Nat} (h : get mask bs = .ok (raw, n)) (hlimit : raw.length ≤ limit)
    (hs : s.Holds bs pos) :
    ∃ t, (read mask limit).runFrom s = (.ok raw, t) ∧ t.Holds (bs.drop n) (pos + n) := by
  obtain ⟨x, rest, rfl, rfl, hx⟩ := frames_of_get h
  obtain ⟨b, y, rfl⟩ := List.exists_cons_of_ne_nil hx.ne_nil
  have hread := hx.limitedRead limit limit [] hs
  rw [← runFrom_read_cons hs] at hread
  rw [List.drop_left]
  generalize (read mask limit).runFrom s = z at hread
  cases hread with
  | found _ ht => exact ⟨_, rfl, ht⟩
  | refused hn => exact (hn hlimit).elim

theorem get_of_scan {found : Bytes × Nat} (h : scan mask bs = some found) :
    get mask bs = .ok found := by
  cases bs with
  | nil => cases h
  | cons b bs =>
    rw [get, h]
    rfl

theorem yielded_of_get {n : Nat} (h : get mask bs = .ok (raw, n)) : yielded mask bs = raw := by
  obtain ⟨x, rest, rfl, -, hx⟩ := frames_of_get h
  exact hx.yielded_append rest

theorem read_tooLarge (h : limit < (yielded mask bs).length) (hs : s.Holds bs pos) :
    ∃ k t, (read mask limit).runFrom s = (.error (.tooLarge (limit + 1) limit), t) ∧
      t.Holds (bs.drop k) (pos + k) ∧ Shortest mask (limit + 1) bs k := by
  cases bs with
  | nil => cases h
  | cons b bs =>
    have hread := overrun_collect limit h [] hs
    rw [← runFrom_read_cons hs limit] at hread
    generalize (read mask limit).runFrom s = z at hread
    cases hread with
    | intro hk ht => exact ⟨_, _, rfl, ht, hk⟩

theorem read_of_scan_eq_none (h : scan mask bs = none) (hlimit : (yielded mask bs).length ≤ limit)
    (hs : s.Holds bs pos) :
    ∃ t, (read mask limit).runFrom s =
        (.error (if bs.isEmpty then .endOfInput else .truncated), t) ∧
      t.Holds [] (pos + bs.length) := by
  cases bs with
  | nil =>
    obtain ⟨t, hrun, ht⟩ := unit_nil mask hs
    exact ⟨t, by rw [read, runFrom_bind, hrun]; rfl, ht⟩
  | cons b bs =>
    rw [runFrom_read_cons hs]
    exact collect_truncated h hlimit [] hs

/-- A source that closes is left behind a frame within the limit, behind the fewest bytes that yield
more contents than the limit allows, or at its end. A codec of frames leaves it behind the frame
whatever it makes of the contents. -/
theorem reading_outcomes (mask : UInt8) (limit : Nat) (bs : Bytes) (s : Source) (pos : Nat)
    (hs : s.Holds bs pos) :
    (∀ raw n, get mask bs = .ok (raw, n) → raw.length ≤ limit →
      ∃ t, (read mask limit).runFrom s = (.ok raw, t) ∧ t.Holds (bs.drop n) (pos + n)) ∧
    (limit < (yielded mask bs).length →
      ∃ k t, (read mask limit).runFrom s = (.error (.tooLarge (limit + 1) limit), t) ∧
        t.Holds (bs.drop k) (pos + k) ∧ Shortest mask (limit + 1) bs k) ∧
    ((∀ raw n, get mask bs = .ok (raw, n) → limit < raw.length) →
      (yielded mask bs).length ≤ limit →
      ∃ t, (read mask limit).runFrom s =
          (.error (if bs.isEmpty then .endOfInput else .truncated), t) ∧
        t.Holds [] (pos + bs.length)) ∧
    ∀ (α : Type) (c : Codec α) reversed limits raw n,
      get (maskOf reversed) bs = .ok (raw, n) → raw.length ≤ limits.frameBytes →
        ∃ t, ((Codec.framed reversed c).read limits).runFrom s =
            (Slice.whole (c.get limits) raw, t) ∧
          t.Holds (bs.drop n) (pos + n) := by
  refine ⟨fun raw n h hlimit => read_of_get h hlimit hs, fun h => read_tooLarge h hs, ?_, ?_⟩
  · intro hlarge hlimit
    cases hscan : scan mask bs with
    | none => exact read_of_scan_eq_none hscan hlimit hs
    | some found =>
      have hget := get_of_scan hscan
      have hlt := hlarge found.1 found.2 hget
      rw [← yielded_of_get hget] at hlt
      omega
  · intro α c reversed limits raw n h hlimit
    obtain ⟨t, hrun, ht⟩ := read_of_get h hlimit hs
    refine ⟨t, ?_, ht⟩
    rw [Codec.read, Reading.framed, runFrom_bind, hrun]
    exact runFrom_liftM _ t

/-- The terminator comes exactly at the limit; an escaped byte goes beyond it; the source ends in an
escape; and a codec of the caller's own refuses what is in the frame. -/
theorem reading_outcomes_escaped_terminator :
    let bs : Bytes := [0xfe, 0xff, 0x05, 0xff, 0x09]
    let s : Source := ⟨[.piece 0xfe [], .interruption, .piece 0xff [0x05, 0xff, 0x09]], .closed, 7⟩
    let cut : Source := .ofBytes [0xfe]
    let refusal : Fault := .malformed (.other "refused")
    let c : Codec Nat := .custom
      { name := "none"
        append := fun _ => throw refusal
        get := fun _ => .error refusal
        read := throw refusal
        requiresTerminator := true }
    s.Holds bs 7 ∧ get complement bs = .ok ([0x00, 0xfa], 4) ∧
    (∃ t, (read complement 2).runFrom s = (.ok [0x00, 0xfa], t) ∧ t.Holds [0x09] 11) ∧
    (0 < (yielded complement bs).length ∧
      ∃ k t, (read complement 0).runFrom s = (.error (.tooLarge 1 0), t) ∧
        t.Holds (bs.drop k) (7 + k) ∧ Shortest complement 1 bs k) ∧
    (∃ t, ((Codec.framed true c).read ⟨0, 2⟩).runFrom s = (.error refusal, t) ∧ t.Holds [0x09] 11) ∧
    cut.Holds [0xfe] 0 ∧ (∀ raw n, get complement [0xfe] = .ok (raw, n) → 0 < raw.length) ∧
      (yielded complement [0xfe]).length ≤ 0 ∧
      ∃ t, (read complement 0).runFrom cut = (.error .truncated, t) ∧ t.Holds [] 1 := by
  intro bs s cut refusal c
  have hs : s.Holds bs 7 := ⟨rfl, rfl, rfl⟩
  have hget : get complement bs = .ok ([0x00, 0xfa], 4) := by rfl
  have hyielded : 0 < (yielded complement bs).length := by decide
  have hcut : cut.Holds [0xfe] 0 := Source.holds_ofBytes [0xfe]
  have hopen : ∀ raw n, get complement [0xfe] = .ok (raw, n) → 0 < raw.length := nofun
  have hnothing : (yielded complement [0xfe]).length ≤ 0 := by decide
  obtain ⟨hfound, -, -, hframed⟩ := reading_outcomes complement 2 bs s 7 hs
  obtain ⟨-, hlarge, -, -⟩ := reading_outcomes complement 0 bs s 7 hs
  obtain ⟨-, -, hended, -⟩ := reading_outcomes complement 0 [0xfe] cut 0 hcut
  exact ⟨hs, hget, hfound _ 4 hget (by decide), ⟨hyielded, hlarge hyielded⟩,
    hframed Nat c true ⟨0, 2⟩ _ 4 hget (by decide), hcut, hopen, hnothing, hended hopen hnothing⟩

end SortKey.Frame
