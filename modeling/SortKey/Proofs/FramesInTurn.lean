import SortKey.Proofs.FrameOutcome

/-! Frames that follow one another, each under a mask of its own. They are found where they were appended,
one after another, in a byte string and in a source, whatever comes after them; no frame begins another one,
and plain and complemented frames keep and reverse the order of what they hold. -/
namespace SortKey

namespace Reading
variable {α β : Type}

/-- On a source that closes it fails, or finds its value among the bytes of the source, so that it
makes no difference to the value how the source ends. -/
def SelfDelimiting (r : Reading α) : Prop :=
  ∀ ds pos, (∃ e, (r.runFrom ⟨ds, .closed, pos⟩).1 = .error e) ∨
    ∃ a ds' pos', ∀ ending, r.runFrom ⟨ds, ending, pos⟩ = (.ok a, ⟨ds', ending, pos'⟩)

theorem selfDelimiting_pure (a : α) : (pure a : Reading α).SelfDelimiting :=
  fun ds pos => .inr ⟨a, ds, pos, fun _ => rfl⟩

theorem selfDelimiting_throw (e : Fault) : (throw e : Reading α).SelfDelimiting :=
  fun _ _ => .inl ⟨e, rfl⟩

theorem SelfDelimiting.bind {r : Reading α} {f : α → Reading β} (h : r.SelfDelimiting)
    (hf : ∀ a, (f a).SelfDelimiting) : (r >>= f).SelfDelimiting := by
  intro ds pos
  simp only [runFrom_bind]
  obtain ⟨e, he⟩ | ⟨a, ds', pos', ha⟩ := h ds pos
  · left
    generalize r.runFrom ⟨ds, .closed, pos⟩ = z at he
    obtain ⟨o, t⟩ := z
    obtain rfl : o = .error e := he
    exact ⟨e, rfl⟩
  · simp only [ha]
    exact hf a ds' pos'

theorem SelfDelimiting.midway {r : Reading α} (h : r.SelfDelimiting) : r.midway.SelfDelimiting := by
  intro ds pos
  simp only [runFrom_midway]
  obtain ⟨e, he⟩ | ⟨a, ds', pos', ha⟩ := h ds pos
  · exact .inl ⟨e.midway, by rw [he]; rfl⟩
  · exact .inr ⟨a, ds', pos', fun ending => by rw [ha]; rfl⟩

theorem selfDelimiting_exactly (n : Nat) : (exactly n).SelfDelimiting := by
  intro ds pos
  simp only [runFrom_exactly, Source.draw]
  obtain ⟨got, left⟩ := Source.gather ds n
  by_cases hn : got.length = n
  · exact .inr ⟨got, left, pos + got.length, fun ending => by simp only [if_pos hn]⟩
  · exact .inl ⟨if got.isEmpty then .endOfInput else .truncated, by simp only [if_neg hn]⟩

theorem selfDelimiting_byte : byte.SelfDelimiting := by
  refine (selfDelimiting_exactly 1).bind fun got => ?_
  cases got with
  | nil => exact selfDelimiting_throw .endOfInput
  | cons b bs => exact selfDelimiting_pure b

theorem SelfDelimiting.runFrom_of_closed {r : Reading α} (h : r.SelfDelimiting) {s : Source} {a : α}
    {t : Source} (hrun : r.runFrom ⟨s.deliveries, .closed, s.delivered⟩ = (.ok a, t)) :
    r.runFrom s = (.ok a, ⟨t.deliveries, s.ending, t.delivered⟩) := by
  obtain ⟨e, he⟩ | ⟨b, ds, pos, hb⟩ := h s.deliveries s.delivered
  · rw [hrun] at he
    cases he
  · rw [hb] at hrun
    cases hrun
    exact hb s.ending

end Reading

namespace Frame
open Reading
variable {mask : UInt8} {limit : Nat} {frames : List (Bytes × UInt8)}

theorem selfDelimiting_unit (mask : UInt8) : (unit mask).SelfDelimiting := by
  refine selfDelimiting_byte.bind fun b => ?_
  dsimp only
  split
  · exact selfDelimiting_pure none
  split
  · exact selfDelimiting_byte.midway.bind fun c => selfDelimiting_pure (some (c ^^^ mask))
  · exact selfDelimiting_pure (some (b ^^^ mask))

theorem selfDelimiting_collect (mask : UInt8) (limit room : Nat) (taken : Bytes) (next : Option UInt8) :
    (collect mask limit room taken next).SelfDelimiting := by
  induction room generalizing taken next with
  | zero =>
    cases next with
    | none => exact selfDelimiting_pure taken.reverse
    | some b => exact selfDelimiting_throw _
  | succ room ih =>
    cases next with
    | none => exact selfDelimiting_pure taken.reverse
    | some b => exact (selfDelimiting_unit mask).midway.bind fun next => ih (b :: taken) next

theorem selfDelimiting_read (mask : UInt8) (limit : Nat) : (read mask limit).SelfDelimiting :=
  (selfDelimiting_unit mask).bind fun next => selfDelimiting_collect mask limit limit [] next

def joined (frames : List (Bytes × UInt8)) : Bytes :=
  frames.flatMap fun (raw, mask) => encode mask raw

def pushEach (frames : List (Bytes × UInt8)) : Writing Unit :=
  frames.forM fun (raw, mask) => Writing.push (encode mask raw)

/-- What is in the frames that follow one another from the offset on, and the length of each. -/
def getEach (bs : Bytes) : Nat → List UInt8 → Except Fault (List (Bytes × Nat))
  | _, [] => return []
  | offset, mask :: masks => do
    let (raw, n) ← get mask (bs.drop offset)
    return (raw, n) :: (← getEach bs (offset + n) masks)

def readEach (limit : Nat) (masks : List UInt8) : Reading (List Bytes) :=
  masks.mapM fun mask => read mask limit

theorem joined_cons (raw : Bytes) (mask : UInt8) (frames : List (Bytes × UInt8)) :
    joined ((raw, mask) :: frames) = encode mask raw ++ joined frames := rfl

theorem onto_pushEach (frames : List (Bytes × UInt8)) (before : Bytes) :
    (pushEach frames).onto before = (.ok (), before ++ joined frames) := by
  induction frames generalizing before with
  | nil => simp [pushEach, joined]
  | cons frame frames ih =>
    obtain ⟨raw, mask⟩ := frame
    change (pushEach frames).onto (before ++ encode mask raw) = _
    rw [ih, joined_cons, List.append_assoc]

theorem getEach_joined (frames : List (Bytes × UInt8)) (before rest : Bytes) :
    getEach (before ++ joined frames ++ rest) before.length (frames.map Prod.snd) =
      .ok (frames.map fun (raw, mask) => (raw, (encode mask raw).length)) := by
  induction frames generalizing before with
  | nil => rfl
  | cons frame frames ih =>
    obtain ⟨raw, mask⟩ := frame
    have hdrop : (before ++ joined ((raw, mask) :: frames) ++ rest).drop before.length =
        encode mask raw ++ (joined frames ++ rest) := by
      rw [List.append_assoc, List.drop_left, joined_cons, List.append_assoc]
    have hmore := ih (before ++ encode mask raw)
    rw [List.append_assoc before, ← joined_cons, List.length_append] at hmore
    rw [List.map_cons, List.map_cons, getEach, hdrop, get_encode_append, Outcome.ok_bind]
    dsimp only
    rw [hmore]
    rfl

theorem read_encode {raw rest : Bytes} {s : Source} {pos : Nat} (h : raw.length ≤ limit)
    (hs : s.Holds (encode mask raw ++ rest) pos) :
    ∃ t, (read mask limit).runFrom s = (.ok raw, t) ∧
      t.Holds rest (pos + (encode mask raw).length) := by
  have hread := read_of_get (get_encode_append mask raw rest) h hs
  rwa [List.drop_left] at hread

theorem readEach_joined (h : ∀ frame ∈ frames, frame.1.length ≤ limit) {rest : Bytes} {s : Source}
    {pos : Nat} (hs : s.Holds (joined frames ++ rest) pos) :
    ∃ t, (readEach limit (frames.map Prod.snd)).runFrom s = (.ok (frames.map Prod.fst), t) ∧
      t.Holds rest (pos + (joined frames).length) := by
  induction frames generalizing s pos with
  | nil => exact ⟨s, rfl, hs⟩
  | cons frame frames ih =>
    obtain ⟨raw, mask⟩ := frame
    rw [List.forall_mem_cons] at h
    rw [joined_cons, List.append_assoc] at hs
    obtain ⟨t, hrun, ht⟩ := read_encode h.1 hs
    obtain ⟨u, hmore, hu⟩ := ih h.2 ht
    rw [Nat.add_assoc, ← List.length_append, ← joined_cons] at hu
    refine ⟨u, ?_, hu⟩
    rw [readEach] at hmore
    rw [readEach, List.map_cons, List.mapM_cons, runFrom_bind, hrun]
    dsimp only
    rw [runFrom_bind, hmore]
    rfl

theorem selfDelimiting_readEach (limit : Nat) (masks : List UInt8) :
    (readEach limit masks).SelfDelimiting := by
  induction masks with
  | nil => exact selfDelimiting_pure []
  | cons mask masks ih =>
    rw [readEach, List.mapM_cons]
    exact (selfDelimiting_read mask limit).bind fun raw => ih.bind fun raws => selfDelimiting_pure _

theorem length_escaped (b : UInt8) :
    (escaped b).length = 1 + ([b].count terminator + [b].count escape) := by
  by_cases ht : b = terminator
  · rw [ht]
    rfl
  by_cases he : b = escape
  · rw [he]
    rfl
  rw [escaped, if_neg (not_or.2 ⟨ht, he⟩), List.count_singleton, List.count_singleton]
  simp [ht, he]

theorem length_encode (mask : UInt8) (raw : Bytes) :
    (encode mask raw).length = raw.length + (raw.count terminator + raw.count escape) + 1 := by
  induction raw with
  | nil => rfl
  | cons b raw ih =>
    have hcount (c : UInt8) : (b :: raw).count c = [b].count c + raw.count c :=
      @List.count_append _ _ c [b] raw
    rw [encode_cons, List.length_append, Bytes.length_masked, length_escaped, ih, List.length_cons,
      hcount, hcount]
    omega

/-- Frames are appended behind what is there, each under its own mask, and are got from the places
where they are, or read from a source, with nothing taken of what follows. They have an escape for each
byte that needs one; none begins another, and the plain and the complemented ones sort. -/
theorem frames_in_turn (frames : List (Bytes × UInt8)) (before rest : Bytes) :
    (pushEach frames).onto before = (.ok (), before ++ joined frames) ∧
    getEach (before ++ joined frames ++ rest) before.length (frames.map Prod.snd) =
      .ok (frames.map fun (raw, mask) => (raw, (encode mask raw).length)) ∧
    (∀ limit s, (∀ frame ∈ frames, frame.1.length ≤ limit) →
      Source.contents s.deliveries = joined frames ++ rest →
        ∃ t, (readEach limit (frames.map Prod.snd)).runFrom s = (.ok (frames.map Prod.fst), t) ∧
          Source.contents t.deliveries = rest ∧ t.ending = s.ending ∧
          t.delivered = s.delivered + (joined frames).length) ∧
    (∀ raw mask, encode mask raw = Bytes.masked mask (encode plain raw) ∧
      (encode mask raw).length = raw.length + (raw.count terminator + raw.count escape) + 1) ∧
    ∀ x y, (∀ mask, encode mask x <+: encode mask y → x = y) ∧
      compare (encode plain x) (encode plain y) = compare x y ∧
      compare (encode complement x) (encode complement y) = (compare x y).swap := by
  refine ⟨onto_pushEach frames before, getEach_joined frames before rest, ?_, ?_, ?_⟩
  · intro limit s hlimit hs
    have hclosed : Source.Holds ⟨s.deliveries, .closed, s.delivered⟩ (joined frames ++ rest)
      s.delivered := ⟨hs, rfl, rfl⟩
    obtain ⟨t, hrun, ht⟩ := readEach_joined hlimit hclosed
    exact ⟨_, (selfDelimiting_readEach limit _).runFrom_of_closed hrun, ht.left, rfl, ht.delivered⟩
  · intro raw mask
    exact ⟨encode_eq_masked mask raw, length_encode mask raw⟩
  · intro x y
    exact ⟨fun mask => eq_of_encode_isPrefix, compare_encode_plain x y, compare_encode_complement x y⟩

/-- Masks under which the terminator and the escape change places or come last, in a source that
interrupts in an escape and then goes on for ever. -/
theorem frames_in_turn_three_masks :
    let frames : List (Bytes × UInt8) := [([0, 1, 2], 0x01), ([0xff, 0xfe, 0], 0xff), ([], 0x07)]
    let s : Source := ⟨[.piece 0 [1, 0, 0], .interruption, .piece 3 [1, 0, 1, 0xfe, 0xff, 0xff, 7, 5]],
      .endless fun _ => 0, 4⟩
    joined frames = [0, 1, 0, 0, 3, 1, 0, 1, 0xfe, 0xff, 0xff, 7] ∧
    (pushEach frames).onto [9] = (.ok (), [9] ++ joined frames) ∧
    getEach ([9] ++ joined frames ++ [5]) 1 [0x01, 0xff, 0x07] =
      .ok [([0, 1, 2], 6), ([0xff, 0xfe, 0], 5), ([], 1)] ∧
    (∀ frame ∈ frames, frame.1.length ≤ 3) ∧ Source.contents s.deliveries = joined frames ++ [5] ∧
      ∃ t, (readEach 3 [0x01, 0xff, 0x07]).runFrom s = (.ok [[0, 1, 2], [0xff, 0xfe, 0], []], t) ∧
        Source.contents t.deliveries = [5] ∧ t.delivered = 16 := by
  intro frames s
  have hlimit : ∀ frame ∈ frames, frame.1.length ≤ 3 := by decide
  have hs : Source.contents s.deliveries = joined frames ++ [5] := by decide
  obtain ⟨hpush, hget, hread, -⟩ := frames_in_turn frames [9] [5]
  obtain ⟨t, hrun, hrest, -, hdelivered⟩ := hread 3 s hlimit hs
  exact ⟨by decide, hpush, hget, hlimit, hs, t, hrun, hrest, hdelivered⟩

end Frame
end SortKey
