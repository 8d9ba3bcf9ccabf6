import SortKey.Proofs.FrameReading
import SortKey.Proofs.Twin

/-! A byte string and a source of the same bytes. A built-in codec finds in both the same value after
the same number of bytes, or the same fault, unless the source runs into the limit on payloads or
ends inside a frame, or announces a length that no memory has room for. -/
namespace SortKey
variable {α β : Type}

/-- The outcome of decoding from a byte string, and that of reading from a source which has taken up
`k` bytes. Only the second one is held to the limit on payloads, which can matter in the case `beyond`,
and only the second one makes room for bytes that are announced before it looks whether they are
there. -/
inductive Agree (limits : Limits) (beyond : Prop) :
    Except Fault (α × Nat) → Except Fault α → Nat → Prop where
  | found (a : α) (k : Nat) : Agree limits beyond (.ok (a, k)) (.ok a) k
  | failed (e : Fault) (k : Nat) : Agree limits beyond (.error e) (.error e) k
  | cutOff (k : Nat) : Agree limits beyond (.error .unterminated) (.error .truncated) k
  | tooLarge (h : beyond) (g : Except Fault (α × Nat)) (size k : Nat) :
      Agree limits beyond g (.error (.tooLarge size limits.frameBytes)) k
  | noRoom (n k : Nat) (h : Bytes.lengthBound ≤ n) (hn : n ≤ limits.integerBytes) :
      Agree limits beyond (.error .truncated) (.error (.device (.memory n))) k

namespace Agree
variable {limits : Limits} {beyond beyond' : Prop} {g : Except Fault (α × Nat)} {o : Except Fault α}
  {k : Nat}

theorem shift (h : Agree limits beyond g o k) (ho : beyond → beyond') (j : Nat) :
    Agree limits beyond' ((fun q => (q.1, j + q.2)) <$> g) o (j + k) := by
  cases h with
  | found a => exact .found a (j + k)
  | failed e => exact .failed e (j + k)
  | cutOff => exact .cutOff (j + k)
  | tooLarge h g size => exact .tooLarge (ho h) _ size (j + k)
  | noRoom n _ h hn => exact .noRoom n (j + k) h hn

theorem midway (h : Agree limits beyond g o k) :
    Agree limits beyond (Slice.midway g) (o.mapError Fault.midway) k := by
  cases h with
  | found a => exact .found a k
  | failed e => exact .failed e.midway k
  | cutOff => exact .cutOff k
  | tooLarge h g size => exact .tooLarge h _ size k
  | noRoom n _ h hn => exact .noRoom n k h hn

end Agree

/-- Reading has left the source after some of the bytes `bs`, with an outcome like that of decoding
them. -/
def Settled (limits : Limits) (beyond : Prop) (g : Except Fault (α × Nat)) (bs : Bytes) (pos : Nat)
    (x : Except Fault α × Source) : Prop :=
  ∃ k ≤ bs.length, x.2.Holds (bs.drop k) (pos + k) ∧ Agree limits beyond g x.1 k

theorem Settled.shift {limits : Limits} {beyond beyond' : Prop} {g : Except Fault (α × Nat)} {bs : Bytes}
    {pos j : Nat} {x : Except Fault α × Source}
    (h : Settled limits beyond g (bs.drop j) (pos + j) x) (hj : j ≤ bs.length)
    (ho : beyond → beyond') : Settled limits beyond' ((fun q => (q.1, j + q.2)) <$> g) bs pos x := by
  obtain ⟨k, hk, hx, ha⟩ := h
  rw [List.length_drop] at hk
  rw [List.drop_drop, Nat.add_assoc] at hx
  exact ⟨j + k, by omega, hx, ha.shift ho j⟩

/-- `r` reads from closed sources what `d` finds in their bytes. -/
def Follows (limits : Limits) (d : Decoder α) (r : Reading α) : Prop :=
  ∀ s bs pos, s.Holds bs pos → bs.length < Bytes.lengthBound →
    Settled limits (limits.frameBytes < bs.length) (d.run bs) bs pos (r.runFrom s)

theorem follows_ofOutcome (limits : Limits) (o : Except Fault α) :
    Follows limits (Decoder.ofOutcome o) (liftM o) := by
  intro s bs pos hs _
  rw [Reading.runFrom_liftM, Decoder.run_ofOutcome]
  refine ⟨0, Nat.zero_le _, hs, ?_⟩
  cases o with
  | error e => exact .failed e 0
  | ok a => exact .found a 0

theorem follows_exactly (limits : Limits) (n : Nat) : Follows limits (Decoder.exactly n) (Reading.exactly n) := by
  intro s bs pos hs _
  rw [Decoder.run_exactly]
  by_cases hn : n ≤ bs.length
  · obtain ⟨t, hrun, ht⟩ := Reading.exactly_of_le hs hn
    rw [hrun, Slice.exactly_of_le hn]
    exact ⟨n, hn, ht, .found _ n⟩
  · obtain ⟨t, hrun, ht⟩ := Reading.exactly_of_lt hs (Nat.lt_of_not_le hn)
    rw [hrun, Slice.exactly_of_lt (Nat.lt_of_not_le hn)]
    exact ⟨bs.length, Nat.le_refl _, by rwa [List.drop_length], .failed _ _⟩

theorem follows_remainder (limits : Limits) :
    Follows limits Decoder.remainder (Reading.remainder limits.frameBytes) := by
  intro s bs pos hs hlen
  rw [Decoder.run_remainder]
  by_cases hl : bs.length ≤ limits.frameBytes
  · obtain ⟨t, hrun, ht⟩ := Reading.remainder_of_le hs hlen hl
    rw [hrun]
    exact ⟨bs.length, Nat.le_refl _, by rwa [List.drop_length], .found bs _⟩
  · have hlt := Nat.lt_of_not_le hl
    obtain ⟨t, hrun, ht⟩ := Reading.remainder_of_lt hs hlen hlt
    rw [hrun]
    exact ⟨limits.frameBytes + 1, hlt, ht, .tooLarge hlt _ _ _⟩

theorem Follows.midway {limits : Limits} {d : Decoder α} {r : Reading α} (h : Follows limits d r) :
    Follows limits d.midway r.midway := by
  intro s bs pos hs hlen
  obtain ⟨k, hk, ht, ha⟩ := h s bs pos hs hlen
  rw [Reading.runFrom_midway, Decoder.run_midway]
  exact ⟨k, hk, ht, ha.midway⟩

theorem Follows.bind {limits : Limits} {d : Decoder α} {r : Reading α} {f : α → Decoder β}
    {g : α → Reading β} (h : Follows limits d r) (hf : ∀ a, Follows limits (f a) (g a)) :
    Follows limits (d >>= f) (r >>= g) := by
  intro s bs pos hs hlen
  have hset := h s bs pos hs hlen
  rw [Decoder.run_bind, Reading.runFrom_bind]
  generalize r.runFrom s = x at hset ⊢
  generalize d.run bs = g at hset ⊢
  obtain ⟨o, t⟩ := x
  obtain ⟨k, hk, ht, ha⟩ := hset
  dsimp only at ha
  cases ha with
  | found a =>
    have hlen' : (bs.drop k).length < Bytes.lengthBound := by
      rw [List.length_drop]
      omega
    refine (hf a t _ _ ht hlen').shift hk ?_
    rw [List.length_drop]
    omega
  | failed e => exact ⟨k, hk, ht, .failed e k⟩
  | cutOff => exact ⟨k, hk, ht, .cutOff k⟩
  | tooLarge h g size => exact ⟨k, hk, ht, .tooLarge h _ size k⟩
  | noRoom n _ h hn => exact ⟨k, hk, ht, .noRoom n k h hn⟩

/-- Bytes that there is no room for are not there either. -/
theorem follows_announced {limits : Limits} {n : Nat} (hn : n ≤ limits.integerBytes) :
    Follows limits (Decoder.exactly n).midway (Reading.announced n) := by
  by_cases hroom : n < Bytes.lengthBound
  · rw [Reading.announced_of_lt hroom]
    exact (follows_exactly limits n).midway
  have hvast := Nat.le_of_not_lt hroom
  intro s bs pos hs hlen
  have hrun : (Decoder.exactly n).midway.run bs = .error .truncated := by
    rw [Decoder.run_midway, Decoder.run_exactly, Slice.exactly_of_lt (hlen.trans_le hvast)]
    cases bs.isEmpty <;> rfl
  rw [hrun, Reading.announced_of_le hvast, Reading.runFrom_throw]
  exact ⟨0, Nat.zero_le _, hs, .noRoom n 0 hvast hn⟩

theorem follows_payload {limits : Limits} {size : Except Fault Nat} {f : Bytes → Except Fault α}
    (hsize : ∀ n, size = .ok n → n ≤ limits.integerBytes) :
    Follows limits (Decoder.payload size f) (Reading.payload size f) := by
  cases size with
  | error e =>
    intro s bs pos hs _
    exact ⟨0, Nat.zero_le _, hs, .failed e 0⟩
  | ok n =>
    rw [Decoder.payload_ok, Reading.payload_ok]
    exact (follows_announced (hsize n rfl)).bind fun field => follows_ofOutcome limits (f field)

namespace Frame
open Reading
variable {mask : UInt8} {limits : Limits}

theorem collect_some {c : UInt8} {room j : Nat} {taken bs : Bytes} {t : Source} {pos : Nat}
    (ht : t.Holds (bs.drop j) (pos + j)) (hj : j ≤ bs.length) (hpos : 0 < j)
    (ih : ∀ room, Settled limits (room < (bs.drop j).length) (resume mask (c :: taken) (bs.drop j))
      (bs.drop j) (pos + j)
      ((midway (unit mask) >>= collect mask limits.frameBytes room (c :: taken)).runFrom t)) :
    Settled limits (room < bs.length)
      ((fun q => (q.1, j + q.2)) <$> resume mask (c :: taken) (bs.drop j)) bs pos
      ((collect mask limits.frameBytes room taken (some c)).runFrom t) := by
  cases room with
  | zero => exact ⟨j, hj, ht, .tooLarge (Nat.lt_of_lt_of_le hpos hj) _ _ _⟩
  | succ room =>
    refine (ih room).shift hj ?_
    rw [List.length_drop]
    omega

theorem settled_collect (mask : UInt8) (limits : Limits) (bs : Bytes) (room : Nat) (taken : Bytes)
    (s : Source) (pos : Nat) (hs : s.Holds bs pos) :
    Settled limits (room < bs.length) (resume mask taken bs) bs pos
      ((midway (unit mask) >>= collect mask limits.frameBytes room taken).runFrom s) := by
  -- on the number of bytes left: a byte of the contents takes up one or, escaped, two of them
  induction hn : bs.length using Nat.strong_induction_on generalizing bs room taken s pos with
  | _ n ih =>
  subst hn
  rw [runFrom_bind, runFrom_midway]
  cases bs with
  | nil =>
    obtain ⟨t, hrun, ht⟩ := unit_nil mask hs
    rw [hrun]
    exact ⟨0, Nat.le_refl _, ht, .cutOff 0⟩
  | cons b rest =>
    by_cases hb : b ^^^ mask = terminator
    · obtain ⟨t, hrun, ht⟩ := unit_terminator hs hb
      rw [hrun, resume_terminator taken rest hb]
      dsimp only [Except.mapError]
      rw [collect_none, runFrom_pure]
      exact ⟨1, Nat.le_add_left 1 _, ht, .found _ 1⟩
    by_cases he : b ^^^ mask = escape
    · cases rest with
      | nil =>
        obtain ⟨t, hrun, ht⟩ := unit_escape_nil hs he
        rw [hrun, resume_escape_nil taken he]
        exact ⟨1, Nat.le_refl _, ht, .cutOff 1⟩
      | cons c rest =>
        obtain ⟨t, hrun, ht⟩ := unit_escape hs he
        rw [hrun, resume_escape taken rest he]
        refine collect_some ht (Nat.le_add_left 2 _) Nat.two_pos fun room => ?_
        exact ih rest.length (Nat.lt_add_right 1 (Nat.lt_succ_self _)) rest room _ t _ ht rfl
    · obtain ⟨t, hrun, ht⟩ := unit_plain hs hb he
      rw [hrun, resume_plain taken rest hb he]
      refine collect_some ht (Nat.le_add_left 1 _) Nat.one_pos fun room => ?_
      exact ih rest.length (Nat.lt_succ_self _) rest room _ t _ ht rfl

end Frame

theorem settled_frame (mask : UInt8) (limits : Limits) {s : Source} {bs : Bytes} {pos : Nat}
    (hs : s.Holds bs pos) :
    Settled limits (limits.frameBytes < bs.length) (Frame.get mask bs) bs pos
      ((Frame.read mask limits.frameBytes).runFrom s) := by
  cases bs with
  | nil =>
    obtain ⟨t, hrun, ht⟩ := Frame.unit_nil mask hs
    rw [Frame.read, Reading.runFrom_bind, hrun]
    exact ⟨0, Nat.le_refl _, ht, .failed _ 0⟩
  | cons b rest =>
    rw [Frame.get_cons, Frame.runFrom_read_cons hs]
    exact Frame.settled_collect mask limits (b :: rest) limits.frameBytes [] s pos hs

theorem follows_frame (mask : UInt8) (limits : Limits) :
    Follows limits (Decoder.frame mask) (Frame.read mask limits.frameBytes) :=
  fun _ _ _ hs _ => settled_frame mask limits hs

theorem settled_elements {limits : Limits} {d : Decoder α} {r : Reading α} (hd : d.Starts)
    (h : Follows limits d r) (room : Nat) (bs : Bytes) (taken : List α) (s : Source) (pos : Nat)
    (hs : s.Holds bs pos) (hlen : bs.length < Bytes.lengthBound) (hroom : bs.length < room) :
    Settled limits (limits.frameBytes < bs.length)
      ((fun q => (taken.reverse ++ q.1, q.2)) <$> Codec.elements d.run bs) bs pos
      ((Reading.elements r room taken).runFrom s) := by
  induction room generalizing bs taken s pos with
  | zero => omega
  | succ room ih =>
    rw [Reading.elements, Reading.runFrom_bind]
    cases hrun : r.runFrom s with
    | mk o t =>
    obtain ⟨k, hk, ht, ha⟩ := h s bs pos hs hlen
    rw [hrun] at ht ha
    dsimp only at ht ha
    by_cases hbs : bs = []
    · subst hbs
      rw [hd.nil] at ha
      cases ha with
      | failed =>
        rw [Reading.optional_of_endOfInput hrun, Codec.elements_nil, Outcome.map_ok, List.append_nil]
        exact ⟨k, hk, ht, by cases Nat.le_zero.1 hk; exact .found _ 0⟩
      | tooLarge h => cases h
    · generalize hfound : d.run bs = g at ha
      cases ha with
      | found a =>
        -- the element has taken up a byte, so there is room enough for the others
        have hpos := hd.pos hfound
        have hdrop : (bs.drop k).length = bs.length - k := List.length_drop
        have hset := ih (bs.drop k) (a :: taken) t (pos + k) ht (by omega) (by omega)
        have hbeyond : limits.frameBytes < (bs.drop k).length → limits.frameBytes < bs.length := by omega
        have hshift := hset.shift hk hbeyond
        rw [Reading.optional_of_ok hrun, Codec.elements_of_ok hbs hpos hfound]
        convert hshift using 1
        cases Codec.elements d.run (bs.drop k) with
        | error e => rfl
        | ok p => simp
      | failed e =>
        have he : e ≠ .endOfInput := fun he => hd.cons hbs (he ▸ hfound)
        rw [Reading.optional_of_error hrun he, Codec.elements_of_error hbs hfound]
        exact ⟨k, hk, ht, .failed e k⟩
      | cutOff =>
        rw [Reading.optional_of_error hrun nofun, Codec.elements_of_error hbs hfound]
        exact ⟨k, hk, ht, .cutOff k⟩
      | tooLarge hl g size =>
        rw [Reading.optional_of_error hrun nofun]
        exact ⟨k, hk, ht, .tooLarge hl _ size k⟩
      | noRoom n _ hvast hn =>
        rw [Reading.optional_of_error hrun nofun, Codec.elements_of_error hbs hfound]
        exact ⟨k, hk, ht, .noRoom n k hvast hn⟩

theorem follows_elements {limits : Limits} {d : Decoder α} {r : Reading α} (hd : d.Starts)
    (h : Follows limits d r) :
    Follows limits ⟨Codec.elements d.run⟩ (Reading.elements r Bytes.lengthBound []) := by
  intro s bs pos hs hlen
  have hset := settled_elements hd h Bytes.lengthBound bs [] s pos hs hlen hlen
  convert hset using 1
  change Codec.elements d.run bs = _
  cases Codec.elements d.run bs <;> rfl

theorem Twin.follows {limits : Limits} {d : Decoder α} {r : Reading α} (h : Twin limits d r) :
    Follows limits d r := by
  induction h with
  | ofOutcome o => exact follows_ofOutcome limits o
  | exactly n => exact follows_exactly limits n
  | payload hsize hf => exact follows_payload hsize
  | frame mask => exact follows_frame mask limits
  | remainder => exact follows_remainder limits
  | bind _ _ ih ihf => exact ih.bind ihf
  | midway _ ih => exact ih.midway
  | elements hd _ ih => exact follows_elements hd ih

theorem Follows.runFrom_of_error {limits : Limits} {d : Decoder α} {r : Reading α}
    (h : Follows limits d r) {bs : Bytes} (hlen : bs.length < Bytes.lengthBound)
    (hlimit : bs.length ≤ limits.frameBytes) {e : Fault} (he : d.run bs = .error e)
    (hopen : e ≠ .unterminated) (hcut : e ≠ .truncated) {s : Source} {pos : Nat}
    (hs : s.Holds bs pos) : ∃ t, r.runFrom s = (.error e, t) := by
  obtain ⟨k, -, -, hagree⟩ := h s bs pos hs hlen
  rw [he] at hagree
  generalize r.runFrom s = x at hagree ⊢
  obtain ⟨o, t⟩ := x
  dsimp only at hagree
  cases hagree with
  | failed => exact ⟨t, rfl⟩
  | cutOff => exact (hopen rfl).elim
  | tooLarge hbeyond => exact (Nat.not_lt.2 hlimit hbeyond).elim
  | noRoom => exact (hcut rfl).elim

namespace Codec

/-- Reading finds what decoding finds and leaves the source right after it; where decoding fails, so
does reading, with the same fault or because the source ended inside a frame. Only a payload beyond
the limit can make a difference, and a source that has no more bytes than the limit has no such
payload; and under a limit that allows `2 ^ 63` bytes for a magnitude, reading makes room for them
where decoding sees that they are not there. -/
theorem read_agrees_with_get (c : Codec α) (hc : c.IsBuiltIn) (limits : Limits) (bs : Bytes)
    (hlen : bs.length < Bytes.lengthBound) (s : Source) (pos : Nat) (hs : s.Holds bs pos) :
    (∀ v t, (c.read limits).runFrom s = (.ok v, t) →
      ∃ n, t.delivered = pos + n ∧ c.get limits bs = .ok (v, n)) ∧
    (∀ v n, c.get limits bs = .ok (v, n) →
      (∃ t, (c.read limits).runFrom s = (.ok v, t) ∧ t.Holds (bs.drop n) (pos + n)) ∨
        ∃ size t, (c.read limits).runFrom s = (.error (.tooLarge size limits.frameBytes), t)) ∧
    (∀ e, c.get limits bs = .error e →
      ∃ e' t, (c.read limits).runFrom s = (.error e', t) ∧
        (e' = e ∨ (e = .unterminated ∧ e' = .truncated) ∨
          (∃ size, e' = .tooLarge size limits.frameBytes) ∨
          e = .truncated ∧ ∃ n, Bytes.lengthBound ≤ n ∧ n ≤ limits.integerBytes ∧
            e' = .device (.memory n))) ∧
    (bs.length ≤ limits.frameBytes → ∀ size limit t,
      (c.read limits).runFrom s = (.error (.tooLarge size limit), t) →
        c.get limits bs = .error (.tooLarge size limit)) := by
  obtain ⟨k, -, ht, ha⟩ := (twin limits hc).follows s bs pos hs hlen
  rw [run_decoder] at ha
  generalize c.get limits bs = g at ha ⊢
  generalize (c.read limits).runFrom s = x at ht ha ⊢
  obtain ⟨o, t⟩ := x
  dsimp only at ht ha
  cases ha with
  | found a =>
    refine ⟨?_, ?_, nofun, nofun⟩
    · rintro v u ⟨⟩
      exact ⟨k, ht.delivered, rfl⟩
    · rintro v n ⟨⟩
      exact .inl ⟨t, rfl, ht⟩
  | failed e =>
    refine ⟨nofun, nofun, ?_, ?_⟩
    · rintro e' ⟨⟩
      exact ⟨e, t, rfl, .inl rfl⟩
    · rintro - size limit u ⟨⟩
      rfl
  | cutOff =>
    refine ⟨nofun, nofun, ?_, nofun⟩
    rintro e ⟨⟩
    exact ⟨.truncated, t, rfl, .inr (.inl ⟨rfl, rfl⟩)⟩
  | tooLarge hbeyond g size =>
    refine ⟨nofun, ?_, ?_, ?_⟩
    · intro v n _
      exact .inr ⟨size, t, rfl⟩
    · intro e _
      exact ⟨_, t, rfl, .inr (.inr (.inl ⟨size, rfl⟩))⟩
    · intro hle
      exact (Nat.not_lt.2 hle hbeyond).elim
  | noRoom n _ hvast hn =>
    refine ⟨nofun, nofun, ?_, nofun⟩
    rintro e ⟨⟩
    exact ⟨_, t, rfl, .inr (.inr (.inr ⟨rfl, n, hvast, hn, rfl⟩))⟩

theorem read_agrees_with_get_interrupted :
    let c : Codec (Option Bytes) := .nullable .first (.negate (.leaf .bytes))
    let s : Source := ⟨[.piece 0x03 [0x9e], .interruption, .piece 0xff [0x07]], .closed, 0⟩
    c.IsBuiltIn ∧ s.Holds [0x03, 0x9e, 0xff, 0x07] 0 ∧
      ∃ t, (c.read {}).runFrom s = (.ok (some [0x61]), t) ∧ t.Holds [0x07] 3 := by
  intro c s
  have hc : c.IsBuiltIn := trivial
  have hs : s.Holds [0x03, 0x9e, 0xff, 0x07] 0 := ⟨rfl, rfl, rfl⟩
  refine ⟨hc, hs, ?_⟩
  have hget : c.get {} [0x03, 0x9e, 0xff, 0x07] = .ok (some [0x61], 3) := by rfl
  obtain ⟨-, hfound, -, hbeyond⟩ := read_agrees_with_get c hc {} _ (by decide) s 0 hs
  cases hfound _ _ hget with
  | inl h => exact h
  | inr h =>
    obtain ⟨size, t, hrun⟩ := h
    rw [hbeyond (by decide) _ _ _ hrun] at hget
    cases hget

/-- Eight zero bytes announce a magnitude of `2 ^ 63` bytes, and nothing is behind them. Decoding reports
that they end too early, and reading stops for want of memory before it has looked. -/
theorem announced_length_without_room :
    let limits : Limits := ⟨2 ^ 63, 0⟩
    let bs : Bytes := [0, 0, 0, 0, 0, 0, 0, 0]
    (Codec.leaf .integer).get limits bs = .error .truncated ∧
      (((Codec.leaf .integer).read limits).runFrom (.ofBytes bs)).1 =
        .error (.device (.memory (2 ^ 63))) ∧
      ¬∀ (c : Codec Int), c.IsBuiltIn → ∀ (limits : Limits) (bs : Bytes),
        bs.length < Bytes.lengthBound → ∀ s pos, s.Holds bs pos → ∀ e,
          c.get limits bs = .error e → ∃ e' t, (c.read limits).runFrom s = (.error e', t) ∧
            (e' = e ∨ (e = .unterminated ∧ e' = .truncated) ∨
              ∃ size, e' = .tooLarge size limits.frameBytes) := by
  intro limits bs
  have hget : (Codec.leaf .integer).get limits bs = .error .truncated := by decide
  have hread : (((Codec.leaf .integer).read limits).runFrom (.ofBytes bs)).1 =
      .error (.device (.memory (2 ^ 63))) := by rfl
  refine ⟨hget, hread, fun h => ?_⟩
  obtain ⟨e, t, hrun, he⟩ :=
    h (.leaf .integer) trivial limits bs (by decide) _ 0 (Source.holds_ofBytes bs) _ hget
  rw [hrun] at hread
  cases hread
  obtain he | ⟨-, he⟩ | ⟨size, he⟩ := he <;> cases he

end Codec
end SortKey
