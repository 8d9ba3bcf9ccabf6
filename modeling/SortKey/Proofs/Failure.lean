import SortKey.Proofs.CleanEnd

/-! Sources that fail. A reading by a built-in codec reports the failure once all the bytes before it are
delivered, or has come to its outcome without it; that outcome is then the same on every source that begins
with those bytes, whatever it has in place of the failure. -/
namespace SortKey

namespace Source
variable {n k pos : Nat} {bs p : Bytes} {ending : Ending} {s t : Source} {text : String}

theorem drawn_split (hn : n ≤ k) (h : drawn k bs ending pos = (p, .filled)) :
    drawn n bs ending pos = (p.take n, .filled) ∧
      drawn (k - n) (bs.drop n) ending (pos + n) = (p.drop n, .filled) := by
  by_cases hk : k ≤ bs.length
  · rw [drawn_of_le_length hk, Prod.mk.injEq] at h
    obtain ⟨rfl, -⟩ := h
    have hrest : k - n ≤ (bs.drop n).length := by
      rw [List.length_drop]
      omega
    rw [drawn_of_le_length (hn.trans hk), drawn_of_le_length hrest, List.take_take,
      Nat.min_eq_left hn, List.drop_take]
    exact ⟨rfl, rfl⟩
  cases ending with
  | endless byteAt =>
    rw [drawn_endless, Prod.mk.injEq] at h
    obtain ⟨rfl, -⟩ := h
    -- what is left may run out before the cut, behind it or right there
    have hcut : n - (bs.take k).length = n - bs.length := by
      rw [List.length_take]
      omega
    have hmin : min (n - bs.length) (k - bs.length) = n - bs.length := by omega
    have hsplit : k - bs.length = n - bs.length + (k - n - (bs.length - n)) := by omega
    have hshift (i : Nat) : pos + n + (bs.length - n) + i = pos + bs.length + (n - bs.length + i) := by
      omega
    constructor
    · rw [drawn_endless, List.take_append, List.take_take, Nat.min_eq_left hn, hcut, ← List.map_take,
        List.take_range, hmin]
    · rw [drawn_endless, List.drop_append, List.drop_take, hcut, List.length_drop, hsplit,
        List.range_add, List.map_append, List.drop_left' (by simp), List.map_map]
      simp only [hshift, Function.comp_def]
  | closed =>
    rw [drawn_closed (Nat.lt_of_not_le hk)] at h
    cases h
  | failing text =>
    rw [drawn_failing (Nat.lt_of_not_le hk)] at h
    cases h

/-- The next bytes are `p`: a request for as many is met with them. -/
def Begins (s : Source) (p : Bytes) : Prop := (draw p.length s).1 = (p, .filled)

theorem begins_iff : s.Begins p ↔
    drawn p.length (contents s.deliveries) s.ending s.delivered = (p, .filled) := by
  rw [Begins, draw_eq]

theorem begins_of_contents {more : Bytes} (h : contents s.deliveries = p ++ more) : s.Begins p := by
  rw [begins_iff, drawn_of_le_length (by rw [h]; simp), h, List.take_left]

theorem begins_contents (s : Source) : s.Begins (contents s.deliveries) :=
  begins_of_contents (List.append_nil _).symm

theorem Begins.draw (h : t.Begins p) (hn : n ≤ p.length) :
    ∃ t', draw n t = ((p.take n, .filled), t') ∧ t'.Begins (p.drop n) ∧
      t'.delivered = t.delivered + n := by
  obtain ⟨hfirst, hrest⟩ := drawn_split hn (begins_iff.1 h)
  rw [draw_eq, hfirst]
  refine ⟨_, rfl, ?_, ?_⟩
  · rw [begins_iff, contents_gather_snd]
    dsimp only
    rw [List.length_drop, List.length_take_of_le hn]
    exact hrest
  · dsimp only
    rw [List.length_take_of_le hn]

def extent (s : Source) : Nat := s.delivered + (contents s.deliveries).length

/-- `s` has only bytes that `t` begins with, and fails after them. -/
structure FailsWithin (text : String) (s t : Source) : Prop where
  failing : s.ending = .failing text
  begins : t.Begins (contents s.deliveries)

theorem FailsWithin.draw (h : FailsWithin text s t) (n : Nat) :
    (∃ got s', draw n s = ((got, .failed text), s') ∧ s'.delivered = s.extent) ∨
    ∃ got s' t', draw n s = ((got, .filled), s') ∧ draw n t = ((got, .filled), t') ∧
      FailsWithin text s' t' ∧ s'.extent = s.extent ∧ s'.delivered = s.delivered + n ∧
      t'.delivered = t.delivered + n := by
  by_cases hn : n ≤ (contents s.deliveries).length
  · obtain ⟨t', ht, hbegins, hpos⟩ := h.begins.draw hn
    refine .inr ⟨_, ⟨(gather s.deliveries n).2, s.ending, s.delivered + n⟩, t', ?_, ht,
      ⟨h.failing, ?_⟩, ?_, rfl, hpos⟩
    · rw [draw_eq, drawn_of_le_length hn, List.length_take_of_le hn]
    · rwa [contents_gather_snd]
    · rw [extent, extent, contents_gather_snd, List.length_drop]
      dsimp only
      omega
  · refine .inl ⟨contents s.deliveries, ⟨(gather s.deliveries n).2, s.ending, s.extent⟩, ?_, rfl⟩
    rw [draw_eq, h.failing, drawn_failing (Nat.lt_of_not_le hn)]
    rfl

end Source

namespace Reading
open Source (Begins FailsWithin)
variable {α β : Type} {text : String} {s t : Source}

/-- What a reading comes to on a source that fails, next to what it comes to on one that goes on. -/
inductive Candidly (text : String) (s t : Source) :
    Except Fault α × Source → Except Fault α × Source → Prop where
  | reported {s' : Source} (h : s'.delivered = s.extent) (z : Except Fault α × Source) :
      Candidly text s t (.error (.device text), s') z
  | unaffected (o : Except Fault α) {s' t' : Source} {n : Nat} (h : FailsWithin text s' t')
      (he : s'.extent = s.extent) (hs : s'.delivered = s.delivered + n)
      (ht : t'.delivered = t.delivered + n) : Candidly text s t (o, s') (o, t')

/-- Takes a failure neither for bytes nor for their end. -/
def Candid (r : Reading α) : Prop :=
  ∀ text s t, FailsWithin text s t → Candidly text s t (r.runFrom s) (r.runFrom t)

theorem candid_liftM (o : Except Fault α) : (liftM o : Reading α).Candid := by
  intro text s t h
  rw [runFrom_liftM, runFrom_liftM]
  exact .unaffected o h rfl (Nat.add_zero _).symm (Nat.add_zero _).symm

theorem candid_exactly (n : Nat) : (exactly n).Candid := by
  intro text s t h
  rw [runFrom_exactly, runFrom_exactly]
  obtain ⟨got, s', hs, hend⟩ | ⟨got, s', t', hs, ht, hst, he, hn, hn'⟩ := h.draw n
  · rw [hs]
    exact .reported hend _
  · rw [hs, ht]
    exact .unaffected _ hst he hn hn'

theorem candid_remainder (limit : Nat) : (remainder limit).Candid := by
  intro text s t h
  rw [runFrom_remainder, runFrom_remainder]
  obtain ⟨got, s', hs, hend⟩ | ⟨got, s', t', hs, ht, hst, he, hn, hn'⟩ :=
    h.draw (min (limit + 1) 18446744073709551615)
  · rw [hs]
    exact .reported hend _
  · rw [hs, ht]
    exact .unaffected _ hst he hn hn'

theorem Candid.bind {r : Reading α} {f : α → Reading β} (h : r.Candid) (hf : ∀ a, (f a).Candid) :
    (r >>= f).Candid := by
  intro text s t hst
  have hr := h text s t hst
  rw [runFrom_bind, runFrom_bind]
  generalize r.runFrom s = y at hr ⊢
  generalize r.runFrom t = z at hr ⊢
  cases hr with
  | reported hend z => exact .reported hend _
  | @unaffected o s' t' n hst' he hs ht =>
    cases o with
    | error e => exact .unaffected (.error e) hst' he hs ht
    | ok a =>
      have hfa := hf a text s' t' hst'
      dsimp only
      generalize (f a).runFrom s' = y at hfa ⊢
      generalize (f a).runFrom t' = z at hfa ⊢
      cases hfa with
      | reported hend z => exact .reported (hend.trans he) z
      | unaffected o hst'' he' hs' ht' =>
        exact .unaffected o hst'' (he'.trans he) (by rw [hs', hs, Nat.add_assoc])
          (by rw [ht', ht, Nat.add_assoc])

theorem Candid.midway {r : Reading α} (h : r.Candid) : r.midway.Candid := by
  intro text s t hst
  have hr := h text s t hst
  rw [runFrom_midway, runFrom_midway]
  generalize r.runFrom s = y at hr ⊢
  generalize r.runFrom t = z at hr ⊢
  cases hr with
  | reported hend z => exact .reported hend _
  | unaffected o hst' he hs ht => exact .unaffected _ hst' he hs ht

theorem Candid.optional {r : Reading α} (h : r.Candid) : (optional r).Candid := by
  intro text s t hst
  have hr := h text s t hst
  cases hs : r.runFrom s with
  | mk o s' =>
  cases ht : r.runFrom t with
  | mk o' t' =>
  rw [hs, ht] at hr
  cases hr with
  | reported hend z =>
    rw [optional_of_error hs nofun]
    exact .reported hend _
  | unaffected o hst' he hn hn' =>
    cases o with
    | ok a =>
      rw [optional_of_ok hs, optional_of_ok ht]
      exact .unaffected _ hst' he hn hn'
    | error e =>
      by_cases hend : e = .endOfInput
      · subst hend
        rw [optional_of_endOfInput hs, optional_of_endOfInput ht]
        exact .unaffected _ hst' he hn hn'
      · rw [optional_of_error hs hend, optional_of_error ht hend]
        exact .unaffected _ hst' he hn hn'

theorem Composed.candid {r : Reading α} (h : r.Composed) : r.Candid := by
  induction h with
  | liftM o => exact candid_liftM o
  | exactly n => exact candid_exactly n
  | remainder limit => exact candid_remainder limit
  | bind _ _ ih ihf => exact ih.bind ihf
  | midway _ ih => exact ih.midway
  | optional _ ih => exact ih.optional

theorem Candid.failing {r : Reading α} (h : r.Candid) (hs : s.ending = .failing text) {v : α}
    (hrun : r.runFrom s = (.ok v, t)) : t.ending = .failing text := by
  have hr := h text s s ⟨hs, s.begins_contents⟩
  rw [hrun] at hr
  cases hr with
  | unaffected _ hst _ _ _ => exact hst.failing

theorem bind_ne_ok {r : Reading α} {f : α → Reading β} (h : ∀ a, (r.runFrom s).1 ≠ .ok a) (b : β) :
    ((r >>= f).runFrom s).1 ≠ .ok b := by
  rw [runFrom_bind]
  generalize r.runFrom s = z at h ⊢
  obtain ⟨e | a, t⟩ := z
  · intro hb
    cases hb
  · exact (h a rfl).elim

/-- Either more bytes came than are wanted, or the failure did. -/
theorem remainder_ne_ok (hs : s.ending = .failing text)
    (hlen : (Source.contents s.deliveries).length < Bytes.lengthBound) (limit : Nat) (bs : Bytes) :
    ((remainder limit).runFrom s).1 ≠ .ok bs := by
  rw [runFrom_remainder, Source.draw_eq]
  by_cases hn : min (limit + 1) 18446744073709551615 ≤ (Source.contents s.deliveries).length
  · have hlt : limit < ((Source.contents s.deliveries).take
        (min (limit + 1) 18446744073709551615)).length := by
      rw [List.length_take_of_le hn]
      rw [Bytes.lengthBound] at hlen
      omega
    rw [Source.drawn_of_le_length hn]
    dsimp only [remainderOutcome]
    rw [if_pos hlt]
    intro h
    cases h
  · rw [hs, Source.drawn_failing (Nat.lt_of_not_le hn)]
    intro h
    cases h

theorem elements_ne_ok {r : Reading α} (hr : r.Starts) (hc : r.Candid)
    (hs : s.ending = .failing text) (room : Nat) (taken vs : List α) :
    ((elements r room taken).runFrom s).1 ≠ .ok vs := by
  induction room generalizing taken s with
  | zero =>
    intro h
    cases h
  | succ room ih =>
    rw [elements, runFrom_bind]
    cases hrun : r.runFrom s with
    | mk o t =>
    cases o with
    | ok v =>
      rw [optional_of_ok hrun]
      exact ih (hc.failing hs hrun) (v :: taken)
    | error e =>
      have he : e ≠ .endOfInput := by
        rintro rfl
        have hclosed := ((hr s).1 (by rw [hrun])).closed
        rw [hs] at hclosed
        cases hclosed
      rw [optional_of_error hrun he]
      intro h
      cases h

end Reading

open Source (contents)
variable {α : Type}

theorem Leaf.ne_ok_of_failing (limits : Limits) {l : Leaf α} (hl : l.requiresTerminator = true)
    {s : Source} {text : String} (hs : s.ending = .failing text)
    (hlen : (contents s.deliveries).length < Bytes.lengthBound) (v : α) :
    ((l.read limits).runFrom s).1 ≠ .ok v := by
  have hrest := Reading.remainder_ne_ok hs hlen limits.frameBytes
  cases l with
  | bytes => exact hrest v
  | string => exact Reading.bind_ne_ok hrest v
  | _ => cases hl

namespace Codec

theorem ne_ok_of_failing (limits : Limits) {c : Codec α} (hc : c.IsBuiltIn) (ho : c.IsOpen)
    {s : Source} {text : String} (hs : s.ending = .failing text)
    (hlen : (contents s.deliveries).length < Bytes.lengthBound) (v : α) :
    ((c.read limits).runFrom s).1 ≠ .ok v := by
  induction c with
  | leaf l => exact Leaf.ne_ok_of_failing limits ho hs hlen v
  | seq c ih =>
    rw [read_seq]
    exact Reading.elements_ne_ok (starts_read_unit limits (c := c) hc)
      (composed_read limits (isBuiltIn_unit (c := c) hc)).candid hs _ _ _
  | convert represent restore c ih => exact Reading.bind_ne_ok (ih hc ho) v
  | _ => exact ho.elim

theorem ne_endOfInput_of_failing (limits : Limits) {c : Codec α} (hc : c.IsBuiltIn) {s : Source}
    {text : String} (hs : s.ending = .failing text) :
    ((c.read limits).runFrom s).1 ≠ .error .endOfInput := by
  intro h
  by_cases ho : c.IsOpen
  · exact underway_read limits ho s h
  · have hclosed := ((starts_read limits hc ho s).1 h).closed
    rw [hs] at hclosed
    cases hclosed

/-- A failure of the source is reported as such, once all the bytes before it are delivered, unless the
reading has ended without it; then any other source that begins with those bytes gives the same
outcome, after as many of them. A failure is never the end of the input, and never the end of a byte
string, a string or a sequence. -/
theorem failure_or_same_outcome (c : Codec α) (hc : c.IsBuiltIn) (limits : Limits) (s : Source)
    (text : String) (hs : s.ending = .failing text) :
    ((((c.read limits).runFrom s).1 = .error (.device text) ∧
        ((c.read limits).runFrom s).2.delivered = s.delivered + (contents s.deliveries).length) ∨
      ∃ n, ((c.read limits).runFrom s).2.delivered = s.delivered + n ∧
        ∀ t, t.Begins (contents s.deliveries) →
          ((c.read limits).runFrom t).1 = ((c.read limits).runFrom s).1 ∧
            ((c.read limits).runFrom t).2.delivered = t.delivered + n) ∧
    ((c.read limits).runFrom s).1 ≠ .error .endOfInput ∧
    (c.IsOpen → (contents s.deliveries).length < Bytes.lengthBound →
      ∀ v, ((c.read limits).runFrom s).1 ≠ .ok v) := by
  refine ⟨?_, ne_endOfInput_of_failing limits hc hs,
    fun ho hlen => ne_ok_of_failing limits hc ho hs hlen⟩
  have hread := (composed_read limits hc).candid text s
  generalize (c.read limits).runFrom s = y at hread ⊢
  by_cases hreported : y.1 = .error (.device text) ∧ y.2.delivered = s.extent
  · exact .inl hreported
  obtain ⟨n, hn⟩ : ∃ n, y.2.delivered = s.delivered + n := by
    have hself := hread s ⟨hs, s.begins_contents⟩
    generalize (c.read limits).runFrom s = z at hself
    cases hself with
    | reported hend => exact (hreported ⟨rfl, hend⟩).elim
    | unaffected o _ _ hn _ => exact ⟨_, hn⟩
  refine .inr ⟨n, hn, fun t ht => ?_⟩
  have hst := hread t ⟨hs, ht⟩
  generalize (c.read limits).runFrom t = z at hst ⊢
  cases hst with
  | reported hend => exact (hreported ⟨rfl, hend⟩).elim
  | unaffected o _ _ hn' ht' =>
    have hcount := hn'.symm.trans hn
    exact ⟨rfl, by rw [ht']; omega⟩

/-- A source fails in its second frame. The first one is read as it would be from a source that never
ends, and a sequence of frames is not read at all. -/
theorem failure_or_same_outcome_second_frame :
    let c : Codec Bytes := .terminate (.leaf .bytes)
    let s : Source :=
      ⟨[.piece 0x61 [0x00], .interruption, .piece 0x62 []], .failing "disk on fire", 0⟩
    let t : Source := ⟨[.piece 0x61 [0x00]], .endless fun _ => 0x62, 5⟩
    c.IsBuiltIn ∧ s.ending = .failing "disk on fire" ∧ t.Begins (contents s.deliveries) ∧
      ((c.read ⟨16, 16⟩).runFrom s).1 = .ok [0x61] ∧
      ((c.read ⟨16, 16⟩).runFrom t).1 = .ok [0x61] ∧
      ((c.read ⟨16, 16⟩).runFrom t).2.delivered = 5 + 2 ∧
      (((Codec.seq c).read ⟨16, 16⟩).runFrom s).1 = .error (.device "disk on fire") ∧
      ∀ vs, (((Codec.seq c).read ⟨16, 16⟩).runFrom s).1 ≠ .ok vs := by
  intro c s t
  have hc : c.IsBuiltIn := trivial
  have hs : s.ending = .failing "disk on fire" := rfl
  have ht : t.Begins (contents s.deliveries) := rfl
  have hfirst : (c.read ⟨16, 16⟩).runFrom s =
      (.ok [0x61], ⟨[.interruption, .piece 0x62 []], .failing "disk on fire", 2⟩) := by rfl
  have hseq : (((Codec.seq c).read ⟨16, 16⟩).runFrom s).1 = .error (.device "disk on fire") := by rfl
  obtain ⟨hframe, -, -⟩ := failure_or_same_outcome c hc ⟨16, 16⟩ s _ hs
  obtain ⟨-, -, hnever⟩ := failure_or_same_outcome (.seq c) hc ⟨16, 16⟩ s _ hs
  rw [hfirst] at hframe
  obtain ⟨h, -⟩ | ⟨n, hn, hsame⟩ := hframe
  · cases h
  obtain rfl : 2 = n := by simpa [s] using hn
  obtain ⟨houtcome, hcount⟩ := hsame t ht
  exact ⟨hc, hs, ht, by rw [hfirst], houtcome, hcount, hseq, hnever trivial (by decide)⟩

end Codec
end SortKey
