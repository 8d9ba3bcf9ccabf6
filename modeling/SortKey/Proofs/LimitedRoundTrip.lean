import SortKey.Proofs.CodecRoundTrip
import SortKey.Proofs.StreamAgreement
import SortKey.Proofs.WithinLimits

/-! What was written, decoded under limits, for codecs. A byte string gives back its value exactly if the
integers in it keep to their limit, a source exactly if, besides, each piece that it hands over as a whole
keeps to the limit on payloads; and otherwise something is too large. -/
namespace SortKey.Codec
open Reading
variable {α : Type}

def EncodesWithin (n : Nat) (c : Codec α) (v : α) : Prop :=
  ∀ x, c.encode v = .ok x → x.length ≤ n

/-- The pieces that a source hands over as a whole have no more than `n` bytes. What is inside a frame
has been handed over with it. -/
def Fits (n : Nat) : {α : Type} → Codec α → α → Prop
  | _, .leaf l, v => l.Fits n v
  | _, .custom _, _ => True
  | _, .framed _ c, v => c.EncodesWithin n v
  | _, .nullable _ c, v => ∀ u ∈ v, c.Fits n u
  | _, .seq c, vs =>
    ∀ u ∈ vs, if c.requiresTerminator then c.EncodesWithin n u else c.Fits n u
  | _, .convert represent _ c, v => c.Fits n (represent v)

theorem encodesWithin_iff {n : Nat} {c : Codec α} {v : α} {x : Bytes} (hx : c.encode v = .ok x) :
    c.EncodesWithin n v ↔ x.length ≤ n := by
  constructor
  · exact fun h => h x hx
  · intro h y hy
    rw [hx] at hy
    cases hy
    exact h

instance (n : Nat) (c : Codec α) (v : α) : Decidable (c.EncodesWithin n v) :=
  match h : c.encode v with
  | .ok x => decidable_of_iff (x.length ≤ n) (encodesWithin_iff h).symm
  | .error _ => .isTrue fun _ hx => nomatch h.symm.trans hx

instance decidableFits (n : Nat) : {α : Type} → (c : Codec α) → (v : α) → Decidable (c.Fits n v)
  | _, .leaf l, v => inferInstanceAs (Decidable (l.Fits n v))
  | _, .custom _, _ => .isTrue trivial
  | _, .framed _ c, v => inferInstanceAs (Decidable (c.EncodesWithin n v))
  | _, .nullable _ _, none => .isTrue nofun
  | _, .nullable _ c, some v => @decidable_of_iff _ _ (by simp [Fits]) (decidableFits n c v)
  | _, .seq c, vs =>
    @List.decidableBAll _ _ (fun u => letI := decidableFits n c u; inferInstance) vs
  | _, .convert represent _ c, v => decidableFits n c (represent v)

theorem fits_seq (n : Nat) (c : Codec α) (vs : List α) :
    (Codec.seq c).Fits n vs ↔ ∀ u ∈ vs, c.unit.Fits n u := by
  rw [Fits]
  cases h : c.requiresTerminator with
  | false => simp only [unit_of_false h, Bool.false_eq_true, if_false]
  | true =>
    simp only [unit_of_true h, if_true]
    rfl

/-- What is inside a frame is decoded as a byte string, under the limit on integers alone. -/
theorem admits_framed {limits : Limits} (reversed : Bool) {c : Codec α} {v : α} {p q : Prop}
    {x : Bytes} (hx : (Codec.framed reversed c).encode v = .ok x)
    (h : ∀ raw, c.encode v = .ok raw → raw.length < x.length →
      Admits p q (c.decoder limits) (c.read limits) v raw []) (rest : Bytes) :
    Admits p ((Codec.framed reversed c).Fits limits.frameBytes v)
      ((Codec.framed reversed c).decoder limits) ((Codec.framed reversed c).read limits) v x rest := by
  rw [encode_framed, Outcome.map_eq_ok] at hx
  obtain ⟨raw, hraw, rfl⟩ := hx
  have hget := (h raw hraw (Frame.length_lt_length_encode _ raw)).decodes
  rw [List.append_nil] at hget
  have hframe := Admits.frame (Frame.maskOf reversed) limits.frameBytes raw rest
  rw [decoder_framed]
  exact (hframe.settle hget.whole).congr (and_iff_right trivial) (encodesWithin_iff hraw).symm

theorem admits_presence (order : NilOrder) (isNil : Bool) (rest : Bytes) :
    Admits True True (Presence.decoder order) (Presence.read order) isNil
      [Presence.byte order isNil] rest :=
  (Admits.byte _ rest).check (Presence.check_byte order isNil)

def AdmitsEach (limits : Limits) (c : Codec α) (vs : List α) : Prop :=
  ∀ v ∈ vs, ∀ x, c.unit.encode v = .ok x → x.length < Bytes.lengthBound → ∀ rest,
    Admits (c.Within limits.integerBytes v) (c.unit.Fits limits.frameBytes v)
      (c.unit.decoder limits) (c.unit.read limits) v x rest

theorem limited_elements {limits : Limits} {c : Codec α} (hc : c.IsBuiltIn) {vs : List α}
    (hu : c.AdmitsEach limits vs) {x : Bytes} (hx : (Codec.seq c).encode vs = .ok x)
    (hlen : x.length < Bytes.lengthBound) :
    Limited (∀ v ∈ vs, c.Within limits.integerBytes v) (vs, x.length)
      (elements (c.unit.get limits) x) := by
  induction vs generalizing x with
  | nil =>
    rw [encode_seq_nil] at hx
    cases hx
    rw [elements_nil]
    exact .found (List.forall_mem_nil _)
  | cons v vs ih =>
    obtain ⟨u, y, hv, hvs, rfl⟩ := exists_of_encode_seq_cons hc hx
    rw [List.length_append] at hlen
    have hne := encode_unit_ne_nil hc hv
    have hget := (hu v List.mem_cons_self u hv (by omega) y).decodes
    have hrest := ih (fun w hw => hu w (List.mem_cons_of_mem v hw)) hvs (by omega)
    rw [run_decoder] at hget
    generalize hfound : c.unit.get limits (u ++ y) = o at hget
    cases hget with
    | found hl =>
      rw [elements_of_ok (List.append_ne_nil_of_left_ne_nil hne y) (List.length_pos_of_ne_nil hne)
        hfound, List.drop_left, List.length_append]
      refine (hrest.map fun q => (v :: q.1, u.length + q.2)).congr ?_
      rw [List.forall_mem_cons, and_iff_right hl]
    | refused hl he =>
      rw [elements_of_error (List.append_ne_nil_of_left_ne_nil hne y) hfound]
      exact .refused (fun h => hl (h v List.mem_cons_self)) he

theorem read_unit_nil (limits : Limits) {c : Codec α} (hc : c.IsBuiltIn) {s : Source} {pos : Nat}
    (hs : s.Holds [] pos) :
    ∃ t, (c.unit.read limits).runFrom s = (.error .endOfInput, t) ∧ t.Holds [] pos := by
  obtain ⟨k, hk, ht, ha⟩ := (twin limits (isBuiltIn_unit hc)).follows s [] pos hs (by decide)
  rw [(starts_decoder_unit limits hc).nil] at ha
  obtain rfl := Nat.le_zero.1 hk
  generalize (c.unit.read limits).runFrom s = z at ht ha
  obtain ⟨o, t⟩ := z
  cases ha with
  | failed => exact ⟨t, rfl, ht⟩
  | tooLarge h => cases h

/-- There is room for one byte of each element that is still to come. -/
theorem limitedRead_elements {limits : Limits} {c : Codec α} (hc : c.IsBuiltIn) {vs : List α}
    (hu : c.AdmitsEach limits vs) {x : Bytes} (hx : (Codec.seq c).encode vs = .ok x)
    (hlen : x.length < Bytes.lengthBound) (room : Nat) (hroom : x.length < room) (taken : List α)
    {s : Source} {pos : Nat} (hs : s.Holds x pos) :
    LimitedRead
      ((∀ v ∈ vs, c.Within limits.integerBytes v) ∧ ∀ v ∈ vs, c.unit.Fits limits.frameBytes v)
      (taken.reverse ++ vs) [] (pos + x.length)
      ((Reading.elements (c.unit.read limits) room taken).runFrom s) := by
  induction vs generalizing x room taken s pos with
  | nil =>
    rw [encode_seq_nil] at hx
    cases hx
    obtain ⟨room, rfl⟩ := Nat.exists_eq_succ_of_ne_zero hroom.ne'
    obtain ⟨t, hrun, ht⟩ := read_unit_nil limits hc hs
    rw [Reading.elements, runFrom_bind, optional_of_endOfInput hrun, List.append_nil]
    exact .found ⟨List.forall_mem_nil _, List.forall_mem_nil _⟩ ht
  | cons v vs ih =>
    obtain ⟨u, y, hv, hvs, rfl⟩ := exists_of_encode_seq_cons hc hx
    rw [List.length_append] at hlen hroom
    have hpos := List.length_pos_of_ne_nil (encode_unit_ne_nil hc hv)
    obtain ⟨room, rfl⟩ := Nat.exists_eq_succ_of_ne_zero (Nat.ne_of_gt (Nat.zero_lt_of_lt hroom))
    have hread := (hu v List.mem_cons_self u hv (by omega) y).reads hs
    rw [Reading.elements, runFrom_bind]
    generalize hrun : (c.unit.read limits).runFrom s = z at hread
    cases hread with
    | found hl ht =>
      have hrest := ih (fun w hw => hu w (List.mem_cons_of_mem v hw)) hvs (by omega)
        room (by omega) (v :: taken) ht
      rw [optional_of_ok hrun, List.length_append, ← Nat.add_assoc]
      rw [List.reverse_cons, List.append_assoc] at hrest
      refine hrest.congr ?_
      rw [List.forall_mem_cons, List.forall_mem_cons, and_iff_right hl.1, and_iff_right hl.2]
    | refused hl he t =>
      rw [optional_of_error hrun he.ne_endOfInput]
      exact .refused (fun h => hl ⟨h.1 v List.mem_cons_self, h.2 v List.mem_cons_self⟩) he t

theorem admits_seq {limits : Limits} {c : Codec α} (hc : c.IsBuiltIn) {vs : List α}
    (hu : c.AdmitsEach limits vs) {x : Bytes} (hx : (Codec.seq c).encode vs = .ok x)
    (hlen : x.length < Bytes.lengthBound) :
    Admits ((Codec.seq c).Within limits.integerBytes vs) ((Codec.seq c).Fits limits.frameBytes vs)
      ((Codec.seq c).decoder limits) ((Codec.seq c).read limits) vs x [] where
  decodes := by
    rw [List.append_nil, run_decoder, get_seq]
    exact limited_elements hc hu hx hlen
  reads hs := by
    rw [List.append_nil] at hs
    rw [read_seq, fits_seq]
    exact limitedRead_elements hc hu hx hlen _ hlen [] hs

theorem admits (limits : Limits) {c : Codec α} (hc : c.IsBuiltIn) (hf : c.Faithful) {v : α}
    (he : c.Encodable v) {x : Bytes} (hx : c.encode v = .ok x) (hlen : x.length < Bytes.lengthBound)
    {rest : Bytes} (hrest : c.requiresTerminator = true → rest = []) :
    Admits (c.Within limits.integerBytes v) (c.Fits limits.frameBytes v) (c.decoder limits)
      (c.read limits) v x rest := by
  induction c generalizing x rest with
  | leaf l =>
    rw [decoder_leaf]
    exact Leaf.admits limits he hx hlen hrest
  | custom c => exact hc.elim
  | framed reversed c ih =>
    exact admits_framed reversed hx (fun raw hraw hlt => ih hc hf he hraw (by omega) fun _ => rfl) rest
  | nullable order c ih =>
    have hb : c.IsBuiltIn := hc
    rw [decoder_nullable]
    cases v with
    | none =>
      cases hx
      have hnone : Admits True True (c.present limits true) (pure none) none [] rest :=
        .pure none rest
      change Admits _ _ _ _ none ([Presence.byte order true] ++ []) rest
      refine ((admits_presence order true rest).bind hnone).congr ?_ ?_
      · exact iff_of_true ⟨trivial, trivial⟩ nofun
      · exact iff_of_true ⟨trivial, trivial⟩ nofun
    | some v =>
      rw [encode_nullable_some order hb, Outcome.map_eq_ok] at hx
      obtain ⟨y, hy, rfl⟩ := hx
      rw [List.length_cons] at hlen
      have hv := ih hb hf (he v rfl) hy (by omega) hrest
      refine ((admits_presence order false (y ++ rest)).bind (hv.midway.map some)).congr ?_ ?_
      · simp [Within, Everywhere]
      · simp [Fits]
  | seq c ih =>
    have hb : c.IsBuiltIn := hc
    rw [hrest rfl]
    -- the elements follow one another, so each has to end by itself
    refine admits_seq hb (fun u hu y hy hylen more => ?_) hx hlen
    cases ht : c.requiresTerminator with
    | false =>
      rw [unit_of_false ht] at hy ⊢
      exact ih hb hf (he u hu) hy hylen fun h => by rw [ht] at h; cases h
    | true =>
      rw [unit_of_true ht] at hy ⊢
      exact admits_framed false hy
        (fun raw hraw hlt => ih hb hf (he u hu) hraw (by omega) fun _ => rfl) more
  | convert represent restore c ih =>
    have hv := (ih hc hf.2 he hx hlen hrest).map restore
    rw [hf.1] at hv
    rw [decoder_convert]
    exact hv

/-- An encoding gives back its value exactly if the integers in it keep to their limit, and a source
that holds it, exactly if the pieces that it hands over keep to the limit on payloads as well; nothing
else can fail, and what fails is too large. -/
theorem read_back_iff (c : Codec α) (hc : c.IsBuiltIn) (hf : c.Faithful) (limits : Limits) (v : α)
    (he : c.Encodable v) (x : Bytes) (hx : c.encode v = .ok x) (hlen : x.length < Bytes.lengthBound) :
    (c.get limits x = .ok (v, x.length) ↔ c.Within limits.integerBytes v) ∧
    (¬c.Within limits.integerBytes v → ∃ e, c.get limits x = .error e ∧ e.IsTooLarge) ∧
    ∀ s pos, s.Holds x pos →
      let fits := c.Within limits.integerBytes v ∧ c.Fits limits.frameBytes v
      (((c.read limits).runFrom s).1 = .ok v ↔ fits) ∧
      (fits → ((c.read limits).runFrom s).2.Holds [] (pos + x.length)) ∧
      (¬fits → ∃ e, ((c.read limits).runFrom s).1 = .error e ∧ e.IsTooLarge) := by
  have h := admits limits hc hf he hx hlen fun _ => rfl
  have hget := h.decodes
  rw [List.append_nil, run_decoder] at hget
  refine ⟨hget.eq_ok_iff, hget.exists_error, fun s pos hs => ?_⟩
  rw [← List.append_nil x] at hs
  have hread := h.reads hs
  generalize (c.read limits).runFrom s = z at hread
  cases hread with
  | found hp ht => exact ⟨iff_of_true rfl hp, fun _ => ht, fun hn => (hn hp).elim⟩
  | refused hn he t =>
    exact ⟨iff_of_false nofun hn, fun hp => (hn hp).elim, fun _ => ⟨_, rfl, he⟩⟩

/-- Two integers in a frame of 19 bytes, the larger one with a magnitude of two: each limit is met
exactly, or missed by one. -/
theorem read_back_iff_nested_integers :
    let c : Codec (List (List Int)) := .seq (.seq (.leaf .integer))
    let raw : Bytes := [0x80, 0, 0, 0, 0, 0, 0, 2, 1, 0, 0x7f, 0xff, 0xff, 0xff, 0xff, 0xff, 0xff, 0xff,
      0xfe]
    let x : Bytes := Frame.encode Frame.plain raw
    c.IsBuiltIn ∧ c.Faithful ∧ c.Encodable [[256, -1]] ∧ c.encode [[256, -1]] = .ok x ∧
      x.length < Bytes.lengthBound ∧
      ((c.read ⟨2, 19⟩).runFrom (.ofBytes x)).1 = .ok [[256, -1]] ∧
      (∃ e, ((c.read ⟨2, 18⟩).runFrom (.ofBytes x)).1 = .error e ∧ e.IsTooLarge) ∧
      c.get ⟨2, 18⟩ x = .ok ([[256, -1]], x.length) ∧
      ∃ e, c.get ⟨1, 19⟩ x = .error e ∧ e.IsTooLarge := by
  intro c raw x
  have hc : c.IsBuiltIn := trivial
  have hf : c.Faithful := trivial
  have he : c.Encodable [[256, -1]] := by decide
  have hx : c.encode [[256, -1]] = .ok x := by rfl
  have hlen : x.length < Bytes.lengthBound := by decide
  have hwithin : c.Within 2 [[256, -1]] := by decide
  have hlarge : ¬c.Within 1 [[256, -1]] := by decide
  have hfits : c.Fits 19 [[256, -1]] := by decide
  have hmissed : ¬c.Fits 18 [[256, -1]] := by decide
  have hs := Source.holds_ofBytes x
  obtain ⟨-, -, hread⟩ := read_back_iff c hc hf ⟨2, 19⟩ _ he x hx hlen
  obtain ⟨hget, -, hread'⟩ := read_back_iff c hc hf ⟨2, 18⟩ _ he x hx hlen
  obtain ⟨-, hget', -⟩ := read_back_iff c hc hf ⟨1, 19⟩ _ he x hx hlen
  exact ⟨hc, hf, he, hx, hlen, (hread _ 0 hs).1.2 ⟨hwithin, hfits⟩,
    (hread' _ 0 hs).2.2 fun h => hmissed h.2, hget.2 hwithin, hget' hlarge⟩

end SortKey.Codec
