import SortKey.Proofs.FrameReading
import SortKey.Proofs.LeafRoundTrip

/-! What was written, decoded under limits. A leaf is found in a byte string if its integers keep to their
limit and is too large otherwise; from a source it is found if, besides, the piece that the source has to
hand over keeps to the limit on payloads. -/
namespace SortKey
variable {α β : Type}

def Fault.IsTooLarge : Fault → Prop
  | .tooLarge size limit => limit < size
  | _ => False

theorem Fault.isTooLarge {size limit : Nat} (h : limit < size) :
    (Fault.tooLarge size limit).IsTooLarge := h

theorem Fault.IsTooLarge.midway {e : Fault} (h : e.IsTooLarge) : e.midway.IsTooLarge := by
  cases e with
  | endOfInput => exact h.elim
  | _ => exact h

theorem Fault.IsTooLarge.ne_endOfInput {e : Fault} (h : e.IsTooLarge) : e ≠ .endOfInput := by
  rintro rfl
  exact h

/-- The outcome is `a` if `p` holds, and otherwise that something is too large. -/
inductive Limited (p : Prop) (a : α) : Except Fault α → Prop where
  | found (h : p) : Limited p a (.ok a)
  | refused (h : ¬p) {e : Fault} (he : e.IsTooLarge) : Limited p a (.error e)

/-- Like `Limited` for a reading, which leaves the source in front of `rest` if it finds `a`. -/
inductive LimitedRead (p : Prop) (a : α) (rest : Bytes) (pos : Nat) :
    Except Fault α × Source → Prop where
  | found (h : p) {t : Source} (ht : t.Holds rest pos) : LimitedRead p a rest pos (.ok a, t)
  | refused (h : ¬p) {e : Fault} (he : e.IsTooLarge) (t : Source) :
      LimitedRead p a rest pos (.error e, t)

namespace Limited
variable {p p' : Prop} {a : α} {o : Except Fault α}

theorem congr (h : Limited p a o) (hp : p ↔ p') : Limited p' a o := propext hp ▸ h

theorem eq_ok_iff (h : Limited p a o) : o = .ok a ↔ p := by
  cases h with
  | found h => exact ⟨fun _ => h, fun _ => rfl⟩
  | refused h => exact ⟨nofun, fun hp => (h hp).elim⟩

theorem exists_error (h : Limited p a o) (hp : ¬p) : ∃ e, o = .error e ∧ e.IsTooLarge := by
  cases h with
  | found h => exact (hp h).elim
  | refused _ he => exact ⟨_, rfl, he⟩

theorem of_eq_ok (h : o = .ok a) : Limited True a o := h ▸ .found trivial

theorem map (h : Limited p a o) (f : α → β) : Limited p (f a) (f <$> o) := by
  cases h with
  | found h => exact .found h
  | refused h he => exact .refused h he

theorem midway (h : Limited p a o) : Limited p a (Slice.midway o) := by
  cases h with
  | found h => exact .found h
  | refused h he => exact .refused h he.midway

theorem whole {get : Bytes → Except Fault (α × Nat)} {raw : Bytes}
    (h : Limited p (a, raw.length) (get raw)) : Limited p a (Slice.whole get raw) := by
  rw [Slice.whole]
  generalize get raw = o at h
  cases h with
  | found h =>
    dsimp only
    rw [Slice.filled, if_pos rfl]
    exact .found h
  | refused h he => exact .refused h he.midway

end Limited

theorem LimitedRead.congr {p p' : Prop} {a : α} {rest : Bytes} {pos : Nat}
    {z : Except Fault α × Source} (h : LimitedRead p a rest pos z) (hp : p ↔ p') :
    LimitedRead p' a rest pos z := propext hp ▸ h

/-- The bytes `x` in front of `rest` are `a` to `d` if `p` holds, and to `r` if `q` holds as well.
Otherwise something is too large. -/
structure Admits (p q : Prop) (d : Decoder α) (r : Reading α) (a : α) (x rest : Bytes) : Prop where
  decodes : Limited p (a, x.length) (d.run (x ++ rest))
  reads {s : Source} {pos : Nat} (hs : s.Holds (x ++ rest) pos) :
    LimitedRead (p ∧ q) a rest (pos + x.length) (r.runFrom s)

namespace Admits
variable {p q p' q' : Prop} {d : Decoder α} {r : Reading α} {a : α} {b : β} {x y rest : Bytes}

theorem congr (h : Admits p q d r a x rest) (hp : p ↔ p') (hq : q ↔ q') :
    Admits p' q' d r a x rest := propext hp ▸ propext hq ▸ h

theorem ofOutcome {o : Except Fault α} (h : Limited p a o) (rest : Bytes) :
    Admits p True (Decoder.ofOutcome o) (liftM o) a [] rest where
  decodes := h.map (·, 0)
  reads {s pos} hs := by
    rw [Reading.runFrom_liftM]
    cases h with
    | found h => exact .found ⟨h, trivial⟩ hs
    | refused h he => exact .refused (fun hp => h hp.1) he s

theorem pure (a : α) (rest : Bytes) : Admits True True (pure a) (pure a) a [] rest :=
  ofOutcome (.found trivial) rest

theorem exactly (x rest : Bytes) :
    Admits True True (Decoder.exactly x.length) (Reading.exactly x.length) x x rest where
  decodes := .of_eq_ok (Decoder.decodes_exactly x rest)
  reads hs := by
    obtain ⟨t, hrun, ht⟩ := Reading.exactly_of_le hs (n := x.length) (by simp)
    rw [List.take_left] at hrun
    rw [List.drop_left] at ht
    rw [hrun]
    exact .found ⟨trivial, trivial⟩ ht

theorem byte (b : UInt8) (rest : Bytes) : Admits True True Decoder.byte Reading.byte b [b] rest where
  decodes := .found trivial
  reads hs := by
    obtain ⟨t, hrun, ht⟩ := Reading.byte_cons hs
    rw [hrun]
    exact .found ⟨trivial, trivial⟩ ht

theorem remainder (hx : x.length < Bytes.lengthBound) (limit : Nat) :
    Admits True (x.length ≤ limit) Decoder.remainder (Reading.remainder limit) x x [] where
  decodes := .of_eq_ok (by rw [List.append_nil, Decoder.run_remainder])
  reads {s pos} hs := by
    rw [List.append_nil] at hs
    by_cases hl : x.length ≤ limit
    · obtain ⟨t, hrun, ht⟩ := Reading.remainder_of_le hs hx hl
      rw [hrun]
      exact .found ⟨trivial, hl⟩ ht
    · obtain ⟨t, hrun, -⟩ := Reading.remainder_of_lt hs hx (Nat.lt_of_not_le hl)
      rw [hrun]
      exact .refused (fun h => hl h.2) (Fault.isTooLarge (Nat.lt_succ_self limit)) t

/-- Each part has its own conditions, and the first one that fails is what is reported. -/
theorem bind {f : α → Decoder β} {g : α → Reading β} (h : Admits p q d r a x (y ++ rest))
    (hf : Admits p' q' (f a) (g a) b y rest) :
    Admits (p ∧ p') (q ∧ q') (d >>= f) (r >>= g) b (x ++ y) rest where
  decodes := by
    have hx := h.decodes
    rw [List.append_assoc, Decoder.run_bind]
    cases hd : d.run (x ++ (y ++ rest)) with
    | error e =>
      rw [hd] at hx
      cases hx with
      | refused hp he => exact .refused (fun hp' => hp hp'.1) he
    | ok c =>
      rw [hd] at hx
      cases hx with
      | found hp =>
        rw [Outcome.ok_bind, List.drop_left, List.length_append]
        exact (hf.decodes.map fun q => (q.1, x.length + q.2)).congr (and_iff_right hp).symm
  reads {s pos} hs := by
    rw [List.append_assoc] at hs
    have hx := h.reads hs
    rw [Reading.runFrom_bind]
    generalize r.runFrom s = z at hx
    cases hx with
    | found hp ht =>
      rw [List.length_append, ← Nat.add_assoc]
      refine (hf.reads ht).congr ?_
      rw [and_iff_right hp.1, and_iff_right hp.2]
    | refused hp he t => exact .refused (fun hp' => hp ⟨hp'.1.1, hp'.2.1⟩) he t

theorem ofOutcome_bind {o : Except Fault α} {f : α → Decoder β} {g : α → Reading β} (ho : o = .ok a)
    (hf : Admits p q (f a) (g a) b x rest) :
    Admits p q (Decoder.ofOutcome o >>= f) (liftM o >>= g) b x rest :=
  ((ofOutcome (.of_eq_ok ho) _).bind hf).congr (and_iff_right trivial) (and_iff_right trivial)

theorem settle {f : α → Except Fault β} (h : Admits p q d r a x rest) (hf : Limited p' b (f a)) :
    Admits (p ∧ p') q (d >>= fun a => Decoder.ofOutcome (f a)) (r >>= fun a => liftM (f a)) b x
      rest := by
  have hb : Admits p' True (Decoder.ofOutcome (f a)) (liftM (f a)) b [] rest := ofOutcome hf rest
  have hbind := h.bind (f := fun a => Decoder.ofOutcome (f a)) (g := fun a => liftM (f a)) hb
  rw [List.append_nil] at hbind
  exact hbind.congr Iff.rfl (and_iff_left trivial)

theorem check {f : α → Except Fault β} (h : Admits p q d r a x rest) (hf : f a = .ok b) :
    Admits p q (d >>= fun a => Decoder.ofOutcome (f a)) (r >>= fun a => liftM (f a)) b x rest :=
  (h.settle (.of_eq_ok hf)).congr (and_iff_left trivial) Iff.rfl

theorem map (h : Admits p q d r a x rest) (f : α → β) :
    Admits p q (f <$> d) (r >>= fun a => Pure.pure (f a)) (f a) x rest :=
  h.check (f := fun a => .ok (f a)) rfl

theorem midway (h : Admits p q d r a x rest) : Admits p q d.midway r.midway a x rest where
  decodes := h.decodes.midway
  reads hs := by
    have hx := h.reads hs
    rw [Reading.runFrom_midway]
    generalize r.runFrom _ = z at hx
    cases hx with
    | found hp ht => exact .found hp ht
    | refused hp he t => exact .refused hp he.midway t

theorem announced (hx : x.length < Bytes.lengthBound) (rest : Bytes) :
    Admits True True (Decoder.exactly x.length).midway (Reading.announced x.length) x x rest := by
  rw [Reading.announced_of_lt hx]
  exact (exactly x rest).midway

end Admits

namespace Frame
open Reading
variable {mask : UInt8} {limit pos : Nat} {x raw taken rest : Bytes}

theorem limitedRead_collect_some {c : UInt8} {t : Source} (room : Nat)
    (ih : ∀ room, LimitedRead (raw.length ≤ room) ((c :: taken).reverse ++ raw) rest pos
      ((Reading.midway (unit mask) >>= collect mask limit room (c :: taken)).runFrom t)) :
    LimitedRead ((c :: raw).length ≤ room) (taken.reverse ++ c :: raw) rest pos
      ((collect mask limit room taken (some c)).runFrom t) := by
  cases room with
  | zero => exact .refused (Nat.not_succ_le_zero _) (Fault.isTooLarge (Nat.lt_succ_self limit)) t
  | succ room =>
    have h := (ih room).congr Nat.succ_le_succ_iff.symm
    rwa [List.reverse_cons, List.append_assoc] at h

theorem Frames.limitedRead (h : Frames mask x raw) (limit room : Nat) (taken : Bytes) {s : Source}
    (hs : s.Holds (x ++ rest) pos) :
    LimitedRead (raw.length ≤ room) (taken.reverse ++ raw) rest (pos + x.length)
      ((Reading.midway (unit mask) >>= collect mask limit room taken).runFrom s) := by
  induction h generalizing room taken s pos with
  | closed h =>
    obtain ⟨t, hrun, ht⟩ := unit_terminator hs h
    rw [runFrom_bind, runFrom_midway, hrun]
    dsimp only [Except.mapError]
    rw [collect_none, runFrom_pure, List.append_nil]
    exact .found (Nat.zero_le room) ht
  | @escaped b h c x raw more ih =>
    obtain ⟨t, hrun, ht⟩ := unit_escape hs h
    rw [runFrom_bind, runFrom_midway, hrun]
    refine limitedRead_collect_some room fun room => ?_
    have hmore := ih room ((c ^^^ mask) :: taken) ht
    rwa [Nat.add_assoc, Nat.add_comm 2] at hmore
  | @plain b hb he x raw more ih =>
    obtain ⟨t, hrun, ht⟩ := unit_plain hs hb he
    rw [runFrom_bind, runFrom_midway, hrun]
    refine limitedRead_collect_some room fun room => ?_
    have hmore := ih room ((b ^^^ mask) :: taken) ht
    rwa [Nat.add_assoc, Nat.add_comm 1] at hmore

end Frame

/-- The limit counts the contents of a frame, not its escapes. -/
theorem Admits.frame (mask : UInt8) (limit : Nat) (raw rest : Bytes) :
    Admits True (raw.length ≤ limit) (Decoder.frame mask) (Frame.read mask limit) raw
      (Frame.encode mask raw) rest where
  decodes := .of_eq_ok (Decoder.decodes_frame mask raw rest)
  reads {s pos} hs := by
    have hframe := Frame.frames_encode mask raw
    have hread := hframe.limitedRead limit limit [] hs
    obtain ⟨b, y, hy⟩ := List.exists_cons_of_ne_nil hframe.ne_nil
    rw [hy, List.cons_append] at hs
    rw [Frame.runFrom_read_cons hs]
    exact hread.congr (and_iff_right trivial).symm

namespace FixedWidth

theorem admits (w : Width) (v : BitVec w.bits) (rest : Bytes) :
    Admits True True (decoder w) (read w) v (encode w v) rest := by
  have h := (Admits.exactly (encode w v) rest).map (ofBytes w)
  rwa [length_encode, ofBytes_encode] at h

theorem admits_int {w : Width} {v : Int} (h : InRange w v) (rest : Bytes) :
    Admits True True (intDecoder w) (readInt w) v (encodeInt w v) rest := by
  have hv := (admits w (flip w (BitVec.ofInt w.bits v)) rest).map fun u => (flip w u).toInt
  rwa [flip_flip, toInt_ofInt h] at hv

end FixedWidth

namespace BigInteger

theorem limited_magnitudeSize (limits : Limits) (v : Int) :
    Limited (size v ≤ limits.integerBytes) (size v)
      (magnitudeSize limits (withSign (v < 0) (size v))) := by
  rw [magnitudeSize, natAbs_withSign]
  split
  · next h => exact .found h
  · next h => exact .refused h (Fault.isTooLarge (Nat.lt_of_not_le h))

theorem admits {limits : Limits} {v : Int} (h : size v < Bytes.lengthBound) (rest : Bytes) :
    Admits (size v ≤ limits.integerBytes) True (decoder limits) (read limits) v (bytes v) rest := by
  have hlen : (Bytes.masked (Frame.maskOf (v < 0)) (Radix.magnitude v.natAbs)).length = size v :=
    Bytes.length_masked _ _
  have hfield := Admits.announced (hlen ▸ h) rest
  rw [hlen] at hfield
  have hbuild : build (withSign (v < 0) (size v) < 0)
      (Bytes.masked (Frame.maskOf (v < 0)) (Radix.magnitude v.natAbs)) = .ok v := by
    simp only [header_neg_iff]
    exact build_magnitude h
  refine ((FixedWidth.admits_int (inRange_header h) _).bind
    ((Admits.ofOutcome (limited_magnitudeSize limits v) _).bind
      (hfield.check hbuild))).congr ?_ ?_ <;> simp only [true_and, and_true]

end BigInteger

theorem Rational.admits {limits : Limits} {q : Rat}
    (h : BigInteger.size q.num < Bytes.lengthBound ∧ BigInteger.size q.den < Bytes.lengthBound)
    (rest : Bytes) :
    Admits (BigInteger.size q.num ≤ limits.integerBytes ∧ BigInteger.size q.den ≤ limits.integerBytes)
      True (decoder limits) (read limits) q
      (BigInteger.bytes q.num ++ BigInteger.bytes q.den) rest :=
  ((BigInteger.admits h.1 _).bind ((BigInteger.admits h.2 rest).midway.check (build_num_den q))).congr
    Iff.rfl (and_iff_right trivial)

namespace BigFloat
open BigInteger (withSign)

/-- The mantissa of a finite value has no more than `n` bytes. -/
def Fits (n : Nat) : BigFloat → Prop
  | .finite _ _ _ p _ => Radix.bytesFor p ≤ n
  | _ => True

instance (n : Nat) : DecidablePred (Fits n)
  | .zero _ => .isTrue trivial
  | .infinite _ => .isTrue trivial
  | .finite _ _ _ p _ => Nat.decLe (Radix.bytesFor p) n

theorem admits_fields (limits : Limits) (neg : Bool) {e : Int} {p : Nat} (mode : RoundingMode)
    (he : exponentFits e = true) (hp : p ≤ maxPrecision) (field rest : Bytes) :
    Admits True (field.length ≤ limits.frameBytes) (fieldsDecoder neg) (readFields limits neg)
      ⟨withSign neg e, field, withSign neg p, mode.byte⟩ (fieldBytes neg e field p mode) rest := by
  refine ((FixedWidth.admits_int (inRange_exponent he neg) _).bind ((Admits.frame _ _ field _).bind
    ((FixedWidth.admits_int (inRange_precision hp neg) _).bind
      ((Admits.byte mode.byte rest).map fun b => (⟨_, _, _, b⟩ : Fields))))).congr ?_ ?_ <;>
  simp only [true_and, and_true]

theorem admits (limits : Limits) {x : BigFloat} (h : x.WellFormed) {bs : Bytes}
    (hbs : x.append.encoding = .ok bs) (rest : Bytes) :
    Admits True (x.Fits limits.frameBytes) decoder (read limits) x bs rest := by
  obtain ⟨tail, htail, rfl⟩ := encoding_append_eq_ok.1 hbs
  refine ((FixedWidth.admits_int (inRange_kind x) _).bind ?_).congr (and_iff_right trivial)
    (and_iff_right trivial)
  cases x with
  | zero neg =>
    cases htail
    exact .ofOutcome_bind (ofKind_kind (.zero neg)) (.pure _ rest)
  | infinite neg =>
    cases htail
    exact .ofOutcome_bind (ofKind_kind (.infinite neg)) (.pure _ rest)
  | finite neg m e p mode =>
    have hbuild := build_fields h
    have hm := h.mantissa_ne_zero
    rw [h.encoding_tail] at htail
    obtain ⟨-, hp, hmax, he⟩ := h
    cases htail
    have hfields := admits_fields limits neg mode he hmax (Radix.magnitude (aligned m p)) rest
    rw [length_magnitude_aligned hm hp] at hfields
    exact .ofOutcome_bind (ofKind_kind (.finite neg m e p mode)) (hfields.midway.check hbuild)

end BigFloat

namespace Leaf

/-- The payload of a byte string or a string, and the mantissa of a big float, have no more than `n`
bytes. -/
def Fits (n : Nat) : {α : Type} → Leaf α → α → Prop
  | _, .bytes, bs => bs.length ≤ n
  | _, .string, s => (Utf8.encode s).length ≤ n
  | _, .bigFloat, x => x.Fits n
  | _, _, _ => True

instance (n : Nat) : {α : Type} → (l : Leaf α) → (v : α) → Decidable (l.Fits n v)
  | _, .bytes, bs => Nat.decLe bs.length n
  | _, .string, s => Nat.decLe (Utf8.encode s).length n
  | _, .bigFloat, x => inferInstanceAs (Decidable (x.Fits n))
  | _, .bool, _ | _, .unsigned _, _ | _, .signed _, _ | _, .float _, _ | _, .integer, _
  | _, .rational, _ => .isTrue trivial

theorem admits (limits : Limits) {l : Leaf α} {v : α} (he : l.Encodable v) {x : Bytes}
    (hx : (l.append v).encoding = .ok x) (hlen : x.length < Bytes.lengthBound) {rest : Bytes}
    (hrest : l.requiresTerminator = true → rest = []) :
    Admits (l.Within limits.integerBytes v) (l.Fits limits.frameBytes v) (l.decoder limits)
      (l.read limits) v x rest := by
  cases l with
  | bool =>
    cases hx
    exact (Admits.byte _ rest).check (boolOf_boolByte v)
  | unsigned w =>
    cases hx
    exact FixedWidth.admits w v rest
  | signed w =>
    cases hx
    have h := (FixedWidth.admits w (FixedWidth.flip w v) rest).map (FixedWidth.flip w)
    rwa [FixedWidth.flip_flip] at h
  | float f =>
    cases hx
    have h := (FixedWidth.admits f.width v.toOrdered rest).map Ieee.ofOrdered
    rwa [Ieee.ofOrdered_toOrdered] at h
  | bytes =>
    cases hx
    rw [hrest rfl]
    exact Admits.remainder hlen _
  | string =>
    cases hx
    rw [hrest rfl]
    exact (Admits.remainder hlen _).check (stringOf_encode v)
  | integer =>
    obtain ⟨-, rfl⟩ := BigInteger.encoding_append_eq_ok.1 hx
    exact BigInteger.admits he rest
  | rational =>
    obtain ⟨-, rfl⟩ := Rational.encoding_append_eq_ok.1 hx
    exact Rational.admits he rest
  | bigFloat => exact BigFloat.admits limits he hx rest

end Leaf
end SortKey
