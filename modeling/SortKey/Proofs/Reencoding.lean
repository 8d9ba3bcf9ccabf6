import SortKey.Proofs.BigFloatFormat
import SortKey.Proofs.CodecAcceptance

/-! Encoding again what has been decoded. It gives back the bytes that were decoded exactly if no frame
among them, or inside such a frame, has an escape that it does not need, and a part of them otherwise. -/
namespace SortKey

open scoped List

namespace Frame

/-- The needless escapes of the frame at the front, and those that `inside` counts in its contents. -/
def needlessWithin (mask : UInt8) (inside : Bytes → Nat) (bs : Bytes) : Nat :=
  match get mask bs with
  | .ok (raw, _) => needless mask bs + inside raw
  | .error _ => 0

theorem needlessWithin_of_get {mask : UInt8} {inside : Bytes → Nat} {bs raw : Bytes} {n : Nat}
    (h : get mask bs = .ok (raw, n)) :
    needlessWithin mask inside bs = needless mask bs + inside raw := by
  rw [needlessWithin, h]

theorem Frames.needless_append {mask : UInt8} {x raw : Bytes} (h : Frames mask x raw) (rest : Bytes) :
    needless mask (x ++ rest) = needless mask x := by
  have hrest := h.length_eq rest
  have hnil := h.length_eq []
  rw [List.append_nil] at hnil
  omega

theorem encode_eq_take_iff {mask : UInt8} {bs raw y : Bytes} {n : Nat} (h : get mask bs = .ok (raw, n)) :
    encode mask y = bs.take n ↔ y = raw ∧ needless mask bs = 0 := by
  obtain ⟨x, rest, rfl, rfl, hx⟩ := frames_of_get h
  rw [List.take_left, hx.needless_append, ← hx.encode_eq_iff]
  constructor
  · intro hy
    obtain rfl : y = raw := by
      rw [← hy, get_encode_append] at h
      exact congrArg Prod.fst (Except.ok.inj h)
    exact ⟨rfl, hy⟩
  · rintro ⟨rfl, hx⟩
    exact hx

end Frame

namespace BigFloat

/-- The needless escapes in the frame of the mantissa, which stands behind the kind and the exponent. -/
def needless (bs : Bytes) : Nat :=
  match bs.head? with
  | some 0x7e => Frame.needless Frame.complement (bs.drop 5)
  | some 0x81 => Frame.needless Frame.plain (bs.drop 5)
  | _ => 0

theorem Layout.needless_append (l : Layout) (rest : Bytes) :
    needless (l.bytes ++ rest) = Frame.needless (Frame.maskOf l.negative) l.frame := by
  obtain ⟨tail, hdrop⟩ : ∃ tail, (l.bytes ++ rest).drop 5 = l.frame ++ tail := by
    have hlen : (FixedWidth.encodeInt .w32 (BigInteger.withSign l.negative l.exponent)).length = 4 :=
      FixedWidth.length_encodeInt _ _
    rw [bytes, framedFields, List.cons_append, List.drop_succ_cons, List.append_assoc,
      List.drop_left' hlen, List.append_assoc]
    exact ⟨_, rfl⟩
  have hhead : (l.bytes ++ rest).head? = some (if l.negative then 0x7e else 0x81) := by
    rw [bytes, value]
    cases l.negative <;> rfl
  rw [needless, hhead, hdrop, ← l.framed.needless_append tail]
  cases l.negative <;> rfl

theorem needless_of_head {v : BigFloat} (hv : ∃ neg, v = .zero neg ∨ v = .infinite neg) (rest : Bytes) :
    needless (v.firstByte :: rest) = 0 := by
  obtain ⟨_ | _, rfl | rfl⟩ := hv <;> rfl

theorem encoding_eq_take_iff {bs : Bytes} {v : BigFloat} {n : Nat} (h : get bs = .ok (v, n)) :
    v.append.encoding = .ok (bs.take n) ↔ needless bs = 0 := by
  obtain ⟨x, hx, ⟨rest, rfl⟩, rfl⟩ := get_eq_ok_iff.1 h
  rw [List.take_left]
  obtain ⟨hv, rfl⟩ | ⟨l, rfl, rfl⟩ := forms_iff.1 hx
  · rw [List.singleton_append, needless_of_head hv]
    obtain ⟨_ | _, rfl | rfl⟩ := hv <;> exact iff_of_true rfl rfl
  · rw [l.encode_value_iff, l.needless_append]

end BigFloat

namespace Leaf
variable {α : Type}

def needless : {α : Type} → Leaf α → Bytes → Nat
  | _, .bigFloat, bs => BigFloat.needless bs
  | _, _, _ => 0

theorem encoding_eq_take_iff (limits : Limits) (l : Leaf α) {bs : Bytes}
    (hlen : bs.length < Bytes.lengthBound) {v : α} {n : Nat} (h : l.get limits bs = .ok (v, n)) :
    (l.append v).encoding = .ok (bs.take n) ↔ l.needless bs = 0 := by
  have hexact (hl : l.Unframed) : (l.append v).encoding = .ok (bs.take n) := by
    rw [← run_decoder] at h
    obtain ⟨x, rest, rfl, rfl, hx⟩ := l.accepts_decoder limits bs v n h
    rw [List.length_append] at hlen
    obtain ⟨y, hy, -, hyx⟩ := hx (by omega)
    rw [List.take_left, hy, hyx hl]
  cases l with
  | bigFloat => exact BigFloat.encoding_eq_take_iff h
  | _ => exact iff_of_true (hexact trivial) rfl

end Leaf

namespace Codec
variable {α : Type}

/-- What `count` gives in front of each of the elements that `get` finds, in all. -/
def needlessEach (get : Bytes → Except Fault (α × Nat)) (count : Bytes → Nat) (bs : Bytes) : Nat :=
  match bs with
  | [] => 0
  | b :: rest =>
    match get (b :: rest) with
    | .ok (_, n + 1) => count (b :: rest) + needlessEach get count (rest.drop n)
    | _ => 0
termination_by bs.length
decreasing_by simp only [List.length_drop, List.length_cons]; omega

/-- How many needless escapes there are in the frames among the bytes in which a value is found, counted
in the contents of frames too. -/
def needless (limits : Limits) : {α : Type} → Codec α → Bytes → Nat
  | _, .leaf l, bs => l.needless bs
  | _, .custom _, _ => 0
  | _, .framed reversed c, bs => Frame.needlessWithin (Frame.maskOf reversed) (c.needless limits) bs
  | _, .nullable order c, bs =>
    match Presence.get order bs with
    | .ok false => c.needless limits (bs.drop 1)
    | _ => 0
  | _, .seq c, bs =>
    needlessEach (c.unit.get limits)
      (if c.requiresTerminator then Frame.needlessWithin Frame.plain (c.needless limits)
        else c.needless limits) bs
  | _, .convert _ _ c, bs => c.needless limits bs

theorem needless_seq (limits : Limits) (c : Codec α) (bs : Bytes) :
    (Codec.seq c).needless limits bs = needlessEach (c.unit.get limits) (c.unit.needless limits) bs := by
  rw [needless]
  congr 1
  cases h : c.requiresTerminator with
  | false => rw [unit_of_false h, if_neg Bool.false_ne_true]
  | true =>
    rw [unit_of_true h, if_pos rfl]
    rfl

def Reproduces (limits : Limits) (c : Codec α) : Prop :=
  ∀ bs v n, bs.length < Bytes.lengthBound → c.get limits bs = .ok (v, n) →
    (c.encode v = .ok (bs.take n) ↔ c.needless limits bs = 0)

theorem reproduces_framed {limits : Limits} {c : Codec α} (h : c.Reproduces limits) (reversed : Bool) :
    (Codec.framed reversed c).Reproduces limits := by
  intro bs v n hlen hget
  obtain ⟨⟨raw, m⟩, hraw, hv⟩ := Outcome.bind_eq_ok.1 hget
  obtain ⟨u, hu, huv⟩ := Outcome.bind_eq_ok.1 hv
  cases huv
  have hshort : raw.length < Bytes.lengthBound := by
    obtain ⟨x, rest, rfl, -, hx⟩ := Frame.frames_of_get hraw
    have hframe := hx.length_lt
    rw [List.length_append] at hlen
    omega
  have hinside := h raw v raw.length hshort (Slice.whole_eq_ok.1 hu)
  rw [List.take_length] at hinside
  rw [encode_framed, Outcome.map_eq_ok, needless, Frame.needlessWithin_of_get hraw, Nat.add_eq_zero_iff,
    ← hinside]
  simp only [Frame.encode_eq_take_iff hraw]
  constructor
  · rintro ⟨y, hy, rfl, hframe⟩
    exact ⟨hframe, hy⟩
  · rintro ⟨hframe, hy⟩
    exact ⟨raw, hy, rfl, hframe⟩

theorem reproduces_nullable {limits : Limits} {c : Codec α} (hc : c.IsBuiltIn) (h : c.Reproduces limits)
    (order : NilOrder) : (Codec.nullable order c).Reproduces limits := by
  intro bs v n hlen hget
  obtain ⟨isNil, hisNil, hv⟩ := Outcome.bind_eq_ok.1 hget
  cases bs with
  | nil => cases hisNil
  | cons b rest =>
    obtain rfl : b = Presence.byte order isNil := Presence.check_eq_ok hisNil
    rw [needless, hisNil]
    cases isNil with
    | true =>
      cases hv
      exact iff_of_true rfl rfl
    | false =>
      obtain ⟨⟨u, m⟩, hu, huv⟩ := Outcome.bind_eq_ok.1 hv
      cases huv
      have hfound : c.get limits rest = .ok (u, m) := Slice.midway_eq_ok.1 hu
      have hrest : rest.length < Bytes.lengthBound := by
        rw [List.length_cons] at hlen
        omega
      have hinside := h rest u m hrest hfound
      rw [encode_nullable_some order hc, Outcome.map_eq_ok]
      change _ ↔ c.needless limits rest = 0
      rw [← hinside, List.take_succ_cons]
      simp

/-- Two parts that lost bytes do not make up for one another. -/
theorem append_eq_append_iff_of_sublist {x y a b : Bytes} (hx : x <+ a) (hy : y <+ b) :
    x ++ y = a ++ b ↔ x = a ∧ y = b := by
  constructor
  · intro h
    have hlen := congrArg List.length h
    rw [List.length_append, List.length_append] at hlen
    have hxa := hx.length_le
    have hyb := hy.length_le
    exact List.append_inj h (by omega)
  · rintro ⟨rfl, rfl⟩
    rfl

theorem reproduces_seq {limits : Limits} {c : Codec α} (hc : c.IsBuiltIn) (hr : c.Canonical)
    (h : c.unit.Reproduces limits) : (Codec.seq c).Reproduces limits := by
  intro bs vs n hlen hget
  rw [get_seq] at hget
  rw [needless_seq]
  have hru : c.unit.Canonical := by
    obtain hu | hu := c.unit_eq_or <;> rw [hu] <;> exact hr
  fun_induction elements (c.unit.get limits) bs generalizing vs n with
  | case1 =>
    cases hget
    rw [encode_seq_nil, needlessEach]
    exact iff_of_true rfl rfl
  | case2 => cases hget
  | case3 => cases hget
  | case4 => cases hget
  | case5 b rest v m hfirst us k hrest ih =>
    cases hget
    have hshort : (rest.drop m).length < Bytes.lengthBound := by
      rw [List.length_cons] at hlen
      rw [List.length_drop]
      omega
    obtain ⟨-, x, hx, hxsub, -⟩ := exists_encoding_of_get (isBuiltIn_unit hc) hru hlen hfirst
    obtain ⟨-, y, hy, hysub, -⟩ :=
      exists_encoding_of_get (c := .seq c) hc hr hshort ((get_seq limits c _).trans hrest)
    have hhere := h _ v (m + 1) hlen hfirst
    have hlater := ih us k hshort hrest
    rw [hx, Except.ok.injEq] at hhere
    rw [hy, Except.ok.injEq] at hlater
    rw [encode_seq_cons hc, hx, hy, needlessEach, hfirst, List.take_add, List.drop_succ_cons]
    change Except.ok (x ++ y) = .ok _ ↔ c.unit.needless limits (b :: rest) + _ = 0
    rw [Except.ok.injEq, append_eq_append_iff_of_sublist hxsub hysub, Nat.add_eq_zero_iff]
    exact and_congr hhere hlater

theorem reproduces (limits : Limits) {c : Codec α} (hc : c.IsBuiltIn) (hr : c.Canonical) :
    c.Reproduces limits := by
  induction c with
  | leaf l => exact fun bs v n hlen h => l.encoding_eq_take_iff limits hlen h
  | custom c => exact hc.elim
  | framed reversed c ih => exact reproduces_framed (ih hc hr) reversed
  | nullable order c ih =>
    have hb : c.IsBuiltIn := hc
    exact reproduces_nullable hb (ih hb hr) order
  | seq c ih =>
    have hb : c.IsBuiltIn := hc
    refine reproduces_seq hb hr ?_
    obtain hu | hu := c.unit_eq_or <;> rw [hu]
    · exact reproduces_framed (ih hb hr) false
    · exact ih hb hr
  | convert represent restore c ih =>
    have hb : c.IsBuiltIn := hc
    intro bs v n hlen hget
    obtain ⟨⟨u, m⟩, hu, huv⟩ := Outcome.bind_eq_ok.1 hget
    cases huv
    rw [needless, ← ih hb hr.2 bs u n hlen hu, encode, append, hr.1]
    rfl

/-- What is found encodes to no more than it takes up: to all of it unless there are frames, and then
exactly if none of them has an escape that it does not need. -/
theorem encode_of_get (c : Codec α) (hc : c.IsBuiltIn) (hr : c.Canonical) (limits : Limits)
    (bs : Bytes) (hlen : bs.length < Bytes.lengthBound) (v : α) (n : Nat)
    (h : c.get limits bs = .ok (v, n)) :
    n ≤ bs.length ∧ ∃ x, c.encode v = .ok x ∧ x <+ bs.take n ∧ x.length ≤ n ∧
      (c.Unframed → x = bs.take n) ∧ (x = bs.take n ↔ c.needless limits bs = 0) := by
  obtain ⟨hn, x, hx, hsub, hexact⟩ := exists_encoding_of_get hc hr hlen h
  have hiff := reproduces limits hc hr bs v n hlen h
  rw [hx, Except.ok.injEq] at hiff
  have hshort := hsub.length_le
  rw [List.length_take_of_le hn] at hshort
  exact ⟨hn, x, hx, hsub, hshort, hexact, hiff⟩

/-- The inner frame has an escape that it does not need, which the outer one has to escape. -/
theorem encode_of_get_redundant_escapes :
    let c := (Codec.leaf .bytes).terminate.terminate
    let bs : Bytes := [0x01, 0x01, 0x62, 0x01, 0x00, 0x00, 0x07]
    c.IsBuiltIn ∧ c.Canonical ∧ bs.length < Bytes.lengthBound ∧ c.get {} bs = .ok ([0x62], 6) ∧
      c.encode [0x62] = .ok [0x62, 0x01, 0x00, 0x00] ∧
      ([0x62, 0x01, 0x00, 0x00] : Bytes) <+ [0x01, 0x01, 0x62, 0x01, 0x00, 0x00] ∧
      c.needless {} bs ≠ 0 := by
  intro c bs
  have hc : c.IsBuiltIn := trivial
  have hr : c.Canonical := trivial
  have hlen : bs.length < Bytes.lengthBound := by decide
  have hget : c.get {} bs = .ok ([0x62], 6) := by rfl
  have hencode : c.encode [0x62] = .ok [0x62, 0x01, 0x00, 0x00] := by rfl
  obtain ⟨-, x, hx, hsub, -, -, hiff⟩ := encode_of_get c hc hr {} bs hlen [0x62] 6 hget
  cases hencode.symm.trans hx
  exact ⟨hc, hr, hlen, hget, hencode, hsub, mt hiff.2 (by decide)⟩

end Codec
end SortKey
