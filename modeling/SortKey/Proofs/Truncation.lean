import SortKey.Proofs.Acceptance
import SortKey.Proofs.FrameOutcome
import SortKey.Proofs.StreamAgreement

/-! Values that show their own end. What a codec that needs no terminator finds, it finds before anything
else, and it reports every input that ends inside as cut off. -/
namespace SortKey
variable {α β : Type}

/-- What decoding from a byte string and reading from a source report of a value that is cut off. -/
inductive Cut : Fault → Fault → Prop where
  | before : Cut .endOfInput .endOfInput
  | within : Cut .truncated .truncated
  | unclosed : Cut .unterminated .truncated

theorem Cut.midway {e e' : Fault} (h : Cut e e') : Cut e.midway e'.midway := by
  cases h with
  | before => exact .within
  | within => exact .within
  | unclosed => exact .unclosed

/-- The bytes `x` are `a` to both `d` and `r`, whatever follows, and no fewer of them are anything. -/
structure Delimits (limit : Nat) (d : Decoder α) (r : Reading α) (a : α) (x : Bytes) : Prop where
  decodes : d.Decodes x a
  reads {rest : Bytes} {s : Source} {pos : Nat} (hs : s.Holds (x ++ rest) pos)
    (hl : (x ++ rest).length ≤ limit) :
    ∃ t, r.runFrom s = (.ok a, t) ∧ t.Holds rest (pos + x.length)
  cut {k : Nat} (hk : k < x.length) : ∃ e e', Cut e e' ∧ d.run (x.take k) = .error e ∧
    ∀ s pos, s.Holds (x.take k) pos → k ≤ limit → ∃ t, r.runFrom s = (.error e', t)

namespace Delimits
variable {limit : Nat} {d : Decoder α} {r : Reading α} {a : α} {x : Bytes}

theorem ofOutcome (a : α) :
    Delimits limit (Decoder.ofOutcome (.ok a)) (liftM (.ok a : Except Fault α)) a [] where
  decodes := Decoder.decodes_ofOutcome a
  reads {_ s _} hs _ := ⟨s, Reading.runFrom_liftM _ s, hs⟩
  cut := nofun

theorem exactly (x : Bytes) :
    Delimits limit (Decoder.exactly x.length) (Reading.exactly x.length) x x where
  decodes := Decoder.decodes_exactly x
  reads hs _ := by
    obtain ⟨t, hrun, ht⟩ := Reading.exactly_of_le hs (n := x.length) (by simp)
    rw [List.take_left] at hrun
    rw [List.drop_left] at ht
    exact ⟨t, hrun, ht⟩
  cut {k} hk := by
    have hlen : (x.take k).length < x.length := by
      rw [List.length_take]
      omega
    have hrun : (Decoder.exactly x.length).run (x.take k) =
        .error (if (x.take k).isEmpty then .endOfInput else .truncated) := by
      rw [Decoder.run_exactly, Slice.exactly_of_lt hlen, Outcome.map_error]
    refine ⟨_, if (x.take k).isEmpty then .endOfInput else .truncated, ?_, hrun, ?_⟩
    · split
      · exact .before
      · exact .within
    · intro s pos hs _
      obtain ⟨t, hrun, -⟩ := Reading.exactly_of_lt hs hlen
      exact ⟨t, hrun⟩

theorem midway (h : Delimits limit d r a x) : Delimits limit d.midway r.midway a x where
  decodes := h.decodes.midway
  reads hs hl := by
    obtain ⟨t, hrun, ht⟩ := h.reads hs hl
    exact ⟨t, by rw [Reading.runFrom_midway, hrun]; rfl, ht⟩
  cut hk := by
    obtain ⟨e, e', hcut, hrun, hread⟩ := h.cut hk
    refine ⟨e.midway, e'.midway, hcut.midway, by rw [Decoder.run_midway, hrun]; rfl, ?_⟩
    intro s pos hs hl
    obtain ⟨t, ht⟩ := hread s pos hs hl
    exact ⟨t, by rw [Reading.runFrom_midway, ht]; rfl⟩

theorem bind {f : α → Decoder β} {g : α → Reading β} {b : β} {y : Bytes}
    (h : Delimits limit d r a x) (hf : Delimits limit (f a) (g a) b y) :
    Delimits limit (d >>= f) (r >>= g) b (x ++ y) where
  decodes := h.decodes.bind hf.decodes
  reads {rest s pos} hs hl := by
    rw [List.append_assoc] at hs hl
    obtain ⟨t, hrun, ht⟩ := h.reads hs hl
    obtain ⟨u, hrun', hu⟩ := hf.reads ht (by rw [List.length_append] at hl; omega)
    refine ⟨u, by rw [Reading.runFrom_bind, hrun]; exact hrun', ?_⟩
    rwa [List.length_append, ← Nat.add_assoc]
  cut {k} hk := by
    by_cases hkx : k < x.length
    · obtain ⟨e, e', hcut, hrun, hread⟩ := h.cut hkx
      rw [List.take_append_of_le_length hkx.le]
      refine ⟨e, e', hcut, by rw [Decoder.run_bind, hrun]; rfl, ?_⟩
      intro s pos hs hl
      obtain ⟨t, ht⟩ := hread s pos hs hl
      exact ⟨t, by rw [Reading.runFrom_bind, ht]⟩
    · obtain ⟨j, rfl⟩ := Nat.exists_eq_add_of_le (Nat.le_of_not_lt hkx)
      rw [List.length_append] at hk
      obtain ⟨e, e', hcut, hrun, hread⟩ := hf.cut (k := j) (by omega)
      rw [List.take_length_add_append]
      refine ⟨e, e', hcut, ?_, ?_⟩
      · rw [Decoder.run_bind, h.decodes, Outcome.ok_bind, List.drop_left, hrun, Outcome.map_error]
      · intro s pos hs hl
        have hlen : (x ++ y.take j).length ≤ limit := by
          rw [List.length_append, List.length_take]
          omega
        obtain ⟨t, ht, hholds⟩ := h.reads hs hlen
        obtain ⟨u, hu⟩ := hread t _ hholds (by omega)
        exact ⟨u, by rw [Reading.runFrom_bind, ht]; exact hu⟩

theorem check {f : α → Except Fault β} {b : β} (h : Delimits limit d r a x) (hf : f a = .ok b) :
    Delimits limit (d >>= fun a => Decoder.ofOutcome (f a)) (r >>= fun a => liftM (f a)) b x := by
  have hb : Delimits limit (Decoder.ofOutcome (f a)) (liftM (f a)) b [] := hf ▸ ofOutcome b
  have hbind := h.bind (f := fun a => Decoder.ofOutcome (f a)) (g := fun a => liftM (f a)) hb
  rwa [List.append_nil] at hbind

theorem announced {f : Bytes → Except Fault α} (hf : f x = .ok a) (hx : x.length < Bytes.lengthBound) :
    Delimits limit ((Decoder.exactly x.length).midway >>= fun field => Decoder.ofOutcome (f field))
      (Reading.announced x.length >>= fun field => liftM (f field)) a x := by
  rw [Reading.announced_of_lt hx]
  exact (exactly x).midway.check hf

end Delimits

namespace Frame
open Reading
variable {mask : UInt8} {x raw : Bytes}

theorem Frames.delimits (h : Frames mask x raw) (limits : Limits) :
    Delimits limits.frameBytes (Decoder.frame mask) (Frame.read mask limits.frameBytes) raw x where
  decodes := h.get_append
  reads {rest s _} hs hl := by
    obtain ⟨k, -, ht, ha⟩ := settled_frame mask limits hs
    rw [h.get_append] at ha
    generalize (Frame.read mask limits.frameBytes).runFrom s = o at ht ha ⊢
    obtain ⟨o, t⟩ := o
    cases ha with
    | found =>
      rw [List.drop_left] at ht
      exact ⟨t, rfl, ht⟩
    | tooLarge hbeyond => exact (Nat.not_lt.2 hl hbeyond).elim
  cut {k} hk := by
    have hscan := h.scan_take hk
    have hreads {s : Source} {pos : Nat} (hs : s.Holds (x.take k) pos) (hl : k ≤ limits.frameBytes) :
        ∃ t, (Frame.read mask limits.frameBytes).runFrom s =
          (.error (if (x.take k).isEmpty then .endOfInput else .truncated), t) := by
      have hlimit : (yielded mask (x.take k)).length ≤ limits.frameBytes :=
        ((length_yielded_le mask _).trans (List.length_take_le k x)).trans hl
      obtain ⟨t, hrun, -⟩ := read_of_scan_eq_none hscan hlimit hs
      exact ⟨t, hrun⟩
    cases k with
    | zero => exact ⟨_, _, .before, rfl, fun s pos hs hl => hreads hs hl⟩
    | succ k =>
      obtain ⟨b, rest, hx⟩ : ∃ b rest, x.take (k + 1) = b :: rest :=
        List.exists_cons_of_ne_nil (by simp [h.ne_nil])
      rw [hx] at hscan hreads ⊢
      refine ⟨_, _, .unclosed, ?_, fun s pos hs hl => hreads hs hl⟩
      rw [Decoder.run_frame, Frame.get_cons, resume, hscan]

end Frame

theorem Closed.accepts {limits : Limits} {d : Decoder α} {r : Reading α} (h : Closed limits d r) :
    d.Accepts (Delimits limits.frameBytes d r) := by
  induction h with
  | ofOutcome o =>
    refine Decoder.accepts_ofOutcome fun a ha => ?_
    subst ha
    exact .ofOutcome a
  | exactly n =>
    refine (Decoder.accepts_exactly n).mono fun a x ⟨ha, hlen⟩ => ?_
    subst ha hlen
    exact .exactly a
  | @payload _ size f _ hf =>
    cases size with
    | error e => exact fun _ _ _ => nofun
    | ok n =>
      rw [Decoder.payload_ok, Reading.payload_ok]
      refine (Decoder.accepts_exactly n).midway.check fun field x a ⟨hfield, hlen⟩ ha => ?_
      subst hfield hlen
      exact .announced ha (hf field a ha)
  | frame mask => exact (Decoder.accepts_frame mask).mono fun raw x hx => hx.delimits limits
  | bind _ _ ih ihf =>
    exact ih.bind fun a x hx => (ihf a).mono fun b y hy => hx.bind hy
  | midway _ ih => exact ih.midway.mono fun a x hx => hx.midway

/-- How decoding reports an input that ends within a value after `k` bytes of it. -/
def ReportsCut (k : Nat) (e : Fault) : Prop :=
  if k = 0 then e = .endOfInput else e = .truncated ∨ e = .unterminated

theorem Cut.reports {e e' : Fault} (h : Cut e e') {k : Nat} (hk : k = 0 ↔ e = .endOfInput) :
    ReportsCut k e ∧ e' = if k = 0 then .endOfInput else .truncated := by
  cases h with
  | before =>
    obtain rfl := hk.2 rfl
    exact ⟨rfl, rfl⟩
  | within =>
    have hne : k ≠ 0 := fun h => nomatch hk.1 h
    rw [ReportsCut, if_neg hne, if_neg hne]
    exact ⟨.inl rfl, rfl⟩
  | unclosed =>
    have hne : k ≠ 0 := fun h => nomatch hk.1 h
    rw [ReportsCut, if_neg hne, if_neg hne]
    exact ⟨.inr rfl, rfl⟩

namespace Codec

/-- What is found depends on no byte after it, and on every one of its own: decoding less of it, or
reading from a source that closes too early, fails with the fault of an input that ended. -/
theorem self_delimiting (c : Codec α) (hc : c.IsBuiltIn) (ht : c.requiresTerminator = false)
    (limits : Limits) (bs : Bytes) (v : α) (n : Nat) (h : c.get limits bs = .ok (v, n)) :
    n ≤ bs.length ∧ (∀ rest, c.get limits (bs.take n ++ rest) = .ok (v, n)) ∧
      ∀ k < n, (∃ e, c.get limits (bs.take k) = .error e ∧ ReportsCut k e) ∧
        (k ≤ limits.frameBytes → ∀ s pos, s.Holds (bs.take k) pos → ∃ t, (c.read limits).runFrom s =
          (.error (if k = 0 then .endOfInput else .truncated), t)) := by
  obtain ⟨x, rest, rfl, rfl, hx⟩ := (closed limits hc ht).accepts bs v n h
  have hstarts : (c.decoder limits).Starts := starts_decoder limits hc fun ho => by
    rw [requiresTerminator_of_isOpen ho] at ht
    cases ht
  rw [List.length_append, List.take_left]
  refine ⟨Nat.le_add_right _ _, hx.decodes, fun k hk => ?_⟩
  rw [List.take_append_of_le_length hk.le]
  obtain ⟨e, e', hcut, hget, hread⟩ := hx.cut hk
  rw [run_decoder] at hget
  have hzero : k = 0 ↔ e = .endOfInput := by
    constructor
    · rintro rfl
      exact Except.error.inj (hget.symm.trans hstarts.nil)
    · rintro rfl
      by_contra hne
      refine hstarts.cons (fun hnil => ?_) hget
      have hlen := congrArg List.length hnil
      rw [List.length_take, List.length_nil] at hlen
      omega
  obtain ⟨hreports, rfl⟩ := Cut.reports hcut hzero
  exact ⟨⟨e, hget, hreports⟩, fun hl s pos hs => hread s pos hs hl⟩

/-- The frame has an escape that it does not need, and the input goes on after it. -/
theorem self_delimiting_escape :
    let c : Codec (Option Bytes) := .nullable .first (.negate (.leaf .bytes))
    let bs : Bytes := [0x03, 0xfe, 0x9e, 0xff, 0x07]
    c.IsBuiltIn ∧ c.requiresTerminator = false ∧ c.get {} bs = .ok (some [0x61], 4) ∧
      (∀ rest, c.get {} ([0x03, 0xfe, 0x9e, 0xff] ++ rest) = .ok (some [0x61], 4)) ∧
      (∃ e, c.get {} [0x03, 0xfe] = .error e ∧ ReportsCut 2 e) ∧
      ∃ t, (c.read {}).runFrom (.ofBytes [0x03, 0xfe]) = (.error .truncated, t) := by
  intro c bs
  have hc : c.IsBuiltIn := trivial
  have ht : c.requiresTerminator = false := rfl
  have hget : c.get {} bs = .ok (some [0x61], 4) := by rfl
  obtain ⟨-, hafter, hcut⟩ := self_delimiting c hc ht {} bs (some [0x61]) 4 hget
  obtain ⟨hslice, hread⟩ := hcut 2 (by decide)
  exact ⟨hc, ht, hget, hafter, hslice, hread (by decide) _ 0 (Source.holds_ofBytes _)⟩

end Codec
end SortKey
