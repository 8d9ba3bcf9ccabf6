import SortKey.Proofs.ClosedSource
import SortKey.Proofs.Composition

/-! How the bytes of a source arrive. A request is put together from single answers, each with as many bytes
as the source likes, and is made again after an interruption; what it comes to depends on the bytes and on
the ending alone, so readings by built-in codecs, one after another and on past every fault, come to the
same on any two sources that hold the same bytes and end alike. -/
namespace SortKey

namespace Source

/-- What a source makes of a single request. -/
inductive Answer where
  | bytes (first : UInt8) (rest : Bytes)
  | interrupted
  | ended
  | failed (text : String)

def putBack : Bytes → List Delivery → List Delivery
  | [], ds => ds
  | b :: bs, ds => .piece b bs :: ds

/-- A single request for at most `n + 1` bytes. A source that cuts its bytes up as it is asked answers
like one whose pieces are those answers. -/
def ask (n : Nat) : StateM Source Answer := fun s =>
  match s.deliveries with
  | .piece b bs :: ds =>
    (.bytes b (bs.take n), ⟨putBack (bs.drop n) ds, s.ending, s.delivered + (b :: bs.take n).length⟩)
  | .interruption :: ds => (.interrupted, ⟨ds, s.ending, s.delivered⟩)
  | [] =>
    match s.ending with
    | .closed => (.ended, s)
    | .failing text => (.failed text, s)
    | .endless byteAt => (.bytes (byteAt s.delivered) [], ⟨[], s.ending, s.delivered + 1⟩)

theorem gather_zero (ds : List Delivery) : gather ds 0 = ([], ds) := by
  cases ds <;> rfl

theorem gather_piece (b : UInt8) (bs : Bytes) (ds : List Delivery) (n : Nat) :
    gather (.piece b bs :: ds) (n + 1) =
      (b :: bs.take n ++ (gather (putBack (bs.drop n) ds) (n - (bs.take n).length)).1,
        (gather (putBack (bs.drop n) ds) (n - (bs.take n).length)).2) := by
  rw [gather, if_neg n.succ_ne_zero]
  dsimp only
  rw [List.take_succ_cons, List.drop_succ_cons]
  cases hdrop : bs.drop n with
  | nil => simp [putBack]
  | cons c cs =>
    -- the piece is long enough for the whole request
    have hlen : n - (bs.take n).length = 0 := by
      have := congrArg List.length hdrop
      rw [List.length_drop, List.length_cons] at this
      rw [List.length_take]
      omega
    rw [hlen, gather_zero, List.append_nil]
    rfl

theorem draw_of_gather {n : Nat} {s t : Source} {x : Bytes} (hx : x.length ≤ n)
    (hgather : gather s.deliveries n =
      (x ++ (gather t.deliveries (n - x.length)).1, (gather t.deliveries (n - x.length)).2))
    (hending : t.ending = s.ending) (hdelivered : t.delivered = s.delivered + x.length) :
    draw n s =
      ((x ++ (draw (n - x.length) t).1.1, (draw (n - x.length) t).1.2), (draw (n - x.length) t).2) := by
  obtain ⟨ds, ending, delivered⟩ := t
  dsimp only at hgather hending hdelivered ⊢
  subst hending hdelivered
  rw [draw, draw, hgather]
  obtain ⟨more, left⟩ := gather ds (n - x.length)
  dsimp only
  rw [List.length_append]
  by_cases hmore : more.length = n - x.length
  · rw [if_pos (by omega), if_pos hmore, Nat.add_assoc]
  · rw [if_neg (by omega), if_neg hmore]
    cases s.ending with
    | closed => simp only [Nat.add_assoc]
    | failing text => simp only [Nat.add_assoc]
    | endless byteAt =>
      have hn : n - (x.length + more.length) = n - x.length - more.length := by omega
      have hn' : s.delivered + x.length + (n - x.length) = s.delivered + n := by omega
      simp only [Nat.add_assoc, List.append_assoc, hn, hn']

theorem draw_zero (s : Source) : draw 0 s = (([], .filled), s) := by
  rw [draw, gather_zero]
  rfl

theorem draw_endless (byteAt : Nat → UInt8) (pos n : Nat) :
    draw n ⟨[], .endless byteAt, pos⟩ =
      (((List.range n).map fun i => byteAt (pos + i), .filled), ⟨[], .endless byteAt, pos + n⟩) := by
  cases n <;> rfl

theorem draw_succ (n : Nat) (s : Source) :
    draw (n + 1) s =
      match ask n s with
      | (.bytes b bs, t) =>
        ((b :: bs ++ (draw (n - bs.length) t).1.1, (draw (n - bs.length) t).1.2),
          (draw (n - bs.length) t).2)
      | (.interrupted, t) => draw (n + 1) t
      | (.ended, t) => (([], .ended), t)
      | (.failed text, t) => (([], .failed text), t) := by
  obtain ⟨_ | ⟨⟨b, bs⟩ | _, ds⟩, ending, delivered⟩ := s
  · cases ending with
    | closed => rfl
    | failing text => rfl
    | endless byteAt =>
      rw [draw_endless, List.range_succ_eq_map, List.map_cons, List.map_map]
      dsimp only [ask]
      rw [List.length_nil, Nat.sub_zero, draw_endless]
      simp [Function.comp_def, Nat.add_comm, Nat.add_left_comm]
  · have hlen : n + 1 - (b :: bs.take n).length = n - (bs.take n).length :=
      Nat.add_sub_add_right n 1 _
    have h := draw_of_gather (n := n + 1) (s := ⟨.piece b bs :: ds, ending, delivered⟩)
      (t := ⟨putBack (bs.drop n) ds, ending, delivered + (b :: bs.take n).length⟩)
      (x := b :: bs.take n) (by simp) (by rw [hlen]; exact gather_piece b bs ds n) rfl rfl
    rw [hlen] at h
    exact h
  · exact draw_of_gather (x := []) (Nat.zero_le _) rfl rfl rfl

def drawn (n : Nat) (bs : Bytes) (ending : Ending) (pos : Nat) : Bytes × Stop :=
  if n ≤ bs.length then (bs.take n, .filled)
  else match ending with
    | .closed => (bs, .ended)
    | .failing text => (bs, .failed text)
    | .endless byteAt =>
      (bs ++ (List.range (n - bs.length)).map (fun i => byteAt (pos + bs.length + i)), .filled)

theorem drawn_of_le_length {n : Nat} {bs : Bytes} (h : n ≤ bs.length) (ending : Ending) (pos : Nat) :
    drawn n bs ending pos = (bs.take n, .filled) := by
  unfold drawn
  rw [if_pos h]

theorem drawn_closed {n : Nat} {bs : Bytes} (h : bs.length < n) (pos : Nat) :
    drawn n bs .closed pos = (bs, .ended) := by
  unfold drawn
  rw [if_neg (Nat.not_le.2 h)]

theorem drawn_failing {n : Nat} {bs : Bytes} (h : bs.length < n) (text : String) (pos : Nat) :
    drawn n bs (.failing text) pos = (bs, .failed text) := by
  unfold drawn
  rw [if_neg (Nat.not_le.2 h)]

theorem drawn_endless (n : Nat) (bs : Bytes) (byteAt : Nat → UInt8) (pos : Nat) :
    drawn n bs (.endless byteAt) pos =
      (bs.take n ++ (List.range (n - bs.length)).map (fun i => byteAt (pos + bs.length + i)),
        .filled) := by
  unfold drawn
  split
  next hn => rw [Nat.sub_eq_zero_of_le hn, List.range_zero, List.map_nil, List.append_nil]
  next hn => rw [List.take_of_length_le (Nat.le_of_not_le hn)]

theorem draw_eq (n : Nat) (s : Source) :
    draw n s =
      (drawn n (contents s.deliveries) s.ending s.delivered,
        ⟨(gather s.deliveries n).2, s.ending,
          s.delivered + (drawn n (contents s.deliveries) s.ending s.delivered).1.length⟩) := by
  have hgot := gather_fst s.deliveries n
  rw [draw]
  generalize gather s.deliveries n = g at hgot ⊢
  obtain ⟨got, left⟩ := g
  dsimp only at hgot ⊢
  subst hgot
  unfold drawn
  by_cases hn : n ≤ (contents s.deliveries).length
  · simp only [List.length_take_of_le hn, hn, if_true]
  · have hne : (contents s.deliveries).length ≠ n := by omega
    rw [List.take_of_length_le (Nat.le_of_not_le hn), if_neg hne, if_neg hn]
    cases s.ending with
    | closed => rfl
    | failing text => rfl
    | endless byteAt =>
      have hlen : (contents s.deliveries).length + (n - (contents s.deliveries).length) = n := by
        omega
      simp [hlen]

theorem length_drawn_of_filled {n : Nat} {bs : Bytes} {ending : Ending} {pos : Nat}
    (h : (drawn n bs ending pos).2 = .filled) : (drawn n bs ending pos).1.length = n := by
  by_cases hn : n ≤ bs.length
  · rw [drawn_of_le_length hn]
    exact List.length_take_of_le hn
  have hlt := Nat.lt_of_not_le hn
  cases ending with
  | closed =>
    rw [drawn_closed hlt] at h
    cases h
  | failing text =>
    rw [drawn_failing hlt] at h
    cases h
  | endless byteAt =>
    rw [drawn_endless, List.length_append, List.length_take, List.length_map, List.length_range]
    omega

theorem length_drawn_le (n : Nat) (bs : Bytes) (ending : Ending) (pos : Nat) :
    (drawn n bs ending pos).1.length ≤ n := by
  by_cases hn : n ≤ bs.length
  · rw [drawn_of_le_length hn]
    exact List.length_take_le n bs
  have hlt := Nat.lt_of_not_le hn
  cases ending with
  | closed =>
    rw [drawn_closed hlt]
    exact hlt.le
  | failing text =>
    rw [drawn_failing hlt]
    exact hlt.le
  | endless byteAt => exact (length_drawn_of_filled (by rw [drawn_endless])).le

/-- Hold the same bytes, have delivered as many before and end in the same way. -/
structure Alike (s t : Source) : Prop where
  left : contents s.deliveries = contents t.deliveries
  ending : s.ending = t.ending
  delivered : s.delivered = t.delivered

theorem Alike.draw {s t : Source} (h : s.Alike t) (n : Nat) :
    ∃ got s' t', draw n s = (got, s') ∧ draw n t = (got, t') ∧ s'.Alike t' := by
  obtain ⟨hleft, hending, hdelivered⟩ := h
  rw [draw_eq, draw_eq, hleft, hending, hdelivered]
  exact ⟨_, _, _, rfl, rfl, by rw [contents_gather_snd, contents_gather_snd, hleft], rfl, rfl⟩

end Source

namespace Reading
variable {α β : Type}

/-- Comes to the same on sources that are alike, and leaves them alike. -/
def Steady (r : Reading α) : Prop :=
  ∀ s t, s.Alike t → ∃ o s' t', r.runFrom s = (o, s') ∧ r.runFrom t = (o, t') ∧ s'.Alike t'

theorem steady_liftM (o : Except Fault α) : (liftM o : Reading α).Steady :=
  fun s t h => ⟨o, s, t, runFrom_liftM o s, runFrom_liftM o t, h⟩

theorem steady_pure (a : α) : (pure a : Reading α).Steady := fun s t h => ⟨.ok a, s, t, rfl, rfl, h⟩

theorem steady_throw (e : Fault) : (throw e : Reading α).Steady :=
  fun s t h => ⟨.error e, s, t, rfl, rfl, h⟩

theorem Steady.bind {r : Reading α} {f : α → Reading β} (h : r.Steady) (hf : ∀ a, (f a).Steady) :
    (r >>= f).Steady := by
  intro s t hst
  obtain ⟨o, s', t', hs, ht, hst'⟩ := h s t hst
  simp only [runFrom_bind, hs, ht]
  cases o with
  | error e => exact ⟨.error e, s', t', rfl, rfl, hst'⟩
  | ok a => exact hf a s' t' hst'

theorem Steady.tryCatch {r : Reading α} {f : Fault → Reading α} (h : r.Steady)
    (hf : ∀ e, (f e).Steady) : (tryCatch r f).Steady := by
  intro s t hst
  obtain ⟨o, s', t', hs, ht, hst'⟩ := h s t hst
  simp only [runFrom_tryCatch, hs, ht]
  cases o with
  | error e => exact hf e s' t' hst'
  | ok a => exact ⟨.ok a, s', t', rfl, rfl, hst'⟩

theorem Steady.midway {r : Reading α} (h : r.Steady) : r.midway.Steady :=
  h.tryCatch fun e => steady_throw e.midway

theorem Steady.optional {r : Reading α} (h : r.Steady) : (optional r).Steady := by
  have hsome : (some <$> r).Steady := h.bind fun a => steady_pure (some a)
  refine hsome.tryCatch fun e => ?_
  cases e with
  | endOfInput => exact steady_pure none
  | _ => exact steady_throw _

theorem steady_exactly (n : Nat) : (exactly n).Steady := by
  intro s t hst
  obtain ⟨⟨got, stop⟩, s', t', hs, ht, hst'⟩ := hst.draw n
  simp only [runFrom_exactly, hs, ht]
  cases stop <;> exact ⟨_, s', t', rfl, rfl, hst'⟩

theorem steady_remainder (limit : Nat) : (remainder limit).Steady := by
  intro s t hst
  obtain ⟨⟨got, stop⟩, s', t', hs, ht, hst'⟩ := hst.draw (min (limit + 1) 18446744073709551615)
  simp only [runFrom_remainder, hs, ht]
  exact ⟨_, s', t', rfl, rfl, hst'⟩

theorem Composed.steady {r : Reading α} (h : r.Composed) : r.Steady := by
  induction h with
  | liftM o => exact steady_liftM o
  | exactly n => exact steady_exactly n
  | remainder limit => exact steady_remainder limit
  | bind _ _ ih ihf => exact ih.bind ihf
  | midway _ ih => exact ih.midway
  | optional _ ih => exact ih.optional

end Reading

theorem Twin.steady {α : Type} {limits : Limits} {d : Decoder α} {r : Reading α} (h : Twin limits d r) :
    r.Steady := h.composed.steady

namespace Codec

/-- Readings in turn from one source, going on after a fault: what each comes to, and how many bytes
the source has delivered by then. -/
def readings (limits : Limits) :
    List (Σ α : Type, Codec α) → Source → List (Σ α : Type, Except Fault α × Nat)
  | [], _ => []
  | ⟨α, c⟩ :: cs, s =>
    let (o, t) := (c.read limits).runFrom s
    ⟨α, o, t.delivered⟩ :: readings limits cs t

theorem readings_of_alike (limits : Limits) {cs : List (Σ α : Type, Codec α)}
    (hcs : ∀ c ∈ cs, c.2.IsBuiltIn) {s t : Source} (h : s.Alike t) :
    readings limits cs s = readings limits cs t := by
  induction cs generalizing s t with
  | nil => rfl
  | cons c cs ih =>
    obtain ⟨α, c⟩ := c
    have hc : c.IsBuiltIn := hcs ⟨α, c⟩ List.mem_cons_self
    obtain ⟨o, s', t', hs, ht, hst⟩ := (twin limits hc).steady s t h
    rw [readings, readings, hs, ht]
    dsimp only
    rw [hst.delivered, ih (fun c hc => hcs c (List.mem_cons_of_mem _ hc)) hst]

/-- It makes no difference in which pieces the bytes of a source come, nor where it interrupts: a
reading comes to the same and uses up as many bytes, and so do all the readings after it. -/
theorem read_whatever_arrival (limits : Limits) (s t : Source) (h : s.Alike t) :
    (∀ (α : Type) (c : Codec α), c.IsBuiltIn →
      ((c.read limits).runFrom s).1 = ((c.read limits).runFrom t).1 ∧
        ((c.read limits).runFrom s).2.delivered = ((c.read limits).runFrom t).2.delivered) ∧
    ∀ cs : List (Σ α : Type, Codec α), (∀ c ∈ cs, c.2.IsBuiltIn) →
      readings limits cs s = readings limits cs t := by
  refine ⟨fun α c hc => ?_, fun cs hcs => readings_of_alike limits hcs h⟩
  obtain ⟨o, s', t', hs, ht, hst⟩ := (twin limits hc).steady s t h
  rw [hs, ht]
  exact ⟨rfl, hst.delivered⟩

/-- A frame and a word are cut up and interrupted, a byte between them is refused, and the source
fails before the word is whole. -/
theorem read_whatever_arrival_failing :
    let s : Source := ⟨[.piece 0x61 [0x00, 0x05, 0x80]], .failing "disk on fire", 0⟩
    let t : Source := ⟨[.interruption, .piece 0x61 [], .interruption, .interruption,
      .piece 0x00 [0x05], .piece 0x80 [], .interruption], .failing "disk on fire", 0⟩
    let cs : List (Σ α : Type, Codec α) :=
      [⟨_, .terminate (.leaf .bytes)⟩, ⟨_, .leaf .bool⟩, ⟨_, .leaf (.unsigned .w32)⟩]
    s.Alike t ∧ (∀ c ∈ cs, c.2.IsBuiltIn) ∧
      readings ⟨16, 16⟩ cs s = [⟨Bytes, .ok [0x61], 2⟩,
        ⟨Bool, .error (.notBoolean 0x05), 3⟩,
        ⟨BitVec Width.w32.bits, .error (.device "disk on fire"), 4⟩] ∧
      readings ⟨16, 16⟩ cs t = readings ⟨16, 16⟩ cs s := by
  intro s t cs
  have h : s.Alike t := ⟨rfl, rfl, rfl⟩
  have hcs : ∀ c ∈ cs, c.2.IsBuiltIn := by simp [cs, IsBuiltIn]
  have hbytes : ((Codec.terminate (.leaf .bytes)).read ⟨16, 16⟩).runFrom s =
      (.ok [0x61], ⟨[.piece 0x05 [0x80]], .failing "disk on fire", 2⟩) := by rfl
  have hbool : ((Codec.leaf .bool).read ⟨16, 16⟩).runFrom
      ⟨[.piece 0x05 [0x80]], .failing "disk on fire", 2⟩ =
      (.error (.notBoolean 0x05), ⟨[.piece 0x80 []], .failing "disk on fire", 3⟩) := by rfl
  have hword : ((Codec.leaf (.unsigned .w32)).read ⟨16, 16⟩).runFrom
      ⟨[.piece 0x80 []], .failing "disk on fire", 3⟩ =
      (.error (.device "disk on fire"), ⟨[], .failing "disk on fire", 4⟩) := by rfl
  have hs : readings ⟨16, 16⟩ cs s = [⟨Bytes, .ok [0x61], 2⟩, ⟨Bool, .error (.notBoolean 0x05), 3⟩,
      ⟨BitVec Width.w32.bits, .error (.device "disk on fire"), 4⟩] := by
    simp only [cs, readings, hbytes, hbool, hword]
  exact ⟨h, hcs, hs, ((read_whatever_arrival ⟨16, 16⟩ s t h).2 cs hcs).symm⟩

end Codec
end SortKey
