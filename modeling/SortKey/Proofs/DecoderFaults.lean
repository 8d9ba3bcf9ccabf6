import SortKey.Proofs.DecoderStart
import SortKey.Proofs.LeafRoundTrip

/-! The faults that decoders report. What is put together from parts reports what its parts do, and that the
input was cut off where a part that is not the first one finds no byte; where all parts are found, it
rejects what does not pass its checks. -/
namespace SortKey

namespace Decoder
variable {α β : Type} {E : Fault → Prop}

def FailsWith (d : Decoder α) (E : Fault → Prop) : Prop := ∀ bs e, d.run bs = .error e → E e

theorem failsWith_pure (a : α) : (pure a : Decoder α).FailsWith E := by
  rintro bs e ⟨⟩

theorem failsWith_ofOutcome {r : Except Fault α} (h : ∀ e, r = .error e → E e) :
    (ofOutcome r).FailsWith E := by
  intro bs e hrun
  apply h e
  cases r with
  | error e' =>
    cases hrun
    rfl
  | ok a => cases hrun

theorem FailsWith.bind {d : Decoder α} {f : α → Decoder β} (hd : d.FailsWith E)
    (hf : ∀ a, (f a).FailsWith E) : (d >>= f).FailsWith E := by
  intro bs e hrun
  rw [run_bind, Outcome.bind_eq_error] at hrun
  obtain h | ⟨p, -, h⟩ := hrun
  · exact hd bs e h
  · exact hf p.1 _ e (Outcome.map_eq_error.1 h)

theorem FailsWith.map {d : Decoder α} (hd : d.FailsWith E) (f : α → β) : (f <$> d).FailsWith E :=
  hd.bind fun a => failsWith_pure (f a)

theorem FailsWith.midway {d : Decoder α} (hd : d.FailsWith E) (hE : E .truncated) :
    d.midway.FailsWith E := by
  intro bs e hrun
  rw [run_midway] at hrun
  cases h : d.run bs with
  | error e' =>
    rw [h] at hrun
    cases hrun
    have he := hd bs e' h
    cases e' with
    | endOfInput => exact hE
    | _ => exact he
  | ok p =>
    rw [h] at hrun
    cases hrun

theorem failsWith_exactly (n : Nat) (hend : E .endOfInput) (hcut : E .truncated) :
    (exactly n).FailsWith E := by
  intro bs e hrun
  rw [run_exactly] at hrun
  by_cases hn : n ≤ bs.length
  · rw [Slice.exactly_of_le hn] at hrun
    cases hrun
  · rw [Slice.exactly_of_lt (Nat.lt_of_not_le hn)] at hrun
    cases hrun
    split <;> assumption

theorem failsWith_byte (hend : E .endOfInput) : byte.FailsWith E := by
  intro bs e hrun
  cases bs with
  | nil =>
    cases hrun
    exact hend
  | cons b bs => cases hrun

theorem failsWith_frame (mask : UInt8) (hend : E .endOfInput) (hopen : E .unterminated) :
    (frame mask).FailsWith E := by
  intro bs e hrun
  rw [run_frame, Frame.get] at hrun
  split at hrun
  · cases hrun
    exact hend
  · split at hrun
    · cases hrun
      exact hopen
    · cases hrun

theorem failsWith_remainder : remainder.FailsWith E := by
  intro bs e hrun
  cases hrun

theorem FailsWith.elements {d : Decoder α} (hd : d.Starts) (h : d.FailsWith E) :
    FailsWith ⟨Codec.elements d.run⟩ E := by
  intro bs e hrun
  dsimp only at hrun
  fun_induction Codec.elements d.run bs generalizing e with
  | case1 => cases hrun
  | case2 b rest e' hfirst =>
    cases hrun
    exact h _ _ hfirst
  | case3 b rest v hfirst => exact absurd (hd.pos hfirst) (Nat.lt_irrefl 0)
  | case4 b rest v n hfirst e' hrest ih =>
    cases hrun
    exact ih _ hrest
  | case5 => cases hrun

/-- `x` is not accepted, whatever follows. -/
def Rejects (d : Decoder α) (x : Bytes) (e : Fault) : Prop := ∀ rest, d.run (x ++ rest) = .error e

theorem rejects_ofOutcome {r : Except Fault α} {e : Fault} (h : r = .error e) :
    (ofOutcome r).Rejects [] e := by
  intro rest
  rw [run_ofOutcome, h, Outcome.map_error]

theorem Decodes.rejects_bind {d : Decoder α} {f : α → Decoder β} {x y : Bytes} {a : α} {e : Fault}
    (hd : d.Decodes x a) (hf : (f a).Rejects y e) : (d >>= f).Rejects (x ++ y) e := by
  intro rest
  rw [List.append_assoc, run_bind, hd, Outcome.ok_bind, List.drop_left, hf, Outcome.map_error]

theorem Decodes.rejects_check {d : Decoder α} {f : α → Except Fault β} {x : Bytes} {a : α} {e : Fault}
    (hd : d.Decodes x a) (hf : f a = .error e) : (d >>= fun a => ofOutcome (f a)).Rejects x e := by
  have h : (d >>= fun a => ofOutcome (f a)).Rejects (x ++ []) e := hd.rejects_bind (rejects_ofOutcome hf)
  rwa [List.append_nil] at h

end Decoder

open Decoder

theorem FixedWidth.failsWith_intDecoder (w : Width) {E : Fault → Prop} (hend : E .endOfInput)
    (hcut : E .truncated) : (intDecoder w).FailsWith E :=
  ((failsWith_exactly w.bytes hend hcut).map _).map _

end SortKey
