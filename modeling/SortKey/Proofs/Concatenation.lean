import SortKey.Proofs.CodecAcceptance
import SortKey.Proofs.Truncation

/-! Sequences one after another. The encoding of two lists that are joined is their encodings joined, and a
byte string that decodes as a list can stand in front of any other one: the elements found there come after
those of the list, and what is wrong there is reported as it was. -/
namespace SortKey
variable {α : Type}

namespace Decoder
variable {d : Decoder α}

/-- Whatever follows `x`, the elements found there come after `vs`. -/
def Leads (d : Decoder α) (vs : List α) (x : Bytes) : Prop :=
  ∀ rest, Codec.elements d.run (x ++ rest) =
    (fun p => (vs ++ p.1, x.length + p.2)) <$> Codec.elements d.run rest

theorem leads_nil (d : Decoder α) : d.Leads [] [] := by
  intro rest
  cases h : Codec.elements d.run rest <;> simp [h]

theorem Leads.cons (hd : d.Starts) {v : α} {x : Bytes} (hv : d.Decodes x v) {vs : List α} {xs : Bytes}
    (hvs : d.Leads vs xs) : d.Leads (v :: vs) (x ++ xs) := by
  intro rest
  have hpos : 0 < x.length := hd.pos (hv [])
  have hne : x ++ (xs ++ rest) ≠ [] :=
    List.append_ne_nil_of_left_ne_nil (List.ne_nil_of_length_pos hpos) _
  rw [List.append_assoc, Codec.elements_of_ok hne hpos (hv (xs ++ rest)), List.drop_left, hvs]
  cases h : Codec.elements d.run rest <;> simp [Nat.add_assoc]

/-- If no element depends on what follows it, no list does. -/
theorem accepts_leading (hd : d.Starts) (h : d.Accepts fun v x => d.Decodes x v) :
    Accepts ⟨Codec.elements d.run⟩ d.Leads :=
  h.elements (leads_nil d) fun _ _ _ _ hv hvs => hvs.cons hd hv

end Decoder

namespace Codec

theorem length_le_of_elements {get : Bytes → Except Fault (α × Nat)} {bs : Bytes} {vs : List α}
    {n : Nat} (h : elements get bs = .ok (vs, n)) : bs.length ≤ n := by
  fun_induction elements get bs generalizing vs n with
  | case1 => exact Nat.zero_le _
  | case2 => cases h
  | case3 => cases h
  | case4 => cases h
  | case5 b rest v k hfirst ws m hrest ih =>
    cases h
    have hle := ih hrest
    rw [List.length_drop] at hle
    rw [List.length_cons]
    omega

theorem encode_seq_append {c : Codec α} (hc : c.IsBuiltIn) (us vs : List α) :
    (Codec.seq c).encode (us ++ vs) =
      (Codec.seq c).encode us >>= fun x => ((Codec.seq c).encode vs).map (x ++ ·) := by
  have hvs : (vs.forM c.unit.append).Additive :=
    Writing.Additive.forM (fun u => additive_append (isBuiltIn_unit hc) u) vs
  rw [encode, append_seq, encode, append_seq, encode, append_seq, List.forM_eq_forM, List.forM_append]
  exact Writing.encoding_andThen hvs

theorem get_seq_append {limits : Limits} {c : Codec α} (hc : c.IsBuiltIn) {a : Bytes} {us : List α}
    {n : Nat} (h : (Codec.seq c).get limits a = .ok (us, n)) :
    n = a.length ∧ ∀ b, (Codec.seq c).get limits (a ++ b) =
      (fun p => (us ++ p.1, a.length + p.2)) <$> (Codec.seq c).get limits b := by
  have hunit : c.unit.IsBuiltIn := isBuiltIn_unit hc
  have hself : (c.unit.decoder limits).Accepts fun v x => (c.unit.decoder limits).Decodes x v :=
    (closed limits hunit c.requiresTerminator_unit).accepts.mono fun _ _ hx => hx.decodes
  rw [get_seq] at h
  obtain ⟨x, rest, rfl, rfl, hx⟩ :=
    Decoder.accepts_leading (starts_decoder_unit limits hc) hself a us n h
  -- nothing is left over, for only the end of the input ends a sequence
  have hlen := length_le_of_elements h
  obtain rfl : rest = [] := by
    rw [List.length_append] at hlen
    exact List.length_eq_zero_iff.1 (by omega)
  rw [List.append_nil]
  refine ⟨rfl, fun b => ?_⟩
  rw [get_seq, get_seq]
  exact hx b

/-- Joining lists is joining their encodings. Where a whole byte string decodes as a list, what follows
it decodes as the rest of a longer one, or fails as it would by itself. -/
theorem concatenation (c : Codec α) (hc : c.IsBuiltIn) :
    (∀ us vs, (Codec.seq c).encode (us ++ vs) = do
      let x ← (Codec.seq c).encode us
      let y ← (Codec.seq c).encode vs
      return x ++ y) ∧
    ∀ limits a us, (Codec.seq c).get limits a = .ok (us, a.length) → ∀ b,
      (∀ vs n, (Codec.seq c).get limits b = .ok (vs, n) →
        (Codec.seq c).get limits (a ++ b) = .ok (us ++ vs, a.length + b.length)) ∧
      ∀ e, (Codec.seq c).get limits b = .error e → (Codec.seq c).get limits (a ++ b) = .error e := by
  refine ⟨encode_seq_append hc, fun limits a us ha b => ?_⟩
  obtain ⟨-, hjoin⟩ := get_seq_append hc ha
  rw [hjoin]
  constructor
  · intro vs n hb
    obtain ⟨rfl, -⟩ := get_seq_append hc hb
    rw [hb, Outcome.map_ok]
  · intro e hb
    rw [hb, Outcome.map_error]

/-- A frame with an escape that it does not need, an empty string, and then an absent value or a frame
that nothing closes. -/
theorem concatenation_optional_strings :
    let c : Codec (Option String) := .nullable .last (.leaf .string)
    let a : Bytes := [0x03, 0x01, 0x61, 0x00, 0x03, 0x00]
    c.IsBuiltIn ∧ (Codec.seq c).get {} a = .ok ([some "a", some ""], a.length) ∧
      (Codec.seq c).get {} [0xfd, 0x00] = .ok ([none], 2) ∧
      (Codec.seq c).get {} (a ++ [0xfd, 0x00]) = .ok ([some "a", some "", none], 8) ∧
      (Codec.seq c).get {} [0x03, 0x62] = .error .unterminated ∧
      (Codec.seq c).get {} (a ++ [0x03, 0x62]) = .error .unterminated ∧
      (Codec.seq c).encode [some "a", none] = .ok [0x03, 0x61, 0x00, 0xfd, 0x00] := by
  intro c a
  have hc : c.IsBuiltIn := trivial
  have ha : (Codec.seq c).get {} a = .ok ([some "a", some ""], a.length) := by decide +kernel
  have hb : (Codec.seq c).get {} [0xfd, 0x00] = .ok ([none], 2) := by decide +kernel
  have he : (Codec.seq c).get {} [0x03, 0x62] = .error .unterminated := by decide +kernel
  obtain ⟨hencode, hget⟩ := concatenation c hc
  obtain ⟨hok, -⟩ := hget {} a _ ha [0xfd, 0x00]
  obtain ⟨-, herror⟩ := hget {} a _ ha [0x03, 0x62]
  exact ⟨hc, ha, hb, hok _ _ hb, he, herror _ he, hencode [some "a"] [none]⟩

end Codec
end SortKey
