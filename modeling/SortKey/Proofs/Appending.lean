import SortKey.Proofs.Encoding

/-! Encoding onto what is there already. A codec leaves the bytes of a buffer alone and pays no regard to
them, whether it can encode a value or fails on the way; a sink is offered whole encodings only. -/
namespace SortKey

namespace Writing
variable {w : Writing Unit} {e : Fault}

theorem Additive.onto_eq_error (h : w.Additive) (he : w.encoding = .error e) (buffer : Bytes) :
    w.onto buffer = (.error e, buffer ++ (w.onto []).2) := by
  rw [h buffer]
  rw [encoding] at he
  split at he
  next => cases he
  next e' x hw =>
    cases he
    rw [hw]

theorem onto_framed_of_error {mask : UInt8} (he : (framed mask w).encoding = .error e)
    (buffer : Bytes) : (framed mask w).onto buffer = (.error e, buffer) := by
  rw [encoding_framed, Outcome.map_eq_error] at he
  rw [onto_framed, he]

end Writing

namespace Sink

theorem offer_grant (refusal : Option String) (g : Nat) (grants : List Nat) {bs : Bytes}
    (hbs : bs ≠ []) : offer refusal (g :: grants) bs =
      (bs.take g ++ (offer refusal grants (bs.drop g)).1, (offer refusal grants (bs.drop g)).2) := by
  obtain ⟨b, rest, rfl⟩ := List.exists_cons_of_ne_nil hbs
  rfl

theorem offer_cases (refusal : Option String) (grants : List Nat) (bs : Bytes) :
    (∃ left, offer refusal grants bs = (bs, left, none)) ∨
    ∃ text x left, refusal = some text ∧ x <+: bs ∧ x.length < bs.length ∧
      offer refusal grants bs = (x, left, some text) := by
  induction grants generalizing bs with
  | nil =>
    cases bs with
    | nil => exact .inl ⟨[], rfl⟩
    | cons b rest =>
      cases refusal with
      | none => exact .inl ⟨[], rfl⟩
      | some text => exact .inr ⟨text, [], [], rfl, List.nil_prefix, Nat.zero_lt_succ _, rfl⟩
  | cons g grants ih =>
    by_cases hbs : bs = []
    · subst hbs
      exact .inl ⟨g :: grants, rfl⟩
    rw [offer_grant refusal g grants hbs]
    obtain ⟨left, h⟩ | ⟨text, x, left, hrefusal, ⟨y, hy⟩, hlen, h⟩ := ih (bs.drop g)
    · rw [h, List.take_append_drop]
      exact .inl ⟨left, rfl⟩
    · rw [h]
      refine .inr ⟨text, bs.take g ++ x, left, hrefusal, ⟨y, ?_⟩, ?_, rfl⟩
      · rw [List.append_assoc, hy, List.take_append_drop]
      · have htotal := congrArg List.length (List.take_append_drop g bs)
        rw [List.length_append] at htotal ⊢
        omega

theorem writeAll_cases (bs : Bytes) (s : Sink) :
    (∃ t, s.writeAll bs = (.ok (), t) ∧ t.taken = s.taken ++ bs) ∨
    ∃ text x t, s.refusal = some text ∧ x <+: bs ∧ x.length < bs.length ∧
      s.writeAll bs = (.error (.device text), t) ∧ t.taken = s.taken ++ x := by
  rw [writeAll]
  obtain ⟨left, h⟩ | ⟨text, x, left, hrefusal, hx, hlen, h⟩ := offer_cases s.refusal s.grants bs
  · rw [h]
    exact .inl ⟨_, rfl, rfl⟩
  · rw [h]
    exact .inr ⟨text, x, _, hrefusal, hx, hlen, rfl, rfl⟩

end Sink

namespace Codec
variable {α : Type}

/-- A frame, of whatever represents the values. -/
def IsFramed : {α : Type} → Codec α → Prop
  | _, .leaf _ => False
  | _, .custom _ => False
  | _, .framed _ _ => True
  | _, .nullable _ _ => False
  | _, .seq _ => False
  | _, .convert _ _ c => c.IsFramed

theorem onto_of_isFramed {c : Codec α} (hf : c.IsFramed) {v : α} {e : Fault}
    (he : c.encode v = .error e) (buffer : Bytes) : (c.append v).onto buffer = (.error e, buffer) := by
  induction c with
  | framed reversed c ih => exact Writing.onto_framed_of_error he buffer
  | convert represent restore c ih => exact ih hf he
  | _ => exact hf.elim

/-- What is in a buffer makes no difference to what is appended to it and stays as it is: an encoding is
put behind it if there is one, and otherwise the same bytes of it are, whatever the buffer, or none of
them if the codec makes a frame. A sink is offered an encoding or nothing. -/
theorem append_whatever_buffer (c : Codec α) (hc : c.OnlyPushes) (v : α) :
    (∀ x, c.encode v = .ok x →
      (∀ buffer, (c.append v).onto buffer = (.ok (), buffer ++ x)) ∧
      ∀ s, (∃ t, c.write v s = (.ok (), t) ∧ t.taken = s.taken ++ x) ∨
        ∃ text y t, s.refusal = some text ∧ y <+: x ∧ y.length < x.length ∧
          c.write v s = (.error (.device text), t) ∧ t.taken = s.taken ++ y) ∧
    ∀ e, c.encode v = .error e →
      (∃ w, (c.IsFramed → w = []) ∧ ∀ buffer, (c.append v).onto buffer = (.error e, buffer ++ w)) ∧
      ∀ s, c.write v s = (.error e, s) := by
  have hadditive := additive_of_onlyPushes hc v
  constructor
  · intro x hx
    refine ⟨hadditive.onto_eq hx, fun s => ?_⟩
    rw [write, hx]
    exact Sink.writeAll_cases x s
  · intro e he
    refine ⟨⟨((c.append v).onto []).2, fun hf => ?_, hadditive.onto_eq_error he⟩, fun s => ?_⟩
    · rw [onto_of_isFramed hf he]
    · rw [write, he]

/-- A codec of the caller's own refuses odd numbers, and the second element of a sequence is one. Bare,
the sequence has left its first element behind; in a frame it leaves nothing. -/
theorem append_whatever_buffer_odd_element :
    let odd : Fault := .unwritable (.other "odd number")
    let even : Custom Nat :=
      { name := "even"
        append := fun n => if n % 2 = 0 then Writing.push [UInt8.ofNat n] else throw odd
        get := fun bs => (fun b => (b.toNat, 1)) <$> Slice.byte bs
        read := UInt8.toNat <$> Reading.byte
        requiresTerminator := false }
    let c : Codec (List Nat) := .seq (.custom even)
    let s : Sink := ⟨[9], [1], some "disk full"⟩
    c.OnlyPushes ∧ c.encode [4, 7] = .error odd ∧ c.encode [4, 6] = .ok [4, 6] ∧
      (∀ buffer, (c.append [4, 7]).onto buffer = (.error odd, buffer ++ [4])) ∧
      (∀ buffer, (c.terminate.append [4, 7]).onto buffer = (.error odd, buffer)) ∧
      (∀ buffer, (c.append [4, 6]).onto buffer = (.ok (), buffer ++ [4, 6])) ∧
      c.write [4, 7] s = (.error odd, s) ∧
      ∃ text y t, s.refusal = some text ∧ y <+: [4, 6] ∧ y.length < 2 ∧
        c.write [4, 6] s = (.error (.device text), t) ∧ t.taken = s.taken ++ y := by
  intro odd even c s
  have hc : c.OnlyPushes := by
    intro n
    dsimp only [even]
    split
    · exact Writing.additive_push _
    · exact Writing.additive_throw _
  have hodd : c.encode [4, 7] = .error odd := by rfl
  have hframed : c.terminate.encode [4, 7] = .error odd := by rfl
  have heven : c.encode [4, 6] = .ok [4, 6] := by rfl
  obtain ⟨-, hrefused⟩ := append_whatever_buffer c hc [4, 7]
  obtain ⟨-, hnothing⟩ := append_whatever_buffer c.terminate hc [4, 7]
  obtain ⟨htaken, -⟩ := append_whatever_buffer c hc [4, 6]
  obtain ⟨⟨w, -, hw⟩, hsink⟩ := hrefused odd hodd
  obtain ⟨⟨w', hempty, hw'⟩, -⟩ := hnothing odd hframed
  obtain ⟨hall, hwrite⟩ := htaken _ heven
  obtain rfl : [4] = w := congrArg Prod.snd (hw [])
  obtain rfl := hempty trivial
  simp only [List.append_nil] at hw'
  refine ⟨hc, hodd, heven, hw, hw', hall, hsink s, ?_⟩
  obtain ⟨t, ht, -⟩ | hfull := hwrite s
  · have hrun : (c.write [4, 6] s).1 = .error (.device "disk full") := by rfl
    rw [ht] at hrun
    cases hrun
  · exact hfull

end Codec
end SortKey
