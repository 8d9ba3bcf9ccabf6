import SortKey.KeyBuffer
import SortKey.Proofs.PrefixFree

/-! Composite keys. The fields of a key are given by their codecs, and its values are nested pairs.
The fields are appended in turn, and read back in turn from the cursor. -/
namespace SortKey

inductive Fields : Type → Type 1 where
  | nil : Fields Unit
  | cons {α ρ : Type} (c : Codec α) (more : Fields ρ) : Fields (α × ρ)

namespace Fields
variable {α ρ : Type}

def IsBuiltIn : {ρ : Type} → Fields ρ → Prop
  | _, .nil => True
  | _, .cons c more => c.IsBuiltIn ∧ more.IsBuiltIn

def terminators : {ρ : Type} → Fields ρ → List Bool
  | _, .nil => []
  | _, .cons c more => c.requiresTerminator :: more.terminators

/-- No field but the last needs a terminator. -/
def Delimited (fs : Fields ρ) : Prop := ∀ t ∈ fs.terminators.dropLast, t = false

instance (fs : Fields ρ) : Decidable fs.Delimited :=
  inferInstanceAs (Decidable (∀ t ∈ fs.terminators.dropLast, t = false))

def Everywhere (P : ∀ {α : Type}, Leaf α → α → Prop) : {ρ : Type} → Fields ρ → ρ → Prop
  | _, .nil, _ => True
  | _, .cons c more, (v, vs) => c.Everywhere P v ∧ more.Everywhere P vs

instance decidableEverywhere (P : ∀ {α : Type}, Leaf α → α → Prop)
    [∀ {α : Type} (l : Leaf α) (v : α), Decidable (P l v)] :
    {ρ : Type} → (fs : Fields ρ) → (vs : ρ) → Decidable (fs.Everywhere P vs)
  | _, .nil, _ => .isTrue trivial
  | _, .cons c more, (v, vs) =>
    @instDecidableAnd _ _ (Codec.decidableEverywhere P c v) (decidableEverywhere P more vs)

abbrev Encodable (fs : Fields ρ) (vs : ρ) : Prop := fs.Everywhere Leaf.Encodable vs

def encodings : {ρ : Type} → Fields ρ → ρ → Except Fault (List Bytes)
  | _, .nil, _ => .ok []
  | _, .cons c more, (v, vs) => do
    let x ← c.encode v
    return x :: (← more.encodings vs)

/-- Appends the fields in turn, up to one that cannot be written. -/
def append : {ρ : Type} → Fields ρ → ρ → KeyBuffer → Except Fault Unit × KeyBuffer
  | _, .nil, _, k => (.ok (), k)
  | _, .cons c more, (v, vs), k =>
    match k.append c v with
    | (.error e, k) => (.error e, k)
    | (.ok _, k) => more.append vs k

/-- Gets the fields in turn from the cursor on, each with the number of bytes it takes up. -/
def get (limits : Limits) :
    {ρ : Type} → Fields ρ → KeyBuffer → Except Fault (ρ × List Nat) × KeyBuffer
  | _, .nil, k => (.ok ((), []), k)
  | _, .cons c more, k =>
    match k.get limits c with
    | (.error e, k) => (.error e, k)
    | (.ok (v, n), k) =>
      match more.get limits k with
      | (.error e, k) => (.error e, k)
      | (.ok (vs, ns), k) => (.ok ((v, vs), n :: ns), k)

theorem encodings_cons_eq_ok {c : Codec α} {more : Fields ρ} {v : α} {vs : ρ} {xs : List Bytes} :
    (cons c more).encodings (v, vs) = .ok xs ↔
      ∃ x ys, c.encode v = .ok x ∧ more.encodings vs = .ok ys ∧ x :: ys = xs := by
  rw [encodings, Outcome.bind_eq_ok]
  constructor
  · rintro ⟨x, hx, h⟩
    obtain ⟨ys, hys, h⟩ := Outcome.bind_eq_ok.1 h
    exact ⟨x, ys, hx, hys, Except.ok.inj h⟩
  · rintro ⟨x, ys, hx, hys, rfl⟩
    exact ⟨x, hx, by rw [hys]; rfl⟩

theorem length_encodings {fs : Fields ρ} {vs : ρ} {xs : List Bytes} (h : fs.encodings vs = .ok xs) :
    xs.length = fs.terminators.length := by
  induction fs generalizing xs with
  | nil =>
    cases h
    rfl
  | cons c more ih =>
    obtain ⟨x, ys, -, hys, rfl⟩ := encodings_cons_eq_ok.1 h
    rw [List.length_cons, ih hys, terminators, List.length_cons]

theorem exists_encodings {fs : Fields ρ} (hb : fs.IsBuiltIn) {vs : ρ} (h : fs.Encodable vs) :
    ∃ xs, fs.encodings vs = .ok xs := by
  induction fs with
  | nil => exact ⟨[], rfl⟩
  | cons c more ih =>
    obtain ⟨x, hx⟩ := Codec.exists_encoding hb.1 h.1
    obtain ⟨ys, hys⟩ := ih hb.2 h.2
    exact ⟨x :: ys, encodings_cons_eq_ok.2 ⟨x, ys, hx, hys, rfl⟩⟩

theorem Delimited.cons {c : Codec α} {more : Fields ρ} (h : (Fields.cons c more).Delimited) :
    (c.requiresTerminator = false ∨ more.terminators = []) ∧ more.Delimited := by
  unfold Delimited terminators at h
  cases ht : more.terminators with
  | nil => exact ⟨.inr rfl, by simp [Delimited, ht]⟩
  | cons t ts =>
    rw [ht, List.dropLast_cons_cons] at h
    refine ⟨.inl (h _ List.mem_cons_self), ?_⟩
    unfold Delimited
    rw [ht]
    exact fun t ht => h t (List.mem_cons_of_mem _ ht)

theorem Delimited.encodings_eq_nil {c : Codec α} {more : Fields ρ}
    (h : (Fields.cons c more).Delimited) (ht : c.requiresTerminator = true) {vs : ρ}
    {xs : List Bytes} (hxs : more.encodings vs = .ok xs) : xs = [] := by
  obtain hf | hnil := h.cons.1
  · rw [ht] at hf
    cases hf
  · have hlen := length_encodings hxs
    rwa [hnil, List.length_nil, List.length_eq_zero_iff] at hlen

theorem Delimited.eq_last {fs : Fields ρ} (h : fs.Delimited) {i : Nat}
    (hi : fs.terminators[i]? = some true) : i + 1 = fs.terminators.length := by
  obtain ⟨hlt, hi⟩ := List.getElem?_eq_some_iff.1 hi
  refine Nat.le_antisymm hlt (Nat.le_of_not_lt fun hlast => ?_)
  have hmem : fs.terminators[i] ∈ fs.terminators.dropLast := by
    rw [List.mem_iff_getElem?]
    exact ⟨i, by rw [List.getElem?_dropLast]; simp; omega⟩
  rw [h _ hmem] at hi
  cases hi

end Fields
end SortKey
