import SortKey.Proofs.LeafEncoding

/-! The encodings of codecs. A codec pushes the same bytes onto every buffer if what the caller supplies
does, and the encodings of a built-in one are those of its parts, framed or one after another. -/
namespace SortKey.Codec
variable {α β : Type}

/-- A codec for the elements of a sequence of `c`: they are framed if they need it. -/
def unit (c : Codec α) : Codec α := if c.requiresTerminator then c.terminate else c

theorem unit_of_true {c : Codec α} (h : c.requiresTerminator = true) : c.unit = c.terminate := by
  rw [unit, if_pos h]

theorem unit_of_false {c : Codec α} (h : c.requiresTerminator = false) : c.unit = c := by
  rw [unit, if_neg (by simp [h])]

theorem unit_eq_or (c : Codec α) : c.unit = c.terminate ∨ c.unit = c := by
  cases h : c.requiresTerminator with
  | false => exact .inr (unit_of_false h)
  | true => exact .inl (unit_of_true h)

@[simp] theorem requiresTerminator_unit (c : Codec α) : c.unit.requiresTerminator = false := by
  cases h : c.requiresTerminator with
  | false => rw [unit_of_false h, h]
  | true => rw [unit_of_true h, requiresTerminator]

theorem isBuiltIn_unit {c : Codec α} (h : c.IsBuiltIn) : c.unit.IsBuiltIn := by
  obtain hu | hu := c.unit_eq_or <;> rw [hu] <;> exact h

theorem append_seq (c : Codec α) (vs : List α) : (Codec.seq c).append vs = vs.forM c.unit.append := by
  rw [append]
  congr 1
  funext v
  cases h : c.requiresTerminator with
  | false => simp [unit_of_false h]
  | true => simp [unit_of_true h, append, Frame.maskOf]

/-- What the caller supplies comes to the same on every buffer, and pushes the same bytes onto it. -/
def OnlyPushes : {α : Type} → Codec α → Prop
  | _, .leaf _ => True
  | _, .custom c => ∀ v, (c.append v).Additive
  | _, .framed _ c => c.OnlyPushes
  | _, .nullable _ c => c.OnlyPushes
  | _, .seq c => c.OnlyPushes
  | _, .convert _ _ c => c.OnlyPushes

theorem onlyPushes_of_isBuiltIn {c : Codec α} (hc : c.IsBuiltIn) : c.OnlyPushes := by
  induction c with
  | leaf l => trivial
  | custom c => exact hc.elim
  | framed reversed c ih => exact ih hc
  | nullable order c ih => exact ih hc
  | seq c ih => exact ih hc
  | convert represent restore c ih => exact ih hc

theorem additive_of_onlyPushes {c : Codec α} (hc : c.OnlyPushes) (v : α) : (c.append v).Additive := by
  induction c with
  | leaf l => exact l.additive_append v
  | custom c => exact hc v
  | framed reversed c ih => exact Writing.additive_framed _ _
  | nullable order c ih =>
    cases v with
    | none => exact Writing.additive_push _
    | some v => exact (Writing.additive_push _).andThen (ih hc v)
  | seq c ih =>
    rw [append_seq]
    refine Writing.Additive.forM (fun u => ?_) v
    obtain hu | hu := c.unit_eq_or <;> rw [hu]
    · exact Writing.additive_framed _ _
    · exact ih hc u
  | convert represent restore c ih => exact ih hc (represent v)

theorem additive_append {c : Codec α} (hc : c.IsBuiltIn) (v : α) : (c.append v).Additive :=
  additive_of_onlyPushes (onlyPushes_of_isBuiltIn hc) v

theorem onto_append {c : Codec α} (hc : c.IsBuiltIn) {v : α} {x : Bytes} (h : c.encode v = .ok x)
    (buffer : Bytes) : (c.append v).onto buffer = (.ok (), buffer ++ x) :=
  (additive_append hc v).onto_eq h buffer

theorem encode_framed (reversed : Bool) (c : Codec α) (v : α) :
    (Codec.framed reversed c).encode v = (c.encode v).map (Frame.encode (Frame.maskOf reversed)) :=
  Writing.encoding_framed _ _

theorem encode_nullable_some (order : NilOrder) {c : Codec α} (hc : c.IsBuiltIn) (v : α) :
    (Codec.nullable order c).encode (some v) =
      (c.encode v).map (Presence.byte order false :: ·) := by
  rw [encode, append, Writing.encoding_andThen (additive_append hc v)]
  rfl

theorem encode_seq_nil (c : Codec α) : (Codec.seq c).encode [] = .ok [] := by
  rw [encode, append_seq]
  rfl

theorem encode_seq_cons {c : Codec α} (hc : c.IsBuiltIn) (v : α) (vs : List α) :
    (Codec.seq c).encode (v :: vs) =
      c.unit.encode v >>= fun x => ((Codec.seq c).encode vs).map (x ++ ·) := by
  have hs : (vs.forM c.unit.append).Additive :=
    Writing.Additive.forM (fun u => additive_append (isBuiltIn_unit hc) u) vs
  rw [encode, append_seq, encode, encode, append_seq]
  exact Writing.encoding_andThen hs

theorem exists_of_encode_seq_cons {c : Codec α} (hc : c.IsBuiltIn) {v : α} {vs : List α} {x : Bytes}
    (h : (Codec.seq c).encode (v :: vs) = .ok x) :
    ∃ u y, c.unit.encode v = .ok u ∧ (Codec.seq c).encode vs = .ok y ∧ x = u ++ y := by
  rw [encode_seq_cons hc, Outcome.bind_eq_ok] at h
  obtain ⟨u, hu, h⟩ := h
  obtain ⟨y, hy, rfl⟩ := Outcome.map_eq_ok.1 h
  exact ⟨u, y, hu, hy, rfl⟩

/-- `P` holds of what every leaf of the codec has to encode. -/
def Everywhere (P : ∀ {α : Type}, Leaf α → α → Prop) : {α : Type} → Codec α → α → Prop
  | _, .leaf l, v => P l v
  | _, .custom _, _ => True
  | _, .framed _ c, v => c.Everywhere P v
  | _, .nullable _ c, v => ∀ u ∈ v, c.Everywhere P u
  | _, .seq c, vs => ∀ u ∈ vs, c.Everywhere P u
  | _, .convert represent _ c, v => c.Everywhere P (represent v)

instance decidableEverywhere (P : ∀ {α : Type}, Leaf α → α → Prop)
    [h : ∀ {α : Type} (l : Leaf α) (v : α), Decidable (P l v)] :
    {α : Type} → (c : Codec α) → (v : α) → Decidable (c.Everywhere P v)
  | _, .leaf l, v => h l v
  | _, .custom _, _ => .isTrue trivial
  | _, .framed _ c, v => decidableEverywhere P c v
  | _, .nullable _ _, none => .isTrue nofun
  | _, .nullable _ c, some v =>
    @decidable_of_iff _ _ (by simp [Everywhere]) (decidableEverywhere P c v)
  | _, .seq c, vs => @List.decidableBAll _ _ (fun u => decidableEverywhere P c u) vs
  | _, .convert represent _ c, v => decidableEverywhere P c (represent v)

end SortKey.Codec
