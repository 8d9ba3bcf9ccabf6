import SortKey.Proofs.CodecRoundTrip
import SortKey.Proofs.Fields

/-! Composite keys read back. The fields of a key are found one after another, each where the last one
ended, and what follows the key is left alone. -/
namespace SortKey.Fields
variable {ρ : Type}

def Faithful : {ρ : Type} → Fields ρ → Prop
  | _, .nil => True
  | _, .cons c more => c.Faithful ∧ more.Faithful

abbrev Within (n : Nat) (fs : Fields ρ) (vs : ρ) : Prop := fs.Everywhere (Leaf.Within n) vs

theorem append_eq_push {fs : Fields ρ} (hb : fs.IsBuiltIn) {vs : ρ} {xs : List Bytes}
    (hxs : fs.encodings vs = .ok xs) (k : KeyBuffer) :
    fs.append vs k = (.ok (), k.push xs.flatten) := by
  induction fs generalizing xs k with
  | nil =>
    cases hxs
    simp [append, KeyBuffer.push]
  | cons c more ih =>
    obtain ⟨x, ys, hx, hys, rfl⟩ := encodings_cons_eq_ok.1 hxs
    have hk : k.append c vs.1 = (.ok (), k.push x) := by
      rw [KeyBuffer.append, Codec.onto_append hb.1 hx]
      rfl
    rw [append, hk]
    dsimp only
    rw [ih hb.2 hys, KeyBuffer.push, KeyBuffer.push, KeyBuffer.push, List.flatten_cons,
      List.append_assoc]

/-- Fields are got from the middle of a buffer: `before` has been got already. -/
theorem get_flatten {limits : Limits} {fs : Fields ρ} (hb : fs.IsBuiltIn) (hd : fs.Delimited)
    (hf : fs.Faithful) {vs : ρ} (he : fs.Encodable vs) (hl : fs.Within limits.integerBytes vs)
    {xs : List Bytes} (hxs : fs.encodings vs = .ok xs) {rest : Bytes}
    (hrest : fs.terminators.getLast? = some true → rest = []) (before : Bytes) :
    fs.get limits ⟨before ++ (xs.flatten ++ rest), before.length⟩ =
      (.ok (vs, xs.map List.length),
        ⟨before ++ (xs.flatten ++ rest), before.length + xs.flatten.length⟩) := by
  induction fs generalizing xs before with
  | nil =>
    cases hxs
    rfl
  | cons c more ih =>
    obtain ⟨x, ys, hx, hys, rfl⟩ := encodings_cons_eq_ok.1 hxs
    -- a field that goes on to the end of the key is the last one
    have hempty : c.requiresTerminator = true → ys.flatten ++ rest = [] := by
      intro ht
      have hnil := hd.encodings_eq_nil ht hys
      have hmore := length_encodings hys
      rw [hnil, List.length_nil, eq_comm, List.length_eq_zero_iff] at hmore
      rw [hnil, hrest (by rw [terminators, hmore, ht]; rfl)]
      rfl
    have hmore : more.terminators.getLast? = some true → rest = [] := by
      intro h
      exact hrest (by rw [terminators, List.getLast?_cons, h]; rfl)
    have hget := Codec.get_append hb.1 hf.1 he.1 hl.1 hx hempty
    have hk : KeyBuffer.get ⟨before ++ (x ++ (ys.flatten ++ rest)), before.length⟩ limits c =
        (.ok (vs.1, x.length),
          ⟨(before ++ x) ++ (ys.flatten ++ rest), (before ++ x).length⟩) := by
      rw [KeyBuffer.get, KeyBuffer.rest, List.drop_left, hget]
      simp
    have htail := ih hb.2 hd.cons.2 hf.2 he.2 hl.2 hys hmore (before ++ x)
    rw [List.flatten_cons, List.append_assoc, get, hk]
    dsimp only
    rw [htail]
    simp [Nat.add_assoc]

/-- A composite key is taken apart into what it was made of. -/
theorem append_then_get (fs : Fields ρ) (limits : Limits) (hb : fs.IsBuiltIn) (hd : fs.Delimited)
    (hf : fs.Faithful) (vs : ρ) (he : fs.Encodable vs) (hl : fs.Within limits.integerBytes vs)
    (rest : Bytes) (hrest : fs.terminators.getLast? = some true → rest = []) :
    ∃ xs, fs.encodings vs = .ok xs ∧ fs.append vs {} = (.ok (), ⟨xs.flatten, 0⟩) ∧
      fs.get limits ⟨xs.flatten ++ rest, 0⟩ =
        (.ok (vs, xs.map List.length), ⟨xs.flatten ++ rest, xs.flatten.length⟩) := by
  obtain ⟨xs, hxs⟩ := exists_encodings hb he
  have hget := get_flatten hb hd hf he hl hxs hrest []
  rw [List.length_nil, Nat.zero_add, List.nil_append] at hget
  exact ⟨xs, hxs, append_eq_push hb hxs {}, hget⟩

theorem append_then_get_names_and_balance :
    let fs : Fields (List String × Int × Option (BitVec 64) × Unit) :=
      .cons (.negate (.seq (.leaf .string))) (.cons (.convert (-·) (-·) (.leaf .integer))
        (.cons (.nullable .last (.leaf (.unsigned .w64))) .nil))
    let v : List String × Int × Option (BitVec 64) × Unit := (["a", ""], -300, some 7, ())
    fs.IsBuiltIn ∧ fs.Delimited ∧ fs.Faithful ∧ fs.Encodable v ∧ fs.Within 16777216 v ∧
      ∀ rest, ∃ xs : List Bytes, fs.append v {} = (.ok (), ⟨xs.flatten, 0⟩) ∧
        fs.get {} ⟨xs.flatten ++ rest, 0⟩ =
          (.ok (v, xs.map List.length), ⟨xs.flatten ++ rest, xs.flatten.length⟩) := by
  intro fs v
  have hb : fs.IsBuiltIn := ⟨trivial, trivial, trivial, trivial⟩
  have hd : fs.Delimited := by decide
  have hf : fs.Faithful := ⟨trivial, ⟨Int.neg_neg, trivial⟩, trivial, trivial⟩
  have he : fs.Encodable v := by decide
  have hl : fs.Within 16777216 v := by decide
  refine ⟨hb, hd, hf, he, hl, fun rest => ?_⟩
  have hlast : fs.terminators.getLast? = some true → rest = [] := nofun
  obtain ⟨xs, -, happend, hget⟩ := append_then_get fs {} hb hd hf v he hl rest hlast
  exact ⟨xs, happend, hget⟩

end SortKey.Fields
