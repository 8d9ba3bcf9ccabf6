import SortKey.Proofs.Fields

/-! The order of composite keys. Two keys compare as their first fields with different encodings do,
whatever follows the keys, unless those are the last fields and need a terminator. -/
namespace SortKey.Fields
open Bytes
variable {ρ : Type}

/-- The first difference decides: the fields in front of it are cancelled, and it is either closed
or stands at the end of both keys. -/
theorem compare_first_difference {fs : Fields ρ} (hb : fs.IsBuiltIn) (hd : fs.Delimited) {a b : ρ}
    {xs ys : List Bytes} (hxs : fs.encodings a = .ok xs) (hys : fs.encodings b = .ok ys) {i : Nat}
    {x y : Bytes} (heq : xs.take i = ys.take i) (hx : xs[i]? = some x) (hy : ys[i]? = some y)
    (hne : x ≠ y) {s t : Bytes} (hst : fs.terminators[i]? = some true → s = [] ∧ t = []) :
    compare (xs.flatten ++ s) (ys.flatten ++ t) = compare x y := by
  induction fs generalizing xs ys i with
  | nil =>
    cases hxs
    cases hx
  | cons c more ih =>
    obtain ⟨u, us, hu, hus, rfl⟩ := encodings_cons_eq_ok.1 hxs
    obtain ⟨v, vs, hv, hvs, rfl⟩ := encodings_cons_eq_ok.1 hys
    rw [List.flatten_cons, List.flatten_cons, List.append_assoc, List.append_assoc]
    cases i with
    | zero =>
      cases hx
      cases hy
      cases ht : c.requiresTerminator with
      | false => exact (Codec.apart_encode hb.1 ht hu hv).compare_append_of_ne hne _ _
      | true =>
        -- the last field of both keys, with nothing after it
        obtain ⟨rfl, rfl⟩ := hst (by rw [terminators, List.getElem?_cons_zero, ht])
        rw [hd.encodings_eq_nil ht hus, hd.encodings_eq_nil ht hvs, List.flatten_nil, List.append_nil,
          List.append_nil, List.append_nil]
    | succ i =>
      obtain ⟨huv, hrest⟩ := List.cons_eq_cons.1 heq
      rw [huv, (Apart.refl v).compare_append, Std.compare_self, Ordering.eq_then]
      exact ih hb.2 hd.cons.2 hus hvs hrest hx hy hst

/-- Keys sort field by field. -/
theorem compare_fields (fs : Fields ρ) (hb : fs.IsBuiltIn) (hd : fs.Delimited) (a b : ρ)
    (ha : fs.Encodable a) (hb' : fs.Encodable b) :
    ∃ xs ys, fs.encodings a = .ok xs ∧ fs.encodings b = .ok ys ∧
      xs.length = ys.length ∧
      (xs = ys → compare xs.flatten ys.flatten = .eq) ∧
      ∀ i x y, xs.take i = ys.take i → xs[i]? = some x → ys[i]? = some y → x ≠ y →
        compare xs.flatten ys.flatten = compare x y ∧
        (¬(i + 1 = xs.length ∧ fs.terminators[i]? = some true) →
          ∀ s t, compare (xs.flatten ++ s) (ys.flatten ++ t) = compare x y) := by
  obtain ⟨xs, hxs⟩ := exists_encodings hb ha
  obtain ⟨ys, hys⟩ := exists_encodings hb hb'
  have hlen : xs.length = ys.length := by rw [length_encodings hxs, length_encodings hys]
  refine ⟨xs, ys, hxs, hys, hlen, fun h => ?_, fun i x y heq hx hy hne => ⟨?_, fun hi s t => ?_⟩⟩
  · rw [h, Std.compare_self]
  · have h := compare_first_difference hb hd hxs hys heq hx hy hne fun _ => ⟨rfl, rfl⟩
    simpa only [List.append_nil] using h
  · refine compare_first_difference hb hd hxs hys heq hx hy hne fun ht => absurd ⟨?_, ht⟩ hi
    rw [hd.eq_last ht, length_encodings hxs]

theorem compare_fields_second_of_three :
    let fs : Fields (Bytes × Int × Bytes × Unit) :=
      .cons (.terminate (.leaf .bytes)) (.cons (.leaf .integer) (.cons (.leaf .bytes) .nil))
    let a : Bytes × Int × Bytes × Unit := ([0], -300, [7], ())
    let b : Bytes × Int × Bytes × Unit := ([0], -3, [], ())
    fs.IsBuiltIn ∧ fs.Delimited ∧ fs.Encodable a ∧ fs.Encodable b ∧
      ∃ xs ys, fs.encodings a = .ok xs ∧ fs.encodings b = .ok ys ∧
        ∀ s t, compare (xs.flatten ++ s) (ys.flatten ++ t) = .lt := by
  intro fs a b
  have hb : fs.IsBuiltIn := ⟨trivial, trivial, trivial, trivial⟩
  have hd : fs.Delimited := by decide
  have ha : fs.Encodable a := by decide
  have hb' : fs.Encodable b := by decide
  obtain ⟨xs, ys, hxs, hys, -, -, h⟩ := compare_fields fs hb hd a b ha hb'
  have hxs' : fs.encodings a =
      .ok [[1, 0, 0], [127, 255, 255, 255, 255, 255, 255, 254, 254, 211], [7]] := rfl
  have hys' : fs.encodings b =
      .ok [[1, 0, 0], [127, 255, 255, 255, 255, 255, 255, 255, 252], []] := rfl
  cases hxs.symm.trans hxs'
  cases hys.symm.trans hys'
  have hdiff := (h 1 _ _ rfl rfl rfl (by decide)).2 (by decide)
  exact ⟨hb, hd, ha, hb', _, _, hxs, hys, fun s t => (hdiff s t).trans (by decide)⟩

end SortKey.Fields
