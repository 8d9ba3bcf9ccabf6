import SortKey.Proofs.Outcome
import SortKey.Proofs.Utf8RoundTrip

/-! UTF-8 that is accepted. What a string is decoded from is its encoding. -/
namespace SortKey.Utf8

theorem toNat_val_ofNat {v : Nat} (h : v < 0xd800 ∨ 0xdfff < v ∧ v < 0x110000) :
    (Char.ofNat v).val.toNat = v := by
  have hv : v.isValidChar := h
  rw [Char.ofNat, dif_pos hv]
  rfl

theorem toNat_of_within {low high b : UInt8} (h : within low high b = true) :
    low.toNat ≤ b.toNat ∧ b.toNat ≤ high.toNat := by
  simpa only [within, UInt8.le_iff_toNat_le, Bool.and_eq_true, decide_eq_true_eq] using h

theorem toNat_of_continues {b : UInt8} (h : continues b = true) : 128 ≤ b.toNat ∧ b.toNat ≤ 191 :=
  toNat_of_within h

theorem ofNat_eq {v : Nat} {b : UInt8} (h : v = b.toNat) : UInt8.ofNat v = b := by
  rw [h, UInt8.ofNat_toNat]

/-- The first bytes that announce a sequence, and how far the range of its second byte goes. -/
def Lead.Announces : Lead → Nat → Prop
  | .one, a => a < 128
  | .two, a => 194 ≤ a ∧ a < 224
  | .three low high, a =>
    (224 ≤ a ∧ a < 240) ∧ (128 ≤ low.toNat ∧ high.toNat ≤ 191) ∧
      (a = 224 → 160 ≤ low.toNat) ∧ (a = 237 → high.toNat ≤ 159)
  | .four low high, a =>
    (240 ≤ a ∧ a ≤ 244) ∧ (128 ≤ low.toNat ∧ high.toNat ≤ 191) ∧
      (a = 240 → 144 ≤ low.toNat) ∧ (a = 244 → high.toNat ≤ 143)

theorem announces_of_lead? {a : UInt8} {l : Lead} (h : lead? a = some l) : l.Announces a.toNat := by
  rw [lead?_eq] at h
  repeat' split at h
  all_goals cases h
  all_goals
    simp only [Lead.Announces, UInt8.reduceToNat]
    omega

theorem utf8EncodeChar_ofNat {a : UInt8} (ha : Lead.one.Announces a.toNat) :
    String.utf8EncodeChar (Char.ofNat a.toNat) = [a] := by
  have hlow : a.toNat < 128 := ha
  rw [String.utf8EncodeChar, toNat_val_ofNat (by omega), if_pos (by omega), UInt8.ofNat_toNat]

theorem utf8EncodeChar_join2 {a b : UInt8} (ha : Lead.two.Announces a.toNat)
    (hb : continues b = true) : String.utf8EncodeChar (join2 a b) = [a, b] := by
  obtain ⟨hal, hah⟩ := ha
  obtain ⟨hbl, hbh⟩ := toNat_of_continues hb
  rw [String.utf8EncodeChar, join2, toNat_val_ofNat (by omega)]
  rw [if_neg (by omega), if_pos (by omega), ofNat_eq (b := a) (by omega), ofNat_eq (b := b) (by omega)]

theorem utf8EncodeChar_join3 {a b c low high : UInt8} (ha : (Lead.three low high).Announces a.toNat)
    (hb : within low high b = true) (hc : continues c = true) :
    String.utf8EncodeChar (join3 a b c) = [a, b, c] := by
  obtain ⟨⟨hal, hah⟩, ⟨hlow, hhigh⟩, hlong, hsurrogate⟩ := ha
  obtain ⟨hbl, hbh⟩ := toNat_of_within hb
  obtain ⟨hcl, hch⟩ := toNat_of_continues hc
  rw [String.utf8EncodeChar, join3, toNat_val_ofNat (by omega)]
  rw [if_neg (by omega), if_neg (by omega), if_pos (by omega), ofNat_eq (b := a) (by omega),
    ofNat_eq (b := b) (by omega), ofNat_eq (b := c) (by omega)]

theorem utf8EncodeChar_join4 {a b c d low high : UInt8}
    (ha : (Lead.four low high).Announces a.toNat) (hb : within low high b = true)
    (hc : continues c = true) (hd : continues d = true) :
    String.utf8EncodeChar (join4 a b c d) = [a, b, c, d] := by
  obtain ⟨⟨hal, hah⟩, ⟨hlow, hhigh⟩, hlong, hlarge⟩ := ha
  obtain ⟨hbl, hbh⟩ := toNat_of_within hb
  obtain ⟨hcl, hch⟩ := toNat_of_continues hc
  obtain ⟨hdl, hdh⟩ := toNat_of_continues hd
  rw [String.utf8EncodeChar, join4, toNat_val_ofNat (by omega)]
  rw [if_neg (by omega), if_neg (by omega), if_neg (by omega), ofNat_eq (b := a) (by omega),
    ofNat_eq (b := b) (by omega), ofNat_eq (b := c) (by omega), ofNat_eq (b := d) (by omega)]

section
variable {a : UInt8} {rest : Bytes} {c : Char} {k : Nat}

theorem next_eq_ok_one (hl : lead? a = some .one) (h : next a rest = .ok (c, k)) :
    c = Char.ofNat a.toNat ∧ k = 0 := by
  rw [next.eq_def, hl] at h
  cases h
  exact ⟨rfl, rfl⟩

theorem next_eq_ok_two (hl : lead? a = some .two) (h : next a rest = .ok (c, k)) :
    ∃ b more, rest = b :: more ∧ continues b = true ∧ c = join2 a b ∧ k = 1 := by
  rw [next.eq_def, hl] at h
  cases rest with
  | nil => cases h
  | cons b more =>
    dsimp only at h
    split at h
    · next hb =>
      cases h
      exact ⟨b, more, rfl, hb, rfl, rfl⟩
    · cases h

theorem next_eq_ok_three {low high : UInt8} (hl : lead? a = some (.three low high))
    (h : next a rest = .ok (c, k)) :
    ∃ b d more, rest = b :: d :: more ∧ within low high b = true ∧ continues d = true ∧
      c = join3 a b d ∧ k = 2 := by
  rw [next.eq_def, hl] at h
  obtain _ | ⟨b, _ | ⟨d, more⟩⟩ := rest
  · cases h
  · dsimp only at h
    split at h <;> cases h
  · dsimp only at h
    split at h
    · cases h
    next hb =>
    split at h
    · next hd =>
      cases h
      exact ⟨b, d, more, rfl, by simpa using hb, hd, rfl, rfl⟩
    · cases h

theorem next_eq_ok_four {low high : UInt8} (hl : lead? a = some (.four low high))
    (h : next a rest = .ok (c, k)) :
    ∃ b d e more, rest = b :: d :: e :: more ∧ within low high b = true ∧ continues d = true ∧
      continues e = true ∧ c = join4 a b d e ∧ k = 3 := by
  rw [next.eq_def, hl] at h
  obtain _ | ⟨b, _ | ⟨d, _ | ⟨e, more⟩⟩⟩ := rest
  · cases h
  · dsimp only at h
    split at h <;> cases h
  · dsimp only at h
    split at h
    · cases h
    · split at h <;> cases h
  · dsimp only at h
    split at h
    · cases h
    next hb =>
    split at h
    · cases h
    next hd =>
    split at h
    · next he =>
      cases h
      exact ⟨b, d, e, more, rfl, by simpa using hb, by simpa using hd, he, rfl, rfl⟩
    · cases h

theorem utf8EncodeChar_of_next (h : next a rest = .ok (c, k)) :
    String.utf8EncodeChar c ++ rest.drop k = a :: rest := by
  cases hl : lead? a with
  | none =>
    rw [next.eq_def, hl] at h
    cases h
  | some l =>
    have ha := announces_of_lead? hl
    cases l with
    | one =>
      obtain ⟨rfl, rfl⟩ := next_eq_ok_one hl h
      rw [utf8EncodeChar_ofNat ha]
      rfl
    | two =>
      obtain ⟨b, more, rfl, hb, rfl, rfl⟩ := next_eq_ok_two hl h
      rw [utf8EncodeChar_join2 ha hb]
      rfl
    | three low high =>
      obtain ⟨b, d, more, rfl, hb, hd, rfl, rfl⟩ := next_eq_ok_three hl h
      rw [utf8EncodeChar_join3 ha hb hd]
      rfl
    | four low high =>
      obtain ⟨b, d, e, more, rfl, hb, hd, he, rfl, rfl⟩ := next_eq_ok_four hl h
      rw [utf8EncodeChar_join4 ha hb hd he]
      rfl

end

theorem flatMap_of_charsFrom {i : Nat} {bs : Bytes} {cs : List Char} (h : charsFrom i bs = .ok cs) :
    cs.flatMap String.utf8EncodeChar = bs := by
  induction i, bs using charsFrom.induct generalizing cs with
  | case1 i =>
    rw [charsFrom_nil] at h
    cases h
    rfl
  | case2 i a rest length hnext =>
    rw [charsFrom, hnext] at h
    cases h
  | case3 i a rest c k hnext ih =>
    rw [charsFrom, hnext] at h
    obtain ⟨more, hmore, rfl⟩ := Outcome.map_eq_ok.1 h
    rw [List.flatMap_cons, ih hmore, utf8EncodeChar_of_next hnext]

theorem encode_of_decode {bs : Bytes} {s : String} (h : decode bs = .ok s) : encode s = bs := by
  obtain ⟨cs, hcs, rfl⟩ := Outcome.map_eq_ok.1 h
  rw [encode, String.toList_ofList, flatMap_of_charsFrom hcs]

end SortKey.Utf8
