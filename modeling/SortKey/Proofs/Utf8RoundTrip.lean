import SortKey.Utf8

/-! UTF-8 read back. A string is decoded from its encoding. -/
namespace SortKey.Utf8

theorem toNat_ofNat_of_lt {v : Nat} (h : v < 256) : (UInt8.ofNat v).toNat = v :=
  UInt8.toNat_ofNat_of_lt' h

theorem char_valid (c : Char) : c.toNat < 0xd800 ∨ 0xdfff < c.toNat ∧ c.toNat < 0x110000 := by
  have h := c.valid
  simp only [UInt32.isValidChar, Nat.isValidChar] at h
  exact h

theorem lead?_eq (a : UInt8) :
    lead? a =
      if a.toNat < 128 then some .one
      else if a.toNat < 194 then none
      else if a.toNat < 224 then some .two
      else if a.toNat = 224 then some (.three 0xa0 0xbf)
      else if a.toNat = 237 then some (.three 0x80 0x9f)
      else if a.toNat < 240 then some (.three 0x80 0xbf)
      else if a.toNat = 240 then some (.four 0x90 0xbf)
      else if a.toNat < 244 then some (.four 0x80 0xbf)
      else if a.toNat = 244 then some (.four 0x80 0x8f)
      else none := by
  simp only [lead?, UInt8.lt_iff_toNat_lt, ← UInt8.toNat_inj]
  rfl

theorem within_of_le {low high b : UInt8} (hl : low.toNat ≤ b.toNat) (hh : b.toNat ≤ high.toNat) :
    within low high b = true := by
  simp only [within, UInt8.le_iff_toNat_le, Bool.and_eq_true, decide_eq_true_eq]
  exact ⟨hl, hh⟩

theorem continues_ofNat (v : Nat) : continues (UInt8.ofNat (v % 64 + 128)) = true := by
  have hb : (UInt8.ofNat (v % 64 + 128)).toNat = v % 64 + 128 := toNat_ofNat_of_lt (by omega)
  refine within_of_le ?_ ?_ <;> rw [hb]
  · exact Nat.le_add_left 128 _
  · change v % 64 + 128 ≤ 191
    omega

theorem next_one {v : Nat} (h : v ≤ 0x7f) (rest : Bytes) :
    next (UInt8.ofNat v) rest = .ok (Char.ofNat v, 0) := by
  have ha : (UInt8.ofNat v).toNat = v := toNat_ofNat_of_lt (by omega)
  have hlead : lead? (UInt8.ofNat v) = some .one := by rw [lead?_eq, ha, if_pos (by omega)]
  rw [next.eq_def, hlead]
  dsimp only
  rw [ha]

theorem next_two {v : Nat} (hl : 0x7f < v) (hh : v ≤ 0x7ff) (rest : Bytes) :
    next (UInt8.ofNat (v / 64 % 32 + 192)) (UInt8.ofNat (v % 64 + 128) :: rest) =
      .ok (Char.ofNat v, 1) := by
  have ha : (UInt8.ofNat (v / 64 % 32 + 192)).toNat = v / 64 % 32 + 192 :=
    toNat_ofNat_of_lt (by omega)
  have hb : (UInt8.ofNat (v % 64 + 128)).toNat = v % 64 + 128 := toNat_ofNat_of_lt (by omega)
  have hlead : lead? (UInt8.ofNat (v / 64 % 32 + 192)) = some .two := by
    rw [lead?_eq, ha, if_neg (by omega), if_neg (by omega), if_pos (by omega)]
  have hv : (v / 64 % 32 + 192) % 32 * 64 + (v % 64 + 128) % 64 = v := by omega
  rw [next, hlead]
  dsimp only
  rw [if_pos (continues_ofNat v), join2, ha, hb, hv]

/-- The range of the second byte leaves out what two bytes could hold, and the surrogates. -/
theorem lead?_three {v : Nat} (hl : 0x7ff < v) (hh : v ≤ 0xffff)
    (hs : v < 0xd800 ∨ 0xdfff < v) :
    ∃ low high, lead? (UInt8.ofNat (v / 4096 % 16 + 224)) = some (.three low high) ∧
      within low high (UInt8.ofNat (v / 64 % 64 + 128)) = true := by
  have ha : (UInt8.ofNat (v / 4096 % 16 + 224)).toNat = v / 4096 % 16 + 224 :=
    toNat_ofNat_of_lt (by omega)
  have hb : (UInt8.ofNat (v / 64 % 64 + 128)).toNat = v / 64 % 64 + 128 :=
    toNat_ofNat_of_lt (by omega)
  rw [lead?_eq, ha, if_neg (by omega), if_neg (by omega), if_neg (by omega)]
  by_cases h0 : v / 4096 % 16 + 224 = 224
  · refine ⟨_, _, if_pos h0, within_of_le ?_ ?_⟩ <;> rw [hb]
    · change 160 ≤ v / 64 % 64 + 128
      omega
    · change v / 64 % 64 + 128 ≤ 191
      omega
  rw [if_neg h0]
  by_cases h1 : v / 4096 % 16 + 224 = 237
  · refine ⟨_, _, if_pos h1, within_of_le ?_ ?_⟩ <;> rw [hb]
    · exact Nat.le_add_left 128 _
    · change v / 64 % 64 + 128 ≤ 159
      omega
  rw [if_neg h1, if_pos (by omega)]
  exact ⟨_, _, rfl, continues_ofNat (v / 64)⟩

theorem next_three {v : Nat} (hl : 0x7ff < v) (hh : v ≤ 0xffff) (hs : v < 0xd800 ∨ 0xdfff < v)
    (rest : Bytes) :
    next (UInt8.ofNat (v / 4096 % 16 + 224))
        (UInt8.ofNat (v / 64 % 64 + 128) :: UInt8.ofNat (v % 64 + 128) :: rest) =
      .ok (Char.ofNat v, 2) := by
  obtain ⟨low, high, hlead, hb⟩ := lead?_three hl hh hs
  have hv : ((v / 4096 % 16 + 224) % 16 * 64 + (v / 64 % 64 + 128) % 64) * 64 + (v % 64 + 128) % 64 =
      v := by omega
  rw [next, hlead]
  dsimp only
  rw [hb, if_neg (by decide), if_pos (continues_ofNat v), join3, toNat_ofNat_of_lt (by omega),
    toNat_ofNat_of_lt (by omega), toNat_ofNat_of_lt (by omega), hv]

/-- The range of the second byte leaves out what three bytes could hold, and all that is too large.
-/
theorem lead?_four {v : Nat} (hl : 0xffff < v) (hh : v < 0x110000) :
    ∃ low high, lead? (UInt8.ofNat (v / 262144 % 8 + 240)) = some (.four low high) ∧
      within low high (UInt8.ofNat (v / 4096 % 64 + 128)) = true := by
  have ha : (UInt8.ofNat (v / 262144 % 8 + 240)).toNat = v / 262144 % 8 + 240 :=
    toNat_ofNat_of_lt (by omega)
  have hb : (UInt8.ofNat (v / 4096 % 64 + 128)).toNat = v / 4096 % 64 + 128 :=
    toNat_ofNat_of_lt (by omega)
  rw [lead?_eq, ha, if_neg (by omega), if_neg (by omega), if_neg (by omega), if_neg (by omega),
    if_neg (by omega), if_neg (by omega)]
  by_cases h0 : v / 262144 % 8 + 240 = 240
  · refine ⟨_, _, if_pos h0, within_of_le ?_ ?_⟩ <;> rw [hb]
    · change 144 ≤ v / 4096 % 64 + 128
      omega
    · change v / 4096 % 64 + 128 ≤ 191
      omega
  rw [if_neg h0]
  by_cases h1 : v / 262144 % 8 + 240 < 244
  · exact ⟨_, _, if_pos h1, continues_ofNat (v / 4096)⟩
  rw [if_neg h1, if_pos (by omega)]
  refine ⟨_, _, rfl, within_of_le ?_ ?_⟩ <;> rw [hb]
  · exact Nat.le_add_left 128 _
  · change v / 4096 % 64 + 128 ≤ 143
    omega

theorem next_four {v : Nat} (hl : 0xffff < v) (hh : v < 0x110000) (rest : Bytes) :
    next (UInt8.ofNat (v / 262144 % 8 + 240))
        (UInt8.ofNat (v / 4096 % 64 + 128) :: UInt8.ofNat (v / 64 % 64 + 128) ::
          UInt8.ofNat (v % 64 + 128) :: rest) =
      .ok (Char.ofNat v, 3) := by
  obtain ⟨low, high, hlead, hb⟩ := lead?_four hl hh
  have hv : (((v / 262144 % 8 + 240) % 8 * 64 + (v / 4096 % 64 + 128) % 64) * 64 +
      (v / 64 % 64 + 128) % 64) * 64 + (v % 64 + 128) % 64 = v := by omega
  rw [next, hlead]
  dsimp only
  rw [hb, if_neg (by decide), continues_ofNat (v / 64), if_neg (by decide),
    if_pos (continues_ofNat v), join4, toNat_ofNat_of_lt (by omega), toNat_ofNat_of_lt (by omega),
    toNat_ofNat_of_lt (by omega), toNat_ofNat_of_lt (by omega), hv]

theorem next_utf8EncodeChar (c : Char) (tail : Bytes) :
    ∃ a rest k, String.utf8EncodeChar c ++ tail = a :: rest ∧ next a rest = .ok (c, k) ∧
      rest.drop k = tail ∧ (String.utf8EncodeChar c).length = k + 1 := by
  have hc : Char.ofNat c.val.toNat = c := c.ofNat_toNat
  have hv : c.val.toNat < 0xd800 ∨ 0xdfff < c.val.toNat ∧ c.val.toNat < 0x110000 := char_valid c
  rw [String.utf8EncodeChar]
  generalize c.val.toNat = v at hc hv
  subst hc
  by_cases h1 : v ≤ 0x7f
  · rw [if_pos h1]
    exact ⟨_, _, 0, rfl, next_one h1 tail, rfl, rfl⟩
  by_cases h2 : v ≤ 0x7ff
  · rw [if_neg h1, if_pos h2]
    exact ⟨_, _, 1, rfl, next_two (by omega) h2 tail, rfl, rfl⟩
  by_cases h3 : v ≤ 0xffff
  · rw [if_neg h1, if_neg h2, if_pos h3]
    exact ⟨_, _, 2, rfl, next_three (by omega) h3 (by omega) tail, rfl, rfl⟩
  · rw [if_neg h1, if_neg h2, if_neg h3]
    exact ⟨_, _, 3, rfl, next_four (by omega) (by omega) tail, rfl, rfl⟩

theorem charsFrom_flatMap_append (i : Nat) (cs : List Char) (more : Bytes) :
    charsFrom i (cs.flatMap String.utf8EncodeChar ++ more) =
      (charsFrom (i + (cs.flatMap String.utf8EncodeChar).length) more).map (cs ++ ·) := by
  induction cs generalizing i with
  | nil =>
    change charsFrom i more = (charsFrom i more).map id
    cases charsFrom i more <;> rfl
  | cons c cs ih =>
    obtain ⟨a, rest, k, heq, hnext, hdrop, hlen⟩ :=
      next_utf8EncodeChar c (cs.flatMap String.utf8EncodeChar ++ more)
    have hindex : i + (String.utf8EncodeChar c ++ cs.flatMap String.utf8EncodeChar).length =
        i + k + 1 + (cs.flatMap String.utf8EncodeChar).length := by
      rw [List.length_append, hlen]
      omega
    rw [List.flatMap_cons, List.append_assoc, heq, charsFrom, hnext, hindex]
    dsimp only
    rw [hdrop, ih]
    cases charsFrom (i + k + 1 + (cs.flatMap String.utf8EncodeChar).length) more <;> rfl

theorem charsFrom_flatMap (i : Nat) (cs : List Char) :
    charsFrom i (cs.flatMap String.utf8EncodeChar) = .ok cs := by
  have h := charsFrom_flatMap_append i cs []
  rw [List.append_nil, charsFrom_nil] at h
  rw [h, Except.map, List.append_nil]

theorem decode_encode (s : String) : decode (encode s) = .ok s := by
  rw [decode, encode, charsFrom_flatMap]
  exact congrArg Except.ok (String.ofList_toList)

end SortKey.Utf8
