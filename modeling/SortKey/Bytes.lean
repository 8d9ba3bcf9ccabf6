/-! Byte strings: what keys, frames and payloads are made of. Keys are ordered by `compare`, the
lexicographic order of unsigned bytes in which a proper prefix comes first. -/
namespace SortKey

abbrev Bytes := List UInt8

namespace Bytes

/-- All lengths stay below this, `2 ^ 63`. -/
def lengthBound : Nat := 9223372036854775808

def hexDigit (n : Nat) : Char := "0123456789abcdef".toList.getD n '0'

/-- The two lower case hexadecimal digits of a byte. -/
def hexByte (b : UInt8) : String :=
  String.ofList [hexDigit (b.toNat / 16), hexDigit (b.toNat % 16)]

def masked (mask : UInt8) (bs : Bytes) : Bytes := bs.map (· ^^^ mask)

/-- The bytes `after` has beyond `before`, when it is longer and starts with it. -/
def growth (before after : Bytes) : Option Bytes :=
  if before.length < after.length ∧ before.isPrefixOf after then
    some (after.drop before.length)
  else none

theorem xor_xor_cancel (b mask : UInt8) : b ^^^ mask ^^^ mask = b := by
  rw [UInt8.xor_assoc, UInt8.xor_self, UInt8.xor_zero]

@[simp] theorem masked_nil (mask : UInt8) : masked mask [] = [] := rfl

@[simp] theorem masked_cons (mask b : UInt8) (bs : Bytes) :
    masked mask (b :: bs) = (b ^^^ mask) :: masked mask bs := rfl

@[simp] theorem masked_append (mask : UInt8) (as bs : Bytes) :
    masked mask (as ++ bs) = masked mask as ++ masked mask bs := by
  simp [masked]

@[simp] theorem length_masked (mask : UInt8) (bs : Bytes) :
    (masked mask bs).length = bs.length := by
  simp [masked]

@[simp] theorem masked_masked (mask : UInt8) (bs : Bytes) : masked mask (masked mask bs) = bs := by
  induction bs with
  | nil => rfl
  | cons b bs ih => rw [masked_cons, masked_cons, xor_xor_cancel, ih]

theorem growth_eq_some_iff {before after added : Bytes} :
    growth before after = some added ↔ after = before ++ added ∧ added ≠ [] := by
  rw [growth]
  constructor
  · intro h
    split at h
    · next hgrown =>
      obtain ⟨hlen, hprefix⟩ := hgrown
      obtain ⟨rest, rfl⟩ := List.isPrefixOf_iff_prefix.1 hprefix
      rw [List.drop_left, Option.some.injEq] at h
      subst h
      refine ⟨rfl, fun hnil => ?_⟩
      rw [hnil, List.append_nil] at hlen
      exact Nat.lt_irrefl _ hlen
    · cases h
  · rintro ⟨rfl, hne⟩
    have hpos := List.length_pos_iff.2 hne
    rw [if_pos ⟨by rw [List.length_append]; omega, by simp⟩, List.drop_left]

end Bytes
end SortKey
