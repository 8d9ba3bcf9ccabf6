import SortKey.Codec.Get
import SortKey.Codec.Write
import SortKey.Proofs.DigitOrder
import SortKey.Proofs.Utf8Flaw

/-! The order of strings. Encodings compare as the sequences of scalar values do, and strings are decoded
from exactly their UTF-8; all else is refused, with what is wrong with it. -/
namespace SortKey.Utf8
open Bytes

/-! ### One scalar value -/

def continuations (v : Nat) : Nat :=
  if v ≤ 0x7f then 0 else if v ≤ 0x7ff then 1 else if v ≤ 0xffff then 2 else 3

/-- What is added to a first byte to announce so many bytes after it. -/
def marker : Nat → Nat
  | 0 => 0
  | 1 => 192
  | 2 => 224
  | _ => 240

def lead (v : Nat) : Nat := v / 64 ^ continuations v + marker (continuations v)

/-- The `k` lowest groups of six bits, a byte each, the highest first. -/
def sextets : Nat → Nat → Bytes
  | 0, _ => []
  | k + 1, v => UInt8.ofNat (v / 64 ^ k % 64 + 128) :: sextets k v

@[simp] theorem length_sextets (k v : Nat) : (sextets k v).length = k := by
  induction k with
  | zero => rfl
  | succ k ih => rw [sextets, List.length_cons, ih]

theorem utf8EncodeChar_eq (c : Char) :
    String.utf8EncodeChar c =
      UInt8.ofNat (lead c.toNat) :: sextets (continuations c.toNat) c.toNat := by
  have hv := char_valid c
  have hval : c.val.toNat = c.toNat := rfl
  rw [String.utf8EncodeChar, hval, lead, continuations]
  generalize c.toNat = v at hv
  by_cases h1 : v ≤ 0x7f
  · simp [h1, sextets, marker]
  by_cases h2 : v ≤ 0x7ff
  · have htop : v / 64 % 32 = v / 64 := Nat.mod_eq_of_lt (by omega)
    simp [h1, h2, sextets, marker, htop]
  by_cases h3 : v ≤ 0xffff
  · have htop : v / 4096 % 16 = v / 4096 := Nat.mod_eq_of_lt (by omega)
    simp [h1, h2, h3, sextets, marker, htop]
  · have htop : v / 262144 % 8 = v / 262144 := Nat.mod_eq_of_lt (by omega)
    simp [h1, h2, h3, sextets, marker, htop]

theorem continuations_mono : Monotone continuations := by
  intro v w h
  unfold continuations
  split_ifs <;> omega

theorem lead_lt_of_continuations_lt {v w : Nat} (h : continuations v < continuations w) :
    lead v < lead w := by
  unfold lead
  unfold continuations at h ⊢
  split_ifs at h ⊢ <;> simp [marker] <;> omega

theorem toNat_lead (c : Char) : (UInt8.ofNat (lead c.toNat)).toNat = lead c.toNat := by
  have hv := char_valid c
  apply toNat_ofNat_of_lt
  unfold lead continuations
  split_ifs <;> simp [marker] <;> omega

theorem compare_sextets (k v w : Nat) :
    compare (sextets k v) (sextets k w) = compare (v % 64 ^ k) (w % 64 ^ k) := by
  have hbyte (m : Nat) : (UInt8.ofNat (m % 64 + 128)).toNat = m % 64 + 128 :=
    toNat_ofNat_of_lt (by omega)
  induction k with
  | zero => simp [sextets, Nat.mod_one]
  | succ k ih =>
    have hpos : 0 < 64 ^ k := by positivity
    rw [sextets, sextets, List.compare_cons_cons, compare_byte, hbyte, hbyte, compare_add_right, ih,
      ← Radix.compare_div_then_mod hpos (v % 64 ^ (k + 1)), pow_succ, Nat.mod_mul_right_div_self,
      Nat.mod_mul_right_div_self, Nat.mod_mul_right_mod, Nat.mod_mul_right_mod]

/-- Sequences of one length compare by the groups of six bits from the top; a longer one comes after a
shorter one, and stands for a larger scalar value. -/
theorem compare_utf8EncodeChar (c d : Char) :
    compare (String.utf8EncodeChar c) (String.utf8EncodeChar d) = compare c.toNat d.toNat := by
  -- the scalar values, like their sequences, compare by length first
  rw [← compare_then_of_monotone continuations_mono c.toNat d.toNat, utf8EncodeChar_eq,
    utf8EncodeChar_eq, List.compare_cons_cons, compare_byte, toNat_lead, toNat_lead]
  cases h : compare (continuations c.toNat) (continuations d.toNat) with
  | lt => rw [Nat.compare_eq_lt.2 (lead_lt_of_continuations_lt (Nat.compare_eq_lt.1 h))]; rfl
  | gt => rw [Nat.compare_eq_gt.2 (lead_lt_of_continuations_lt (Nat.compare_eq_gt.1 h))]; rfl
  | eq =>
    rw [lead, lead, Nat.compare_eq_eq.1 h, compare_add_right, compare_sextets,
      Radix.compare_div_then_mod (by positivity), Ordering.eq_then]

theorem apart_utf8EncodeChar (c d : Char) :
    Apart (String.utf8EncodeChar c) (String.utf8EncodeChar d) := by
  rw [utf8EncodeChar_eq, utf8EncodeChar_eq]
  by_cases h : continuations c.toNat = continuations d.toNat
  · exact .of_length_eq (by simp [h])
  · refine .differ (fun hlead => ?_) _ _
    have heq : lead c.toNat = lead d.toNat := by rw [← toNat_lead, hlead, toNat_lead]
    obtain hlt | hgt := Nat.lt_or_gt_of_ne h
    · exact (lead_lt_of_continuations_lt hlt).ne heq
    · exact (lead_lt_of_continuations_lt hgt).ne' heq

theorem compare_flatMap (cs ds : List Char) :
    compare (cs.flatMap String.utf8EncodeChar) (ds.flatMap String.utf8EncodeChar) =
      compare (cs.map Char.toNat) (ds.map Char.toNat) := by
  induction cs generalizing ds with
  | nil =>
    cases ds with
    | nil => rfl
    | cons d ds => rw [List.flatMap_cons, utf8EncodeChar_eq]; rfl
  | cons c cs ih =>
    cases ds with
    | nil => rw [List.flatMap_cons, utf8EncodeChar_eq]; rfl
    | cons d ds =>
      rw [List.flatMap_cons, List.flatMap_cons, (apart_utf8EncodeChar c d).compare_append,
        compare_utf8EncodeChar, ih, List.map_cons, List.map_cons, List.compare_cons_cons]

/-- Sixteen-bit code units would compare the other way. -/
example : compare (encode "\uffff") (encode "😀") = .lt := by decide

/-! ### Encodings -/

theorem encode_eq_toUTF8 (s : String) : encode s = s.toUTF8.data.toList := by
  have h : s.toUTF8 = s.toList.utf8Encode := by
    rw [String.toUTF8, ← String.toByteArray_ofList, String.ofList_toList]
  rw [h, encode, List.utf8Encode, List.data_toByteArray, List.toList_toArray]

section
variable {limits : Limits} {bs : Bytes}

theorem decode_eq_ok_iff {s : String} : decode bs = .ok s ↔ encode s = bs := by
  constructor
  · exact encode_of_decode
  · rintro rfl
    exact decode_encode s

theorem forall_encode_ne_iff : (∀ s, encode s ≠ bs) ↔ ∃ flaw, decode bs = .error flaw := by
  simp only [ne_eq, ← decode_eq_ok_iff]
  cases decode bs <;> simp

theorem get_eq (limits : Limits) (bs : Bytes) :
    (Codec.leaf .string).get limits bs =
      (decode bs).mapError Fault.notUtf8 >>= fun s => .ok (s, bs.length) := rfl

theorem get_eq_ok_iff {s : String} {n : Nat} :
    (Codec.leaf .string).get limits bs = .ok (s, n) ↔ encode s = bs ∧ n = bs.length := by
  rw [get_eq, ← decode_eq_ok_iff]
  cases decode bs <;> simp [Except.mapError, eq_comm]

theorem get_eq_notUtf8_iff {flaw : Flaw} :
    (Codec.leaf .string).get limits bs = .error (.notUtf8 flaw) ↔ decode bs = .error flaw := by
  rw [get_eq]
  cases decode bs <;> simp [Except.mapError]

end

/-- Strings are written as UTF-8 and sort by their scalar values, a proper prefix first. The string that is
found is the one whose UTF-8 all the bytes are; any other bytes are refused as not UTF-8, with what is
wrong with them. -/
theorem scalar_order_exact (limits : Limits) :
    (∀ s, (Codec.leaf .string).encode s = .ok (encode s) ∧ encode s = s.toUTF8.data.toList) ∧
    (∀ s t, compare (encode s) (encode t) = compare (s.toList.map Char.toNat) (t.toList.map Char.toNat)) ∧
    (∀ bs s n, (Codec.leaf .string).get limits bs = .ok (s, n) ↔ encode s = bs ∧ n = bs.length) ∧
    ∀ bs, (∀ s, encode s ≠ bs) ↔
      ∃ flaw, (Codec.leaf .string).get limits bs = .error (.notUtf8 flaw) ∧ flaw.Describes bs := by
  refine ⟨fun s => ⟨rfl, encode_eq_toUTF8 s⟩, fun s t => compare_flatMap s.toList t.toList,
    fun bs s n => get_eq_ok_iff, fun bs => ?_⟩
  rw [forall_encode_ne_iff]
  constructor
  · rintro ⟨flaw, h⟩
    exact ⟨flaw, get_eq_notUtf8_iff.2 h, describes_of_decode h⟩
  · rintro ⟨flaw, h, -⟩
    exact ⟨flaw, get_eq_notUtf8_iff.1 h⟩

end SortKey.Utf8
