import SortKey.Bytes

/-! UTF-8. `decode` accepts exactly the encodings of strings of scalar values; of any other bytes it
tells how long the longest well-formed start is and how many bytes after it are certainly wrong. -/
namespace SortKey.Utf8

def encode (s : String) : Bytes := s.toList.flatMap String.utf8EncodeChar

/-- `length` counts the bytes after the first `validUpTo` that begin no scalar value, and is absent
when the input ends inside a sequence that more bytes could have completed. -/
structure Flaw where
  validUpTo : Nat
  length : Option Nat
  deriving DecidableEq, Repr

def Flaw.message : Flaw → String
  | ⟨i, some n⟩ => s!"invalid utf-8 sequence of {n} bytes from index {i}"
  | ⟨i, none⟩ => s!"incomplete utf-8 byte sequence from index {i}"

/-- What a first byte announces: the length of its sequence and, where it is not every continuation
byte, the range of the second byte. The ranges leave out overlong forms, surrogates and all above
`0x10ffff`. -/
inductive Lead where
  | one
  | two
  | three (low high : UInt8)
  | four (low high : UInt8)

def lead? (a : UInt8) : Option Lead :=
  if a < 0x80 then some .one
  else if a < 0xc2 then none
  else if a < 0xe0 then some .two
  else if a = 0xe0 then some (.three 0xa0 0xbf)
  else if a = 0xed then some (.three 0x80 0x9f)
  else if a < 0xf0 then some (.three 0x80 0xbf)
  else if a = 0xf0 then some (.four 0x90 0xbf)
  else if a < 0xf4 then some (.four 0x80 0xbf)
  else if a = 0xf4 then some (.four 0x80 0x8f)
  else none

def within (low high b : UInt8) : Bool := low ≤ b && b ≤ high

def continues : UInt8 → Bool := within 0x80 0xbf

def join2 (a b : UInt8) : Char := Char.ofNat (a.toNat % 32 * 64 + b.toNat % 64)

def join3 (a b c : UInt8) : Char :=
  Char.ofNat ((a.toNat % 16 * 64 + b.toNat % 64) * 64 + c.toNat % 64)

def join4 (a b c d : UInt8) : Char :=
  Char.ofNat (((a.toNat % 8 * 64 + b.toNat % 64) * 64 + c.toNat % 64) * 64 + d.toNat % 64)

/-- The scalar value that starts with `a`, and how many bytes of `rest` belong to it; failing that,
the length of the flaw. -/
def next (a : UInt8) (rest : Bytes) : Except (Option Nat) (Char × Nat) :=
  match lead? a with
  | none => .error (some 1)
  | some .one => .ok (Char.ofNat a.toNat, 0)
  | some .two =>
    match rest with
    | [] => .error none
    | b :: _ => if continues b then .ok (join2 a b, 1) else .error (some 1)
  | some (.three low high) =>
    match rest with
    | [] => .error none
    | [b] => if within low high b then .error none else .error (some 1)
    | b :: c :: _ =>
      if !within low high b then .error (some 1)
      else if continues c then .ok (join3 a b c, 2) else .error (some 2)
  | some (.four low high) =>
    match rest with
    | [] => .error none
    | [b] => if within low high b then .error none else .error (some 1)
    | [b, c] =>
      if !within low high b then .error (some 1)
      else if continues c then .error none else .error (some 2)
    | b :: c :: d :: _ =>
      if !within low high b then .error (some 1)
      else if !continues c then .error (some 2)
      else if continues d then .ok (join4 a b c d, 3) else .error (some 3)

/-- The scalar values of `bs`, which stands at index `i` of the whole input. -/
def charsFrom (i : Nat) (bs : Bytes) : Except Flaw (List Char) :=
  match bs with
  | [] => .ok []
  | a :: rest =>
    match next a rest with
    | .error length => .error ⟨i, length⟩
    | .ok (c, k) => (charsFrom (i + k + 1) (rest.drop k)).map (c :: ·)
termination_by bs.length
decreasing_by simp only [List.length_drop, List.length_cons]; omega

def decode (bs : Bytes) : Except Flaw String := (charsFrom 0 bs).map String.ofList

@[simp] theorem charsFrom_nil (i : Nat) : charsFrom i [] = .ok [] := by rw [charsFrom]

end SortKey.Utf8
