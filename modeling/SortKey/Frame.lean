import SortKey.Slice
import SortKey.Reading

/-! Frames. A frame is a byte string with an escape before each byte that is itself a terminator or an
escape, closed by a terminator; every byte of it is then XORed with a mask. Frames can follow one
another, keep the order of what they hold, and reverse it under the complementing mask. -/
namespace SortKey.Frame

def terminator : UInt8 := 0x00

def escape : UInt8 := 0x01

def plain : UInt8 := 0x00

def complement : UInt8 := 0xff

def maskOf (reversed : Bool) : UInt8 := if reversed then complement else plain

def escaped (b : UInt8) : Bytes := if b = terminator ∨ b = escape then [escape, b] else [b]

def encode (mask : UInt8) (raw : Bytes) : Bytes :=
  Bytes.masked mask (raw.flatMap escaped ++ [terminator])

/-- The contents of the frame at the front and its length, if it is closed. -/
def scan (mask : UInt8) : Bytes → Option (Bytes × Nat)
  | [] => none
  | b :: rest =>
    if b ^^^ mask = terminator then some ([], 1)
    else if b ^^^ mask = escape then
      match rest with
      | [] => none
      | c :: rest =>
        match scan mask rest with
        | none => none
        | some (raw, n) => some ((c ^^^ mask) :: raw, n + 2)
    else
      match scan mask rest with
      | none => none
      | some (raw, n) => some ((b ^^^ mask) :: raw, n + 1)

def get (mask : UInt8) (bs : Bytes) : Except Fault (Bytes × Nat) :=
  if bs.isEmpty then .error .endOfInput
  else match scan mask bs with
    | none => .error .unterminated
    | some found => .ok found

/-- The next byte of the contents, or nothing at the terminator. -/
def unit (mask : UInt8) : Reading (Option UInt8) := do
  let b := (← Reading.byte) ^^^ mask
  if b = terminator then return none
  else if b = escape then return some ((← Reading.midway Reading.byte) ^^^ mask)
  else return some b

/-- The contents from `next` on, in front of which `taken` stands in reverse. There is room for as many
more bytes as the first argument says. -/
def collect (mask : UInt8) (limit : Nat) : Nat → Bytes → Option UInt8 → Reading Bytes
  | _, taken, none => return taken.reverse
  | 0, _, some _ => throw (.tooLarge (limit + 1) limit)
  | room + 1, taken, some b => do
    collect mask limit room (b :: taken) (← Reading.midway (unit mask))

def read (mask : UInt8) (limit : Nat) : Reading Bytes := do
  collect mask limit limit [] (← unit mask)

@[simp] theorem encode_nil (mask : UInt8) : encode mask [] = [terminator ^^^ mask] := rfl

theorem encode_cons (mask b : UInt8) (raw : Bytes) :
    encode mask (b :: raw) = Bytes.masked mask (escaped b) ++ encode mask raw := by
  simp [encode]

theorem encode_eq_masked (mask : UInt8) (raw : Bytes) :
    encode mask raw = Bytes.masked mask (encode plain raw) := by
  simp [encode, Bytes.masked, plain]

theorem scan_terminator (mask : UInt8) (rest : Bytes) :
    scan mask ((terminator ^^^ mask) :: rest) = some ([], 1) := by
  rw [scan.eq_def]
  simp only [Bytes.xor_xor_cancel, if_true]

theorem scan_escaped (mask b : UInt8) (rest : Bytes) :
    scan mask (Bytes.masked mask (escaped b) ++ rest) =
      (scan mask rest).map fun (raw, n) => (b :: raw, n + (escaped b).length) := by
  by_cases hb : b = terminator ∨ b = escape
  · have he : escape ≠ terminator := by decide
    simp only [escaped, hb, if_true, Bytes.masked_cons, Bytes.masked_nil, List.cons_append]
    rw [scan.eq_def]
    simp only [Bytes.xor_xor_cancel, if_neg he, if_true, List.nil_append]
    cases scan mask rest <;> rfl
  · obtain ⟨ht, he⟩ := not_or.1 hb
    simp only [escaped, hb, if_false, Bytes.masked_cons, Bytes.masked_nil, List.cons_append]
    rw [scan.eq_def]
    simp only [Bytes.xor_xor_cancel, if_neg ht, if_neg he, List.nil_append]
    cases scan mask rest <;> rfl

theorem scan_encode_append (mask : UInt8) (raw rest : Bytes) :
    scan mask (encode mask raw ++ rest) = some (raw, (encode mask raw).length) := by
  induction raw with
  | nil => exact scan_terminator mask rest
  | cons b raw ih =>
    rw [encode_cons, List.append_assoc, scan_escaped, ih]
    simp [Nat.add_comm]

theorem get_encode_append (mask : UInt8) (raw rest : Bytes) :
    get mask (encode mask raw ++ rest) = .ok (raw, (encode mask raw).length) := by
  have h : (encode mask raw ++ rest).isEmpty = false := by simp [encode]
  simp [get, h, scan_encode_append]

end SortKey.Frame
