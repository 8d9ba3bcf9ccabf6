/-! How arithmetic on a big float rounds results that are not exact. A mode is stored as one byte. -/
namespace SortKey

inductive RoundingMode where
  | toNearestEven
  | toNearestAway
  | toZero
  | awayFromZero
  | toNegativeInf
  | toPositiveInf
  deriving DecidableEq, Repr

namespace RoundingMode

def default : RoundingMode := .toNearestEven

def byte : RoundingMode → UInt8
  | .toNearestEven => 0
  | .toNearestAway => 1
  | .toZero => 2
  | .awayFromZero => 3
  | .toNegativeInf => 4
  | .toPositiveInf => 5

def ofByte? : UInt8 → Option RoundingMode
  | 0 => some .toNearestEven
  | 1 => some .toNearestAway
  | 2 => some .toZero
  | 3 => some .awayFromZero
  | 4 => some .toNegativeInf
  | 5 => some .toPositiveInf
  | _ => none

def name : RoundingMode → String
  | .toNearestEven => "ToNearestEven"
  | .toNearestAway => "ToNearestAway"
  | .toZero => "ToZero"
  | .awayFromZero => "AwayFromZero"
  | .toNegativeInf => "ToNegativeInf"
  | .toPositiveInf => "ToPositiveInf"

@[simp] theorem ofByte?_byte (m : RoundingMode) : ofByte? m.byte = some m := by cases m <;> rfl

theorem byte_of_ofByte? {b : UInt8} {m : RoundingMode} (h : ofByte? b = some m) : m.byte = b := by
  unfold ofByte? at h
  split at h <;> cases h <;> rfl

end RoundingMode
end SortKey
