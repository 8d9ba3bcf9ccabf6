/-! The two limits that decoding keeps to: the bytes of a big integer's magnitude, and the bytes of a
payload that is taken from a byte source without its length being known. -/
namespace SortKey

structure Limits where
  integerBytes : Nat := 16777216
  frameBytes : Nat := 67108864
  deriving DecidableEq, Repr

namespace Limits

def digitsValue (ds : List Char) : Nat := ds.foldl (fun n c => n * 10 + (c.toNat - '0'.toNat)) 0

/-- A 64-bit size in decimal: ASCII digits, at least one, after at most one plus sign. -/
def parseSize (text : String) : Option Nat :=
  let digits := match text.toList with
    | '+' :: ds => ds
    | ds => ds
  if digits ≠ [] ∧ digits.all Char.isDigit ∧ digitsValue digits < 18446744073709551616 then
    some (digitsValue digits)
  else none

/-- A setting that is absent or is not a size leaves the limit at its default. -/
def setting (text : Option String) (fallback : Nat) : Nat := (text.bind parseSize).getD fallback

def ofSettings (integer frame : Option String) : Limits :=
  let defaults : Limits := {}
  ⟨setting integer defaults.integerBytes, setting frame defaults.frameBytes⟩

end Limits
end SortKey
