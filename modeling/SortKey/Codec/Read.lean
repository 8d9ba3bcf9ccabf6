import SortKey.Codec.Get

/-! Decoding from a byte source. A sequence goes on until the source ends in front of an element. -/
namespace SortKey

namespace Reading
variable {α : Type}

def framed (mask : UInt8) (limit : Nat) (get : Bytes → Except Fault (α × Nat)) : Reading α := do
  let raw ← Frame.read mask limit
  Slice.whole get raw

/-- Elements up to the end of the input, after those `taken`, which stand in reverse. There is room for
fewer more than the first argument says: no list in memory has `lengthBound` elements, and the program
stops where one would have to grow to that. -/
def elements (element : Reading α) : Nat → List α → Reading (List α)
  | 0, _ => throw (.device (.memory Bytes.lengthBound))
  | room + 1, taken => do
    match ← optional element with
    | none => return taken.reverse
    | some v => elements element room (v :: taken)

end Reading

namespace Codec
variable {α : Type}

def read (limits : Limits) : {α : Type} → Codec α → Reading α
  | _, .leaf l => l.read limits
  | _, .custom c => c.read
  | _, .framed reversed c =>
    Reading.framed (Frame.maskOf reversed) limits.frameBytes (c.get limits)
  | _, .nullable order c => do
    if ← Presence.read order then return none
    return some (← Reading.midway (c.read limits))
  | _, .seq c =>
    Reading.elements
      (if c.requiresTerminator then Reading.framed Frame.plain limits.frameBytes (c.get limits)
        else c.read limits) Bytes.lengthBound []
  | _, .convert _ restore c => return restore (← c.read limits)

end Codec
end SortKey
