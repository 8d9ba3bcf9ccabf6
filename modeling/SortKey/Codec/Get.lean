import SortKey.Codec.Basic

/-! Decoding from a byte string. A value is found at the front, with the number of bytes it takes up. -/
namespace SortKey

namespace Frame
variable {α : Type}

/-- A value that fills the frame at the front. -/
def getWhole (mask : UInt8) (get : Bytes → Except Fault (α × Nat)) (bs : Bytes) :
    Except Fault (α × Nat) := do
  let (raw, n) ← Frame.get mask bs
  return (← Slice.whole get raw, n)

end Frame

namespace Codec
variable {α : Type}

/-- Elements up to the end of the input. One that takes up nothing would be found there for ever. -/
def elements (get : Bytes → Except Fault (α × Nat)) (bs : Bytes) : Except Fault (List α × Nat) :=
  match bs with
  | [] => .ok ([], 0)
  | b :: rest =>
    match get (b :: rest) with
    | .error e => .error e
    | .ok (_, 0) => .error (.malformed .emptyElement)
    | .ok (v, n + 1) =>
      match elements get (rest.drop n) with
      | .error e => .error e
      | .ok (vs, m) => .ok (v :: vs, n + 1 + m)
termination_by bs.length
decreasing_by simp only [List.length_drop, List.length_cons]; omega

def get (limits : Limits) : {α : Type} → Codec α → Bytes → Except Fault (α × Nat)
  | _, .leaf l, bs => l.get limits bs
  | _, .custom c, bs => c.get bs
  | _, .framed reversed c, bs => Frame.getWhole (Frame.maskOf reversed) (c.get limits) bs
  | _, .nullable order c, bs => do
    if ← Presence.get order bs then return (none, 1)
    let (v, n) ← Slice.midway (c.get limits (bs.drop 1))
    return (some v, n + 1)
  | _, .seq c, bs =>
    elements (if c.requiresTerminator then Frame.getWhole Frame.plain (c.get limits)
      else c.get limits) bs
  | _, .convert _ restore c, bs => do
    let (v, n) ← c.get limits bs
    return (restore v, n)

def decode (limits : Limits) (c : Codec α) (bs : Bytes) : Except Fault α := do
  let (v, n) ← c.get limits bs
  Slice.filled bs.length v n

end Codec
end SortKey
