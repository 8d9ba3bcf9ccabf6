import SortKey.Codec.Basic
import SortKey.Sink

/-! Encoding. The elements of a sequence follow one another, each in a frame of its own if one encoding
of an element can be a prefix of another. -/
namespace SortKey

/-- Pushes what `w` writes as a frame, or nothing if `w` fails. -/
def Writing.framed (mask : UInt8) (w : Writing Unit) : Writing Unit := do
  let raw ← w.encoding
  Writing.push (Frame.encode mask raw)

namespace Codec
variable {α : Type}

def append : {α : Type} → Codec α → α → Writing Unit
  | _, .leaf l, v => l.append v
  | _, .custom c, v => c.append v
  | _, .framed reversed c, v => Writing.framed (Frame.maskOf reversed) (c.append v)
  | _, .nullable order _, none => Writing.push [Presence.byte order true]
  | _, .nullable order c, some v => do
    Writing.push [Presence.byte order false]
    c.append v
  | _, .seq c, vs => vs.forM fun v =>
    if c.requiresTerminator then Writing.framed Frame.plain (c.append v) else c.append v
  | _, .convert represent _ c, v => c.append (represent v)

def encode (c : Codec α) (v : α) : Except Fault Bytes := (c.append v).encoding

/-- Writes to a sink, which is offered nothing unless the whole value has an encoding. -/
def write (c : Codec α) (v : α) (sink : Sink) : Except Fault Unit × Sink :=
  match c.encode v with
  | .error e => (.error e, sink)
  | .ok bs => sink.writeAll bs

end Codec
end SortKey
