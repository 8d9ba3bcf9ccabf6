import SortKey.Codec.Write
import SortKey.Codec.Read

/-! A key that is being built, or taken apart again field by field from a cursor. A step that fails
leaves the cursor where it was, unless it has read from the bytes as from a source. -/
namespace SortKey

structure KeyBuffer where
  bytes : Bytes := []
  cursor : Nat := 0

namespace KeyBuffer
variable {α : Type}

def rest (k : KeyBuffer) : Bytes := k.bytes.drop k.cursor

def seek (k : KeyBuffer) (cursor : Nat) : KeyBuffer := ⟨k.bytes, min cursor k.bytes.length⟩

def push (k : KeyBuffer) (bs : Bytes) : KeyBuffer := ⟨k.bytes ++ bs, k.cursor⟩

def truncate (k : KeyBuffer) (length : Nat) : KeyBuffer :=
  seek ⟨k.bytes.take length, k.cursor⟩ k.cursor

def xorAt (k : KeyBuffer) (i : Nat) (mask : UInt8) : KeyBuffer :=
  ⟨k.bytes.modify i (· ^^^ mask), k.cursor⟩

def append (k : KeyBuffer) (c : Codec α) (v : α) : Except Fault Unit × KeyBuffer :=
  let (outcome, bytes) := (c.append v).onto k.bytes
  (outcome, ⟨bytes, k.cursor⟩)

/-- Writes through a sink that puts what it takes at the end of the bytes. -/
def write (k : KeyBuffer) (c : Codec α) (v : α) (grants : List Nat) (refusal : Option String) :
    Except Fault Unit × KeyBuffer :=
  let (outcome, sink) := c.write v ⟨k.bytes, grants, refusal⟩
  (outcome, ⟨sink.taken, k.cursor⟩)

def get (k : KeyBuffer) (limits : Limits) (c : Codec α) : Except Fault (α × Nat) × KeyBuffer :=
  match c.get limits k.rest with
  | .ok (v, n) => (.ok (v, n), ⟨k.bytes, k.cursor + n⟩)
  | .error e => (.error e, k)

def decode (k : KeyBuffer) (limits : Limits) (c : Codec α) : Except Fault α :=
  c.decode limits k.rest

def read (k : KeyBuffer) (limits : Limits) (c : Codec α) : Except Fault α × KeyBuffer :=
  let (outcome, s) := (c.read limits).runFrom (Source.ofBytes k.rest)
  (outcome, ⟨k.bytes, k.cursor + s.delivered⟩)

def frame (k : KeyBuffer) (mask : UInt8) : KeyBuffer := ⟨Frame.encode mask k.bytes, 0⟩

/-- Replaces the bytes by the contents of the frame at the cursor. -/
def unframe (k : KeyBuffer) (mask : UInt8) : Except Fault Nat × KeyBuffer :=
  match Frame.get mask k.rest with
  | .ok (raw, n) => (.ok n, ⟨raw, 0⟩)
  | .error e => (.error e, k)

def pushPresence (k : KeyBuffer) (order : NilOrder) (isNil : Bool) : KeyBuffer :=
  k.push [Presence.byte order isNil]

def isNil (k : KeyBuffer) (order : NilOrder) : Except Fault Bool := Presence.get order k.rest

end KeyBuffer
end SortKey
