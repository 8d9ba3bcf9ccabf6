import SortKey.Slice
import SortKey.Reading

/-! The byte in front of an optional value. Neither it nor its complement is a terminator or an escape,
so a frame never has to escape it. -/
namespace SortKey.Presence

def present : UInt8 := 0x03

def nilByte : NilOrder → UInt8
  | .first => 0x02
  | .last => 0xfd

def byte (order : NilOrder) (isNil : Bool) : UInt8 := if isNil then nilByte order else present

/-- Whether `b` stands for an absent value. -/
def check (order : NilOrder) (b : UInt8) : Except Fault Bool :=
  if b = present then .ok false
  else if b = nilByte order then .ok true
  else if b = nilByte order.other then .error (.foreignNil b order)
  else .error (.unknownPresence b)

def get (order : NilOrder) (bs : Bytes) : Except Fault Bool := do
  check order (← Slice.byte bs)

def read (order : NilOrder) : Reading Bool := do
  check order (← Reading.byte)

@[simp] theorem check_byte (order : NilOrder) (isNil : Bool) :
    check order (byte order isNil) = .ok isNil := by
  cases order <;> cases isNil <;> rfl

end SortKey.Presence
