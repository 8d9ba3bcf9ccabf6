import SortKey.Fault

/-! Fields at the front of a byte string. -/
namespace SortKey.Slice

def exactly (n : Nat) (bs : Bytes) : Except Fault Bytes :=
  let taken := bs.take n
  if taken.length = n then .ok taken
  else if bs.isEmpty then .error .endOfInput
  else .error .truncated

def byte : Bytes → Except Fault UInt8
  | [] => .error .endOfInput
  | b :: _ => .ok b

def midway {α : Type} (r : Except Fault α) : Except Fault α := r.mapError Fault.midway

/-- How many of `length` bytes are left after `n`, as a 64-bit number: with more than there are taken, it
wraps around. -/
def left (length n : Nat) : Nat :=
  if n ≤ length then length - n else 18446744073709551616 - (n - length)

def filled {α : Type} (length : Nat) (v : α) (n : Nat) : Except Fault α :=
  if n = length then .ok v else .error (.trailing (left length n))

/-- The value that `get` finds in `raw`, which has to be all of it. -/
def whole {α : Type} (get : Bytes → Except Fault (α × Nat)) (raw : Bytes) : Except Fault α :=
  match get raw with
  | .error e => .error e.midway
  | .ok (v, n) => filled raw.length v n

theorem exactly_of_le {n : Nat} {bs : Bytes} (h : n ≤ bs.length) :
    exactly n bs = .ok (bs.take n) := by
  simp [exactly, Nat.min_eq_left h]

theorem exactly_append {bs : Bytes} (rest : Bytes) : exactly bs.length (bs ++ rest) = .ok bs := by
  rw [exactly_of_le (by simp), List.take_left]

theorem exactly_of_lt {n : Nat} {bs : Bytes} (h : bs.length < n) :
    exactly n bs = .error (if bs.isEmpty then .endOfInput else .truncated) := by
  have : min n bs.length ≠ n := by omega
  cases bs <;> simp_all [exactly]

theorem filled_eq_ok {α : Type} {length n : Nat} {v w : α} :
    filled length v n = .ok w ↔ n = length ∧ v = w := by
  unfold filled
  split <;> simp [*]

theorem whole_eq_ok {α : Type} {get : Bytes → Except Fault (α × Nat)} {raw : Bytes} {v : α} :
    whole get raw = .ok v ↔ get raw = .ok (v, raw.length) := by
  unfold whole
  split
  · next e he => simp [he]
  · next u n hget => simp [hget, filled_eq_ok, and_comm]

/-- No count wraps around unless more bytes are taken up than there are. -/
theorem filled_of_le {α : Type} {length n : Nat} (h : n ≤ length) (v : α) :
    filled length v n = if length - n = 0 then .ok v else .error (.trailing (length - n)) := by
  have hend : n = length ↔ length - n = 0 := by omega
  rw [filled, left, if_pos h]
  simp only [hend]

@[simp] theorem midway_ok {α : Type} (a : α) : midway (.ok a : Except Fault α) = .ok a := rfl

@[simp] theorem midway_error {α : Type} (e : Fault) :
    midway (.error e : Except Fault α) = .error e.midway := rfl

theorem midway_eq_ok {α : Type} {r : Except Fault α} {a : α} : midway r = .ok a ↔ r = .ok a := by
  cases r with
  | error e => simp
  | ok b => rfl

end SortKey.Slice
