import SortKey.Fault

/-! Encoding onto the end of a buffer. What is pushed before a fault stays in the buffer. -/
namespace SortKey

abbrev Writing := ExceptT Fault (StateM Bytes)

namespace Writing
variable {α : Type}

def push (bs : Bytes) : Writing Unit := modify (· ++ bs)

/-- The outcome of writing onto `buffer`, and the buffer as it is left. -/
def onto (w : Writing Unit) (buffer : Bytes) : Except Fault Unit × Bytes := (ExceptT.run w).run buffer

/-- What is written onto an empty buffer. -/
def encoding (w : Writing Unit) : Except Fault Bytes :=
  match w.onto [] with
  | (.ok _, bs) => .ok bs
  | (.error e, _) => .error e

@[simp] theorem onto_push (bs buffer : Bytes) : (push bs).onto buffer = (.ok (), buffer ++ bs) := rfl

@[simp] theorem onto_pure (buffer : Bytes) : (pure () : Writing Unit).onto buffer = (.ok (), buffer) :=
  rfl

@[simp] theorem onto_throw (e : Fault) (buffer : Bytes) :
    (throw e : Writing Unit).onto buffer = (.error e, buffer) := rfl

theorem onto_andThen (v w : Writing Unit) (buffer : Bytes) :
    (v >>= fun _ => w).onto buffer =
      match v.onto buffer with
      | (.ok _, bs) => w.onto bs
      | (.error e, bs) => (.error e, bs) := by
  simp only [onto, ExceptT.run_bind, StateT.run_bind]
  rcases (ExceptT.run v).run buffer with ⟨_ | _, _⟩ <;> rfl

end Writing
end SortKey
