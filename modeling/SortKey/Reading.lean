import SortKey.Fault
import SortKey.Source

/-! Decoding from a byte source. What a failed reading has drawn stays drawn, so reading can go on
after a fault. -/
namespace SortKey

abbrev Reading := ExceptT Fault (StateM Source)

namespace Reading
variable {α : Type}

/-- The outcome of reading from `s`, and the source as it is left. -/
def runFrom (r : Reading α) (s : Source) : Except Fault α × Source := (ExceptT.run r).run s

def exactly (n : Nat) : Reading Bytes := do
  let (got, stop) ← (Source.draw n : StateM Source _)
  match stop with
  | .filled => return got
  | .ended => throw (if got.isEmpty then .endOfInput else .truncated)
  | .failed text => throw (.device text)

def byte : Reading UInt8 := do
  match ← exactly 1 with
  | b :: _ => return b
  | [] => throw .endOfInput

/-- All that is left, if it is at most `limit` bytes. One byte more is enough to tell, and no request
is for more bytes than a 64-bit count can hold. -/
def remainder (limit : Nat) : Reading Bytes := do
  let (got, stop) ← (Source.draw (min (limit + 1) 18446744073709551615) : StateM Source _)
  match stop with
  | .failed text => throw (.device text)
  | _ => if limit < got.length then throw (.tooLarge got.length limit) else return got

def midway (r : Reading α) : Reading α := tryCatch r fun e => throw e.midway

/-- `n` bytes that an earlier field announces. Room for all of them is made before any is read, and
there is none for as many as `lengthBound`. -/
def announced (n : Nat) : Reading Bytes :=
  if Bytes.lengthBound ≤ n then throw (.device (.memory n)) else midway (exactly n)

def optional (r : Reading α) : Reading (Option α) :=
  tryCatch (some <$> r) fun
    | .endOfInput => return none
    | e => throw e

theorem announced_of_lt {n : Nat} (h : n < Bytes.lengthBound) :
    announced n = midway (exactly n) := by
  rw [announced, if_neg (Nat.not_le.2 h)]

theorem announced_of_le {n : Nat} (h : Bytes.lengthBound ≤ n) :
    announced n = throw (.device (.memory n)) := by
  rw [announced, if_pos h]

@[simp] theorem runFrom_pure (a : α) (s : Source) : (pure a : Reading α).runFrom s = (.ok a, s) := rfl

@[simp] theorem runFrom_throw (e : Fault) (s : Source) :
    (throw e : Reading α).runFrom s = (.error e, s) := rfl

theorem runFrom_bind {β : Type} (r : Reading α) (f : α → Reading β) (s : Source) :
    (r >>= f).runFrom s =
      match r.runFrom s with
      | (.ok a, t) => (f a).runFrom t
      | (.error e, t) => (.error e, t) := by
  simp only [runFrom, ExceptT.run_bind, StateT.run_bind]
  rcases (ExceptT.run r).run s with ⟨_ | _, _⟩ <;> rfl

theorem runFrom_midway (r : Reading α) (s : Source) :
    r.midway.runFrom s = ((r.runFrom s).1.mapError Fault.midway, (r.runFrom s).2) := by
  change (ExceptT.run (tryCatch r _)).run s = _
  simp only [runFrom, ExceptT.run, tryCatch, tryCatchThe, MonadExceptOf.tryCatch, ExceptT.tryCatch,
    ExceptT.mk, StateT.run_bind]
  rcases StateT.run r s with ⟨_ | _, _⟩ <;> rfl

theorem runFrom_exactly (n : Nat) (s : Source) :
    (exactly n).runFrom s =
      match Source.draw n s with
      | ((got, .filled), t) => (.ok got, t)
      | ((got, .ended), t) => (.error (if got.isEmpty then .endOfInput else .truncated), t)
      | ((_, .failed text), t) => (.error (.device text), t) := by
  have h : (exactly n).runFrom s = match Source.draw n s with
      | ((got, stop), t) => Reading.runFrom (match stop with
        | .filled => pure got
        | .ended => throw (if got.isEmpty then .endOfInput else .truncated)
        | .failed text => throw (.device text)) t := rfl
  rw [h]
  rcases Source.draw n s with ⟨⟨got, _ | _ | text⟩, t⟩ <;> rfl

end Reading
end SortKey
