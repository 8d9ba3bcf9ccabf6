import SortKey.Slice

/-! Opening outcomes one step at a time. -/
namespace SortKey.Outcome
variable {α β : Type}

@[simp] theorem ok_bind (a : α) (f : α → Except Fault β) : .ok a >>= f = f a := rfl

@[simp] theorem error_bind (e : Fault) (f : α → Except Fault β) : .error e >>= f = .error e := rfl

@[simp] theorem map_ok (f : α → β) (a : α) : f <$> (.ok a : Except Fault α) = .ok (f a) := rfl

@[simp] theorem map_error (f : α → β) (e : Fault) : f <$> (.error e : Except Fault α) = .error e := rfl

theorem bind_eq_ok {r : Except Fault α} {f : α → Except Fault β} {b : β} :
    r >>= f = .ok b ↔ ∃ a, r = .ok a ∧ f a = .ok b := by
  cases r with
  | error e => simp [bind, Except.bind]
  | ok a => simp [bind, Except.bind]

theorem bind_eq_error {r : Except Fault α} {f : α → Except Fault β} {e : Fault} :
    r >>= f = .error e ↔ r = .error e ∨ ∃ a, r = .ok a ∧ f a = .error e := by
  cases r with
  | error e => simp [bind, Except.bind]
  | ok a => simp [bind, Except.bind]

theorem map_eq_ok {ε : Type} {r : Except ε α} {f : α → β} {b : β} :
    r.map f = .ok b ↔ ∃ a, r = .ok a ∧ f a = b := by
  cases r with
  | error e => simp [Except.map]
  | ok a => simp [Except.map]

theorem map_eq_error {ε : Type} {r : Except ε α} {f : α → β} {e : ε} :
    r.map f = .error e ↔ r = .error e := by
  cases r with
  | error e => simp [Except.map]
  | ok a => simp [Except.map]

theorem mapError_midway {r : Except Fault α} (h : r ≠ .error .endOfInput) :
    r.mapError Fault.midway = r := by
  cases r with
  | ok a => rfl
  | error e =>
    cases e with
    | endOfInput => exact (h rfl).elim
    | _ => rfl

end SortKey.Outcome
