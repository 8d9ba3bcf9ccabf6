import SortKey.Codec.Write

/-! Writings that only push. A built-in codec pushes the same bytes onto every buffer, so that its encodings
are those of its parts, one after another. -/
namespace SortKey

namespace Writing

/-- Comes to the same outcome on every buffer, and pushes the same bytes onto it. -/
def Additive (w : Writing Unit) : Prop :=
  ∀ buffer, w.onto buffer = ((w.onto []).1, buffer ++ (w.onto []).2)

theorem additive_push (bs : Bytes) : (push bs).Additive := fun buffer => by simp

theorem additive_pure : (pure () : Writing Unit).Additive := fun buffer => by simp

theorem additive_throw (e : Fault) : (throw e : Writing Unit).Additive := fun buffer => by simp

theorem Additive.andThen {v w : Writing Unit} (hv : v.Additive) (hw : w.Additive) :
    (v >>= fun _ => w).Additive := by
  intro buffer
  rw [onto_andThen, onto_andThen, hv buffer]
  obtain ⟨_ | _, bs⟩ := v.onto []
  · rfl
  · dsimp only
    rw [hw (buffer ++ bs), hw bs, List.append_assoc]

theorem additive_ofExcept {β : Type} (r : Except Fault β) {f : β → Writing Unit}
    (hf : ∀ b, (f b).Additive) : (do let b ← r; f b : Writing Unit).Additive := by
  cases r with
  | error e => exact additive_throw e
  | ok b => exact hf b

theorem onto_framed (mask : UInt8) (w : Writing Unit) (buffer : Bytes) :
    (framed mask w).onto buffer =
      match w.encoding with
      | .ok raw => (.ok (), buffer ++ Frame.encode mask raw)
      | .error e => (.error e, buffer) := by
  rw [framed]
  obtain _ | _ := w.encoding <;> rfl

/-- A frame is pushed whole or not at all, however `w` treats its buffer. -/
theorem additive_framed (mask : UInt8) (w : Writing Unit) : (framed mask w).Additive := by
  intro buffer
  rw [onto_framed, onto_framed]
  obtain _ | _ := w.encoding <;> simp

theorem Additive.forM {α : Type} {f : α → Writing Unit} (h : ∀ a, (f a).Additive) (as : List α) :
    (as.forM f).Additive := by
  induction as with
  | nil => exact additive_pure
  | cons a as ih => exact (h a).andThen ih

theorem encoding_ofExcept {β : Type} (r : Except Fault β) (f : β → Writing Unit) :
    (do let b ← r; f b : Writing Unit).encoding = r >>= fun b => (f b).encoding := by
  cases r <;> rfl

theorem encoding_framed (mask : UInt8) (w : Writing Unit) :
    (framed mask w).encoding = w.encoding.map (Frame.encode mask) := by
  rw [encoding, onto_framed]
  obtain _ | _ := w.encoding <;> rfl

theorem encoding_andThen {v w : Writing Unit} (hw : w.Additive) :
    (v >>= fun _ => w).encoding = v.encoding >>= fun x => w.encoding.map (x ++ ·) := by
  simp only [encoding, onto_andThen]
  obtain ⟨_ | _, bs⟩ := v.onto []
  · rfl
  · dsimp only
    rw [hw bs]
    obtain ⟨_ | _, cs⟩ := w.onto [] <;> rfl

theorem Additive.onto_eq {w : Writing Unit} (h : w.Additive) {bs : Bytes} (he : w.encoding = .ok bs)
    (buffer : Bytes) : w.onto buffer = (.ok (), buffer ++ bs) := by
  rw [h buffer]
  rw [encoding] at he
  split at he
  next u cs hw =>
    cases he
    rw [hw]
  next => cases he

end Writing
end SortKey
