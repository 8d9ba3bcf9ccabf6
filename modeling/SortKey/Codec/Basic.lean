import SortKey.Leaf
import SortKey.Presence

/-! Codecs. A codec gives each value of a type an encoding whose byte order is the order of the values;
composite codecs are built from leaves, and from codecs that the caller supplies. -/
namespace SortKey

/-- A codec of the caller's own. -/
structure Custom (α : Type) where
  name : String
  append : α → Writing Unit
  get : Bytes → Except Fault (α × Nat)
  read : Reading α
  requiresTerminator : Bool

/-- `framed` closes an encoding with a terminator, and reverses its order if asked to; `nullable` adds an
absent value; `seq` orders lists element by element; `convert` gives a type the order of what
represents its values. -/
inductive Codec : Type → Type 1 where
  | leaf {α : Type} (l : Leaf α) : Codec α
  | custom {α : Type} (c : Custom α) : Codec α
  | framed {α : Type} (reversed : Bool) (c : Codec α) : Codec α
  | nullable {α : Type} (order : NilOrder) (c : Codec α) : Codec (Option α)
  | seq {α : Type} (c : Codec α) : Codec (List α)
  | convert {α β : Type} (represent : α → β) (restore : β → α) (c : Codec β) : Codec α

namespace Codec
variable {α : Type}

/-- Makes a codec fit to be followed by anything. -/
abbrev terminate (c : Codec α) : Codec α := .framed false c

/-- Reverses the order of a codec. The encoding is framed before it is complemented: where one encoding
is a prefix of another, complementing alone would leave the shorter one first. -/
abbrev negate (c : Codec α) : Codec α := .framed true c

/-- Whether one encoding can be a proper prefix of another. -/
def requiresTerminator : {α : Type} → Codec α → Bool
  | _, .leaf l => l.requiresTerminator
  | _, .custom c => c.requiresTerminator
  | _, .framed _ _ => false
  | _, .nullable _ c => c.requiresTerminator
  | _, .seq _ => true
  | _, .convert _ _ c => c.requiresTerminator

def nilOrder? : {α : Type} → Codec α → Option NilOrder
  | _, .nullable order _ => some order
  | _, _ => none

/-- A codec made of leaves alone. -/
def IsBuiltIn : {α : Type} → Codec α → Prop
  | _, .leaf _ => True
  | _, .custom _ => False
  | _, .framed _ c => c.IsBuiltIn
  | _, .nullable _ c => c.IsBuiltIn
  | _, .seq c => c.IsBuiltIn
  | _, .convert _ _ c => c.IsBuiltIn

/-- How the codec is written out; what `convert` does is not shown. -/
def description : {α : Type} → Codec α → String
  | _, .leaf l => l.name
  | _, .custom c => c.name
  | _, .framed false c => "Terminate \x7b codec: " ++ c.description ++ " \x7d"
  | _, .framed true c => "Negate \x7b codec: " ++ c.description ++ " \x7d"
  | _, .nullable .first c => "Nullable \x7b codec: " ++ c.description ++ ", order: First \x7d"
  | _, .nullable .last c => "Nullable \x7b codec: " ++ c.description ++ ", order: Last \x7d"
  | _, .seq c => "Seq \x7b codec: " ++ c.description ++ " \x7d"
  | _, .convert _ _ c => "Convert \x7b codec: " ++ c.description ++ ", .. \x7d"

end Codec
end SortKey
