/-! Where absent values sort among present ones. -/
namespace SortKey

inductive NilOrder where
  | first
  | last
  deriving DecidableEq, Repr, Inhabited

namespace NilOrder

def default : NilOrder := .first

def other : NilOrder → NilOrder
  | .first => .last
  | .last => .first

def name : NilOrder → String
  | .first => "nils-first"
  | .last => "nils-last"

@[simp] theorem other_other (o : NilOrder) : o.other.other = o := by cases o <;> rfl

theorem other_ne (o : NilOrder) : o.other ≠ o := by cases o <;> simp [other]

end NilOrder
end SortKey
