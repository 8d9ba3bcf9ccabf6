import SortKey.Bytes

/-! The order of a list of keys. -/
namespace SortKey

/-- The places of the keys in ascending order of the keys, those of equal keys together and ascending. -/
def rank (keys : List Bytes) : List (List Nat) :=
  let sorted := keys.zipIdx.mergeSort fun a b => (compare a.1 b.1).isLE
  (sorted.splitBy fun a b => a.1 == b.1).map (·.map Prod.snd)

end SortKey
