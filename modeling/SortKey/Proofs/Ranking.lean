import Mathlib.Data.List.Pairwise
import Mathlib.Data.List.SplitBy
import SortKey.Rank
import SortKey.Proofs.ByteOrder

/-! The ranking of a list of keys. Every place comes in it once, and two places stand to one another as
their keys compare. -/
namespace SortKey

namespace Ranking

/-- The keys and their places, in ascending order of the keys. -/
def sorted (keys : List Bytes) : List (Bytes × Nat) :=
  keys.zipIdx.mergeSort fun a b => (compare a.1 b.1).isLE

def groups (keys : List Bytes) : List (List (Bytes × Nat)) :=
  (sorted keys).splitBy fun a b => a.1 == b.1

def SameKey (a b : Bytes × Nat) : Prop := a.1 = b.1

instance : Trans SameKey SameKey SameKey := ⟨Eq.trans⟩

instance : Std.Symm SameKey := ⟨fun _ _ => Eq.symm⟩

/-- The keys of `g` sort below those of `h`. -/
def Below (g h : List (Bytes × Nat)) : Prop := h ≠ [] ∧ ∀ a ∈ g, ∀ b ∈ h, compare a.1 b.1 = .lt

theorem Below.trans {f g h : List (Bytes × Nat)} (hfg : Below f g) (hgh : Below g h) : Below f h := by
  obtain ⟨c, hc⟩ := List.exists_mem_of_ne_nil g hfg.1
  exact ⟨hgh.1, fun a ha b hb => Std.TransCmp.lt_trans (hfg.2 a ha c hc) (hgh.2 c hc b hb)⟩

instance : Trans Below Below Below := ⟨Below.trans⟩

variable {keys : List Bytes}

theorem flatten_groups (keys : List Bytes) : (groups keys).flatten = sorted keys :=
  List.flatten_splitBy _ _

theorem pairwise_sorted (keys : List Bytes) :
    (sorted keys).Pairwise fun a b => (compare a.1 b.1).isLE := by
  refine List.pairwise_mergeSort (fun a b c => Std.TransCmp.isLE_trans) (fun a b => ?_) keys.zipIdx
  have hswap : compare b.1 a.1 = (compare a.1 b.1).swap := Std.OrientedCmp.eq_swap
  rw [hswap]
  cases compare a.1 b.1 <;> rfl

theorem key_eq_of_mem {g : List (Bytes × Nat)} (hg : g ∈ groups keys) {a b : Bytes × Nat} (ha : a ∈ g)
    (hb : b ∈ g) : a.1 = b.1 := by
  have hchain : g.IsChain SameKey := (List.isChain_of_mem_splitBy hg).imp fun _ _ h => eq_of_beq h
  have hself : ∀ a ∈ g, SameKey a a := fun a _ => Eq.refl a.1
  exact List.Pairwise.forall_of_forall hself hchain.pairwise ha hb

/-- Neighbours differ in their keys, and so do groups further apart, since no group is empty. -/
theorem pairwise_groups (keys : List Bytes) : (groups keys).Pairwise Below := by
  apply List.IsChain.pairwise
  have hsorted := pairwise_sorted keys
  rw [← flatten_groups, List.pairwise_flatten] at hsorted
  rw [List.isChain_iff_getElem]
  intro i hi
  obtain ⟨hlast, hhead, hne⟩ :=
    List.isChain_iff_getElem.1 (List.isChain_getLast_head_splitBy _ (sorted keys)) i hi
  refine ⟨hhead, fun a ha b hb => ?_⟩
  have hle := List.pairwise_iff_getElem.1 hsorted.2 i (i + 1) (by omega) hi (by omega) a ha b hb
  have hab : compare a.1 b.1 ≠ .eq := by
    intro heq
    rw [key_eq_of_mem (List.getElem_mem _) ha (List.getLast_mem hlast),
      key_eq_of_mem (List.getElem_mem _) hb (List.head_mem hhead), Bytes.compare_eq_eq_iff] at heq
    exact absurd hne (by simp [heq])
  cases h : compare a.1 b.1 with
  | lt => rfl
  | eq => exact absurd h hab
  | gt =>
    rw [h] at hle
    cases hle

theorem getElem?_of_mem {g : List (Bytes × Nat)} (hg : g ∈ groups keys) {a : Bytes × Nat} (ha : a ∈ g) :
    keys[a.2]? = some a.1 := by
  have hmem : a ∈ sorted keys := flatten_groups keys ▸ List.mem_flatten_of_mem hg ha
  exact List.mem_zipIdx_iff_getElem?.1 ((List.mergeSort_perm _ _).mem_iff.1 hmem)

theorem compare_keys {i j : Nat} (hi : i < (groups keys).length) (hj : j < (groups keys).length)
    {a b : Bytes × Nat} (ha : a ∈ (groups keys)[i]) (hb : b ∈ (groups keys)[j]) :
    compare a.1 b.1 = compare i j := by
  have hbelow := List.pairwise_iff_getElem.1 (pairwise_groups keys)
  obtain hij | rfl | hij := Nat.lt_trichotomy i j
  · rw [Nat.compare_eq_lt.2 hij]
    exact (hbelow i j hi hj hij).2 a ha b hb
  · rw [Nat.compare_eq_eq.2 rfl, key_eq_of_mem (List.getElem_mem hi) ha hb]
    exact Std.ReflCmp.compare_self
  · rw [Nat.compare_eq_gt.2 hij, Std.OrientedCmp.gt_iff_lt]
    exact (hbelow j i hj hi hij).2 b hb a ha

end Ranking

theorem flatten_rank (keys : List Bytes) : (rank keys).flatten.Perm (List.range keys.length) := by
  have hsorted : ((Ranking.sorted keys).map Prod.snd).Perm (keys.zipIdx.map Prod.snd) :=
    (List.mergeSort_perm _ _).map _
  rw [List.zipIdx_map_snd, ← List.range_eq_range', ← Ranking.flatten_groups, List.map_flatten] at hsorted
  exact hsorted

/-- Every place of a key comes once, and two places come in the order of their keys: those of equal keys
come together. -/
theorem rank_compares (keys : List Bytes) :
    (rank keys).flatten.Perm (List.range keys.length) ∧
    ∀ (a b : Nat) (ha : a < (rank keys).length) (hb : b < (rank keys).length),
      ∀ i ∈ (rank keys)[a], ∀ j ∈ (rank keys)[b],
        ∃ x y, keys[i]? = some x ∧ keys[j]? = some y ∧ compare x y = compare a b := by
  refine ⟨flatten_rank keys, fun a b ha hb i hi j hj => ?_⟩
  have hlen : (rank keys).length = (Ranking.groups keys).length := List.length_map _
  have ha' := hlen ▸ ha
  have hb' := hlen ▸ hb
  have hrank : rank keys = (Ranking.groups keys).map (·.map Prod.snd) := rfl
  simp only [hrank, List.getElem_map, List.mem_map] at hi hj
  obtain ⟨p, hp, rfl⟩ := hi
  obtain ⟨q, hq, rfl⟩ := hj
  exact ⟨p.1, q.1, Ranking.getElem?_of_mem (List.getElem_mem ha') hp,
    Ranking.getElem?_of_mem (List.getElem_mem hb') hq, Ranking.compare_keys ha' hb' hp hq⟩

end SortKey
