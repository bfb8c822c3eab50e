import Mathlib.Data.Set.Card
import MemStore.Containers.NestedMap

/-!
# What does not depend on the iteration order

Counts and sums over the entries of a map depend on its contents only, not on the
order in which a loop meets them.
-/

namespace UnorderedMap

variable {κ ν : Type*} [DecidableEq κ]

/-- The entries with a property are as many as the keys with it. -/
theorem ncard_setOf_find? (m : UnorderedMap κ ν) (p : κ × ν → Bool) :
    {k | ∃ v, m.find? k = some v ∧ p (k, v) = true}.ncard = m.entries.countP p := by
  have hset : {k | ∃ v, m.find? k = some v ∧ p (k, v) = true} =
      (((m.entries.filter p).map Prod.fst).toFinset : Set κ) := by
    ext k
    rw [Set.mem_ofPred_eq, Finset.mem_coe, List.mem_toFinset, List.mem_map]
    constructor
    · rintro ⟨v, hfind, hp⟩
      exact ⟨(k, v), List.mem_filter.mpr ⟨find?_eq_some_iff.mp hfind, hp⟩, rfl⟩
    · rintro ⟨⟨k', v⟩, hmem, rfl⟩
      obtain ⟨hmem, hp⟩ := List.mem_filter.mp hmem
      exact ⟨v, find?_eq_some_iff.mpr hmem, hp⟩
  have hnodup : ((m.entries.filter p).map Prod.fst).Nodup :=
    m.nodup_keys.sublist (List.filter_sublist.map Prod.fst)
  rw [hset, Set.ncard_coe_finset, List.toFinset_card_of_nodup hnodup, List.length_map,
    List.countP_eq_length_filter]

/-- A map has as many entries as keys. -/
theorem ncard_setOf_isSome (m : UnorderedMap κ ν) :
    {k | (m.find? k).isSome}.ncard = m.size := by
  have hall := ncard_setOf_find? m fun _ => true
  rw [List.countP_true] at hall
  rw [size, ← hall]
  congr 1
  ext k
  rw [Set.mem_ofPred_eq, Option.isSome_iff_exists]
  exact exists_congr fun v => (and_iff_left rfl).symm

/-- Maps with the same contents weigh the same. -/
theorem weigh_of_find?_eq {m m' : UnorderedMap κ ν} (h : ∀ k, m'.find? k = m.find? k)
    (w : κ → ν → ℕ) : m'.weigh w = m.weigh w :=
  ((perm_of_find?_eq h).map fun entry : κ × ν => w entry.1 entry.2).sum_eq

end UnorderedMap

namespace NestedMap

variable {α κ ν : Type*} [DecidableEq α] [DecidableEq κ]

omit [DecidableEq κ] in
/-- A sum over the inner maps, by their keys. -/
theorem weigh_eq_sum_keys (f : UnorderedMap κ ν → ℕ) (m : NestedMap α κ ν) :
    m.weigh (fun _ i => f i) = (m.keys.map fun a => f (inner m a)).sum := by
  rw [UnorderedMap.weigh, UnorderedMap.keys, List.map_map]
  refine congrArg List.sum (List.map_congr_left fun entry hmem => ?_)
  rw [Function.comp_apply, inner_of_find? (UnorderedMap.find?_eq_some_iff.mpr hmem)]

/-- Maps of maps with the same contents have the same total. -/
theorem total_of_at?_eq {m m' : NestedMap α κ ν}
    (hfind : ∀ a, (m'.find? a).isSome = (m.find? a).isSome)
    (hat : ∀ a k, at? m' a k = at? m a k) (w : ν → ℕ) : total w m' = total w m := by
  rw [total, total, weigh_eq_sum_keys, weigh_eq_sum_keys,
    ((UnorderedMap.keys_perm hfind).map _).sum_eq]
  refine congrArg List.sum (List.map_congr_left fun a _ => ?_)
  exact UnorderedMap.weigh_of_find?_eq (hat a) _

end NestedMap
