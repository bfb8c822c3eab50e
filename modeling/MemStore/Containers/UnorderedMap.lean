import Mathlib.Data.List.Lookmap
import Mathlib.Data.List.Sort
import Mathlib.Data.Option.Basic
import Mathlib.Algebra.BigOperators.Group.List.Basic
import Mathlib.Algebra.GroupWithZero.Nat

/-!
# Unordered maps with an iteration order

An `UnorderedMap` is the observable content of a hash map: its entries in the
order in which an iterator meets them, no key twice.  Buckets, hashes and load
factors are absent; what is kept of them is the only thing a program can see,
namely that inserting a new key may rearrange the whole map.  `upsert` takes a
`layout`, a bucket number for every key, and lists the entries by it, so that by
varying the layout every arrangement of the entries can be reached.  Changing
a value in place and erasing keep the relative order of the other entries, as
the standard guarantees for `std::unordered_map`.

Everything that is not an insertion is an instance of `filterMap`, which gives
each entry a new value or drops it:

* `modify`, `erase` and `eraseIf` are defined by it;
* `find?_filterMap` reads it through `find?`;
* `weigh_filterMap` reads it through sums over the entries, and
  `filterMap_filterMap` composes two of them.
-/

/-- The entries of a hash map in iteration order. -/
structure UnorderedMap (κ ν : Type*) where
  entries : List (κ × ν)
  nodup_keys : (entries.map Prod.fst).Nodup

namespace UnorderedMap

variable {κ ν μ : Type*}

@[ext] theorem ext {m m' : UnorderedMap κ ν} (h : m.entries = m'.entries) : m = m' := by
  cases m
  cases m'
  cases h
  rfl

instance : EmptyCollection (UnorderedMap κ ν) := ⟨⟨[], List.nodup_nil⟩⟩

/-- The keys in iteration order. -/
def keys (m : UnorderedMap κ ν) : List κ := m.entries.map Prod.fst

/-- `size()`. -/
def size (m : UnorderedMap κ ν) : ℕ := m.entries.length

/-- `empty()`. -/
def isEmpty (m : UnorderedMap κ ν) : Bool := m.entries.isEmpty

/-- Dropping entries and changing values leaves a sublist of the keys. -/
theorem map_fst_filterMap_sublist (g : κ → ν → Option μ) (entries : List (κ × ν)) :
    ((entries.filterMap fun entry => (g entry.1 entry.2).map fun value =>
      (entry.1, value)).map Prod.fst).Sublist (entries.map Prod.fst) := by
  induction entries with
  | nil => simp
  | cons entry rest ih =>
      cases hg : g entry.1 entry.2 with
      | none => simpa [hg] using ih.cons entry.1
      | some value => simpa [hg] using ih.cons_cons entry.1

/-- Give every entry a new value, or drop it. -/
def filterMap (g : κ → ν → Option μ) (m : UnorderedMap κ ν) : UnorderedMap κ μ where
  entries := m.entries.filterMap fun entry => (g entry.1 entry.2).map fun value => (entry.1, value)
  nodup_keys := m.nodup_keys.sublist (map_fst_filterMap_sublist g m.entries)

/-- The sum of `w` over the entries. -/
def weigh (w : κ → ν → ℕ) (m : UnorderedMap κ ν) : ℕ :=
  (m.entries.map fun entry => w entry.1 entry.2).sum

variable [DecidableEq κ]

/-- `find(k)`: the value under `k`, if any. -/
def find? (m : UnorderedMap κ ν) (k : κ) : Option ν :=
  (m.entries.find? fun entry => entry.1 = k).map Prod.snd

/-- Change the value under `k` in place. -/
def modify (m : UnorderedMap κ ν) (k : κ) (f : ν → ν) : UnorderedMap κ ν :=
  m.filterMap fun key value => some (if key = k then f value else value)

/-- `erase(find(k))`. -/
def erase (m : UnorderedMap κ ν) (k : κ) : UnorderedMap κ ν :=
  m.filterMap fun key value => if key = k then none else some value

omit [DecidableEq κ] in
/-- The loop that walks the map and erases the entries whose value satisfies `p`. -/
def eraseIf (m : UnorderedMap κ ν) (p : ν → Bool) : UnorderedMap κ ν :=
  m.filterMap fun _ value => if p value then none else some value

/-- `f(m[k])`: change the value under `k`, first inserting `fresh` when `k` is
absent.  An insertion lists the entries anew, by the bucket `layout` assigns to
their keys. -/
def upsert (layout : κ → ℕ) (m : UnorderedMap κ ν) (k : κ) (fresh : ν) (f : ν → ν) :
    UnorderedMap κ ν :=
  if hk : k ∈ m.keys then m.modify k f
  else
    { entries := ((k, f fresh) :: m.entries).insertionSort fun a b => layout a.1 ≤ layout b.1
      nodup_keys := by
        refine ((List.perm_insertionSort _ _).map Prod.fst).nodup_iff.mpr ?_
        exact List.nodup_cons.mpr ⟨hk, m.nodup_keys⟩ }

/-! ## Looking a key up -/

theorem find?_eq_some_iff {m : UnorderedMap κ ν} {k : κ} {v : ν} :
    m.find? k = some v ↔ (k, v) ∈ m.entries := by
  obtain ⟨entries, hnodup⟩ := m
  unfold find?
  induction entries with
  | nil => simp
  | cons entry rest ih =>
      rw [List.map_cons, List.nodup_cons] at hnodup
      -- keys are distinct, so an entry with this key is the only one
      by_cases hkey : entry.1 = k
      · subst hkey
        have hrest : (entry.1, v) ∉ rest := fun hmem =>
          hnodup.1 (List.mem_map.mpr ⟨_, hmem, rfl⟩)
        rw [List.mem_cons, or_iff_left hrest]
        simp [Prod.ext_iff, eq_comm]
      · have hne : (k, v) ≠ entry := fun heq => hkey (by rw [← heq])
        simpa [hkey, hne] using ih hnodup.2

theorem find?_eq_none_iff {m : UnorderedMap κ ν} {k : κ} :
    m.find? k = none ↔ k ∉ m.keys := by
  rw [Option.eq_none_iff_forall_not_mem]
  simp only [Option.mem_def, find?_eq_some_iff, keys, List.mem_map, not_exists, not_and]
  constructor
  · rintro h ⟨key, value⟩ hmem rfl
    exact h value hmem
  · intro h value hmem
    exact h (k, value) hmem rfl

theorem mem_keys_iff {m : UnorderedMap κ ν} {k : κ} :
    k ∈ m.keys ↔ ∃ v, m.find? k = some v := by
  rw [← not_iff_not, ← find?_eq_none_iff, Option.eq_none_iff_forall_ne_some]
  simp

theorem mem_keys_of_find? {m : UnorderedMap κ ν} {k : κ} {v : ν} (h : m.find? k = some v) :
    k ∈ m.keys :=
  mem_keys_iff.mpr ⟨v, h⟩

theorem ne_of_find?_none {m : UnorderedMap κ ν} {k k' : κ} {v : ν} (h : m.find? k = none)
    (h' : m.find? k' = some v) : k' ≠ k := by
  rintro rfl
  rw [h] at h'
  cases h'

omit [DecidableEq κ] in
theorem keys_nodup (m : UnorderedMap κ ν) : m.keys.Nodup := m.nodup_keys

omit [DecidableEq κ] in
@[simp] theorem length_keys (m : UnorderedMap κ ν) : m.keys.length = m.size := by
  simp [keys, size]

@[simp] theorem find?_empty (k : κ) : (∅ : UnorderedMap κ ν).find? k = none := rfl

omit [DecidableEq κ] in
@[simp] theorem keys_empty : (∅ : UnorderedMap κ ν).keys = [] := rfl

omit [DecidableEq κ] in
@[simp] theorem size_empty : (∅ : UnorderedMap κ ν).size = 0 := rfl

omit [DecidableEq κ] in
@[simp] theorem isEmpty_iff {m : UnorderedMap κ ν} : m.isEmpty = true ↔ m = ∅ := by
  rw [isEmpty, List.isEmpty_iff]
  exact ⟨fun h => ext h, fun h => h ▸ rfl⟩

omit [DecidableEq κ] in
theorem keys_eq_nil_iff {m : UnorderedMap κ ν} : m.keys = [] ↔ m.isEmpty = true := by
  rw [keys, List.map_eq_nil_iff, isEmpty, List.isEmpty_iff]

theorem eq_empty_iff {m : UnorderedMap κ ν} : m = ∅ ↔ ∀ k, m.find? k = none := by
  constructor
  · rintro rfl k
    rfl
  · intro h
    refine ext (List.eq_nil_iff_forall_not_mem.mpr ?_)
    rintro ⟨key, value⟩ hmem
    rw [← find?_eq_some_iff, h key] at hmem
    cases hmem

omit [DecidableEq κ] in
theorem size_pos_iff {m : UnorderedMap κ ν} : 0 < m.size ↔ m ≠ ∅ := by
  rw [size, List.length_pos_iff, not_iff_not]
  exact ⟨fun h => ext h, fun h => h ▸ rfl⟩

/-- Two maps with the same lookups hold the same entries, up to iteration order. -/
theorem perm_of_find?_eq {m m' : UnorderedMap κ ν} (h : ∀ k, m.find? k = m'.find? k) :
    m.entries.Perm m'.entries := by
  refine (List.perm_ext_iff_of_nodup m.nodup_keys.of_map m'.nodup_keys.of_map).mpr ?_
  rintro ⟨key, value⟩
  rw [← find?_eq_some_iff, ← find?_eq_some_iff, h key]

/-- Maps that store the same keys list them in some order each. -/
theorem keys_perm {m : UnorderedMap κ ν} {m' : UnorderedMap κ μ}
    (h : ∀ k, (m'.find? k).isSome = (m.find? k).isSome) : m'.keys.Perm m.keys := by
  rw [List.perm_ext_iff_of_nodup m'.keys_nodup m.keys_nodup]
  intro k
  rw [mem_keys_iff, mem_keys_iff, ← Option.isSome_iff_exists, ← Option.isSome_iff_exists]
  exact Bool.eq_iff_iff.mp (h k)

theorem size_congr {m : UnorderedMap κ ν} {m' : UnorderedMap κ μ}
    (h : ∀ k, (m'.find? k).isSome = (m.find? k).isSome) : m'.size = m.size := by
  rw [← length_keys, ← length_keys, (keys_perm h).length_eq]

/-! ## Filtering and mapping -/

theorem find?_filterMap (g : κ → ν → Option μ) (m : UnorderedMap κ ν) (k : κ) :
    (m.filterMap g).find? k = (m.find? k).bind (g k) := by
  ext value
  rw [find?_eq_some_iff, Option.bind_eq_some_iff]
  simp only [filterMap, List.mem_filterMap, Option.map_eq_some_iff, Prod.mk.injEq,
    find?_eq_some_iff]
  constructor
  · rintro ⟨⟨key, old⟩, hmem, new, hg, rfl, rfl⟩
    exact ⟨old, hmem, hg⟩
  · rintro ⟨old, hmem, hg⟩
    exact ⟨(k, old), hmem, value, hg, rfl, rfl⟩

omit [DecidableEq κ] in
theorem filterMap_filterMap {ρ : Type*} (g : κ → ν → Option μ) (g' : κ → μ → Option ρ)
    (m : UnorderedMap κ ν) :
    (m.filterMap g).filterMap g' = m.filterMap fun k v => (g k v).bind (g' k) := by
  apply ext
  simp only [filterMap, List.filterMap_filterMap]
  refine List.filterMap_congr fun entry _ => ?_
  cases g entry.1 entry.2 <;> rfl

theorem filterMap_congr {g g' : κ → ν → Option μ} {m : UnorderedMap κ ν}
    (h : ∀ k v, m.find? k = some v → g k v = g' k v) : m.filterMap g = m.filterMap g' := by
  apply ext
  refine List.filterMap_congr fun entry hentry => ?_
  rw [h entry.1 entry.2 (find?_eq_some_iff.mpr hentry)]

omit [DecidableEq κ] in
@[simp] theorem filterMap_some (m : UnorderedMap κ ν) : m.filterMap (fun _ v => some v) = m := by
  apply ext
  simp [filterMap]

omit [DecidableEq κ] in
@[simp] theorem filterMap_empty (g : κ → ν → Option μ) :
    (∅ : UnorderedMap κ ν).filterMap g = ∅ := rfl

theorem filterMap_eq_self {g : κ → ν → Option ν} {m : UnorderedMap κ ν}
    (h : ∀ k v, m.find? k = some v → g k v = some v) : m.filterMap g = m := by
  rw [filterMap_congr h, filterMap_some]

omit [DecidableEq κ] in
theorem keys_filterMap_sublist (g : κ → ν → Option μ) (m : UnorderedMap κ ν) :
    (m.filterMap g).keys.Sublist m.keys :=
  map_fst_filterMap_sublist g m.entries

omit [DecidableEq κ] in
theorem size_filterMap_le (g : κ → ν → Option μ) (m : UnorderedMap κ ν) :
    (m.filterMap g).size ≤ m.size := by
  rw [← length_keys, ← length_keys]
  exact (keys_filterMap_sublist g m).length_le

theorem find?_modify (m : UnorderedMap κ ν) (k k' : κ) (f : ν → ν) :
    (m.modify k f).find? k' = if k' = k then (m.find? k).map f else m.find? k' := by
  rw [modify, find?_filterMap]
  by_cases h : k' = k
  · subst h
    cases m.find? k' <;> simp
  · cases m.find? k' <;> simp [h]

theorem entries_modify (m : UnorderedMap κ ν) (k : κ) (f : ν → ν) : (m.modify k f).entries =
    m.entries.map fun entry => (entry.1, if entry.1 = k then f entry.2 else entry.2) := by
  simp only [modify, filterMap, Option.map_some]
  exact congrFun (List.filterMap_eq_map (f := fun entry : κ × ν =>
    (entry.1, if entry.1 = k then f entry.2 else entry.2))) m.entries

theorem keys_modify (m : UnorderedMap κ ν) (k : κ) (f : ν → ν) :
    (m.modify k f).keys = m.keys := by
  rw [keys, entries_modify, List.map_map]
  rfl

/-- Changing the value under an absent key changes nothing. -/
theorem modify_of_find?_none {m : UnorderedMap κ ν} {k : κ} (h : m.find? k = none)
    (f : ν → ν) : m.modify k f = m :=
  filterMap_eq_self fun _ _ hk' => congrArg some (if_neg (ne_of_find?_none h hk'))

theorem erase_of_find?_none {m : UnorderedMap κ ν} {k : κ} (h : m.find? k = none) :
    m.erase k = m :=
  filterMap_eq_self fun _ _ hk' => if_neg (ne_of_find?_none h hk')

theorem find?_erase (m : UnorderedMap κ ν) (k k' : κ) :
    (m.erase k).find? k' = if k' = k then none else m.find? k' := by
  rw [erase, find?_filterMap]
  by_cases h : k' = k <;> cases m.find? k' <;> simp [h]

theorem find?_eraseIf (m : UnorderedMap κ ν) (p : ν → Bool) (k : κ) :
    (m.eraseIf p).find? k = (m.find? k).filter fun v => !p v := by
  rw [eraseIf, find?_filterMap]
  cases m.find? k with
  | none => rfl
  | some v => cases hp : p v <;> simp [Option.filter, hp]

omit [DecidableEq κ] in
theorem eraseIf_eraseIf (m : UnorderedMap κ ν) (p q : ν → Bool) :
    (m.eraseIf p).eraseIf q = m.eraseIf fun v => p v || q v := by
  rw [eraseIf, eraseIf, filterMap_filterMap, eraseIf]
  congr 1
  funext _ v
  cases p v <;> simp

/-! ## Inserting -/

theorem upsert_of_mem {layout : κ → ℕ} {m : UnorderedMap κ ν} {k : κ} {fresh : ν} {f : ν → ν}
    (h : k ∈ m.keys) : m.upsert layout k fresh f = m.modify k f :=
  dif_pos h

theorem perm_upsert_of_notMem {m : UnorderedMap κ ν} {k : κ} (h : k ∉ m.keys)
    (layout : κ → ℕ) (fresh : ν) (f : ν → ν) :
    (m.upsert layout k fresh f).entries.Perm ((k, f fresh) :: m.entries) := by
  rw [upsert, dif_neg h]
  exact List.perm_insertionSort _ _

/-- `m[k]` changes the value under `k` and no other. -/
theorem find?_upsert (layout : κ → ℕ) (m : UnorderedMap κ ν) (k k' : κ) (fresh : ν)
    (f : ν → ν) :
    (m.upsert layout k fresh f).find? k' =
      if k' = k then some (f ((m.find? k).getD fresh)) else m.find? k' := by
  by_cases hk : k ∈ m.keys
  · rw [upsert_of_mem hk, find?_modify]
    obtain ⟨v, hv⟩ := mem_keys_iff.mp hk
    simp [hv]
  · have hnone : m.find? k = none := find?_eq_none_iff.mpr hk
    -- after an insertion only the content is known, whatever the order
    have hperm := perm_upsert_of_notMem hk layout fresh f
    ext value
    rw [find?_eq_some_iff, hperm.mem_iff, List.mem_cons]
    by_cases h : k' = k
    · subst h
      have hrest : (k', value) ∉ m.entries := by
        rw [← find?_eq_some_iff, hnone]
        simp
      simp [hrest, hnone, eq_comm]
    · simp [h, find?_eq_some_iff]

theorem size_upsert (layout : κ → ℕ) (m : UnorderedMap κ ν) (k : κ) (fresh : ν) (f : ν → ν) :
    (m.upsert layout k fresh f).size = if k ∈ m.keys then m.size else m.size + 1 := by
  split
  · next hk => rw [upsert_of_mem hk, ← length_keys, keys_modify, length_keys]
  · next hk => simpa [size] using (perm_upsert_of_notMem hk _ _ _).length_eq

/-- What is done to other values than the one under the key does not matter. -/
theorem modify_congr {m : UnorderedMap κ ν} {k : κ} {v : ν} {f g : ν → ν}
    (h : m.find? k = some v) (hfg : f v = g v) : m.modify k f = m.modify k g := by
  rw [modify, modify]
  refine filterMap_congr fun k' v' hfind => ?_
  by_cases hk : k' = k
  · subst hk
    cases h.symm.trans hfind
    rw [if_pos rfl, if_pos rfl, hfg]
  · rw [if_neg hk, if_neg hk]

theorem modify_id (m : UnorderedMap κ ν) (k : κ) : m.modify k (fun v => v) = m := by
  rw [modify]
  simp

/-- Changing the value that has just been inserted is inserting the changed value. -/
theorem modify_upsert (layout : κ → ℕ) (m : UnorderedMap κ ν) (k : κ) (fresh : ν)
    (f g : ν → ν) :
    (m.upsert layout k fresh f).modify k g = m.upsert layout k fresh fun v => g (f v) := by
  by_cases hk : k ∈ m.keys
  · rw [upsert_of_mem hk, upsert_of_mem hk, modify, modify, filterMap_filterMap, modify]
    congr 1
    funext k' v
    by_cases h : k' = k <;> simp [h]
  · -- the entries that were there have other keys
    have hsame : m.entries.map
        (fun entry => (entry.1, if entry.1 = k then g entry.2 else entry.2)) = m.entries := by
      refine (List.map_congr_left fun entry hentry => ?_).trans (List.map_id _)
      have hne : entry.1 ≠ k := by
        rintro rfl
        exact hk (List.mem_map_of_mem hentry)
      simp [hne]
    ext1
    rw [entries_modify, upsert, dif_neg hk, upsert, dif_neg hk]
    dsimp only
    -- the change keeps the keys, and the order goes by the keys alone
    have hsort := List.map_insertionSort (r := fun a b : κ × ν => layout a.1 ≤ layout b.1)
      (s := fun a b : κ × ν => layout a.1 ≤ layout b.1)
      (fun entry => (entry.1, if entry.1 = k then g entry.2 else entry.2))
      ((k, f fresh) :: m.entries) fun _ _ _ _ => Iff.rfl
    rw [hsort, List.map_cons, hsame]
    simp

/-- Evaluating `m[k]` under a stored key leaves the map as it is. -/
theorem upsert_id_of_find? {layout : κ → ℕ} {m : UnorderedMap κ ν} {k : κ} {fresh v : ν}
    (h : m.find? k = some v) : m.upsert layout k fresh (fun v => v) = m := by
  rw [upsert_of_mem (mem_keys_of_find? h), modify_id]

/-! ## Sums over the entries -/

omit [DecidableEq κ] in
@[simp] theorem weigh_empty (w : κ → ν → ℕ) : (∅ : UnorderedMap κ ν).weigh w = 0 := rfl

omit [DecidableEq κ] in
theorem weigh_add (w w' : κ → ν → ℕ) (m : UnorderedMap κ ν) :
    m.weigh (fun k v => w k v + w' k v) = m.weigh w + m.weigh w' :=
  List.sum_map_add

theorem weigh_congr {w w' : κ → ν → ℕ} {m : UnorderedMap κ ν}
    (h : ∀ k v, m.find? k = some v → w k v = w' k v) : m.weigh w = m.weigh w' := by
  unfold weigh
  congr 1
  exact List.map_congr_left fun entry hentry =>
    h entry.1 entry.2 (find?_eq_some_iff.mpr hentry)

omit [DecidableEq κ] in
theorem weigh_filterMap (w : κ → μ → ℕ) (g : κ → ν → Option μ) (m : UnorderedMap κ ν) :
    (m.filterMap g).weigh w = m.weigh fun k v => (g k v).elim 0 (w k) := by
  obtain ⟨entries, hnodup⟩ := m
  simp only [weigh, filterMap]
  clear hnodup
  induction entries with
  | nil => rfl
  | cons entry rest ih =>
      cases hg : g entry.1 entry.2 with
      | none => simpa [hg] using ih
      | some value => simpa [hg] using ih

/-- A weight that is zero away from one stored key is the weight of that entry. -/
theorem weigh_single {w : κ → ν → ℕ} {m : UnorderedMap κ ν} {k : κ} {v : ν}
    (h : m.find? k = some v) : m.weigh (fun k' v' => if k' = k then w k' v' else 0) = w k v := by
  obtain ⟨entries, hnodup⟩ := m
  rw [find?_eq_some_iff] at h
  simp only [weigh] at h ⊢
  induction entries with
  | nil => simp at h
  | cons entry rest ih =>
      rw [List.map_cons, List.nodup_cons] at hnodup
      rw [List.map_cons, List.sum_cons]
      rcases List.mem_cons.mp h with rfl | hmem
      · -- no later entry has the key
        have hrest : (rest.map fun e => if e.1 = k then w e.1 e.2 else 0).sum = 0 := by
          refine List.sum_eq_zero fun x hx => ?_
          obtain ⟨e, he, rfl⟩ := List.mem_map.mp hx
          have hne : e.1 ≠ k := fun heq => hnodup.1 (List.mem_map.mpr ⟨e, he, heq⟩)
          simp [hne]
        simp [hrest]
      · have hne : entry.1 ≠ k := fun heq =>
          hnodup.1 (List.mem_map.mpr ⟨(k, v), hmem, heq.symm⟩)
        simp [hne, ih hnodup.2 hmem]

/-- Changing one value in place moves its weight. -/
theorem weigh_modify {w : κ → ν → ℕ} {m : UnorderedMap κ ν} {k : κ} {v : ν} {f : ν → ν}
    (h : m.find? k = some v) : (m.modify k f).weigh w + w k v = m.weigh w + w k (f v) := by
  rw [modify, weigh_filterMap, ← weigh_single (w := w) h,
    ← weigh_single (w := fun k v => w k (f v)) h, ← weigh_add, ← weigh_add]
  refine weigh_congr fun k' v' _ => ?_
  by_cases hk : k' = k
  · simp [hk, Nat.add_comm]
  · simp [hk]

/-- Erasing one entry takes its weight away. -/
theorem weigh_erase {w : κ → ν → ℕ} {m : UnorderedMap κ ν} {k : κ} {v : ν}
    (h : m.find? k = some v) : (m.erase k).weigh w + w k v = m.weigh w := by
  rw [erase, weigh_filterMap, ← weigh_single (w := w) h, ← weigh_add]
  refine weigh_congr fun k' v' _ => ?_
  by_cases hk : k' = k <;> simp [hk]

omit [DecidableEq κ] in
/-- What an erasing loop leaves, together with what it drops, is what there was. -/
theorem weigh_eraseIf (w : κ → ν → ℕ) (m : UnorderedMap κ ν) (p : ν → Bool) :
    (m.eraseIf p).weigh w + m.weigh (fun k v => if p v then w k v else 0) = m.weigh w := by
  rw [eraseIf, weigh_filterMap, ← weigh_add]
  congr 1
  funext k v
  cases p v <;> simp

theorem weigh_upsert (w : κ → ν → ℕ) (layout : κ → ℕ) (m : UnorderedMap κ ν) (k : κ)
    (fresh : ν) (f : ν → ν) :
    (m.upsert layout k fresh f).weigh w + (m.find? k).elim 0 (w k) =
      m.weigh w + w k (f ((m.find? k).getD fresh)) := by
  cases hfind : m.find? k with
  | some v =>
      rw [upsert_of_mem (mem_keys_of_find? hfind)]
      exact weigh_modify hfind
  | none =>
      have hperm := perm_upsert_of_notMem (find?_eq_none_iff.mp hfind) layout fresh f
      have hsum := (hperm.map fun entry => w entry.1 entry.2).sum_eq
      simp only [List.map_cons, List.sum_cons] at hsum
      simp only [weigh, Option.elim_none, Option.getD_none, hsum]
      omega

end UnorderedMap
