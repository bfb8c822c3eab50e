import MemStore.Containers.UnorderedMap

/-!
# Maps of maps

A `NestedMap` is an unordered map whose values are unordered maps.  `inner m a`
reads the map stored under `a`, with an absent one read as the empty map, and
`at? m a k` reads one entry of it.  Both keys of an entry are inserted on
demand by `upsertAt`; the operations that take entries out, `retainAt` for one
inner map and `retainAll` for all of them, drop an inner map that they empty.

Every operation comes with what it does to `inner`, from which what it does to
`at?` follows, and with what it does to `total`, the sum of a weight over all
entries.  `NoEmpty` says that no empty inner map is stored; under it an inner
map is absent exactly when it reads as empty.
-/

/-- A map of maps. -/
abbrev NestedMap (α κ ν : Type*) := UnorderedMap α (UnorderedMap κ ν)

namespace NestedMap

open UnorderedMap

variable {α κ ν μ : Type*} [DecidableEq α] [DecidableEq κ]

/-- The inner map under `a`; empty when there is none. -/
def inner (m : NestedMap α κ ν) (a : α) : UnorderedMap κ ν := (m.find? a).getD ∅

/-- The entry under `a` and `k`. -/
def at? (m : NestedMap α κ ν) (a : α) (k : κ) : Option ν := (inner m a).find? k

/-- `f(m[a][k])`, inserting an empty inner map and a `fresh` entry as needed. -/
def upsertAt (outerLayout : α → ℕ) (innerLayout : κ → ℕ) (m : NestedMap α κ ν) (a : α) (k : κ)
    (fresh : ν) (f : ν → ν) : NestedMap α κ ν :=
  m.upsert outerLayout a ∅ fun i => i.upsert innerLayout k fresh f

/-- Change the entry under `a` and `k` in place. -/
def modifyAt (m : NestedMap α κ ν) (a : α) (k : κ) (f : ν → ν) : NestedMap α κ ν :=
  m.modify a fun i => i.modify k f

/-- Erase the inner map under `a` if it is empty. -/
def dropIfEmpty (m : NestedMap α κ ν) (a : α) : NestedMap α κ ν :=
  match m.find? a with
  | some i => if i.isEmpty then m.erase a else m
  | none => m

/-- Give the entries under `a` new values or drop them, then drop the inner map
if that emptied it. -/
def retainAt (m : NestedMap α κ ν) (a : α) (g : κ → ν → Option ν) : NestedMap α κ ν :=
  dropIfEmpty (m.modify a fun i => i.filterMap g) a

omit [DecidableEq α] [DecidableEq κ] in
/-- Give all entries new values or drop them, dropping the inner maps that are
then empty. -/
def retainAll (m : NestedMap α κ ν) (g : κ → ν → Option ν) : NestedMap α κ ν :=
  m.filterMap fun _ i => if (i.filterMap g).isEmpty then none else some (i.filterMap g)

omit [DecidableEq α] [DecidableEq κ] in
/-- The sum of `w` over all entries. -/
def total (w : ν → ℕ) (m : NestedMap α κ ν) : ℕ :=
  m.weigh fun _ i => i.weigh fun _ v => w v

/-! ## Reading an inner map -/

omit [DecidableEq κ] in
@[simp] theorem inner_empty (a : α) : inner (∅ : NestedMap α κ ν) a = ∅ := rfl

@[simp] theorem at?_empty (a : α) (k : κ) : at? (∅ : NestedMap α κ ν) a k = none := rfl

omit [DecidableEq κ] in
theorem inner_of_find? {m : NestedMap α κ ν} {a : α} {i : UnorderedMap κ ν}
    (h : m.find? a = some i) : inner m a = i := by
  rw [inner, h, Option.getD_some]

omit [DecidableEq κ] in
theorem inner_of_find?_none {m : NestedMap α κ ν} {a : α} (h : m.find? a = none) :
    inner m a = ∅ := by
  rw [inner, h, Option.getD_none]

theorem at?_of_find?_none {m : NestedMap α κ ν} {a : α} (h : m.find? a = none) (k : κ) :
    at? m a k = none := by
  rw [at?, inner_of_find?_none h]
  rfl

theorem find?_of_at? {m : NestedMap α κ ν} {a : α} {k : κ} {v : ν} (h : at? m a k = some v) :
    m.find? a = some (inner m a) := by
  cases hfind : m.find? a with
  | some i => rw [inner_of_find? hfind]
  | none =>
      rw [at?, inner_of_find?_none hfind] at h
      cases h

theorem inner_upsertAt (outerLayout : α → ℕ) (innerLayout : κ → ℕ) (m : NestedMap α κ ν)
    (a b : α) (k : κ) (fresh : ν) (f : ν → ν) :
    inner (upsertAt outerLayout innerLayout m a k fresh f) b =
      if b = a then (inner m a).upsert innerLayout k fresh f else inner m b := by
  rw [inner, upsertAt, find?_upsert]
  by_cases h : b = a
  · simp [h, inner]
  · simp [h, inner]

omit [DecidableEq κ] in
/-- Changing an inner map in place, by a change that keeps the empty map empty. -/
theorem inner_modify {F : UnorderedMap κ ν → UnorderedMap κ ν} (hF : F ∅ = ∅)
    (m : NestedMap α κ ν) (a b : α) :
    inner (m.modify a F) b = if b = a then F (inner m a) else inner m b := by
  rw [inner, find?_modify]
  by_cases h : b = a
  · cases hfind : m.find? a <;> simp [h, inner, hfind, hF]
  · simp [h, inner]

theorem inner_modifyAt (m : NestedMap α κ ν) (a b : α) (k : κ) (f : ν → ν) :
    inner (modifyAt m a k f) b = if b = a then (inner m a).modify k f else inner m b :=
  inner_modify (F := fun i => i.modify k f) rfl m a b

omit [DecidableEq κ] in
theorem inner_erase (m : NestedMap α κ ν) (a b : α) :
    inner (m.erase a) b = if b = a then ∅ else inner m b := by
  rw [inner, find?_erase]
  by_cases h : b = a <;> simp [h, inner]

omit [DecidableEq κ] in
@[simp] theorem inner_dropIfEmpty (m : NestedMap α κ ν) (a b : α) :
    inner (dropIfEmpty m a) b = inner m b := by
  unfold dropIfEmpty
  split
  · next i hfind =>
      split
      · next hempty =>
          rw [inner_erase]
          by_cases h : b = a
          · rw [if_pos h, h, inner_of_find? hfind, isEmpty_iff.mp hempty]
          · rw [if_neg h]
      · rfl
  · rfl

omit [DecidableEq κ] in
theorem retainAt_of_find?_none {m : NestedMap α κ ν} {a : α} (h : m.find? a = none)
    (g : κ → ν → Option ν) : retainAt m a g = m := by
  rw [retainAt, modify_of_find?_none h, dropIfEmpty, h]

omit [DecidableEq κ] in
theorem inner_retainAt (m : NestedMap α κ ν) (a b : α) (g : κ → ν → Option ν) :
    inner (retainAt m a g) b = if b = a then (inner m a).filterMap g else inner m b := by
  rw [retainAt, inner_dropIfEmpty, inner_modify (filterMap_empty g)]

omit [DecidableEq κ] in
theorem inner_retainAll (m : NestedMap α κ ν) (a : α) (g : κ → ν → Option ν) :
    inner (retainAll m g) a = (inner m a).filterMap g := by
  rw [inner, retainAll, find?_filterMap]
  cases hfind : m.find? a with
  | none => simp [inner, hfind]
  | some i =>
      by_cases hempty : (i.filterMap g).isEmpty = true
      · simp [inner, hfind, isEmpty_iff.mp hempty]
      · simp [inner, hfind, hempty]

/-! ## Reading one entry -/

theorem at?_upsertAt (outerLayout : α → ℕ) (innerLayout : κ → ℕ) (m : NestedMap α κ ν)
    (a b : α) (k k' : κ) (fresh : ν) (f : ν → ν) :
    at? (upsertAt outerLayout innerLayout m a k fresh f) b k' =
      if b = a ∧ k' = k then some (f ((at? m a k).getD fresh)) else at? m b k' := by
  rw [at?, inner_upsertAt]
  by_cases h : b = a
  · rw [if_pos h, find?_upsert, h]
    by_cases hk : k' = k <;> simp [hk, at?]
  · simp [h, at?]

theorem at?_modifyAt (m : NestedMap α κ ν) (a b : α) (k k' : κ) (f : ν → ν) :
    at? (modifyAt m a k f) b k' =
      if b = a ∧ k' = k then (at? m a k).map f else at? m b k' := by
  rw [at?, inner_modifyAt]
  by_cases h : b = a
  · rw [if_pos h, find?_modify, h]
    by_cases hk : k' = k <;> simp [hk, at?]
  · simp [h, at?]

theorem modifyAt_congr {m : NestedMap α κ ν} {a : α} {k : κ} {v : ν} {f g : ν → ν}
    (h : at? m a k = some v) (hfg : f v = g v) : modifyAt m a k f = modifyAt m a k g :=
  UnorderedMap.modify_congr (find?_of_at? h) (UnorderedMap.modify_congr h hfg)

/-- Under a stored key `m[a][k]` inserts nothing. -/
theorem upsertAt_of_at? {outerLayout : α → ℕ} {innerLayout : κ → ℕ} {m : NestedMap α κ ν} {a : α}
    {k : κ} {v : ν} (h : at? m a k = some v) (fresh : ν) (f : ν → ν) :
    upsertAt outerLayout innerLayout m a k fresh f = modifyAt m a k f := by
  have hinner : m.find? a = some (inner m a) := find?_of_at? h
  rw [upsertAt, upsert_of_mem (mem_keys_of_find? hinner), modifyAt]
  exact modify_congr hinner (upsert_of_mem (mem_keys_of_find? h))

theorem at?_erase (m : NestedMap α κ ν) (a b : α) (k : κ) :
    at? (m.erase a) b k = if b = a then none else at? m b k := by
  rw [at?, inner_erase]
  by_cases h : b = a <;> simp [h, at?]

theorem at?_retainAt (m : NestedMap α κ ν) (a b : α) (k : κ) (g : κ → ν → Option ν) :
    at? (retainAt m a g) b k = if b = a then (at? m a k).bind (g k) else at? m b k := by
  rw [at?, inner_retainAt]
  by_cases h : b = a
  · rw [if_pos h, if_pos h, find?_filterMap, at?]
  · rw [if_neg h, if_neg h, at?]

/-- Erasing one entry, read through `at?`. -/
theorem at?_retainAt_erase (m : NestedMap α κ ν) (a b : α) (k k' : κ) :
    at? (retainAt m a fun key v => if key = k then none else some v) b k' =
      if b = a ∧ k' = k then none else at? m b k' := by
  rw [at?_retainAt]
  by_cases h : b = a
  · subst h
    cases at? m b k' with
    | none => simp
    | some v => by_cases hk : k' = k <;> simp [hk]
  · simp [h]

/-- Erasing the entries that satisfy `p`, read through `at?`. -/
theorem at?_retainAt_eraseIf (m : NestedMap α κ ν) (a b : α) (k : κ) (p : ν → Bool) :
    at? (retainAt m a fun _ v => if p v then none else some v) b k =
      if b = a then (at? m b k).filter fun v => !p v else at? m b k := by
  rw [at?_retainAt]
  by_cases h : b = a
  · subst h
    rw [if_pos rfl, if_pos rfl]
    cases at? m b k with
    | none => rfl
    | some v => cases hp : p v <;> simp [Option.filter, hp]
  · rw [if_neg h, if_neg h]

theorem at?_retainAll (m : NestedMap α κ ν) (a : α) (k : κ) (g : κ → ν → Option ν) :
    at? (retainAll m g) a k = (at? m a k).bind (g k) := by
  rw [at?, inner_retainAll, find?_filterMap, at?]

/-! ## Inner maps that are stored but empty -/

omit [DecidableEq κ] in
/-- No empty inner map is stored. -/
def NoEmpty (m : NestedMap α κ ν) : Prop := ∀ a i, m.find? a = some i → i ≠ ∅

omit [DecidableEq κ] in
theorem noEmpty_empty : NoEmpty (∅ : NestedMap α κ ν) := by
  intro a i h
  cases h

omit [DecidableEq κ] in
theorem NoEmpty.find?_eq_none_iff {m : NestedMap α κ ν} (hm : NoEmpty m) {a : α} :
    m.find? a = none ↔ inner m a = ∅ := by
  refine ⟨inner_of_find?_none, fun h => ?_⟩
  cases hfind : m.find? a with
  | none => rfl
  | some i =>
      rw [inner_of_find? hfind] at h
      exact absurd h (hm a i hfind)

theorem NoEmpty.isSome_find?_congr {m : NestedMap α κ ν} {m' : NestedMap α κ μ} (hm : NoEmpty m)
    (hm' : NoEmpty m') (h : ∀ a k, (at? m' a k).isSome = (at? m a k).isSome) (a : α) :
    (m'.find? a).isSome = (m.find? a).isSome := by
  have hempty : inner m' a = ∅ ↔ inner m a = ∅ := by
    rw [eq_empty_iff, eq_empty_iff]
    refine forall_congr' fun k => ?_
    have hk := h a k
    rw [at?, at?, Bool.eq_iff_iff, ← not_iff_not, Option.not_isSome_iff_eq_none,
      Option.not_isSome_iff_eq_none] at hk
    exact hk
  rw [← hm.find?_eq_none_iff, ← hm'.find?_eq_none_iff] at hempty
  rw [Bool.eq_iff_iff, ← not_iff_not, Option.not_isSome_iff_eq_none,
    Option.not_isSome_iff_eq_none]
  exact hempty

theorem noEmpty_upsertAt {outerLayout : α → ℕ} {innerLayout : κ → ℕ} {m : NestedMap α κ ν}
    (hm : NoEmpty m) (a : α) (k : κ) (fresh : ν) (f : ν → ν) :
    NoEmpty (upsertAt outerLayout innerLayout m a k fresh f) := by
  intro b i hfind hempty
  rw [upsertAt, find?_upsert] at hfind
  by_cases h : b = a
  · rw [if_pos h, Option.some.injEq] at hfind
    -- the inner map that was written holds `k`
    have hk := eq_empty_iff.mp (hfind.trans hempty) k
    rw [find?_upsert, if_pos rfl] at hk
    cases hk
  · rw [if_neg h] at hfind
    exact hm b i hfind hempty

theorem noEmpty_modifyAt {m : NestedMap α κ ν} (hm : NoEmpty m) (a : α) (k : κ) (f : ν → ν) :
    NoEmpty (modifyAt m a k f) := by
  intro b i hfind hempty
  rw [modifyAt, find?_modify] at hfind
  by_cases h : b = a
  · rw [if_pos h, Option.map_eq_some_iff] at hfind
    obtain ⟨j, hj, rfl⟩ := hfind
    -- a change in place keeps the keys
    refine hm a j hj (eq_empty_iff.mpr fun k' => ?_)
    rw [UnorderedMap.find?_eq_none_iff, ← keys_modify j k f, hempty]
    simp
  · rw [if_neg h] at hfind
    exact hm b i hfind hempty

omit [DecidableEq κ] in
theorem noEmpty_erase {m : NestedMap α κ ν} (hm : NoEmpty m) (a : α) : NoEmpty (m.erase a) := by
  intro b i hfind
  rw [find?_erase] at hfind
  by_cases h : b = a
  · simp [h] at hfind
  · rw [if_neg h] at hfind
    exact hm b i hfind

omit [DecidableEq κ] in
theorem noEmpty_retainAt {m : NestedMap α κ ν} (hm : NoEmpty m) (a : α)
    (g : κ → ν → Option ν) : NoEmpty (retainAt m a g) := by
  intro b i hfind hempty
  have hmodify : ∀ c, c ≠ a → (m.modify a fun i => i.filterMap g).find? c = m.find? c :=
    fun c hc => by rw [find?_modify, if_neg hc]
  unfold retainAt dropIfEmpty at hfind
  split at hfind
  · next j hj =>
      split at hfind
      · rw [find?_erase] at hfind
        by_cases h : b = a
        · simp [h] at hfind
        · rw [if_neg h, hmodify b h] at hfind
          exact hm b i hfind hempty
      · next hfull =>
          by_cases h : b = a
          · rw [h, hj, Option.some.injEq] at hfind
            exact hfull (isEmpty_iff.mpr (hfind.trans hempty))
          · rw [hmodify b h] at hfind
            exact hm b i hfind hempty
  · next hnone =>
      by_cases h : b = a
      · rw [h, hnone] at hfind
        cases hfind
      · rw [hmodify b h] at hfind
        exact hm b i hfind hempty

omit [DecidableEq κ] in
theorem noEmpty_retainAll (m : NestedMap α κ ν) (g : κ → ν → Option ν) :
    NoEmpty (retainAll m g) := by
  intro a i hfind hempty
  rw [retainAll, find?_filterMap, Option.bind_eq_some_iff] at hfind
  obtain ⟨j, _, hj⟩ := hfind
  split at hj
  · cases hj
  · next hfull =>
      rw [Option.some.injEq] at hj
      exact hfull (isEmpty_iff.mpr (hj.trans hempty))

/-! ## Sums over all entries -/

omit [DecidableEq α] [DecidableEq κ] in
@[simp] theorem total_empty (w : ν → ℕ) : total w (∅ : NestedMap α κ ν) = 0 := rfl

omit [DecidableEq κ] in
private theorem elim_weigh_eq (w : ν → ℕ) (m : NestedMap α κ ν) (a : α) :
    (m.find? a).elim 0 (fun i => i.weigh fun _ v => w v) =
      (inner m a).weigh fun _ v => w v := by
  cases hfind : m.find? a with
  | none => simp [inner_of_find?_none hfind]
  | some i => simp [inner_of_find? hfind]

theorem total_upsertAt (w : ν → ℕ) (outerLayout : α → ℕ) (innerLayout : κ → ℕ)
    (m : NestedMap α κ ν) (a : α) (k : κ) (fresh : ν) (f : ν → ν) :
    total w (upsertAt outerLayout innerLayout m a k fresh f) + (at? m a k).elim 0 w =
      total w m + w (f ((at? m a k).getD fresh)) := by
  -- the weight of the outer map is that of its inner maps, so both insertions count
  have houter : total w (upsertAt outerLayout innerLayout m a k fresh f) +
      (m.find? a).elim 0 (fun i => i.weigh fun _ v => w v) =
        total w m + ((inner m a).upsert innerLayout k fresh f).weigh fun _ v => w v :=
    weigh_upsert _ outerLayout m a ∅ _
  have hinner : (((inner m a).upsert innerLayout k fresh f).weigh fun _ v => w v) +
      (at? m a k).elim 0 w =
        ((inner m a).weigh fun _ v => w v) + w (f ((at? m a k).getD fresh)) :=
    weigh_upsert _ innerLayout (inner m a) k fresh f
  rw [elim_weigh_eq] at houter
  omega

omit [DecidableEq κ] in
theorem total_modify {F : UnorderedMap κ ν → UnorderedMap κ ν} (hF : F ∅ = ∅) (w : ν → ℕ)
    (m : NestedMap α κ ν) (a : α) :
    total w (m.modify a F) + ((inner m a).weigh fun _ v => w v) =
      total w m + ((F (inner m a)).weigh fun _ v => w v) := by
  cases hfind : m.find? a with
  | some i =>
      rw [inner_of_find? hfind]
      exact weigh_modify hfind
  | none =>
      rw [modify_of_find?_none hfind, inner_of_find?_none hfind, hF]

theorem total_modifyAt {w : ν → ℕ} {m : NestedMap α κ ν} {a : α} {k : κ} {v : ν} {f : ν → ν}
    (h : at? m a k = some v) :
    total w (modifyAt m a k f) + w v = total w m + w (f v) := by
  have houter := total_modify (F := fun i => i.modify k f) rfl w m a
  have hinner := weigh_modify (w := fun _ v => w v) (f := f) h
  simp only [modifyAt] at houter hinner ⊢
  omega

omit [DecidableEq κ] in
theorem total_erase (w : ν → ℕ) (m : NestedMap α κ ν) (a : α) :
    total w (m.erase a) + ((inner m a).weigh fun _ v => w v) = total w m := by
  cases hfind : m.find? a with
  | some i =>
      rw [inner_of_find? hfind]
      exact weigh_erase hfind
  | none =>
      rw [erase_of_find?_none hfind, inner_of_find?_none hfind, weigh_empty, Nat.add_zero]

omit [DecidableEq κ] in
@[simp] theorem total_dropIfEmpty (w : ν → ℕ) (m : NestedMap α κ ν) (a : α) :
    total w (dropIfEmpty m a) = total w m := by
  unfold dropIfEmpty
  split
  · next i hfind =>
      split
      · next hempty =>
          have herase := total_erase w m a
          rwa [inner_of_find? hfind, isEmpty_iff.mp hempty, weigh_empty, Nat.add_zero] at herase
      · rfl
  · rfl

omit [DecidableEq κ] in
theorem total_retainAt (w : ν → ℕ) (m : NestedMap α κ ν) (a : α) (g : κ → ν → Option ν) :
    total w (retainAt m a g) + ((inner m a).weigh fun _ v => w v) =
      total w m + ((inner m a).filterMap g).weigh fun _ v => w v := by
  rw [retainAt, total_dropIfEmpty]
  exact total_modify (filterMap_empty g) w m a

omit [DecidableEq α] [DecidableEq κ] in
theorem total_retainAll (w : ν → ℕ) (m : NestedMap α κ ν) (g : κ → ν → Option ν) :
    total w (retainAll m g) = m.weigh fun _ i => (i.filterMap g).weigh fun _ v => w v := by
  rw [total, retainAll, weigh_filterMap]
  congr 1
  funext _ i
  by_cases hempty : (i.filterMap g).isEmpty = true
  · simp [isEmpty_iff.mp hempty]
  · simp [hempty]

/-- Erasing one entry takes its weight away. -/
theorem total_retainAt_erase {w : ν → ℕ} {m : NestedMap α κ ν} {a : α} {k : κ} {v : ν}
    (h : at? m a k = some v) :
    total w (retainAt m a fun key value => if key = k then none else some value) + w v =
      total w m := by
  have houter := total_retainAt w m a fun key value => if key = k then none else some value
  have hinner := weigh_erase (w := fun _ v => w v) h
  rw [erase] at hinner
  omega

omit [DecidableEq κ] in
/-- Erasing the entries that satisfy `p` takes their weight away. -/
theorem total_retainAt_eraseIf (w : ν → ℕ) (m : NestedMap α κ ν) (a : α) (p : ν → Bool) :
    total w (retainAt m a fun _ v => if p v then none else some v) +
        (inner m a).weigh (fun _ v => if p v then w v else 0) = total w m := by
  have houter := total_retainAt w m a fun _ v => if p v then none else some v
  have hinner := weigh_eraseIf (fun _ v => w v) (inner m a) p
  rw [eraseIf] at hinner
  omega

omit [DecidableEq α] [DecidableEq κ] in
/-- Dropping entries without changing the weight of the others. -/
theorem total_retainAll_add {w : ν → ℕ} {g : κ → ν → Option ν}
    (hg : ∀ k v v', g k v = some v' → w v' = w v) (m : NestedMap α κ ν) :
    total w (retainAll m g) +
        (m.weigh fun _ i => i.weigh fun k v => if (g k v).isNone then w v else 0) =
      total w m := by
  rw [total_retainAll, ← weigh_add, total]
  congr 1
  funext _ i
  rw [weigh_filterMap, ← weigh_add]
  congr 1
  funext k v
  cases hv : g k v with
  | none => simp
  | some v' => simp [hg k v v' hv]

theorem total_congr {w w' : ν → ℕ} {m : NestedMap α κ ν}
    (h : ∀ a k v, at? m a k = some v → w v = w' v) : total w m = total w' m :=
  weigh_congr fun a i hi => weigh_congr fun k v hv =>
    h a k v (by rw [at?, inner_of_find? hi, hv])

theorem le_total {w : ν → ℕ} {m : NestedMap α κ ν} {a : α} {k : κ} {v : ν}
    (h : at? m a k = some v) : w v ≤ total w m := by
  have herase := total_retainAt_erase (w := w) h
  omega

/-- Entries under different keys weigh no more than all entries together. -/
theorem sum_le_total {w : ν → ℕ} {l : List (α × κ × ν)} {m : NestedMap α κ ν}
    (hnodup : (l.map fun x => (x.1, x.2.1)).Nodup)
    (hl : ∀ x ∈ l, at? m x.1 x.2.1 = some x.2.2) : (l.map fun x => w x.2.2).sum ≤ total w m := by
  induction l generalizing m with
  | nil => simp
  | cons x rest ih =>
      rw [List.map_cons, List.nodup_cons] at hnodup
      -- erasing the first entry leaves the others where they are
      have hhead := total_retainAt_erase (w := w) (hl x List.mem_cons_self)
      have hrest : ∀ y ∈ rest, at? (retainAt m x.1 fun key value =>
          if key = x.2.1 then none else some value) y.1 y.2.1 = some y.2.2 := by
        intro y hy
        rw [at?_retainAt_erase, if_neg]
        · exact hl y (List.mem_cons_of_mem _ hy)
        · rintro ⟨hns, hkey⟩
          exact hnodup.1 (List.mem_map.mpr ⟨y, hy, by rw [hns, hkey]⟩)
      have htail := ih hnodup.2 hrest
      rw [List.map_cons, List.sum_cons]
      omega

/-! ## Sizes -/

/-- Neither the outer map nor an inner one is larger in `m'` than in `m`. -/
structure NoLarger (m' m : NestedMap α κ ν) : Prop where
  size_le : m'.size ≤ m.size
  inner_size_le : ∀ a, (inner m' a).size ≤ (inner m a).size

section NoLarger

omit [DecidableEq κ]

theorem NoLarger.refl (m : NestedMap α κ ν) : NoLarger m m := ⟨le_rfl, fun _ => le_rfl⟩

theorem NoLarger.trans {m m' m'' : NestedMap α κ ν} (h : NoLarger m'' m') (h' : NoLarger m' m) :
    NoLarger m'' m :=
  ⟨h.size_le.trans h'.size_le, fun a => (h.inner_size_le a).trans (h'.inner_size_le a)⟩

theorem noLarger_empty (m : NestedMap α κ ν) : NoLarger ∅ m :=
  ⟨Nat.zero_le _, fun _ => Nat.zero_le _⟩

theorem noLarger_erase (m : NestedMap α κ ν) (a : α) : NoLarger (m.erase a) m := by
  refine ⟨size_filterMap_le _ m, fun b => ?_⟩
  rw [inner_erase]
  split
  · exact Nat.zero_le _
  · exact le_rfl

/-- Making one inner map smaller. -/
theorem noLarger_modify {F : UnorderedMap κ ν → UnorderedMap κ ν}
    (hF : ∀ i, (F i).size ≤ i.size) (m : NestedMap α κ ν) (a : α) :
    NoLarger (m.modify a F) m := by
  refine ⟨size_filterMap_le _ m, fun b => ?_⟩
  have hempty : F ∅ = ∅ := by
    have hle := hF ∅
    by_contra hne
    have hpos := size_pos_iff.mpr hne
    have hzero : (∅ : UnorderedMap κ ν).size = 0 := rfl
    omega
  rw [inner_modify hempty]
  split
  · next h =>
      rw [h]
      exact hF _
  · exact le_rfl

theorem noLarger_retainAt (m : NestedMap α κ ν) (a : α) (g : κ → ν → Option ν) :
    NoLarger (retainAt m a g) m := by
  have hmodify := noLarger_modify (fun i => size_filterMap_le g i) m a
  refine NoLarger.trans ⟨?_, fun b => (congrArg size (inner_dropIfEmpty _ a b)).le⟩ hmodify
  unfold retainAt dropIfEmpty
  split
  · split
    · exact size_filterMap_le _ _
    · exact le_rfl
  · exact le_rfl

theorem noLarger_retainAll (m : NestedMap α κ ν) (g : κ → ν → Option ν) :
    NoLarger (retainAll m g) m := by
  refine ⟨size_filterMap_le _ m, fun a => ?_⟩
  rw [inner_retainAll]
  exact size_filterMap_le g _

end NoLarger

theorem noLarger_modifyAt (m : NestedMap α κ ν) (a : α) (k : κ) (f : ν → ν) :
    NoLarger (modifyAt m a k f) m :=
  noLarger_modify (fun i => by rw [← length_keys, keys_modify, length_keys]) m a

/-- Inserting adds at most one inner map, if there was none, and one entry, if it
was not there. -/
theorem size_upsertAt (outerLayout : α → ℕ) (innerLayout : κ → ℕ) (m : NestedMap α κ ν) (a : α)
    (k : κ) (fresh : ν) (f : ν → ν) :
    (upsertAt outerLayout innerLayout m a k fresh f).size =
        (if (m.find? a).isSome then m.size else m.size + 1) ∧
      ∀ b, (inner (upsertAt outerLayout innerLayout m a k fresh f) b).size =
        if b = a ∧ at? m a k = none then (inner m b).size + 1 else (inner m b).size := by
  constructor
  · rw [upsertAt, size_upsert]
    cases hfind : m.find? a <;> simp [mem_keys_iff, hfind]
  · intro b
    rw [inner_upsertAt, at?]
    by_cases h : b = a
    · subst h
      rw [if_pos rfl, size_upsert]
      cases hk : (inner m b).find? k with
      | none => simp [mem_keys_iff, hk]
      | some v => simp [mem_keys_iff, hk]
    · simp [h]

end NestedMap
