import MemStore.KeyValue.CacheCoherence

/-!
# Enumerating a namespace by index

`GetNamespaceCount` followed by `GetKeyAt` for every index, in any order and at
one clock reading, is how a plugin walks a namespace.  `EnumeratesExactly` is
what it relies on: every order finds the same list of keys, and these are the
live ones.

It holds as long as the key cache is coherent.  Then nothing that
`GetNamespaceCount` leaves behind has expired, and each `GetKeyAt` answers from
one list: from a valid cache, or from one that it rebuilds without erasing
anything (`getKeyAt_listing`).
-/

namespace MemStore

open MemStoreManager

/-- After `GetNamespaceCount` has returned `n` at clock reading `t`, there are `n`
different keys, the live keys of the namespace, such that `GetKeyAt` at `t`
finds the key at its index, or fails if there is none, in any sequence of calls. -/
def EnumeratesExactly (alg : StdAlgorithm RankPair) (w : World) (ns : StdString) : Prop :=
  ∀ (t : TimePoint) (layout : Layout) (w₁ : World) (n : ℕ),
    w.call alg ⟨.query (.getNamespaceCount ns), .at t layout⟩ = some (w₁, .count n) →
    ∃ keys : List StdString, keys.Nodup ∧ keys.length = n ∧
      (∀ key, key ∈ keys ↔ (w.store.liveAt t ns key).isSome) ∧
      (∀ key, key ∈ keys ↔ key ∈ (w.store.getActiveKeys ns t).2) ∧
      ∀ calls : List (ℕ × Layout), ∃ w₂, Machine.Run (World.call alg) Machine.anyStep w₁
        (calls.map fun call => (⟨.getKeyAt ns call.1, .at t call.2⟩, .keyAt keys[call.1]?)) w₂

/-- A manager in the middle of an enumeration: the namespace stores the given
keys, none of them has expired, and a valid cache lists them. -/
structure Listing (s : MemStoreManager) (ns : StdString) (t : TimePoint)
    (keys : List StdString) : Prop where
  noEmpty : NestedMap.NoEmpty s.namespaces
  live : ∀ key e, s.entryAt ns key = some e → e.isExpired t = false
  stored : (NestedMap.inner s.namespaces ns).keys = keys
  coherent : CoherentCache s ns

section Steps

variable {s : MemStoreManager} {ns : StdString} {t : TimePoint} {keys : List StdString}

/-- A slot of a cache of live keys. -/
theorem readKeyCache_of_live {cache : KeyCache} (hcache : s.keyCaches.find? ns = some cache)
    (hlive : ∀ key ∈ cache.keys, (s.liveAt t ns key).isSome) (index : ℕ) :
    s.readKeyCache ns index t t = some (s, cache.keys[index]?) := by
  rw [readKeyCache, hcache, Option.bind_some]
  rcases Option.eq_none_or_eq_some cache.keys[index]? with hnone | ⟨key, hsome⟩
  · rw [hnone]
  · have hkey := hlive key (List.mem_of_getElem? hsome)
    rw [hsome]
    dsimp only
    rw [keyExists_eq, findLive_state_of_isSome hkey, hkey]
    dsimp only
    rw [hcache, Option.map_some, hsome]

/-- Where nothing has expired, rebuilding the cache erases nothing. -/
theorem rebuildKeyCache_of_live (hs : NestedMap.NoEmpty s.namespaces)
    (hlive : ∀ key e, s.entryAt ns key = some e → e.isExpired t = false) {cache : KeyCache}
    (hcache : s.keyCaches.find? ns = some cache) :
    s.rebuildKeyCache ns t = some { s with
      keyCaches := s.keyCaches.modify ns fun _ =>
        { keys := (NestedMap.inner s.namespaces ns).keys, valid := true } } := by
  have hkept : (NestedMap.inner s.namespaces ns).eraseIf (fun e => e.isExpired t) =
      NestedMap.inner s.namespaces ns := by
    refine UnorderedMap.filterMap_eq_self fun key e he => ?_
    have hno : ¬ e.isExpired t = true := Bool.eq_false_iff.mp (hlive key e he)
    exact if_neg hno
  have hactive : s.getActiveKeys ns t = (s, (NestedMap.inner s.namespaces ns).keys) := by
    rw [getActiveKeys, purgeNamespace_of_live hs hlive, purgeNamespace_kept, hkept]
  rw [rebuildKeyCache, hactive]
  dsimp only
  rw [hcache]

theorem Listing.mem_live (h : Listing s ns t keys) {key : StdString} (hkey : key ∈ keys) :
    (s.liveAt t ns key).isSome := by
  rw [← h.stored] at hkey
  obtain ⟨e, he⟩ := UnorderedMap.mem_keys_iff.mp hkey
  exact Option.isSome_iff_exists.mpr ⟨e, liveAt_eq_some_iff.mpr ⟨he, h.live key e he⟩⟩

/-- The caches do not matter to what is stored. -/
theorem Listing.recache (h : Listing s ns t keys) {keyCaches : UnorderedMap StdString KeyCache}
    {cache : KeyCache} (hcache : keyCaches.find? ns = some cache)
    (hkeys : cache.valid = true → cache.keys = keys) :
    Listing { s with keyCaches := keyCaches } ns t keys where
  noEmpty := h.noEmpty
  live := h.live
  stored := h.stored
  coherent := by
    intro cached hvalid
    rw [validCache, hcache] at hvalid
    obtain ⟨_, hfilter, rfl⟩ := Option.map_eq_some_iff.mp hvalid
    obtain ⟨heq, hvalid⟩ := Option.filter_eq_some_iff.mp hfilter
    cases heq
    rw [hkeys hvalid]
    exact h.stored.symm

/-- During an enumeration, `GetKeyAt` finds the key at its index, and the
enumeration can go on. -/
theorem getKeyAt_listing (h : Listing s ns t keys) (layout : Layout) (index : ℕ) :
    ∃ s', s.getKeyAt layout ns index t t t = some (s', keys[index]?) ∧ Listing s' ns t keys := by
  unfold getKeyAt
  cases hfind : s.namespaces.find? ns with
  | none =>
      have hnil : keys = [] := by
        rw [← h.stored, NestedMap.inner_of_find?_none hfind]
        rfl
      exact ⟨s, by rw [hnil]; rfl, h⟩
  | some keyMap =>
      dsimp only
      obtain ⟨cache, hcache⟩ : ∃ cache,
          (s.keyCaches.upsert layout ns {} fun cache => cache).find? ns = some cache :=
        ⟨_, (UnorderedMap.find?_upsert ..).trans (if_pos rfl)⟩
      have hkeys : cache.valid = true → cache.keys = keys := by
        intro hvalid
        rw [UnorderedMap.find?_upsert, if_pos rfl] at hcache
        rcases Option.eq_none_or_eq_some (s.keyCaches.find? ns) with hnone | ⟨old, hsome⟩
        · rw [hnone] at hcache
          cases hcache
          cases hvalid
        · rw [hsome] at hcache
          obtain rfl : old = cache := Option.some.inj hcache
          rw [← h.stored]
          apply h.coherent
          rw [validCache, hsome, Option.filter_some, if_pos hvalid]
          rfl
      have hlisting := h.recache hcache hkeys
      rw [hcache, Option.bind_some]
      by_cases hvalid : cache.valid = true
      · rw [if_pos hvalid]
        refine ⟨_, ?_, hlisting⟩
        rw [← hkeys hvalid]
        refine readKeyCache_of_live hcache (fun key hkey => ?_) index
        rw [hkeys hvalid] at hkey
        exact hlisting.mem_live hkey
      · -- the cache is rebuilt from what is stored
        rw [if_neg hvalid, rebuildKeyCache_of_live hlisting.noEmpty hlisting.live hcache,
          Option.bind_some, hlisting.stored]
        have hnew := (UnorderedMap.find?_modify (s.keyCaches.upsert layout ns {} fun cache => cache)
          ns ns fun _ => { keys := keys, valid := true }).trans (if_pos rfl)
        rw [hcache, Option.map_some] at hnew
        have hrebuilt := h.recache hnew fun _ => rfl
        exact ⟨_, readKeyCache_of_live hnew (fun key hkey => hrebuilt.mem_live hkey) index,
          hrebuilt⟩

end Steps

/-! ## Runs -/

variable {alg : StdAlgorithm RankPair}

/-- Any sequence of indices finds the keys at the indices. -/
theorem enumerate_listing {ns : StdString} {t : TimePoint} {keys : List StdString}
    (calls : List (ℕ × Layout)) (s : MemStoreManager) (h : Listing s ns t keys) :
    ∃ w, Machine.Run (World.call alg) Machine.anyStep ⟨s, t⟩
      (calls.map fun call => (⟨.getKeyAt ns call.1, .at t call.2⟩, .keyAt keys[call.1]?)) w := by
  induction calls generalizing s with
  | nil => exact ⟨_, .nil _⟩
  | cons call rest ih =>
      obtain ⟨s', hkey, h'⟩ := getKeyAt_listing h call.2 call.1
      obtain ⟨w, hrest⟩ := ih s' h'
      refine ⟨w, run_cons trivial le_rfl ?_ hrest⟩
      exact Option.map_eq_some_iff.mpr ⟨_, hkey, rfl⟩

theorem enumerates_of_coherent {w : World} {ns : StdString} (hw : WellFormed w.store)
    (h : CoherentCache w.store ns) : EnumeratesExactly alg w ns := by
  intro t layout w₁ n hcall
  obtain ⟨_, hexec, hclock⟩ := World.call_eq_some_iff.mp hcall
  obtain ⟨hstate, hcount⟩ : (w.store.purgeNamespace true ns t).1 = w₁.store ∧
      (w.store.purgeNamespace true ns t).2.size = n := by
    have hpair := Option.some.inj hexec
    exact ⟨congrArg Prod.fst hpair, Reply.count.inj (congrArg Prod.snd hpair)⟩
  rw [purgeNamespace_kept] at hcount
  let kept := (NestedMap.inner w.store.namespaces ns).eraseIf fun e => e.isExpired t
  have hkept : ∀ key, kept.find? key = w.store.liveAt t ns key := fun key =>
    UnorderedMap.find?_eraseIf ..
  -- what the count has purged is a manager in the middle of the enumeration
  have hlisting : Listing w₁.store ns t kept.keys := by
    rw [← hstate]
    refine ⟨?_, ?_, ?_, coherentCache_purgeNamespace hw.namespaces h fun _ => .inr (.inl rfl)⟩
    · rw [hstate]
      exact (World.wellFormed_call hw hcall).namespaces
    · intro key e he
      rw [entryAt_purgeNamespace, if_pos rfl] at he
      exact (liveAt_eq_some_iff.mp he).2
    · rw [purgeNamespace_namespaces, NestedMap.inner_retainAt, if_pos rfl]
      rfl
  refine ⟨kept.keys, kept.keys_nodup, (UnorderedMap.length_keys kept).trans hcount, ?_, ?_, ?_⟩
  · intro key
    rw [UnorderedMap.mem_keys_iff, ← Option.isSome_iff_exists, hkept]
  · intro key
    rw [getActiveKeys, purgeNamespace_kept]
  · intro calls
    obtain ⟨store, clock⟩ := w₁
    obtain rfl : clock = t := hclock
    exact enumerate_listing calls store hlisting

/-- **Enumeration is complete and free of duplicates** in every manager reached by
a run whose calls all keep the key cache of the namespace. -/
theorem enumeration_exact {w : World} {ns : StdString} {steps : List (Call × Reply)}
    (hrun : RunFromStart alg (KeepsKeyCache ns) steps w) : EnumeratesExactly alg w ns := by
  obtain ⟨t, hrun⟩ := hrun
  exact enumerates_of_coherent (wellFormed_of_run hrun wellFormed_initial)
    (coherentCache_of_run hrun wellFormed_initial (.of_none rfl))

/-- Three keys are listed in the cache, and one of them has expired when they are counted. -/
private def countedLater : List (Call × Reply) :=
  [(⟨.write (.setInt [1] [2] 7 .persistent 0), .at 0 fun _ => 0⟩, .flag true),
    (⟨.write (.setInt [1] [3] 8 .persistent 0), .at 0 fun _ => 0⟩, .flag true),
    (⟨.write (.setInt [1] [4] 9 .ttl 1), .at 0 fun _ => 0⟩, .flag true),
    (⟨.getKeyAt [1] 0, .at 0 fun _ => 0⟩, .keyAt (some [4])),
    (⟨.query (.getNamespaceCount [1]), .at 2000000000 fun _ => 0⟩, .count 2)]

/-- Counting purges the namespace, and the two keys that are left are enumerated. -/
theorem enumeration_exact_two : ∃ w : World,
    RunFromStart (StdAlgorithm.insertionSort (α := RankPair)) (KeepsKeyCache [1]) countedLater w ∧
    (∀ key ∈ [[2], [3]], (w.store.liveAt 2000000000 [1] key).isSome) ∧
    w.store.entryAt [1] [4] = none ∧
    EnumeratesExactly (StdAlgorithm.insertionSort (α := RankPair)) w [1] := by
  have hrun : ∃ w, (∀ key ∈ [[2], [3]], (w.store.liveAt 2000000000 [1] key).isSome) ∧
      w.store.entryAt [1] [4] = none ∧
      RunFromStart (StdAlgorithm.insertionSort (α := RankPair)) (KeepsKeyCache [1])
        countedLater w :=
    ⟨⟨_, 2000000000⟩, by decide, rfl, 0,
      run_cons nofun le_rfl rfl (run_cons nofun le_rfl rfl (run_cons nofun le_rfl rfl
        (run_cons nofun le_rfl rfl
          (run_cons (fun _ => ⟨nofun, fun _ ⟨_, _, _, hrequest, _⟩ => by cases hrequest⟩)
            (by decide) rfl (.nil _)))))⟩
  obtain ⟨w, hlive, hgone, hrun⟩ := hrun
  exact ⟨w, hrun, hlive, hgone, enumeration_exact hrun⟩

/-- A manager with one namespace, whose keys all hold 7; the key `[4]` lives for a
second. -/
private def oneNamespace (keys : List StdString) (hkeys : keys.Nodup)
    (keyCaches : UnorderedMap StdString KeyCache) : MemStoreManager :=
  { namespaces := ⟨[([1], ⟨keys.map fun key => (key,
      { type := .int, cellValue := 7
        policy := if key = [4] then .ttl else .persistent
        expireTime := if key = [4] then 1000000000 else 0 }),
      by simpa [Function.comp_def] using hkeys⟩)], by simp⟩
    keyCaches := keyCaches }

private def cached (keys : List StdString) : UnorderedMap StdString KeyCache :=
  ⟨[([1], { keys := keys, valid := true })], by simp⟩

/-- The expired key has been erased, but the valid cache still lists it. -/
private theorem reachable_stale : Reachable (StdAlgorithm.insertionSort (α := RankPair))
    ⟨oneNamespace [[3], [2]] (by decide) (cached [[4], [3], [2]]), 2000000000⟩ := by
  have hfirst : exec (StdAlgorithm.insertionSort (α := RankPair)) {} (.at 0 fun _ => 0)
      (.write (.setInt [1] [2] 7 .persistent 0)) =
      some (oneNamespace [[2]] (by decide) ∅, .flag true) := rfl
  have hsecond : exec (StdAlgorithm.insertionSort (α := RankPair))
      (oneNamespace [[2]] (by decide) ∅) (.at 0 fun _ => 0)
      (.write (.setInt [1] [3] 7 .persistent 0)) =
      some (oneNamespace [[3], [2]] (by decide) ∅, .flag true) := rfl
  have hthird : exec (StdAlgorithm.insertionSort (α := RankPair))
      (oneNamespace [[3], [2]] (by decide) ∅) (.at 0 fun _ => 0)
      (.write (.setInt [1] [4] 7 .ttl 1)) =
      some (oneNamespace [[4], [3], [2]] (by decide) ∅, .flag true) := rfl
  have hfill : exec (StdAlgorithm.insertionSort (α := RankPair))
      (oneNamespace [[4], [3], [2]] (by decide) ∅) (.at 0 fun _ => 0) (.getKeyAt [1] 0) =
      some (oneNamespace [[4], [3], [2]] (by decide) (cached [[4], [3], [2]]),
        .keyAt (some [4])) := rfl
  have hpurge : exec (StdAlgorithm.insertionSort (α := RankPair))
      (oneNamespace [[4], [3], [2]] (by decide) (cached [[4], [3], [2]]))
      (.at 2000000000 fun _ => 0) (.query (.getActiveKeys [1])) =
      some (oneNamespace [[3], [2]] (by decide) (cached [[4], [3], [2]]),
        .keys [[3], [2]]) := rfl
  exact ⟨[(⟨.write (.setInt [1] [2] 7 .persistent 0), .at 0 fun _ => 0⟩, .flag true),
      (⟨.write (.setInt [1] [3] 7 .persistent 0), .at 0 fun _ => 0⟩, .flag true),
      (⟨.write (.setInt [1] [4] 7 .ttl 1), .at 0 fun _ => 0⟩, .flag true),
      (⟨.getKeyAt [1] 0, .at 0 fun _ => 0⟩, .keyAt (some [4])),
      (⟨.query (.getActiveKeys [1]), .at 2000000000 fun _ => 0⟩, .keys [[3], [2]])], 0,
    run_cons trivial le_rfl hfirst (run_cons trivial le_rfl hsecond
      (run_cons trivial le_rfl hthird (run_cons trivial le_rfl hfill
        (run_cons trivial (by decide) hpurge (.nil _)))))⟩

/-- `GetActiveKeys` erases an expired key and leaves it in a valid cache.  After
that, the second index is read from the stale cache and the first from a rebuilt
one, and both find the same key. -/
theorem enumeration_repeats : ¬ ∀ (w : World) (ns : StdString),
    Reachable (StdAlgorithm.insertionSort (α := RankPair)) w →
      EnumeratesExactly (StdAlgorithm.insertionSort (α := RankPair)) w ns := by
  intro h
  let stale : World :=
    ⟨oneNamespace [[3], [2]] (by decide) (cached [[4], [3], [2]]), 2000000000⟩
  let rebuilt : World := ⟨oneNamespace [[3], [2]] (by decide) (cached [[3], [2]]), 2000000000⟩
  have hcount : stale.call (StdAlgorithm.insertionSort (α := RankPair))
      ⟨.query (.getNamespaceCount [1]), .at 2000000000 fun _ => 0⟩ = some (stale, .count 2) :=
    World.call_eq_some_iff.mpr ⟨le_rfl, rfl, rfl⟩
  have hsecond : stale.call (StdAlgorithm.insertionSort (α := RankPair))
      ⟨.getKeyAt [1] 1, .at 2000000000 fun _ => 0⟩ = some (stale, .keyAt (some [3])) :=
    World.call_eq_some_iff.mpr ⟨le_rfl, rfl, rfl⟩
  have hfirst : stale.call (StdAlgorithm.insertionSort (α := RankPair))
      ⟨.getKeyAt [1] 0, .at 2000000000 fun _ => 0⟩ = some (rebuilt, .keyAt (some [3])) :=
    World.call_eq_some_iff.mpr ⟨le_rfl, rfl, rfl⟩
  obtain ⟨keys, hnodup, _, _, _, hcalls⟩ :=
    h stale [1] reachable_stale 2000000000 (fun _ => 0) stale 2 hcount
  obtain ⟨_, hrun⟩ := hcalls [(1, fun _ => 0), (0, fun _ => 0)]
  cases hrun with
  | cons _ hstep hrest =>
      rw [hsecond] at hstep
      obtain ⟨rfl, hone⟩ := Prod.mk.inj (Option.some.inj hstep)
      cases hrest with
      | cons _ hstep _ =>
          rw [hfirst] at hstep
          obtain ⟨_, hzero⟩ := Prod.mk.inj (Option.some.inj hstep)
          obtain ⟨hlt₁, hget₁⟩ := List.getElem?_eq_some_iff.mp (Reply.keyAt.inj hone).symm
          obtain ⟨hlt₀, hget₀⟩ := List.getElem?_eq_some_iff.mp (Reply.keyAt.inj hzero).symm
          -- the list has one key at two indices
          have hsame := (List.Nodup.getElem_inj_iff hnodup).mp (hget₁.trans hget₀.symm)
          cases hsame

end MemStore
