import MemStore.Reading.LiveView

/-!
# The reference to the key cache

`GetKeyAt` keeps a reference to `m_KeyCaches[ns]` across calls of `GetActiveKeys`
and `KeyExists`.  Either can erase the last entries of the namespace, and with
the namespace goes its cache, so that the assignment that follows is made
through a reference to nothing.

`rebuildKeyCache_isSome_iff` says when one rebuild is safe: some key of the
namespace has to be live at the clock reading `GetActiveKeys` takes.
`getKeyAt_safe_iff` collects the two rebuilds of a call (`LosesKeyCache`).
-/

namespace MemStore

namespace MemStoreManager

/-- The calls of `GetKeyAt` that erase the namespace while they hold the reference.
The cache is rebuilt because it is not valid and no key is live any more, or
because the key in the slot has died, and by then no key is live. -/
def LosesKeyCache (s : MemStoreManager) (ns : StdString) (index : ℕ)
    (now₀ now₁ now₂ : TimePoint) : Prop :=
  (s.namespaces.find? ns).isSome ∧
    (s.validCache ns = none ∧ s.liveKeys ns now₀ = [] ∨
      ∃ key, ((s.validCache ns).getD (s.liveKeys ns now₀))[index]? = some key ∧
        s.liveAt now₁ ns key = none ∧ s.liveKeys ns now₂ = [])

variable {s s' : MemStoreManager} {ns key : StdString} {now now₁ now₂ latest : TimePoint}

/-! ## What reads leave alone -/

theorem liveKeys_of_reads (h : Reads latest s s') (hle : latest ≤ now) :
    s'.liveKeys ns now = s.liveKeys ns now :=
  congrArg (fun view : LiveView => (view.namespaces ns).keys) (h.liveView hle)

theorem liveAt_of_reads (h : Reads latest s s') (hle : latest ≤ now) :
    s'.liveAt now ns key = s.liveAt now ns key := by
  rw [← entryAt_liveView, ← entryAt_liveView, h.liveView hle]

theorem liveKeys_of_find?_none (h : s.namespaces.find? ns = none) : s.liveKeys ns now = [] := by
  rw [liveKeys, NestedMap.inner_of_find?_none h]
  rfl

/-! ## One rebuild -/

/-- Dropping an emptied namespace drops its cache. -/
theorem find?_keyCaches_eraseIfEmpty {keyMap : UnorderedMap StdString StoreEntry}
    (h : s.namespaces.find? ns = some keyMap) :
    (s.eraseIfEmpty ns).keyCaches.find? ns =
      if keyMap.isEmpty then none else s.keyCaches.find? ns := by
  rw [eraseIfEmpty, h]
  dsimp only
  split
  · rw [UnorderedMap.find?_erase, if_pos rfl]
  · rfl

theorem find?_namespaces_eraseIfEmpty {keyMap : UnorderedMap StdString StoreEntry}
    (h : s.namespaces.find? ns = some keyMap) :
    (s.eraseIfEmpty ns).namespaces.find? ns = if keyMap.isEmpty then none else some keyMap := by
  rw [eraseIfEmpty, h]
  dsimp only
  split
  · rw [UnorderedMap.find?_erase, if_pos rfl]
  · exact h

theorem rebuildKeyCache_of_none (h : s.namespaces.find? ns = none)
    (hcache : s.keyCaches.find? ns = none) : s.rebuildKeyCache ns now = none := by
  simp only [rebuildKeyCache, getActiveKeys, purgeNamespace, h, hcache]

/-- Rebuilding the cache of a stored namespace is safe if and only if a key is live. -/
theorem rebuildKeyCache_isSome_iff {keyMap : UnorderedMap StdString StoreEntry}
    (hstored : s.namespaces.find? ns = some keyMap) (hcache : (s.keyCaches.find? ns).isSome) :
    (s.rebuildKeyCache ns now).isSome ↔ s.liveKeys ns now ≠ [] := by
  have hmodify : (s.namespaces.modify ns fun keyMap =>
      keyMap.eraseIf fun e => e.isExpired now).find? ns =
        some (keyMap.eraseIf fun e => e.isExpired now) := by
    rw [UnorderedMap.find?_modify, if_pos rfl, hstored, Option.map_some]
  have hfind : (s.getActiveKeys ns now).1.keyCaches.find? ns =
      if (keyMap.eraseIf fun e => e.isExpired now).isEmpty then none
      else s.keyCaches.find? ns := by
    rw [getActiveKeys, purgeNamespace, hstored]
    exact find?_keyCaches_eraseIfEmpty hmodify
  have hkeys : s.liveKeys ns now = (keyMap.eraseIf fun e => e.isExpired now).keys := by
    rw [liveKeys, NestedMap.inner_of_find? hstored]
  obtain ⟨cache, hcache⟩ := Option.isSome_iff_exists.mp hcache
  rw [rebuildKeyCache, hfind, hkeys, hcache, ne_eq, UnorderedMap.keys_eq_nil_iff]
  by_cases hempty : (keyMap.eraseIf fun e => e.isExpired now).isEmpty = true
  · rw [if_pos hempty]
    exact iff_of_false Bool.false_ne_true (not_not_intro hempty)
  · rw [if_neg hempty]
    exact iff_of_true rfl hempty

/-- The same when the rebuild comes after `KeyExists` has found a key dead. -/
theorem rebuildKeyCache_findLive_isSome_iff {keyMap : UnorderedMap StdString StoreEntry}
    (hstored : s.namespaces.find? ns = some keyMap) (hcache : (s.keyCaches.find? ns).isSome)
    (hle : now₁ ≤ now₂) (hdead : s.liveAt now₁ ns key = none) :
    ((s.findLive false ns key now₁).1.rebuildKeyCache ns now₂).isSome ↔
      s.liveKeys ns now₂ ≠ [] := by
  have hsame : (s.findLive false ns key now₁).1.liveKeys ns now₂ = s.liveKeys ns now₂ :=
    liveKeys_of_reads (reads_findLive false s ns key le_rfl) hle
  cases hentry : s.entryAt ns key with
  | none =>
      rw [findLive_of_none hentry]
      exact rebuildKeyCache_isSome_iff hstored hcache
  | some e =>
      have hexp : e.isExpired now₁ = true := by
        by_contra hlive
        rw [liveAt_eq_some_iff.mpr ⟨hentry, by simpa using hlive⟩] at hdead
        cases hdead
      rw [findLive_of_expired hentry hexp] at hsame ⊢
      simp only [Bool.false_eq_true, if_false] at hsame ⊢
      have hmodify : (s.namespaces.modify ns fun keyMap => keyMap.erase key).find? ns =
          some (keyMap.erase key) := by
        rw [UnorderedMap.find?_modify, if_pos rfl, hstored, Option.map_some]
      have hnamespace : (s.eraseEntry ns key).namespaces.find? ns =
          if (keyMap.erase key).isEmpty then none else some (keyMap.erase key) :=
        find?_namespaces_eraseIfEmpty hmodify
      have hcached : (s.eraseEntry ns key).keyCaches.find? ns =
          if (keyMap.erase key).isEmpty then none
          else (s.keyCaches.modify ns fun _ => { keys := [], valid := false }).find? ns :=
        find?_keyCaches_eraseIfEmpty hmodify
      by_cases hempty : (keyMap.erase key).isEmpty = true
      · -- it was the last key, and the cache has gone with the namespace
        rw [if_pos hempty] at hnamespace hcached
        rw [rebuildKeyCache_of_none hnamespace hcached, ← hsame, liveKeys_of_find?_none hnamespace]
        exact iff_of_false Bool.false_ne_true (not_not_intro rfl)
      · rw [if_neg hempty] at hnamespace hcached
        rw [← hsame]
        refine rebuildKeyCache_isSome_iff hnamespace ?_
        rw [hcached, UnorderedMap.find?_modify, if_pos rfl, Option.isSome_map]
        exact hcache

/-! ## The whole call -/

/-- Reading a slot of the cache of a stored namespace. -/
theorem readKeyCache_isSome_iff {keyMap : UnorderedMap StdString StoreEntry} {cache : KeyCache}
    {index : ℕ} (hstored : s.namespaces.find? ns = some keyMap)
    (hcache : s.keyCaches.find? ns = some cache) (hle : now₁ ≤ now₂) :
    (s.readKeyCache ns index now₁ now₂).isSome ↔
      ¬ ∃ key, cache.keys[index]? = some key ∧ s.liveAt now₁ ns key = none ∧
        s.liveKeys ns now₂ = [] := by
  rw [readKeyCache, hcache, Option.bind_some]
  cases hslot : cache.keys[index]? with
  | none =>
      refine iff_of_true rfl ?_
      rintro ⟨key, hkey, _⟩
      cases hkey
  | some key =>
      dsimp only
      rw [keyExists_eq]
      cases hlive : s.liveAt now₁ ns key with
      | some e =>
          have hsame : (s.findLive false ns key now₁).1 = s :=
            findLive_state_of_isSome (Option.isSome_iff_exists.mpr ⟨e, hlive⟩) false
          refine iff_of_true ?_ ?_
          · simp only [Option.isSome_some, hsame, hcache, Option.map_some]
          · rintro ⟨key', hkey, hdead, _⟩
            cases hkey
            rw [hlive] at hdead
            cases hdead
      | none =>
          have hiff := rebuildKeyCache_findLive_isSome_iff hstored
            (Option.isSome_iff_exists.mpr ⟨cache, hcache⟩) hle hlive
          dsimp only [Option.isSome_none]
          cases hrebuild : (s.findLive false ns key now₁).1.rebuildKeyCache ns now₂ with
          | none =>
              rw [hrebuild] at hiff
              refine iff_of_false Bool.false_ne_true (not_not_intro ⟨key, rfl, hlive, ?_⟩)
              by_contra hne
              exact absurd (hiff.mpr hne) Bool.false_ne_true
          | some s' =>
              rw [hrebuild] at hiff
              rw [Option.bind_some, find?_rebuildKeyCache hrebuild, Option.map_some]
              refine iff_of_true rfl ?_
              rintro ⟨_, _, _, hnone⟩
              exact hiff.mp rfl hnone

/-- The cache `m_KeyCaches[ns]` refers to, whether it was there or is inserted. -/
theorem validCache_eq (s : MemStoreManager) (ns : StdString) :
    s.validCache ns = if ((s.keyCaches.find? ns).getD {}).valid then
      some ((s.keyCaches.find? ns).getD {}).keys else none := by
  rw [validCache]
  cases s.keyCaches.find? ns with
  | none => rfl
  | some cache =>
      rw [Option.filter_some, Option.getD_some]
      split <;> rfl

/-- Rebuilding the cache and then reading a slot of it. -/
theorem rebuild_readKeyCache_isSome_iff {keyMap : UnorderedMap StdString StoreEntry}
    {index : ℕ} {now₀ : TimePoint} (hstored : s.namespaces.find? ns = some keyMap)
    (hcache : (s.keyCaches.find? ns).isSome) (hle₀ : now₀ ≤ now₁) (hle : now₁ ≤ now₂) :
    ((s.rebuildKeyCache ns now₀).bind fun s => s.readKeyCache ns index now₁ now₂).isSome ↔
      ¬ (s.liveKeys ns now₀ = [] ∨ ∃ key, (s.liveKeys ns now₀)[index]? = some key ∧
        s.liveAt now₁ ns key = none ∧ s.liveKeys ns now₂ = []) := by
  have hiff : (s.rebuildKeyCache ns now₀).isSome ↔ s.liveKeys ns now₀ ≠ [] :=
    rebuildKeyCache_isSome_iff hstored hcache
  cases hrebuild : s.rebuildKeyCache ns now₀ with
  | none =>
      rw [hrebuild] at hiff
      refine iff_of_false Bool.false_ne_true (not_not_intro (.inl ?_))
      by_contra hne
      exact absurd (hiff.mpr hne) Bool.false_ne_true
  | some s₁ =>
      rw [hrebuild] at hiff
      have hlive : s.liveKeys ns now₀ ≠ [] := hiff.mp rfl
      have hreads : Reads now₀ s s₁ := reads_rebuildKeyCache le_rfl hrebuild
      -- the namespace is still there, as some of its keys are live
      obtain ⟨keyMap₁, hstored₁⟩ : ∃ keyMap₁, s₁.namespaces.find? ns = some keyMap₁ := by
        rw [← Option.ne_none_iff_exists']
        intro hnone
        apply hlive
        rw [← liveKeys_of_reads hreads le_rfl, liveKeys_of_find?_none hnone]
      rw [Option.bind_some, readKeyCache_isSome_iff hstored₁ (find?_rebuildKeyCache hrebuild) hle,
        not_or, liveKeys_of_reads hreads (hle₀.trans hle)]
      simp only [liveAt_of_reads hreads hle₀]
      exact (and_iff_right hlive).symm

end MemStoreManager

open MemStoreManager

/-- **When `GetKeyAt` keeps its reference.**  On every state, for every index and all
clock readings that do not go back, each access through the reference to the key
cache finds the cache of the namespace in the map, if and only if the call does
not erase the namespace while it holds the reference. -/
theorem getKeyAt_safe_iff (s : MemStoreManager) (layout : Layout) (ns : StdString) (index : ℕ)
    (env : Env) :
    (s.getKeyAt layout ns index env.first env.second env.third).isSome ↔
      ¬ s.LosesKeyCache ns index env.first env.second env.third := by
  cases hstored : s.namespaces.find? ns with
  | none =>
      rw [getKeyAt, hstored]
      refine iff_of_true rfl ?_
      rintro ⟨hsome, _⟩
      rw [hstored] at hsome
      cases hsome
  | some keyMap =>
      have hloses : s.LosesKeyCache ns index env.first env.second env.third ↔
          s.validCache ns = none ∧ s.liveKeys ns env.first = [] ∨
            ∃ key, ((s.validCache ns).getD (s.liveKeys ns env.first))[index]? = some key ∧
              s.liveAt env.second ns key = none ∧ s.liveKeys ns env.third = [] := by
        rw [LosesKeyCache, hstored]
        exact and_iff_right rfl
      -- the reference is to the cache that is there, or to a new one that is not valid
      set s₀ := { s with keyCaches := s.keyCaches.upsert layout ns {} fun cache => cache } with hs₀
      have hstored₀ : s₀.namespaces.find? ns = some keyMap := hstored
      have hcache : s₀.keyCaches.find? ns = some ((s.keyCaches.find? ns).getD {}) := by
        rw [hs₀, UnorderedMap.find?_upsert, if_pos rfl]
      have hcall : s.getKeyAt layout ns index env.first env.second env.third =
          if ((s.keyCaches.find? ns).getD {}).valid then
            s₀.readKeyCache ns index env.second env.third
          else (s₀.rebuildKeyCache ns env.first).bind fun s =>
            s.readKeyCache ns index env.second env.third := by
        rw [getKeyAt, hstored]
        dsimp only
        rw [← hs₀, hcache, Option.bind_some]
      rw [hloses, hcall, validCache_eq]
      by_cases hvalid : ((s.keyCaches.find? ns).getD {}).valid = true
      · rw [if_pos hvalid, if_pos hvalid, readKeyCache_isSome_iff hstored₀ hcache env.second_le]
        simp only [reduceCtorEq, false_and, false_or, Option.getD_some]
        rfl
      · rw [if_neg hvalid, if_neg hvalid, rebuild_readKeyCache_isSome_iff hstored₀
          (Option.isSome_iff_exists.mpr ⟨_, hcache⟩) env.first_le env.second_le]
        simp only [true_and, Option.getD_none]
        rfl

/-- The only key of a namespace that was never enumerated has expired. -/
theorem getKeyAt_dangles : ¬ ∀ (w : World) (layout : Layout) (ns : StdString) (index : ℕ)
    (env : Env), Reachable (StdAlgorithm.insertionSort (α := RankPair)) w →
      w.clock ≤ env.first →
      (w.store.getKeyAt layout ns index env.first env.second env.third).isSome := by
  intro h
  have hrun : ∃ w : World, w.clock ≤ 1000000000 ∧
      Reachable (StdAlgorithm.insertionSort (α := RankPair)) w ∧
      w.store.getKeyAt (fun _ => 0) [1] 0 1000000000 1000000000 1000000000 = none :=
    ⟨⟨_, 0⟩, by decide,
      ⟨[(⟨.write (.setInt [1] [2] 5 .ttl 1), .at 0 fun _ => 0⟩, .flag true)], 0,
        run_cons trivial le_rfl rfl (.nil _)⟩, rfl⟩
  obtain ⟨w, hclock, hreach, hnone⟩ := hrun
  have hsome := h w (fun _ => 0) [1] 0 (.at 1000000000 fun _ => 0) hreach hclock
  rw [show Env.first (.at 1000000000 fun _ => 0) = 1000000000 from rfl] at hsome
  exact absurd (hsome.symm.trans (congrArg Option.isSome hnone)) (by decide)

end MemStore
