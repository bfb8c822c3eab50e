import MemStore.KeyValue.Edits

/-!
# The paths through `GetKeyAt`

`getKeyAt` is undefined on some paths, so what is known about it are inversions:
from a result, the path on which it was found.  `SlotRead` lists the ways to
read a slot of a cache that is in order, `getKeyAt_cases` what comes before.
-/

namespace MemStore

namespace MemStoreManager

/-- The names that are still live in a namespace. -/
def liveKeys (s : MemStoreManager) (ns : StdString) (now : TimePoint) : List StdString :=
  ((NestedMap.inner s.namespaces ns).eraseIf fun e => e.isExpired now).keys

/-- The key cache of a namespace, if it is valid. -/
def validCache (s : MemStoreManager) (ns : StdString) : Option (List StdString) :=
  ((s.keyCaches.find? ns).filter fun cache => cache.valid).map fun cache => cache.keys

theorem keyExists_eq (s : MemStoreManager) (ns key : StdString) (now : TimePoint) :
    s.keyExists ns key now =
      ((s.findLive false ns key now).1, (s.liveAt now ns key).isSome) := by
  rw [← findLive_result false, keyExists]
  split <;> next hfind => rw [hfind]; rfl

theorem findLive_state_of_isSome {s : MemStoreManager} {ns key : StdString} {now : TimePoint}
    (h : (s.liveAt now ns key).isSome) (releases : Bool) :
    (s.findLive releases ns key now).1 = s := by
  obtain ⟨e, he⟩ := Option.isSome_iff_exists.mp h
  obtain ⟨hentry, hlive⟩ := liveAt_eq_some_iff.mp he
  rw [findLive_of_live hentry hlive]

/-- A rebuilt cache lists the live keys, in a manager that has been purged. -/
theorem rebuildKeyCache_eq_some {s s' : MemStoreManager} {ns : StdString} {now : TimePoint}
    (h : s.rebuildKeyCache ns now = some s') :
    (∃ cache, (s.purgeNamespace false ns now).1.keyCaches.find? ns = some cache) ∧
      s' = { (s.purgeNamespace false ns now).1 with
        keyCaches := (s.purgeNamespace false ns now).1.keyCaches.modify ns
          fun _ => { keys := s.liveKeys ns now, valid := true } } := by
  simp only [rebuildKeyCache, getActiveKeys, purgeNamespace_kept] at h
  split at h
  · cases h
  · next cache hcache =>
      cases h
      exact ⟨⟨cache, hcache⟩, rfl⟩

theorem find?_rebuildKeyCache {s s' : MemStoreManager} {ns : StdString} {now : TimePoint}
    (h : s.rebuildKeyCache ns now = some s') :
    s'.keyCaches.find? ns = some { keys := s.liveKeys ns now, valid := true } := by
  obtain ⟨⟨cache, hcache⟩, rfl⟩ := rebuildKeyCache_eq_some h
  rw [UnorderedMap.find?_modify, if_pos rfl, hcache]
  rfl

/-- Reading a slot of a cache with the given keys: it is past the end, or its
key is alive, or its key is dead and the cache is rebuilt. -/
inductive SlotRead (s : MemStoreManager) (ns : StdString) (index : ℕ) (now₁ now₂ : TimePoint)
    (keys : List StdString) : MemStoreManager → Option StdString → Prop
  | outside (hslot : keys[index]? = none) : SlotRead s ns index now₁ now₂ keys s none
  | live {key : StdString} (hslot : keys[index]? = some key)
      (hlive : (s.liveAt now₁ ns key).isSome) :
      SlotRead s ns index now₁ now₂ keys s (some key)
  | stale {key : StdString} {s' : MemStoreManager} (hslot : keys[index]? = some key)
      (hdead : s.liveAt now₁ ns key = none)
      (hrebuild : (s.findLive false ns key now₁).1.rebuildKeyCache ns now₂ = some s') :
      SlotRead s ns index now₁ now₂ keys s'
        ((s.findLive false ns key now₁).1.liveKeys ns now₂)[index]?

theorem readKeyCache_cases {s s' : MemStoreManager} {ns : StdString} {index : ℕ}
    {now₁ now₂ : TimePoint} {r : Option StdString} {cache : KeyCache}
    (hcache : s.keyCaches.find? ns = some cache)
    (h : s.readKeyCache ns index now₁ now₂ = some (s', r)) :
    SlotRead s ns index now₁ now₂ cache.keys s' r := by
  rw [readKeyCache, hcache, Option.bind_some] at h
  cases hslot : cache.keys[index]? with
  | none =>
      simp only [hslot] at h
      cases h
      exact .outside hslot
  | some key =>
      simp only [hslot, keyExists_eq] at h
      cases hlive : (s.liveAt now₁ ns key).isSome with
      | true =>
          simp only [hlive, findLive_state_of_isSome hlive, hcache, Option.map_some, hslot] at h
          cases h
          exact .live hslot hlive
      | false =>
          simp only [hlive] at h
          obtain ⟨_, hrebuild, h⟩ := Option.bind_eq_some_iff.mp h
          rw [find?_rebuildKeyCache hrebuild] at h
          cases h
          exact .stale hslot (by simpa using hlive) hrebuild

/-- The paths to a slot: the namespace is not stored, its cache is valid, or it
has to be rebuilt. -/
theorem getKeyAt_cases {s s' : MemStoreManager} {layout : Layout} {ns : StdString} {index : ℕ}
    {now₀ now₁ now₂ : TimePoint} {r : Option StdString}
    (h : s.getKeyAt layout ns index now₀ now₁ now₂ = some (s', r)) :
    (s.namespaces.find? ns = none ∧ s' = s ∧ r = none) ∨
    (∃ keys, s.validCache ns = some keys ∧ SlotRead s ns index now₁ now₂ keys s' r) ∨
    (s.validCache ns = none ∧ ∃ s₁,
      rebuildKeyCache { s with keyCaches := s.keyCaches.upsert layout ns {} fun cache => cache }
        ns now₀ = some s₁ ∧
      SlotRead s₁ ns index now₁ now₂ (s.liveKeys ns now₀) s' r) := by
  unfold getKeyAt at h
  split at h
  · next hnone =>
      cases h
      exact .inl ⟨hnone, rfl, rfl⟩
  · refine .inr ?_
    dsimp only at h
    cases hcache : s.keyCaches.find? ns with
    | none =>
        -- the cache that is inserted is not valid
        have hfind : (s.keyCaches.upsert layout ns {} fun cache => cache).find? ns =
            some {} := by
          rw [UnorderedMap.find?_upsert, if_pos rfl, hcache]
          rfl
        rw [hfind, Option.bind_some, if_neg Bool.false_ne_true] at h
        obtain ⟨s₁, hrebuild, h⟩ := Option.bind_eq_some_iff.mp h
        exact .inr ⟨by simp [validCache, hcache], s₁, hrebuild,
          readKeyCache_cases (find?_rebuildKeyCache hrebuild) h⟩
    | some cache =>
        -- the cache is there, and the reference to it is taken without an insertion
        rw [UnorderedMap.upsert_id_of_find? hcache, hcache, Option.bind_some] at h
        cases hvalid : cache.valid with
        | true =>
            rw [hvalid, if_pos rfl] at h
            exact .inl ⟨cache.keys, by simp [validCache, hcache, Option.filter, hvalid],
              readKeyCache_cases hcache h⟩
        | false =>
            rw [hvalid, if_neg Bool.false_ne_true] at h
            obtain ⟨s₁, hrebuild, h⟩ := Option.bind_eq_some_iff.mp h
            refine .inr ⟨by simp [validCache, hcache, Option.filter, hvalid], s₁, ?_,
              readKeyCache_cases (find?_rebuildKeyCache hrebuild) h⟩
            rw [UnorderedMap.upsert_id_of_find? hcache]
            exact hrebuild

end MemStoreManager

end MemStore
