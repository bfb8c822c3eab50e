import MemStore.Steps.Invariants

/-!
# Increments of expired entries

A key that does not exist or has expired is documented to be initialised to the
delta by an increment.  If it is absent, the increment calls the setter; if an
expired entry is still stored, it overwrites the entry in place, by a copy of
what the setter does.

`inc_eq_set_of_dead` compares the two.  The setters pass their limits whenever
the key is stored (`checkNamespaceKeyLimit_of_entryAt`) and overwrite the same
entry (`overwrite_of_entryAt`, `rankSet_of_rankAt`), so that an expired entry
makes no difference between them and the copies.
-/

namespace MemStore

namespace MemStoreManager

variable {s : MemStoreManager} {ns key : StdString} {policy : ExpirePolicy} {extra : Int32}

/-- The two increments of key-values, with the setter that assigns the same fields. -/
theorem increment_of_dead {α : Type} {now₀ now₁ : TimePoint}
    (hdead : ∀ e, s.entryAt ns key = some e → e.isExpired now₀ = true) (layout : Layout)
    (type : EntryType) (fill add : StoreEntry → StoreEntry) (value : StoreEntry → α) (delta : α) :
    s.increment ns key type fill add value delta
        (s.storeScalar layout ns key fill policy extra now₁) policy extra now₀ now₁ =
      ((s.storeScalar layout ns key fill policy extra now₁).1,
        if (s.storeScalar layout ns key fill policy extra now₁).2 then some delta else none) := by
  cases hentry : s.entryAt ns key with
  | none => rw [increment, hentry]
  | some e =>
      have hstore : s.storeScalar layout ns key fill policy extra now₁ =
          (((s.release (getPayloadBytes e)).modifyEntry ns key fun e =>
            applyExpiration (fill e) policy extra now₁).invalidateKeyCache ns, true) := by
        rw [storeScalar, if_pos (checkNamespaceKeyLimit_of_entryAt hentry),
          overwrite_of_entryAt hentry]
      rw [hstore, increment, hentry]
      dsimp only
      rw [if_pos (hdead e hentry), if_pos rfl]

end MemStoreManager

open MemStoreManager

/-- **Without a live entry an increment is the setter of the delta**, for all
three pairs, in every state and whatever an expired entry may hold: it leaves the
same store and succeeds if and only if the setter does, with the delta as the new
value.  The readings are those of the increment, the second of which is the one
the setter makes; they may be the same. -/
theorem inc_eq_set_of_dead (s : MemStoreManager) (layout : Layout) (ns key : StdString)
    (policy : ExpirePolicy) (extra : Int32) (now₀ now₁ : TimePoint) :
    (Dead (s.expirationAt (.keyValue ns key)) now₀ →
      (∀ delta : Cell, s.incInt layout ns key delta policy extra now₀ now₁ =
        ((s.setInt layout ns key delta policy extra now₁).1,
          if (s.setInt layout ns key delta policy extra now₁).2 then some delta else none)) ∧
      ∀ delta : Float32, s.incFloat layout ns key delta policy extra now₀ now₁ =
        ((s.setFloat layout ns key delta policy extra now₁).1,
          if (s.setFloat layout ns key delta policy extra now₁).2 then some delta else none)) ∧
    (Dead (s.expirationAt (.rank ns key)) now₀ →
      ∀ delta : Cell, s.rankInc layout ns key delta policy extra now₀ now₁ =
        ((s.rankSet layout ns key delta policy extra now₁).1,
          if (s.rankSet layout ns key delta policy extra now₁).2 then some delta else none)) := by
  constructor
  · intro hdead
    have hexpired : ∀ e, s.entryAt ns key = some e → e.isExpired now₀ = true := fun e he =>
      hdead e.toExpiration (expirationAt_of_entryAt he)
    exact ⟨fun delta => increment_of_dead hexpired layout .int _ _ _ delta,
      fun delta => increment_of_dead hexpired layout .float _ _ _ delta⟩
  · intro hdead delta
    have hexpired : ∀ e, s.rankAt ns key = some e → e.isExpired now₀ = true := fun e he =>
      hdead e.toExpiration (expirationAt_of_rankAt he)
    exact rankInc_of_dead hexpired layout delta policy extra

/-- An expired text is overwritten by a number. -/
theorem inc_eq_set_of_dead_text : ∃ w : World,
    RunFromStart (StdAlgorithm.insertionSort (α := RankPair)) Machine.anyStep
      [(⟨.write (.setString [1] [2] [97, 98, 99] .ttl 1), .at 0 fun _ => 0⟩, .flag true)] w ∧
    w.store.approxMemoryUsed = 3 ∧
    w.store.incInt (fun _ => 0) [1] [2] 5 .mapEnd 0 2000000000 2000000000 =
      ((w.store.setInt (fun _ => 0) [1] [2] 5 .mapEnd 0 2000000000).1, some 5) := by
  have hrun : ∃ w : World,
      RunFromStart (StdAlgorithm.insertionSort (α := RankPair)) Machine.anyStep
        [(⟨.write (.setString [1] [2] [97, 98, 99] .ttl 1), .at 0 fun _ => 0⟩, .flag true)] w ∧
      w.store.approxMemoryUsed = 3 ∧
      (∃ e : StoreEntry, w.store.entryAt [1] [2] = some e ∧ e.isExpired 2000000000 = true) ∧
      (w.store.setInt (fun _ => 0) [1] [2] 5 .mapEnd 0 2000000000).2 = true :=
    ⟨⟨_, 0⟩, ⟨0, run_cons trivial le_rfl rfl (.nil _)⟩, rfl, ⟨_, rfl, rfl⟩, rfl⟩
  obtain ⟨w, hrun, hused, ⟨e, hentry, hexp⟩, hset⟩ := hrun
  have hdead : Dead (w.store.expirationAt (.keyValue [1] [2])) 2000000000 := by
    rw [expirationAt_of_entryAt hentry]
    exact dead_some_iff.mpr hexp
  have hinc := ((inc_eq_set_of_dead w.store (fun _ => 0) [1] [2] .mapEnd 0 2000000000
    2000000000).1 hdead).1 5
  rw [hset] at hinc
  exact ⟨w, hrun, hused, hinc⟩

end MemStore
