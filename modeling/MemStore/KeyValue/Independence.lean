import MemStore.KeyValue.Edits

/-!
# Key-values without leaderboards

The key-value operations neither read the leaderboards nor the sequence counter.
`withRanks` exchanges that half of a manager, and `exec_withRanks` shows that
it makes no difference to a key-value operation (`Op.isKeyValue`): the reply is
the same, and so are the key-values afterwards.

With the own leaderboards put in, this is to say that such an operation leaves
them alone (`exec_ranks`).  The sweep works on both halves, but separately
(`sameKeyValues_sweepMapEnd`).
-/

namespace MemStore

namespace MemStoreManager

/-- The key-values of `s` next to the leaderboards of `r`. -/
def withRanks (s r : MemStoreManager) : MemStoreManager :=
  { s with ranks := r.ranks, rankSequenceCounter := r.rankSequenceCounter }

section WithRanks

variable (s r : MemStoreManager) (ns key : StdString) (layout : Layout) (now : TimePoint)

/-- Managers with the same key-values differ in their leaderboards only. -/
theorem eq_withRanks {s s' : MemStoreManager} (h : SameKeyValues s s') : s' = s.withRanks s' := by
  obtain ⟨hnamespaces, hkeyCaches, hused, hlimits⟩ := h
  cases s
  cases s'
  cases hnamespaces
  cases hkeyCaches
  cases hused
  cases hlimits
  rfl

@[simp] theorem withRanks_self : s.withRanks s = s := rfl
@[simp] theorem withRanks_namespaces : (s.withRanks r).namespaces = s.namespaces := rfl
@[simp] theorem withRanks_keyCaches : (s.withRanks r).keyCaches = s.keyCaches := rfl
@[simp] theorem withRanks_toLimits : (s.withRanks r).toLimits = s.toLimits := rfl
@[simp] theorem withRanks_entryAt : (s.withRanks r).entryAt ns key = s.entryAt ns key := rfl
@[simp] theorem withRanks_checkNamespaceKeyLimit :
    (s.withRanks r).checkNamespaceKeyLimit ns key = s.checkNamespaceKeyLimit ns key := rfl
@[simp] theorem withRanks_quotaExceeded (newBytes oldBytes : SizeT) :
    (s.withRanks r).quotaExceeded newBytes oldBytes = s.quotaExceeded newBytes oldBytes := rfl

/-! ## Building blocks -/

theorem eraseIfEmpty_withRanks {s t r : MemStoreManager} (h : t = s.withRanks r)
    (ns : StdString) : t.eraseIfEmpty ns = (s.eraseIfEmpty ns).withRanks r := by
  subst h
  unfold eraseIfEmpty
  rw [withRanks_namespaces]
  split
  · split <;> rfl
  · rfl

theorem eraseEntry_withRanks :
    (s.withRanks r).eraseEntry ns key = (s.eraseEntry ns key).withRanks r :=
  eraseIfEmpty_withRanks (by rfl) ns

theorem findLive_withRanks (releases : Bool) : (s.withRanks r).findLive releases ns key now =
    ((s.findLive releases ns key now).1.withRanks r, (s.findLive releases ns key now).2) := by
  unfold findLive
  rw [withRanks_entryAt]
  split
  · rfl
  · split
    · -- whether bytes are released first makes no difference
      cases releases with
      | true => exact congrArg (·, none) (eraseEntry_withRanks (s.release _) r ns key)
      | false => exact congrArg (·, none) (eraseEntry_withRanks s r ns key)
    · rfl

theorem purgeNamespace_withRanks (invalidates : Bool) :
    (s.withRanks r).purgeNamespace invalidates ns now =
      ((s.purgeNamespace invalidates ns now).1.withRanks r,
        (s.purgeNamespace invalidates ns now).2) := by
  unfold purgeNamespace
  rw [withRanks_namespaces]
  split
  · rfl
  · dsimp only
    split <;> exact congrArg (·, _) (eraseIfEmpty_withRanks (by rfl) ns)

/-! ## Writes -/

theorem storeScalar_withRanks (fill : StoreEntry → StoreEntry) (policy : ExpirePolicy)
    (extra : Int32) : (s.withRanks r).storeScalar layout ns key fill policy extra now =
      ((s.storeScalar layout ns key fill policy extra now).1.withRanks r,
        (s.storeScalar layout ns key fill policy extra now).2) := by
  unfold storeScalar
  rw [withRanks_checkNamespaceKeyLimit]
  split <;> rfl

theorem storePayload_withRanks (fill : StoreEntry → StoreEntry) (newBytes : SizeT)
    (policy : ExpirePolicy) (extra : Int32) :
    (s.withRanks r).storePayload layout ns key fill newBytes policy extra now =
      ((s.storePayload layout ns key fill newBytes policy extra now).1.withRanks r,
        (s.storePayload layout ns key fill newBytes policy extra now).2) := by
  unfold storePayload
  rw [withRanks_checkNamespaceKeyLimit,
    withRanks_entryAt]
  split
  · rw [withRanks_quotaExceeded]
    split <;> rfl
  · rfl

theorem increment_withRanks {α : Type} (type : EntryType) (fill add : StoreEntry → StoreEntry)
    (value : StoreEntry → α) (delta : α) (setter : MemStoreManager × Bool)
    (policy : ExpirePolicy) (extra : Int32) (now₀ now₁ : TimePoint) :
    (s.withRanks r).increment ns key type fill add value delta (setter.1.withRanks r, setter.2)
        policy extra now₀ now₁ =
      ((s.increment ns key type fill add value delta setter policy extra now₀ now₁).1.withRanks r,
        (s.increment ns key type fill add value delta setter policy extra now₀ now₁).2) := by
  unfold increment
  rw [withRanks_entryAt]
  split
  · split
    · rfl
    · split <;> rfl
  · rfl

theorem deleteKey_withRanks : (s.withRanks r).deleteKey ns key =
    ((s.deleteKey ns key).1.withRanks r, (s.deleteKey ns key).2) := by
  unfold deleteKey
  rw [withRanks_entryAt]
  split
  · rfl
  · exact congrArg (·, true) (eraseEntry_withRanks (s.release _) r ns key)

theorem setExpire_withRanks (policy : ExpirePolicy) (extra : Int32) :
    (s.withRanks r).setExpire ns key policy extra now =
      ((s.setExpire ns key policy extra now).1.withRanks r,
        (s.setExpire ns key policy extra now).2) := by
  unfold setExpire
  rw [withRanks_entryAt]
  split <;> rfl

/-- A loop whose body does not see the leaderboards. -/
theorem foldl_withRanks {α : Type*} {body : MemStoreManager → α → MemStoreManager}
    (hbody : ∀ s x, body (s.withRanks r) x = (body s x).withRanks r) (l : List α) :
    l.foldl body (s.withRanks r) = (l.foldl body s).withRanks r := by
  induction l generalizing s with
  | nil => rfl
  | cons x rest ih => rw [List.foldl_cons, List.foldl_cons, hbody, ih]

theorem clearNamespace_withRanks : (s.withRanks r).clearNamespace ns =
    ((s.clearNamespace ns).1.withRanks r, (s.clearNamespace ns).2) := by
  unfold clearNamespace
  rw [withRanks_namespaces]
  split
  · rfl
  · dsimp only
    rw [foldl_withRanks s r fun _ _ => rfl]
    rfl

theorem sameKeyValues_sweepMapEnd {s s' : MemStoreManager} (h : SameKeyValues s s')
    (now : TimePoint) : SameKeyValues (s.sweepMapEnd now) (s'.sweepMapEnd now) := by
  -- both loops only release bytes
  have hentry : ∀ (s : MemStoreManager) (pair : StdString × StoreEntry),
      (if (sweepEntry now pair.2).isNone then (s.withRanks s').release (getPayloadBytes pair.2)
        else s.withRanks s') =
      (if (sweepEntry now pair.2).isNone then s.release (getPayloadBytes pair.2)
        else s).withRanks s' := by
    intro s pair
    split <;> rfl
  have hkeyMap : ∀ (s : MemStoreManager) (keyMap : StdString × UnorderedMap StdString StoreEntry),
      keyMap.2.entries.foldl (fun s pair =>
          if (sweepEntry now pair.2).isNone then s.release (getPayloadBytes pair.2) else s)
          (s.withRanks s') =
        (keyMap.2.entries.foldl (fun s pair =>
          if (sweepEntry now pair.2).isNone then s.release (getPayloadBytes pair.2) else s)
          s).withRanks s' := fun s keyMap => foldl_withRanks s s' hentry keyMap.2.entries
  rw [eq_withRanks h, sweepMapEnd, sweepMapEnd,
    withRanks_namespaces, foldl_withRanks s s' hkeyMap]
  exact ⟨rfl, rfl, rfl, rfl⟩

/-! ## `GetKeyAt` -/

theorem keyExists_withRanks : (s.withRanks r).keyExists ns key now =
    ((s.keyExists ns key now).1.withRanks r, (s.keyExists ns key now).2) := by
  rw [keyExists, findLive_withRanks, keyExists]
  rcases s.findLive false ns key now with ⟨t, _ | e⟩ <;> rfl

theorem rebuildKeyCache_withRanks : (s.withRanks r).rebuildKeyCache ns now =
    (s.rebuildKeyCache ns now).map fun s => s.withRanks r := by
  simp only [rebuildKeyCache, getActiveKeys, purgeNamespace_withRanks]
  rcases s.purgeNamespace false ns now with ⟨t, kept⟩
  rw [withRanks_keyCaches]
  dsimp only
  split <;> rfl

theorem readKeyCache_withRanks (index : ℕ) (now₁ now₂ : TimePoint) :
    (s.withRanks r).readKeyCache ns index now₁ now₂ =
      (s.readKeyCache ns index now₁ now₂).map fun x => (x.1.withRanks r, x.2) := by
  rw [readKeyCache, readKeyCache, withRanks_keyCaches]
  cases s.keyCaches.find? ns with
  | none => rfl
  | some cache =>
      rw [Option.bind_some, Option.bind_some]
      cases cache.keys[index]? with
      | none => rfl
      | some key =>
          dsimp only
          rw [keyExists_withRanks]
          rcases s.keyExists ns key now₁ with ⟨t, _ | _⟩
          · dsimp only
            rw [rebuildKeyCache_withRanks]
            cases t.rebuildKeyCache ns now₂ with
            | none => rfl
            | some t' =>
                rw [Option.map_some, Option.bind_some, Option.bind_some, Option.map_map]
                rfl
          · dsimp only
            rw [Option.map_map]
            rfl

theorem getKeyAt_withRanks (index : ℕ) (now₀ now₁ now₂ : TimePoint) :
    (s.withRanks r).getKeyAt layout ns index now₀ now₁ now₂ =
      (s.getKeyAt layout ns index now₀ now₁ now₂).map fun x => (x.1.withRanks r, x.2) := by
  -- what follows the insertion of the key cache
  have hcached : ∀ t : MemStoreManager,
      ((t.keyCaches.find? ns).bind fun cache =>
        if cache.valid then (t.withRanks r).readKeyCache ns index now₁ now₂
        else ((t.withRanks r).rebuildKeyCache ns now₀).bind fun s =>
          s.readKeyCache ns index now₁ now₂) =
      ((t.keyCaches.find? ns).bind fun cache =>
        if cache.valid then t.readKeyCache ns index now₁ now₂
        else (t.rebuildKeyCache ns now₀).bind fun s =>
          s.readKeyCache ns index now₁ now₂).map fun x => (x.1.withRanks r, x.2) := by
    intro t
    cases t.keyCaches.find? ns with
    | none => rfl
    | some cache =>
        rw [Option.bind_some, Option.bind_some]
        split
        · exact readKeyCache_withRanks t r ns index now₁ now₂
        · rw [rebuildKeyCache_withRanks]
          cases t.rebuildKeyCache ns now₀ with
          | none => rfl
          | some t' => exact readKeyCache_withRanks t' r ns index now₁ now₂
  rw [getKeyAt, getKeyAt, withRanks_namespaces]
  cases s.namespaces.find? ns with
  | none => rfl
  | some keyMap =>
      exact hcached { s with keyCaches := s.keyCaches.upsert layout ns {} fun cache => cache }

end WithRanks

end MemStoreManager

/-! ## The key-value operations -/

/-- The operations that have to do with key-values only. -/
def Op.isKeyValue : Op → Bool
  | .query (.rankGetScore ..) | .query (.rankExists ..) | .query (.rankGetPosition ..)
  | .query (.rankGetTop ..) | .query (.rankGetCount ..) | .query (.rankGetRange ..) => false
  | .write (.rankSet ..) | .write (.rankInc ..) | .rankDelete .. | .rankClear .. => false
  | .getMemoryStats | .sweepMapEnd | .clearAll | .flushAll => false
  | .query _ | .write _ | .getKeyAt .. | .deleteKey .. | .clearNamespace .. | .setExpire ..
  | .setLimits .. => true

open MemStoreManager

variable {alg : StdAlgorithm RankPair}

theorem query_withRanks (s r : MemStoreManager) (now : TimePoint) {q : Query}
    (hq : (Op.query q).isKeyValue = true) :
    q.run alg (s.withRanks r) now = ((q.run alg s now).1.withRanks r, (q.run alg s now).2) := by
  cases q with
  | getInt | getFloat | getString | getArray =>
      simp only [Query.run, getInt, getFloat, getString, getArray, findLive_withRanks]
  | getArraySize ns key =>
      simp only [Query.run, getArraySize, findLive_withRanks]
      rcases s.findLive true ns key now with ⟨t, _ | e⟩ <;> rfl
  | getKeyType ns key =>
      simp only [Query.run, getKeyType, findLive_withRanks]
      rcases s.findLive false ns key now with ⟨t, _ | e⟩ <;> rfl
  | keyExists ns key => simp only [Query.run, keyExists_withRanks]
  | getNamespaceCount | getActiveKeys =>
      simp only [Query.run, getNamespaceCount, getActiveKeys, purgeNamespace_withRanks]
  | getTTL => rfl
  | _ => cases hq

theorem write_withRanks (s r : MemStoreManager) (env : Env) {w : Write}
    (hw : (Op.write w).isKeyValue = true) :
    w.run (s.withRanks r) env = ((w.run s env).1.withRanks r, (w.run s env).2) := by
  cases w with
  | setInt | setFloat =>
      simp only [Write.run, setInt, setFloat, storeScalar_withRanks]
  | setString ns key val policy extra =>
      simp only [Write.run, setString, withRanks_toLimits, storePayload_withRanks]
      rfl
  | setArray ns key data policy extra =>
      simp only [Write.run, setArray, withRanks_toLimits, storePayload_withRanks]
  | incInt | incFloat =>
      simp only [Write.run, incInt, incFloat, setInt, setFloat, storeScalar_withRanks,
        increment_withRanks]
  | _ => cases hw

/-- A key-value operation does not see the leaderboards. -/
theorem exec_withRanks (s r : MemStoreManager) (env : Env) {op : Op}
    (hop : op.isKeyValue = true) :
    exec alg (s.withRanks r) env op = (exec alg s env op).map fun x => (x.1.withRanks r, x.2) := by
  cases op with
  | query q => exact congrArg some (query_withRanks s r env.first hop)
  | write w => exact congrArg some (write_withRanks s r env hop)
  | getKeyAt ns index =>
      simp only [exec, getKeyAt_withRanks, Option.map_map]
      rfl
  | deleteKey ns key => simp only [exec, deleteKey_withRanks, Option.map_some]
  | clearNamespace ns => simp only [exec, clearNamespace_withRanks, Option.map_some]
  | setExpire ns key policy extra => simp only [exec, setExpire_withRanks, Option.map_some]
  | setLimits => rfl
  | _ => cases hop

/-- A key-value operation leaves the leaderboards alone. -/
theorem exec_ranks {s s' : MemStoreManager} {env : Env} {op : Op} {reply : Reply}
    (hop : op.isKeyValue = true) (h : exec alg s env op = some (s', reply)) :
    s'.ranks = s.ranks ∧ s'.rankSequenceCounter = s.rankSequenceCounter := by
  have hsame : exec alg (s.withRanks s) env op =
      (exec alg s env op).map fun x => (x.1.withRanks s, x.2) := exec_withRanks s s env hop
  rw [withRanks_self, h, Option.map_some] at hsame
  have hstore : s' = s'.withRanks s := congrArg Prod.fst (Option.some.inj hsame)
  rw [hstore]
  exact ⟨rfl, rfl⟩

end MemStore
