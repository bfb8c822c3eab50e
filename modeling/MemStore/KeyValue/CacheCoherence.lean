import MemStore.KeyValue.FailedWrites

/-!
# The key cache and the stored keys

A valid key cache is meant to list the keys of its namespace in iteration order
(`CoherentCache`).  Every method that changes the keys of a namespace
invalidates or erases the cache, with two exceptions:

* `GetActiveKeys` erases expired entries and leaves a valid cache alone;
* a setter that the quota rejects inserts a key and leaves a valid cache alone.

`KeepsKeyCache` says of a call that it is neither of these while the cache is
valid.  Such calls keep the cache coherent (`coherentCache_call`).
-/

namespace MemStore

open MemStoreManager

/-- If the cache is valid, it lists the keys of the stored namespace. -/
def CoherentCache (s : MemStoreManager) (ns : StdString) : Prop :=
  ∀ keys, s.validCache ns = some keys → keys = (NestedMap.inner s.namespaces ns).keys

section Caches

variable {s s' : MemStoreManager} {ns ns' : StdString}

theorem validCache_congr (h : s'.keyCaches.find? ns = s.keyCaches.find? ns) :
    s'.validCache ns = s.validCache ns := by
  rw [validCache, h, validCache]

theorem CoherentCache.of_none (h : s.validCache ns = none) : CoherentCache s ns := by
  intro keys hkeys
  rw [h] at hkeys
  cases hkeys

/-- A step that leaves the cache of a namespace and its keys alone. -/
theorem CoherentCache.of_same (h : CoherentCache s ns)
    (hcache : s'.validCache ns = s.validCache ns)
    (hkeys : (NestedMap.inner s'.namespaces ns).keys = (NestedMap.inner s.namespaces ns).keys) :
    CoherentCache s' ns := by
  intro keys hvalid
  rw [hcache] at hvalid
  rw [hkeys]
  exact h keys hvalid

/-! ## Caches after an edit -/

theorem validCache_invalidateKeyCache (s : MemStoreManager) (ns : StdString) :
    (s.invalidateKeyCache ns).validCache ns = none := by
  rw [validCache, invalidateKeyCache, UnorderedMap.find?_modify, if_pos rfl]
  cases s.keyCaches.find? ns <;> rfl

theorem validCache_invalidateKeyCache_of_ne (s : MemStoreManager) (h : ns' ≠ ns) :
    (s.invalidateKeyCache ns).validCache ns' = s.validCache ns' := by
  apply validCache_congr
  rw [invalidateKeyCache, UnorderedMap.find?_modify, if_neg h]

theorem validCache_eraseIfEmpty (h : s.validCache ns = none) :
    (s.eraseIfEmpty ns).validCache ns = none := by
  unfold eraseIfEmpty
  split
  · split
    · rw [validCache, UnorderedMap.find?_erase, if_pos rfl]
      rfl
    · exact h
  · exact h

theorem validCache_eraseIfEmpty_of_ne (s : MemStoreManager) (h : ns' ≠ ns) :
    (s.eraseIfEmpty ns).validCache ns' = s.validCache ns' := by
  apply validCache_congr
  unfold eraseIfEmpty
  split
  · split
    · exact (UnorderedMap.find?_erase ..).trans (if_neg h)
    · rfl
  · rfl

theorem coherentCache_eraseEntry (h : CoherentCache s ns) (ns' key : StdString) :
    CoherentCache (s.eraseEntry ns' key) ns := by
  by_cases hns : ns = ns'
  · subst hns
    apply CoherentCache.of_none
    exact validCache_eraseIfEmpty (validCache_invalidateKeyCache _ ns)
  · apply h.of_same
    · rw [eraseEntry, validCache_eraseIfEmpty_of_ne _ hns,
        validCache_invalidateKeyCache_of_ne _ hns]
      rfl
    · rw [eraseEntry_namespaces, NestedMap.inner_retainAt, if_neg hns]

theorem coherentCache_release (h : CoherentCache s ns) (bytes : SizeT) :
    CoherentCache (s.release bytes) ns := h

theorem coherentCache_overwrite (h : CoherentCache s ns) (layout : Layout) (ns' key : StdString)
    (fill : StoreEntry → StoreEntry) (newBytes : SizeT) (policy : ExpirePolicy) (extra : Int32)
    (now : TimePoint) :
    CoherentCache (s.overwrite layout ns' key fill newBytes policy extra now) ns := by
  by_cases hns : ns = ns'
  · subst hns
    exact .of_none (validCache_invalidateKeyCache _ ns)
  · apply h.of_same
    · rw [overwrite, validCache_invalidateKeyCache_of_ne _ hns]
      rfl
    · have hinner := NestedMap.inner_upsertAt layout layout s.namespaces ns' ns key {} fun e =>
        applyExpiration (fill e) policy extra now
      rw [if_neg hns] at hinner
      exact congrArg UnorderedMap.keys hinner

theorem coherentCache_modifyEntry (h : CoherentCache s ns) (ns' key : StdString)
    (f : StoreEntry → StoreEntry) : CoherentCache (s.modifyEntry ns' key f) ns := by
  refine h.of_same rfl ?_
  rw [modifyEntry_namespaces, NestedMap.inner_modifyAt]
  by_cases hns : ns = ns'
  · rw [if_pos hns, UnorderedMap.keys_modify, hns]
  · rw [if_neg hns]

theorem coherentCache_clearNamespace (h : CoherentCache s ns) (ns' : StdString) :
    CoherentCache (s.clearNamespace ns').1 ns := by
  cases hfind : s.namespaces.find? ns' with
  | none =>
      rw [clearNamespace_of_none hfind]
      exact h
  | some keyMap =>
      obtain ⟨used, hclear⟩ := clearNamespace_of_some hfind
      rw [hclear]
      by_cases hns : ns = ns'
      · subst hns
        apply CoherentCache.of_none
        rw [validCache, UnorderedMap.find?_erase, if_pos rfl]
        rfl
      · apply h.of_same
        · exact validCache_congr ((UnorderedMap.find?_erase ..).trans (if_neg hns))
        · exact congrArg UnorderedMap.keys ((NestedMap.inner_erase ..).trans (if_neg hns))

theorem coherentCache_touch (h : CoherentCache s ns) (layout : Layout) {ns' key : StdString}
    (hns : ns ≠ ns' ∨ s.validCache ns = none) : CoherentCache (s.touch layout ns' key) ns := by
  rcases hns with hne | hnone
  · refine h.of_same rfl ?_
    rw [touch_namespaces, NestedMap.inner_upsertAt, if_neg hne]
  · exact .of_none hnone

end Caches

/-! ## Purges -/

section Purges

variable {s s' : MemStoreManager} {ns ns' : StdString} {now : TimePoint}

/-- Purging a namespace in which nothing has expired changes nothing. -/
theorem purgeNamespace_of_live (hs : NestedMap.NoEmpty s.namespaces)
    (hlive : ∀ key e, s.entryAt ns key = some e → e.isExpired now = false) (invalidates : Bool) :
    (s.purgeNamespace invalidates ns now).1 = s := by
  unfold purgeNamespace
  cases hfind : s.namespaces.find? ns with
  | none => rfl
  | some keyMap =>
      have hkept : ∀ key e, keyMap.find? key = some e → e.isExpired now = false := by
        intro key e he
        apply hlive key e
        rw [entryAt, NestedMap.at?, NestedMap.inner_of_find? hfind]
        exact he
      have herases : keyMap.entries.any (fun pair => pair.2.isExpired now) = false := by
        rw [List.any_eq_false]
        intro pair hpair
        rw [hkept pair.1 pair.2 (UnorderedMap.find?_eq_some_iff.mpr hpair)]
        exact Bool.false_ne_true
      have hsame : (s.namespaces.modify ns fun keyMap => keyMap.eraseIf fun e =>
          e.isExpired now) = s.namespaces := by
        refine UnorderedMap.filterMap_eq_self fun k v hv => ?_
        split
        · next hk =>
            subst hk
            rw [hfind] at hv
            cases hv
            refine congrArg some (UnorderedMap.filterMap_eq_self fun key e he => ?_)
            have hno : ¬ e.isExpired now = true := Bool.eq_false_iff.mp (hkept key e he)
            exact if_neg hno
        · rfl
      have hfull : keyMap.isEmpty = false := by
        rw [← Bool.not_eq_true, UnorderedMap.isEmpty_iff]
        exact hs ns keyMap hfind
      dsimp only
      rw [herases, Bool.and_false, if_neg Bool.false_ne_true, hsame, eraseIfEmpty, hfind]
      dsimp only
      rw [hfull, if_neg Bool.false_ne_true]

theorem validCache_purgeNamespace_of_ne (invalidates : Bool) (s : MemStoreManager)
    (now : TimePoint) (h : ns' ≠ ns) :
    (s.purgeNamespace invalidates ns now).1.validCache ns' = s.validCache ns' := by
  unfold purgeNamespace
  split
  · rfl
  · dsimp only
    rw [validCache_eraseIfEmpty_of_ne _ h]
    split
    · rw [validCache_invalidateKeyCache_of_ne _ h]
      rfl
    · rfl

theorem keys_purgeNamespace_of_ne (invalidates : Bool) (s : MemStoreManager) (now : TimePoint)
    (h : ns' ≠ ns) : (NestedMap.inner (s.purgeNamespace invalidates ns now).1.namespaces ns').keys =
      (NestedMap.inner s.namespaces ns').keys := by
  rw [purgeNamespace_namespaces, NestedMap.inner_retainAt, if_neg h]

/-- A purge that erases something leaves no valid cache, if it invalidates, if
there was none, or if it erases everything. -/
theorem validCache_purgeNamespace {key : StdString} {e : StoreEntry} {invalidates : Bool}
    (hentry : s.entryAt ns key = some e) (hexp : e.isExpired now = true)
    (h : invalidates = true ∨ s.validCache ns = none ∨ ∀ key, s.liveAt now ns key = none) :
    (s.purgeNamespace invalidates ns now).1.validCache ns = none := by
  have hfind := NestedMap.find?_of_at? hentry
  have herases : (NestedMap.inner s.namespaces ns).entries.any
      (fun pair => pair.2.isExpired now) = true :=
    List.any_eq_true.mpr ⟨(key, e), UnorderedMap.find?_eq_some_iff.mp hentry, hexp⟩
  unfold purgeNamespace
  rw [hfind]
  dsimp only
  rw [herases, Bool.and_true]
  rcases h with rfl | hnone | hdead
  · exact validCache_eraseIfEmpty (validCache_invalidateKeyCache _ ns)
  · apply validCache_eraseIfEmpty
    split
    · exact validCache_invalidateKeyCache _ ns
    · exact hnone
  · -- the namespace empties, and is erased with its cache
    have hempty : (NestedMap.inner s.namespaces ns).eraseIf (fun e => e.isExpired now) = ∅ := by
      rw [UnorderedMap.eq_empty_iff]
      intro k
      rw [UnorderedMap.find?_eraseIf]
      exact hdead k
    cases invalidates with
    | true => exact validCache_eraseIfEmpty (validCache_invalidateKeyCache _ ns)
    | false =>
        rw [if_neg Bool.false_ne_true, eraseIfEmpty]
        dsimp only
        rw [UnorderedMap.find?_modify, if_pos rfl, hfind, Option.map_some, hempty]
        dsimp only
        rw [if_pos (UnorderedMap.isEmpty_iff.mpr rfl), validCache, UnorderedMap.find?_erase,
          if_pos rfl]
        rfl

/-- A purge keeps the cache coherent unless it erases some of the entries, not
all of them, and neither invalidates the cache nor finds it invalid. -/
theorem coherentCache_purgeNamespace (hs : NestedMap.NoEmpty s.namespaces)
    (h : CoherentCache s ns) {invalidates : Bool}
    (hguard : ns = ns' → (∀ key e, s.entryAt ns key = some e → e.isExpired now = false) ∨
      invalidates = true ∨ s.validCache ns = none ∨ ∀ key, s.liveAt now ns key = none) :
    CoherentCache (s.purgeNamespace invalidates ns' now).1 ns := by
  by_cases hns : ns = ns'
  · have hcase := hguard hns
    subst hns
    -- if anything is erased, the cache must not stay valid
    by_cases hlive : ∀ key e, s.entryAt ns key = some e → e.isExpired now = false
    · rw [purgeNamespace_of_live hs hlive]
      exact h
    · simp only [not_forall] at hlive
      obtain ⟨key, e, hentry, hexp⟩ := hlive
      apply CoherentCache.of_none
      refine validCache_purgeNamespace hentry (by simpa using hexp) ?_
      rcases hcase with hall | hrest
      · exact absurd (hall key e hentry) hexp
      · exact hrest
  · exact h.of_same (validCache_purgeNamespace_of_ne invalidates s now hns)
      (keys_purgeNamespace_of_ne invalidates s now hns)

theorem coherentCache_rebuildKeyCache (h : CoherentCache s ns)
    (hrebuild : s.rebuildKeyCache ns' now = some s') : CoherentCache s' ns := by
  by_cases hns : ns = ns'
  · subst hns
    intro keys hvalid
    have hfind := find?_rebuildKeyCache hrebuild
    rw [validCache, hfind] at hvalid
    cases hvalid
    obtain ⟨_, rfl⟩ := rebuildKeyCache_eq_some hrebuild
    dsimp only
    rw [purgeNamespace_namespaces, NestedMap.inner_retainAt, if_pos rfl]
    rfl
  · obtain ⟨_, rfl⟩ := rebuildKeyCache_eq_some hrebuild
    apply h.of_same
    · rw [← validCache_purgeNamespace_of_ne false s now hns]
      apply validCache_congr
      rw [UnorderedMap.find?_modify, if_neg hns]
    · exact keys_purgeNamespace_of_ne false s now hns

end Purges

/-! ## Calls -/

/-- While the cache is valid, the call is not a `GetActiveKeys` that erases some of
the entries and keeps others, and not a write that the quota rejects after it has
inserted the key. -/
def KeepsKeyCache (ns : StdString) (w : World) (c : Call) (_ : Reply) : Prop :=
  (w.store.validCache ns).isSome →
    (c.op = .query (.getActiveKeys ns) →
      (∀ key e, w.store.entryAt ns key = some e → e.isExpired c.env.first = false) ∨
        ∀ key, w.store.liveAt c.env.first ns key = none) ∧
    ∀ key, ¬ w.store.LeavesGhost c.op ns key

section Calls

variable {alg : StdAlgorithm RankPair} {s s' : MemStoreManager} {ns : StdString}

theorem coherentCache_findLive (h : CoherentCache s ns) (releases : Bool) (ns' key : StdString)
    (now : TimePoint) : CoherentCache (s.findLive releases ns' key now).1 ns := by
  unfold findLive
  split
  · exact h
  · split
    · cases releases with
      | true => exact coherentCache_eraseEntry (coherentCache_release h _) ns' key
      | false => exact coherentCache_eraseEntry h ns' key
    · exact h

theorem coherentCache_query (hs : NestedMap.NoEmpty s.namespaces) (h : CoherentCache s ns)
    {q : Query} {now : TimePoint}
    (hguard : (s.validCache ns).isSome → q = .getActiveKeys ns →
      (∀ key e, s.entryAt ns key = some e → e.isExpired now = false) ∨
        ∀ key, s.liveAt now ns key = none) :
    CoherentCache (q.run alg s now).1 ns := by
  rcases query_state alg s q now with hstate | ⟨_, ⟨ns', hstate⟩ | ⟨ns', key, e, _, _, hstate⟩⟩
  · rw [hstate]
    cases q with
    | getNamespaceCount ns' => exact coherentCache_purgeNamespace hs h fun _ => .inr (.inl rfl)
    | getActiveKeys ns' =>
        refine coherentCache_purgeNamespace hs h fun hns => ?_
        subst hns
        rcases Option.eq_none_or_eq_some (s.validCache ns) with hnone | ⟨keys, hsome⟩
        · exact .inr (.inr (.inl hnone))
        · rcases hguard (by rw [hsome]; rfl) rfl with hall | hdead
          · exact .inl hall
          · exact .inr (.inr (.inr hdead))
    | getInt | getFloat | getString | getArray | getArraySize | getKeyType | keyExists =>
        exact coherentCache_findLive h _ _ _ now
    | _ => exact h
  · have hsame := sameKeyValues_purgeBoard s ns' now
    rw [hstate]
    exact h.of_same (by rw [validCache, hsame.keyCaches, validCache]) (by rw [hsame.namespaces])
  · rw [hstate]
    exact h

theorem coherentCache_slotRead (h : CoherentCache s ns) {ns' : StdString} {index : ℕ}
    {now₁ now₂ : TimePoint} {keys : List StdString} {r : Option StdString}
    (hread : SlotRead s ns' index now₁ now₂ keys s' r) : CoherentCache s' ns := by
  cases hread with
  | outside | live => exact h
  | stale hslot hdead hrebuild =>
      exact coherentCache_rebuildKeyCache (coherentCache_findLive h false ns' _ now₁) hrebuild

theorem coherentCache_getKeyAt (h : CoherentCache s ns) {layout : Layout} {ns' : StdString}
    {index : ℕ} {now₀ now₁ now₂ : TimePoint} {r : Option StdString}
    (hkey : s.getKeyAt layout ns' index now₀ now₁ now₂ = some (s', r)) : CoherentCache s' ns := by
  rcases getKeyAt_cases hkey with ⟨_, rfl, _⟩ | ⟨keys, _, hread⟩ | ⟨_, s₁, hrebuild, hread⟩
  · exact h
  · exact coherentCache_slotRead h hread
  · refine coherentCache_slotRead (coherentCache_rebuildKeyCache ?_ hrebuild) hread
    -- the new cache is not valid yet
    refine h.of_same ?_ rfl
    rw [validCache, validCache, UnorderedMap.find?_upsert]
    by_cases hns : ns = ns'
    · subst hns
      rw [if_pos rfl]
      cases s.keyCaches.find? ns <;> rfl
    · rw [if_neg hns]

theorem coherentCache_change {env : Env} {req : Request} (hchange : Change env s req s')
    (hread : req ≠ .read) (h : CoherentCache s ns)
    (hghost : ∀ key v, req = .reject ns key v → s.validCache ns = none ∨ s' = s) :
    CoherentCache s' ns := by
  cases hchange with
  | read => exact absurd rfl hread
  | same | setLimits | refused | rankWrote | rankIncAbsent | rankIncExpired | rankIncLive
  | rankDeleted | rankCleared => exact h
  | touched ns' key v hlimit hquota =>
      by_cases hns : ns = ns'
      · subst hns
        rcases hghost key v rfl with hnone | hsame
        · exact coherentCache_touch h env.layout (.inr hnone)
        · rwa [hsame]
      · exact coherentCache_touch h env.layout (.inl hns)
  | wrote | incAbsent => exact coherentCache_overwrite h _ _ _ _ _ _ _ _
  | incExpired ns' key delta policy extra hnumber hentry hexp =>
      rw [← hnumber.overwrite_of_entryAt hentry env.layout]
      exact coherentCache_overwrite h _ _ _ _ _ _ _ _
  | incLive | reexpired => exact coherentCache_modifyEntry h _ _ _
  | deleted ns' key => exact coherentCache_eraseEntry (coherentCache_release h _) ns' key
  | cleared ns' => exact coherentCache_clearNamespace h ns'
  | swept | wiped => exact .of_none rfl

theorem coherentCache_call {w w' : World} {c : Call} {reply : Reply} (hw : WellFormed w.store)
    (hcall : w.call alg c = some (w', reply)) (h : CoherentCache w.store ns)
    (hguard : KeepsKeyCache ns w c reply) : CoherentCache w'.store ns := by
  obtain ⟨_, hexec, _⟩ := World.call_eq_some_iff.mp hcall
  -- the reads are told apart by what they erase, all other calls by what they come to
  by_cases hread : c.op.outcome w.store.toLimits reply = .read
  · rcases outcome_eq_read hread with ⟨q, hop⟩ | ⟨ns', index, hop⟩
    · rw [hop] at hexec
      have hrun : q.run alg w.store c.env.first = (w'.store, reply) := Option.some.inj hexec
      have hquery : CoherentCache (q.run alg w.store c.env.first).1 ns :=
        coherentCache_query hw.namespaces h fun hvalid hq => (hguard hvalid).1 (by rw [hop, hq])
      rwa [hrun] at hquery
    · rw [hop] at hexec
      obtain ⟨⟨s₁, r⟩, hkey, heq⟩ := Option.map_eq_some_iff.mp hexec
      cases heq
      exact coherentCache_getKeyAt h hkey
  · have hchange := exec_change hw.maxKeys_pos hexec
    refine coherentCache_change hchange hread h fun key v hreject => ?_
    obtain ⟨hpayload, policy, extra, hrequest⟩ := outcome_eq_reject hreject
    rw [hreject] at hchange
    rcases Option.eq_none_or_eq_some (w.store.validCache ns) with hnone | ⟨keys, hsome⟩
    · exact .inl hnone
    · rcases hchange.of_reject hrequest hpayload with ⟨hsame, _⟩ | ⟨_, hghost⟩
      · exact .inr hsame
      · exact absurd hghost ((hguard (by rw [hsome]; rfl)).2 key)

/-- In a run whose calls all keep the key cache of a namespace, it is coherent
in every manager reached. -/
theorem coherentCache_of_run {w w' : World} {steps : List (Call × Reply)}
    (hrun : Machine.Run (World.call alg) (KeepsKeyCache ns) w steps w') (hw : WellFormed w.store)
    (h : CoherentCache w.store ns) : CoherentCache w'.store ns := by
  have hstep : ∀ (w : World) (c : Call) (reply : Reply) (w' : World), KeepsKeyCache ns w c reply →
      (WellFormed w.store ∧ CoherentCache w.store ns) → w.call alg c = some (w', reply) →
      WellFormed w'.store ∧ CoherentCache w'.store ns := by
    rintro w c reply w' hguard ⟨hw, h⟩ hcall
    exact ⟨World.wellFormed_call hw hcall, coherentCache_call hw hcall h hguard⟩
  exact (hrun.invariant (fun w => WellFormed w.store ∧ CoherentCache w.store ns) hstep
    ⟨hw, h⟩).2

end Calls

end MemStore
