import MemStore.Expiry.Lifetime

/-!
# What the key-value operations do to the stored entries

The building blocks of the key-value methods, each with the fields it leaves
alone and with its effect on `entryAt`.  Everything that erases is a
`NestedMap.retainAt`, so that the effect on one entry, on a whole namespace and
on a sum over the store can all be read off the container lemmas.
-/

namespace MemStore

namespace MemStoreManager

/-! ## Fields that stay as they are -/

section Frame

variable (s : MemStoreManager) (ns key : StdString) (bytes : SizeT) (layout : Layout)
  (f : StoreEntry → StoreEntry)

@[simp] theorem release_namespaces : (s.release bytes).namespaces = s.namespaces := rfl
@[simp] theorem release_ranks : (s.release bytes).ranks = s.ranks := rfl
@[simp] theorem release_keyCaches : (s.release bytes).keyCaches = s.keyCaches := rfl
@[simp] theorem release_toLimits : (s.release bytes).toLimits = s.toLimits := rfl
@[simp] theorem release_rankSequenceCounter :
    (s.release bytes).rankSequenceCounter = s.rankSequenceCounter := rfl

@[simp] theorem invalidateKeyCache_namespaces :
    (s.invalidateKeyCache ns).namespaces = s.namespaces := rfl
@[simp] theorem invalidateKeyCache_ranks : (s.invalidateKeyCache ns).ranks = s.ranks := rfl
@[simp] theorem invalidateKeyCache_toLimits :
    (s.invalidateKeyCache ns).toLimits = s.toLimits := rfl
@[simp] theorem invalidateKeyCache_rankSequenceCounter :
    (s.invalidateKeyCache ns).rankSequenceCounter = s.rankSequenceCounter := rfl
@[simp] theorem invalidateKeyCache_approxMemoryUsed :
    (s.invalidateKeyCache ns).approxMemoryUsed = s.approxMemoryUsed := rfl

@[simp] theorem touch_namespaces : (s.touch layout ns key).namespaces =
    NestedMap.upsertAt layout layout s.namespaces ns key {} fun e => e := rfl
@[simp] theorem touch_ranks : (s.touch layout ns key).ranks = s.ranks := rfl
@[simp] theorem touch_keyCaches : (s.touch layout ns key).keyCaches = s.keyCaches := rfl
@[simp] theorem touch_toLimits : (s.touch layout ns key).toLimits = s.toLimits := rfl
@[simp] theorem touch_rankSequenceCounter :
    (s.touch layout ns key).rankSequenceCounter = s.rankSequenceCounter := rfl
@[simp] theorem touch_approxMemoryUsed :
    (s.touch layout ns key).approxMemoryUsed = s.approxMemoryUsed := rfl

@[simp] theorem modifyEntry_namespaces : (s.modifyEntry ns key f).namespaces =
    NestedMap.modifyAt s.namespaces ns key f := rfl
@[simp] theorem modifyEntry_ranks : (s.modifyEntry ns key f).ranks = s.ranks := rfl
@[simp] theorem modifyEntry_keyCaches : (s.modifyEntry ns key f).keyCaches = s.keyCaches := rfl
@[simp] theorem modifyEntry_toLimits : (s.modifyEntry ns key f).toLimits = s.toLimits := rfl
@[simp] theorem modifyEntry_rankSequenceCounter :
    (s.modifyEntry ns key f).rankSequenceCounter = s.rankSequenceCounter := rfl
@[simp] theorem modifyEntry_approxMemoryUsed :
    (s.modifyEntry ns key f).approxMemoryUsed = s.approxMemoryUsed := rfl

@[simp] theorem eraseIfEmpty_namespaces : (s.eraseIfEmpty ns).namespaces =
    NestedMap.dropIfEmpty s.namespaces ns := by
  unfold eraseIfEmpty NestedMap.dropIfEmpty
  cases s.namespaces.find? ns with
  | none => rfl
  | some keyMap =>
      dsimp only
      split <;> rfl

/-- `eraseIfEmpty` changes the namespaces and their key caches only. -/
theorem eraseIfEmpty_eq : ∃ namespaces keyCaches,
    s.eraseIfEmpty ns = { s with namespaces := namespaces, keyCaches := keyCaches } := by
  unfold eraseIfEmpty
  split
  · split
    · exact ⟨_, _, rfl⟩
    · exact ⟨_, _, rfl⟩
  · exact ⟨_, _, rfl⟩

@[simp] theorem eraseIfEmpty_ranks : (s.eraseIfEmpty ns).ranks = s.ranks := by
  obtain ⟨_, _, h⟩ := eraseIfEmpty_eq s ns
  rw [h]
@[simp] theorem eraseIfEmpty_toLimits : (s.eraseIfEmpty ns).toLimits = s.toLimits := by
  obtain ⟨_, _, h⟩ := eraseIfEmpty_eq s ns
  rw [h]
@[simp] theorem eraseIfEmpty_rankSequenceCounter :
    (s.eraseIfEmpty ns).rankSequenceCounter = s.rankSequenceCounter := by
  obtain ⟨_, _, h⟩ := eraseIfEmpty_eq s ns
  rw [h]
@[simp] theorem eraseIfEmpty_approxMemoryUsed :
    (s.eraseIfEmpty ns).approxMemoryUsed = s.approxMemoryUsed := by
  obtain ⟨_, _, h⟩ := eraseIfEmpty_eq s ns
  rw [h]

@[simp] theorem eraseEntry_namespaces : (s.eraseEntry ns key).namespaces =
    NestedMap.retainAt s.namespaces ns fun k e => if k = key then none else some e := by
  simp [eraseEntry, NestedMap.retainAt, UnorderedMap.erase]
@[simp] theorem eraseEntry_ranks : (s.eraseEntry ns key).ranks = s.ranks := by
  simp [eraseEntry]
@[simp] theorem eraseEntry_toLimits : (s.eraseEntry ns key).toLimits = s.toLimits := by
  simp [eraseEntry]
@[simp] theorem eraseEntry_rankSequenceCounter :
    (s.eraseEntry ns key).rankSequenceCounter = s.rankSequenceCounter := by
  simp [eraseEntry]
@[simp] theorem eraseEntry_approxMemoryUsed :
    (s.eraseEntry ns key).approxMemoryUsed = s.approxMemoryUsed := by
  simp [eraseEntry]

end Frame

/-- A method that leaves leaderboards and limits alone. -/
structure SameRanks (s s' : MemStoreManager) : Prop where
  ranks : s'.ranks = s.ranks
  counter : s'.rankSequenceCounter = s.rankSequenceCounter
  limits : s'.toLimits = s.toLimits

/-- A method that leaves the key-value half and the limits alone. -/
structure SameKeyValues (s s' : MemStoreManager) : Prop where
  namespaces : s'.namespaces = s.namespaces
  keyCaches : s'.keyCaches = s.keyCaches
  used : s'.approxMemoryUsed = s.approxMemoryUsed
  limits : s'.toLimits = s.toLimits

theorem SameRanks.refl (s : MemStoreManager) : SameRanks s s := ⟨rfl, rfl, rfl⟩

theorem SameKeyValues.refl (s : MemStoreManager) : SameKeyValues s s := ⟨rfl, rfl, rfl, rfl⟩

theorem SameRanks.trans {s s' s'' : MemStoreManager} (h : SameRanks s s')
    (h' : SameRanks s' s'') : SameRanks s s'' :=
  ⟨h'.ranks.trans h.ranks, h'.counter.trans h.counter, h'.limits.trans h.limits⟩

theorem SameKeyValues.symm {s s' : MemStoreManager} (h : SameKeyValues s s') :
    SameKeyValues s' s :=
  ⟨h.namespaces.symm, h.keyCaches.symm, h.used.symm, h.limits.symm⟩

theorem SameKeyValues.trans {s s' s'' : MemStoreManager} (h : SameKeyValues s s')
    (h' : SameKeyValues s' s'') : SameKeyValues s s'' :=
  ⟨h'.namespaces.trans h.namespaces, h'.keyCaches.trans h.keyCaches, h'.used.trans h.used,
    h'.limits.trans h.limits⟩

theorem SameKeyValues.entryAt {s s' : MemStoreManager} (h : SameKeyValues s s')
    (ns key : StdString) : s'.entryAt ns key = s.entryAt ns key := by
  rw [MemStoreManager.entryAt, h.namespaces, MemStoreManager.entryAt]

theorem SameRanks.rankAt {s s' : MemStoreManager} (h : SameRanks s s') (ns key : StdString) :
    s'.rankAt ns key = s.rankAt ns key := by
  rw [MemStoreManager.rankAt, h.ranks, MemStoreManager.rankAt]

/-! ## Loops that release bytes -/

/-- A loop whose body only changes the used memory. -/
theorem foldl_used {α : Type*} {body : MemStoreManager → α → MemStoreManager}
    (hbody : ∀ s x, ∃ used, body s x = { s with approxMemoryUsed := used }) (l : List α)
    (s : MemStoreManager) : ∃ used, l.foldl body s = { s with approxMemoryUsed := used } := by
  induction l generalizing s with
  | nil => exact ⟨_, rfl⟩
  | cons x rest ih =>
      obtain ⟨used, hused⟩ := hbody s x
      rw [List.foldl_cons, hused]
      exact ih { s with approxMemoryUsed := used }

theorem clearNamespace_of_none {s : MemStoreManager} {ns : StdString}
    (hfind : s.namespaces.find? ns = none) : s.clearNamespace ns = (s, false) := by
  rw [clearNamespace, hfind]

/-- Clearing a stored namespace, whatever it releases. -/
theorem clearNamespace_of_some {s : MemStoreManager} {ns : StdString}
    {keyMap : UnorderedMap StdString StoreEntry} (hfind : s.namespaces.find? ns = some keyMap) :
    ∃ used, s.clearNamespace ns =
      ({ s with
          approxMemoryUsed := used
          namespaces := s.namespaces.erase ns
          keyCaches := s.keyCaches.erase ns }, true) := by
  have hpair : ∀ (s : MemStoreManager) (pair : StdString × StoreEntry), ∃ used,
      s.release (getPayloadBytes pair.2) = { s with approxMemoryUsed := used } :=
    fun s pair => ⟨_, rfl⟩
  obtain ⟨used, hused⟩ := foldl_used hpair keyMap.entries s
  rw [clearNamespace, hfind]
  dsimp only
  rw [hused]
  exact ⟨used, rfl⟩

/-- The sweep, whatever it releases. -/
theorem sweepMapEnd_eq (s : MemStoreManager) (now : TimePoint) :
    ∃ used, s.sweepMapEnd now =
      { s with
        approxMemoryUsed := used
        namespaces := NestedMap.retainAll s.namespaces fun _ e => sweepEntry now e
        keyCaches := ∅
        ranks := NestedMap.retainAll s.ranks fun _ e => sweepRankEntry now e } := by
  have hentry : ∀ (s : MemStoreManager) (pair : StdString × StoreEntry), ∃ used,
      (if (sweepEntry now pair.2).isNone then s.release (getPayloadBytes pair.2) else s) =
        { s with approxMemoryUsed := used } := by
    intro s pair
    split
    · exact ⟨_, rfl⟩
    · exact ⟨_, rfl⟩
  have hkeyMap : ∀ (s : MemStoreManager) (keyMap : StdString × UnorderedMap StdString StoreEntry),
      ∃ used, keyMap.2.entries.foldl (fun s pair =>
          if (sweepEntry now pair.2).isNone then s.release (getPayloadBytes pair.2) else s) s =
        { s with approxMemoryUsed := used } := fun s keyMap => foldl_used hentry _ s
  obtain ⟨used, hused⟩ := foldl_used hkeyMap s.namespaces.entries s
  unfold sweepMapEnd
  dsimp only
  rw [hused]
  exact ⟨used, rfl⟩

theorem sameRanks_clearNamespace (s : MemStoreManager) (ns : StdString) :
    SameRanks s (s.clearNamespace ns).1 := by
  cases hfind : s.namespaces.find? ns with
  | none =>
      rw [clearNamespace_of_none hfind]
      exact SameRanks.refl s
  | some keyMap =>
      obtain ⟨used, hclear⟩ := clearNamespace_of_some hfind
      rw [hclear]
      exact ⟨rfl, rfl, rfl⟩

/-! ## Entries after an edit -/

section EntryAt

variable (s : MemStoreManager) (ns key ns' key' : StdString)

theorem entryAt_eraseEntry : (s.eraseEntry ns key).entryAt ns' key' =
    if ns' = ns ∧ key' = key then none else s.entryAt ns' key' := by
  rw [entryAt, eraseEntry_namespaces]
  exact NestedMap.at?_retainAt_erase ..

theorem entryAt_touch (layout : Layout) : (s.touch layout ns key).entryAt ns' key' =
    if ns' = ns ∧ key' = key then some ((s.entryAt ns key).getD {}) else s.entryAt ns' key' := by
  rw [entryAt, touch_namespaces, NestedMap.at?_upsertAt]
  rfl

theorem entryAt_modifyEntry (f : StoreEntry → StoreEntry) :
    (s.modifyEntry ns key f).entryAt ns' key' =
      if ns' = ns ∧ key' = key then (s.entryAt ns key).map f else s.entryAt ns' key' := by
  rw [entryAt, modifyEntry_namespaces, NestedMap.at?_modifyAt]
  rfl

theorem entryAt_overwrite (layout : Layout) (fill : StoreEntry → StoreEntry) (newBytes : SizeT)
    (policy : ExpirePolicy) (extra : Int32) (now : TimePoint) :
    (s.overwrite layout ns key fill newBytes policy extra now).entryAt ns' key' =
      if ns' = ns ∧ key' = key then
        some (applyExpiration (fill ((s.entryAt ns key).getD {})) policy extra now)
      else s.entryAt ns' key' := by
  rw [entryAt, overwrite]
  exact NestedMap.at?_upsertAt ..

end EntryAt

/-! ## Setters under a stored key -/

section Stored

variable {s : MemStoreManager} {ns key : StdString} {policy : ExpirePolicy} {extra : Int32}

/-- A key that is stored passes the limits. -/
theorem checkNamespaceKeyLimit_of_entryAt {e : StoreEntry} (h : s.entryAt ns key = some e) :
    s.checkNamespaceKeyLimit ns key = true := by
  have hfind : (NestedMap.inner s.namespaces ns).find? key = some e := h
  simp only [checkNamespaceKeyLimit, NestedMap.find?_of_at? h, hfind]

/-- A setter without a payload overwrites the stored entry and inserts nothing. -/
theorem overwrite_of_entryAt {e : StoreEntry} (h : s.entryAt ns key = some e) (layout : Layout)
    (fill : StoreEntry → StoreEntry) (now : TimePoint) :
    s.overwrite layout ns key fill 0 policy extra now =
      ((s.release (getPayloadBytes e)).modifyEntry ns key fun e =>
        applyExpiration (fill e) policy extra now).invalidateKeyCache ns := by
  have hmodify : NestedMap.upsertAt layout layout s.namespaces ns key {}
      (fun e => applyExpiration (fill e) policy extra now) =
        NestedMap.modifyAt s.namespaces ns key fun e =>
          applyExpiration (fill e) policy extra now := NestedMap.upsertAt_of_at? h _ _
  rw [overwrite, h, Option.getD_some, UInt32.add_zero, release_namespaces, hmodify]
  rfl

end Stored

/-! ## The purging loops -/

/-- The namespaces after the loop of `GetNamespaceCount` and `GetActiveKeys`. -/
theorem purgeNamespace_namespaces (invalidates : Bool) (s : MemStoreManager) (ns : StdString)
    (now : TimePoint) : (s.purgeNamespace invalidates ns now).1.namespaces =
      NestedMap.retainAt s.namespaces ns fun _ e => if e.isExpired now then none else some e := by
  unfold purgeNamespace
  cases hfind : s.namespaces.find? ns with
  | none => rw [NestedMap.retainAt_of_find?_none hfind]
  | some keyMap =>
      dsimp only
      rw [eraseIfEmpty_namespaces]
      split <;> rfl

theorem purgeNamespace_kept (invalidates : Bool) (s : MemStoreManager) (ns : StdString)
    (now : TimePoint) : (s.purgeNamespace invalidates ns now).2 =
      (NestedMap.inner s.namespaces ns).eraseIf fun e => e.isExpired now := by
  unfold purgeNamespace
  cases hfind : s.namespaces.find? ns with
  | none => rw [NestedMap.inner_of_find?_none hfind]; rfl
  | some keyMap => rw [NestedMap.inner_of_find? hfind]

theorem sameRanks_purgeNamespace (invalidates : Bool) (s : MemStoreManager) (ns : StdString)
    (now : TimePoint) : SameRanks s (s.purgeNamespace invalidates ns now).1 := by
  unfold purgeNamespace
  cases s.namespaces.find? ns with
  | none => exact SameRanks.refl s
  | some keyMap =>
      dsimp only
      split <;> exact ⟨by simp, by simp, by simp⟩

@[simp] theorem purgeNamespace_approxMemoryUsed (invalidates : Bool) (s : MemStoreManager)
    (ns : StdString) (now : TimePoint) :
    (s.purgeNamespace invalidates ns now).1.approxMemoryUsed = s.approxMemoryUsed := by
  unfold purgeNamespace
  cases s.namespaces.find? ns with
  | none => rfl
  | some keyMap =>
      dsimp only
      split <;> simp

theorem entryAt_purgeNamespace (invalidates : Bool) (s : MemStoreManager) (ns : StdString)
    (now : TimePoint) (ns' key' : StdString) :
    (s.purgeNamespace invalidates ns now).1.entryAt ns' key' =
      if ns' = ns then (s.entryAt ns' key').filter fun e => !e.isExpired now
      else s.entryAt ns' key' := by
  rw [entryAt, purgeNamespace_namespaces]
  exact NestedMap.at?_retainAt_eraseIf ..

/-! ## The prologue of the getters -/

theorem findLive_of_none {s : MemStoreManager} {ns key : StdString}
    (h : s.entryAt ns key = none) (releases : Bool) (now : TimePoint) :
    s.findLive releases ns key now = (s, none) := by
  rw [findLive, h]

theorem findLive_of_expired {s : MemStoreManager} {ns key : StdString} {e : StoreEntry}
    {now : TimePoint} (h : s.entryAt ns key = some e) (hexp : e.isExpired now = true)
    (releases : Bool) : s.findLive releases ns key now =
      ((if releases then s.release (getPayloadBytes e) else s).eraseEntry ns key, none) := by
  rw [findLive, h]
  simp [hexp]

theorem findLive_of_live {s : MemStoreManager} {ns key : StdString} {e : StoreEntry}
    {now : TimePoint} (h : s.entryAt ns key = some e) (hlive : e.isExpired now = false)
    (releases : Bool) : s.findLive releases ns key now = (s, some e) := by
  rw [findLive, h]
  simp [hlive]

/-- The live entry under a key. -/
def liveAt (s : MemStoreManager) (now : TimePoint) (ns key : StdString) : Option StoreEntry :=
  (s.entryAt ns key).filter fun e => !e.isExpired now

theorem liveAt_eq_some_iff {s : MemStoreManager} {now : TimePoint} {ns key : StdString}
    {e : StoreEntry} :
    s.liveAt now ns key = some e ↔ s.entryAt ns key = some e ∧ e.isExpired now = false := by
  simp [liveAt, Option.filter_eq_some_iff]

theorem liveAt_eq_none_iff {s : MemStoreManager} {now : TimePoint} {ns key : StdString} :
    s.liveAt now ns key = none ↔ ∀ e, s.entryAt ns key = some e → e.isExpired now = true := by
  simp [liveAt, Option.filter_eq_none_iff]

/-- A purge does not change what is alive, then or later. -/
theorem liveAt_purgeNamespace (invalidates : Bool) (s : MemStoreManager) (ns : StdString)
    {now later : TimePoint} (hle : now ≤ later) (ns' key' : StdString) :
    (s.purgeNamespace invalidates ns now).1.liveAt later ns' key' = s.liveAt later ns' key' := by
  rw [liveAt, entryAt_purgeNamespace]
  split
  · ext e
    rw [liveAt_eq_some_iff, Option.filter_eq_some_iff, Option.filter_eq_some_iff]
    constructor
    · rintro ⟨⟨hentry, _⟩, hlive⟩
      exact ⟨hentry, by simpa using hlive⟩
    · rintro ⟨hentry, hlive⟩
      exact ⟨⟨hentry, by simpa using Expiration.live_of_earlier hle hlive⟩, by simpa using hlive⟩
  · rfl

theorem findLive_result (releases : Bool) (s : MemStoreManager) (ns key : StdString)
    (now : TimePoint) : (s.findLive releases ns key now).2 = s.liveAt now ns key := by
  cases h : s.entryAt ns key with
  | none => rw [findLive_of_none h, liveAt, h]; rfl
  | some e =>
      cases hexp : e.isExpired now with
      | true => rw [findLive_of_expired h hexp, liveAt, h]; simp [Option.filter, hexp]
      | false => rw [findLive_of_live h hexp, liveAt, h]; simp [Option.filter, hexp]

end MemStoreManager

end MemStore
