import MemStore.Memory.Capacity

/-!
# No empty containers, bounded growth

Namespaces and boards come into being through `operator[]` and disappear where
an entry is erased.  That none is ever stored empty is part of `WellFormed`.
What remains is their sizes: only the setters, the increments of an absent key
and `RankSet` insert, and they do so after a test of the limits
(`growsWithin_upsertAt`); everything else makes containers smaller or leaves
them alone (`NestedMap.NoLarger`).
-/

namespace MemStore

open MemStoreManager

variable {ε : Type}

/-! ## Sizes and limits -/

/-- From `m` to `m'` no container has grown beyond its limit. -/
structure GrowsWithin (limits : Limits) (m' m : NestedMap StdString StdString ε) : Prop where
  size_le : m'.size ≤ max m.size limits.maxNamespaces.toNat
  inner_size_le : ∀ ns, (NestedMap.inner m' ns).size ≤
    max (NestedMap.inner m ns).size limits.maxKeysPerNamespace.toNat

/-- The containers are not empty and not above their limits. -/
structure WithinLimits (limits : Limits) (m : NestedMap StdString StdString ε) : Prop where
  size_le : m.size ≤ limits.maxNamespaces.toNat
  inner_size : ∀ ns i, m.find? ns = some i →
    1 ≤ i.size ∧ i.size ≤ limits.maxKeysPerNamespace.toNat

theorem growsWithin_of_noLarger (limits : Limits) {m' m : NestedMap StdString StdString ε}
    (h : NestedMap.NoLarger m' m) : GrowsWithin limits m' m :=
  ⟨h.size_le.trans (le_max_left _ _), fun ns => (h.inner_size_le ns).trans (le_max_left _ _)⟩

/-- An insertion after the test of the limits. -/
theorem growsWithin_upsertAt {limits : Limits} (hpos : 0 < limits.maxKeysPerNamespace)
    {m : NestedMap StdString StdString ε} {ns key : StdString}
    (hlimit : limitTest limits m ns key = true) (layout : Layout) (fresh : ε) (f : ε → ε) :
    GrowsWithin limits (NestedMap.upsertAt layout layout m ns key fresh f) m := by
  obtain ⟨hsize, hinner⟩ := NestedMap.size_upsertAt layout layout m ns key fresh f
  have hpos' : 1 ≤ limits.maxKeysPerNamespace.toNat := UInt32.lt_iff_toNat_lt.mp hpos
  unfold limitTest at hlimit
  cases hfind : m.find? ns with
  | none =>
      rw [hfind, decide_eq_true_eq] at hlimit
      refine ⟨?_, fun ns' => ?_⟩
      · rw [hsize, hfind]
        exact (Nat.succ_le_of_lt hlimit).trans (le_max_right _ _)
      · rw [hinner]
        split
        · next hhere =>
            -- the namespace is new and gets its first entry
            have hzero : (NestedMap.inner m ns').size = 0 := by
              rw [hhere.1, NestedMap.inner_of_find?_none hfind]
              rfl
            omega
        · exact le_max_left _ _
  | some i =>
      rw [hfind] at hlimit
      refine ⟨?_, fun ns' => ?_⟩
      · rw [hsize, hfind]
        exact le_max_left _ _
      · rw [hinner]
        split
        · next hhere =>
            obtain ⟨rfl, habsent⟩ := hhere
            rw [NestedMap.at?, NestedMap.inner_of_find? hfind] at habsent
            rw [NestedMap.inner_of_find? hfind]
            simp only [habsent, decide_eq_true_eq] at hlimit
            omega
        · exact le_max_left _ _

/-! ## One call -/

theorem ReadEffect.noLarger {latest : TimePoint} {s s' : MemStoreManager}
    (h : ReadEffect latest s s') :
    NestedMap.NoLarger s'.namespaces s.namespaces ∧ NestedMap.NoLarger s'.ranks s.ranks := by
  cases h with
  | recache => exact ⟨.refl _, .refl _⟩
  | @erase ns key e releases hentry hexp =>
      rw [eraseEntry_namespaces, eraseEntry_ranks]
      cases releases with
      | true => exact ⟨NestedMap.noLarger_retainAt _ ns _, .refl _⟩
      | false => exact ⟨NestedMap.noLarger_retainAt _ ns _, .refl _⟩
  | purge invalidates ns hle =>
      rw [purgeNamespace_namespaces, (sameRanks_purgeNamespace invalidates s ns _).ranks]
      exact ⟨NestedMap.noLarger_retainAt _ ns _, .refl _⟩
  | @eraseRank ns key e hentry hexp =>
      rw [eraseRankEntry_ranks]
      exact ⟨.refl _, NestedMap.noLarger_retainAt _ ns _⟩
  | purgeRank ns hle =>
      rw [purgeBoard_ranks, (sameKeyValues_purgeBoard s ns _).namespaces]
      exact ⟨.refl _, NestedMap.noLarger_retainAt _ ns _⟩

theorem Reads.noLarger {latest : TimePoint} {s s' : MemStoreManager} (h : Reads latest s s') :
    NestedMap.NoLarger s'.namespaces s.namespaces ∧ NestedMap.NoLarger s'.ranks s.ranks := by
  induction h with
  | refl => exact ⟨.refl _, .refl _⟩
  | tail _ heffect ih =>
      exact ⟨heffect.noLarger.1.trans ih.1, heffect.noLarger.2.trans ih.2⟩

theorem noLarger_clearNamespace (s : MemStoreManager) (ns : StdString) :
    NestedMap.NoLarger (s.clearNamespace ns).1.namespaces s.namespaces := by
  cases hfind : s.namespaces.find? ns with
  | none =>
      rw [clearNamespace_of_none hfind]
      exact .refl _
  | some keyMap =>
      obtain ⟨used, hclear⟩ := clearNamespace_of_some hfind
      rw [hclear]
      exact NestedMap.noLarger_erase _ ns

theorem Change.growsWithin {env : Env} {s s' : MemStoreManager} {req : Request}
    (h : Change env s req s') (hpos : 0 < s.maxKeysPerNamespace) :
    GrowsWithin s.toLimits s'.namespaces s.namespaces ∧
      GrowsWithin s.toLimits s'.ranks s.ranks := by
  have hns : ∀ {m : NestedMap StdString StdString StoreEntry},
      NestedMap.NoLarger m s.namespaces → GrowsWithin s.toLimits m s.namespaces :=
    growsWithin_of_noLarger _
  have hranks : ∀ {m : NestedMap StdString StdString RankEntry},
      NestedMap.NoLarger m s.ranks → GrowsWithin s.toLimits m s.ranks :=
    growsWithin_of_noLarger _
  cases h with
  | read hreads => exact ⟨hns hreads.noLarger.1, hranks hreads.noLarger.2⟩
  | same | setLimits | refused => exact ⟨hns (.refl _), hranks (.refl _)⟩
  | touched ns key v hlimit | wrote ns key v policy extra hlimit
  | incAbsent ns key delta policy extra hnumber habsent hlimit =>
      rw [checkNamespaceKeyLimit_eq] at hlimit
      exact ⟨growsWithin_upsertAt hpos hlimit _ _ _, hranks (.refl _)⟩
  | incExpired | incLive | reexpired =>
      exact ⟨hns (NestedMap.noLarger_modifyAt _ _ _ _), hranks (.refl _)⟩
  | deleted ns key =>
      rw [eraseEntry_namespaces, eraseEntry_ranks]
      exact ⟨hns (NestedMap.noLarger_retainAt _ ns _), hranks (.refl _)⟩
  | cleared ns =>
      rw [(sameRanks_clearNamespace s ns).ranks]
      exact ⟨hns (noLarger_clearNamespace s ns), hranks (.refl _)⟩
  | rankWrote ns key score policy extra hlimit
  | rankIncAbsent ns key delta policy extra habsent hlimit =>
      rw [checkRankLimit_eq] at hlimit
      exact ⟨hns (.refl _), growsWithin_upsertAt hpos hlimit _ _ _⟩
  | rankIncExpired | rankIncLive =>
      exact ⟨hns (.refl _), hranks (NestedMap.noLarger_modifyAt _ _ _ _)⟩
  | rankDeleted ns key =>
      rw [eraseRankEntry_ranks]
      exact ⟨hns (.refl _), hranks (NestedMap.noLarger_retainAt _ ns _)⟩
  | rankCleared ns => exact ⟨hns (.refl _), hranks (NestedMap.noLarger_erase _ ns)⟩
  | swept =>
      obtain ⟨used, hsweep⟩ := sweepMapEnd_eq s env.first
      rw [hsweep]
      exact ⟨hns (NestedMap.noLarger_retainAll _ _), hranks (NestedMap.noLarger_retainAll _ _)⟩
  | wiped => exact ⟨hns (NestedMap.noLarger_empty _), hranks (NestedMap.noLarger_empty _)⟩

/-- The same, measured by the limits after the call: `SetLimits` inserts nothing. -/
theorem Change.growsWithin_after {env : Env} {s s' : MemStoreManager} {req : Request}
    (h : Change env s req s') (hpos : 0 < s.maxKeysPerNamespace) :
    GrowsWithin s'.toLimits s'.namespaces s.namespaces ∧
      GrowsWithin s'.toLimits s'.ranks s.ranks := by
  rw [h.toLimits]
  have hgrows := h.growsWithin hpos
  cases req with
  | setLimits a b c d e =>
      cases h
      exact ⟨growsWithin_of_noLarger _ (.refl _), growsWithin_of_noLarger _ (.refl _)⟩
  | _ => exact hgrows

/-! ## Runs -/

/-- A call of `SetLimits` lowers neither limit on the containers. -/
def RaisesLimits (w : World) (c : Call) (_ : Reply) : Prop :=
  ∀ maxKeysPerNs maxArraySize maxStringLen maxNamespaces maxMemoryMb,
    c.op = .setLimits maxKeysPerNs maxArraySize maxStringLen maxNamespaces maxMemoryMb →
      w.store.maxKeysPerNamespace ≤ (w.store.toLimits.setLimits maxKeysPerNs maxArraySize
        maxStringLen maxNamespaces maxMemoryMb).maxKeysPerNamespace ∧
      w.store.maxNamespaces ≤ (w.store.toLimits.setLimits maxKeysPerNs maxArraySize
        maxStringLen maxNamespaces maxMemoryMb).maxNamespaces

/-- Sizes below the limits stay so when containers grow within limits that are not lowered. -/
theorem GrowsWithin.bounded {limits limits' : Limits} {m m' : NestedMap StdString StdString ε}
    (h : GrowsWithin limits' m' m)
    (hkeys : limits.maxKeysPerNamespace ≤ limits'.maxKeysPerNamespace)
    (hnamespaces : limits.maxNamespaces ≤ limits'.maxNamespaces)
    (hm : m.size ≤ limits.maxNamespaces.toNat ∧
      ∀ ns, (NestedMap.inner m ns).size ≤ limits.maxKeysPerNamespace.toNat) :
    m'.size ≤ limits'.maxNamespaces.toNat ∧
      ∀ ns, (NestedMap.inner m' ns).size ≤ limits'.maxKeysPerNamespace.toNat := by
  have hkeys' := UInt32.le_iff_toNat_le.mp hkeys
  have hnamespaces' := UInt32.le_iff_toNat_le.mp hnamespaces
  constructor
  · exact h.size_le.trans (max_le (hm.1.trans hnamespaces') le_rfl)
  · intro ns
    exact (h.inner_size_le ns).trans (max_le ((hm.2 ns).trans hkeys') le_rfl)

/-- The sizes of all containers, against the limits in force. -/
def BoundedSizes (s : MemStoreManager) : Prop :=
  (s.namespaces.size ≤ s.maxNamespaces.toNat ∧
    ∀ ns, (NestedMap.inner s.namespaces ns).size ≤ s.maxKeysPerNamespace.toNat) ∧
  (s.ranks.size ≤ s.maxNamespaces.toNat ∧
    ∀ ns, (NestedMap.inner s.ranks ns).size ≤ s.maxKeysPerNamespace.toNat)

variable {alg : StdAlgorithm RankPair}

theorem BoundedSizes.call {w w' : World} {c : Call} {reply : Reply}
    (hguard : RaisesLimits w c reply) (hw : WellFormed w.store) (h : BoundedSizes w.store)
    (hcall : w.call alg c = some (w', reply)) : BoundedSizes w'.store := by
  obtain ⟨_, _, hchange⟩ := World.call_change hw hcall
  have hraised : w.store.maxKeysPerNamespace ≤ w'.store.maxKeysPerNamespace ∧
      w.store.maxNamespaces ≤ w'.store.maxNamespaces := by
    rw [hchange.toLimits]
    cases hrequest : c.op.outcome w.store.toLimits reply with
    | setLimits a b d e f => exact hguard a b d e f (outcome_eq_setLimits hrequest)
    | _ => exact ⟨UInt32.le_refl _, UInt32.le_refl _⟩
  obtain ⟨hns, hranks⟩ := hchange.growsWithin_after hw.maxKeys_pos
  exact ⟨hns.bounded hraised.1 hraised.2 h.1, hranks.bounded hraised.1 hraised.2 h.2⟩

theorem boundedSizes_of_run {steps : List (Call × Reply)} {w : World}
    (h : RunFromStart alg RaisesLimits steps w) : BoundedSizes w.store := by
  obtain ⟨t, hrun⟩ := h
  have hempty : BoundedSizes {} :=
    ⟨⟨Nat.zero_le _, fun _ => Nat.zero_le _⟩, ⟨Nat.zero_le _, fun _ => Nat.zero_le _⟩⟩
  refine (hrun.invariant (fun w => WellFormed w.store ∧ BoundedSizes w.store) ?_
    ⟨wellFormed_initial, hempty⟩).2
  rintro w c reply w' hguard ⟨hw, hbounded⟩ hcall
  exact ⟨World.wellFormed_call hw hcall, hbounded.call hguard hw hcall⟩

/-- Every stored container is within the limits. -/
theorem withinLimits_of_bounded {limits : Limits} {m : NestedMap StdString StdString ε}
    (hne : NestedMap.NoEmpty m) (hm : m.size ≤ limits.maxNamespaces.toNat ∧
      ∀ ns, (NestedMap.inner m ns).size ≤ limits.maxKeysPerNamespace.toNat) :
    WithinLimits limits m := by
  refine ⟨hm.1, fun ns i hfind => ⟨UnorderedMap.size_pos_iff.mpr (hne ns i hfind), ?_⟩⟩
  have hle := hm.2 ns
  rwa [NestedMap.inner_of_find? hfind] at hle

/-- **No empty containers and bounded growth.**

* In every reachable manager no namespace and no board is empty.
* No call on one takes the number of namespaces or of boards, or the number of
  entries in one of them, above the larger of its limit and the number before,
  by the limits before the call as well as by those after it.
* In a run that never lowers the limits, every namespace and board has between
  one entry and the limit, and there are no more of either than their limit. -/
theorem containers_bounded (alg : StdAlgorithm RankPair) :
    (∀ w, Reachable alg w →
      NestedMap.NoEmpty w.store.namespaces ∧ NestedMap.NoEmpty w.store.ranks) ∧
    (∀ w c w' reply, Reachable alg w → w.call alg c = some (w', reply) →
      ∀ limits, limits = w.store.toLimits ∨ limits = w'.store.toLimits →
        GrowsWithin limits w'.store.namespaces w.store.namespaces ∧
          GrowsWithin limits w'.store.ranks w.store.ranks) ∧
    ∀ steps w, RunFromStart alg RaisesLimits steps w →
      WithinLimits w.store.toLimits w.store.namespaces ∧
        WithinLimits w.store.toLimits w.store.ranks := by
  refine ⟨?_, ?_, ?_⟩
  · intro w hreach
    have hw := wellFormed_of_reachable hreach
    exact ⟨hw.namespaces, hw.ranks⟩
  · intro w c w' reply hreach hcall limits hlimits
    have hw := wellFormed_of_reachable hreach
    obtain ⟨_, _, hchange⟩ := World.call_change hw hcall
    rcases hlimits with rfl | rfl
    · exact hchange.growsWithin hw.maxKeys_pos
    · exact hchange.growsWithin_after hw.maxKeys_pos
  · intro steps w hrun
    have hbounded := boundedSizes_of_run hrun
    obtain ⟨t, hrun⟩ := hrun
    have hw := wellFormed_of_run hrun wellFormed_initial
    exact ⟨withinLimits_of_bounded hw.namespaces hbounded.1,
      withinLimits_of_bounded hw.ranks hbounded.2⟩

end MemStore
