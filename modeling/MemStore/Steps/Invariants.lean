import MemStore.Steps.Entries

/-!
# The invariant of all runs

`WellFormed` holds in every reachable manager (`wellFormed_of_reachable`):

* the limit on the keys of a namespace is positive, so that `RankSet` never
  leaves an empty board behind;
* no counter of a `MapCount` entry has reached zero;
* no namespace and no board is stored empty.

`World.call_change` is the form in which calls enter the proofs about runs.
-/

namespace MemStore

open MemStoreManager

/-! ## Limits -/

/-- The limits after a request. -/
def Request.limits (limits : Limits) : Request → Limits
  | .setLimits maxKeysPerNs maxArraySize maxStringLen maxNamespaces maxMemoryMb =>
      limits.setLimits maxKeysPerNs maxArraySize maxStringLen maxNamespaces maxMemoryMb
  | _ => limits

theorem ReadEffect.toLimits {latest : TimePoint} {s s' : MemStoreManager}
    (h : ReadEffect latest s s') : s'.toLimits = s.toLimits := by
  cases h with
  | recache | eraseRank => rfl
  | @erase ns key e releases hentry hexp =>
      rw [eraseEntry_toLimits]
      split <;> rfl
  | purge invalidates ns hle => exact (sameRanks_purgeNamespace invalidates s ns _).limits
  | purgeRank ns hle => exact (sameKeyValues_purgeBoard s ns _).limits

theorem Reads.toLimits {latest : TimePoint} {s s' : MemStoreManager} (h : Reads latest s s') :
    s'.toLimits = s.toLimits := by
  induction h with
  | refl => rfl
  | tail _ heffect ih => exact heffect.toLimits.trans ih

theorem sweepMapEnd_toLimits (s : MemStoreManager) (now : TimePoint) :
    (s.sweepMapEnd now).toLimits = s.toLimits := by
  obtain ⟨used, hsweep⟩ := sweepMapEnd_eq s now
  rw [hsweep]

theorem Change.toLimits {env : Env} {s s' : MemStoreManager} {req : Request}
    (h : Change env s req s') : s'.toLimits = req.limits s.toLimits := by
  cases h with
  | read hreads => exact hreads.toLimits
  | deleted => exact eraseEntry_toLimits ..
  | cleared ns => exact (sameRanks_clearNamespace s ns).limits
  | swept => exact sweepMapEnd_toLimits s env.first
  | _ => rfl

theorem MemStoreManager.Lacks.limits {s : MemStoreManager} {req : Request} (h : s.Lacks req)
    (limits : Limits) : req.limits limits = limits := by
  cases req with
  | setLimits => exact h.elim
  | _ => rfl

theorem maxKeysPerNamespace_pos_setLimits {limits : Limits}
    (h : 0 < limits.maxKeysPerNamespace) (a b c d e : SizeT) :
    0 < (limits.setLimits a b c d e).maxKeysPerNamespace := by
  simp only [Limits.setLimits]
  split
  · assumption
  · exact h

/-! ## Well-formed managers -/

/-- What holds between calls. -/
structure WellFormed (s : MemStoreManager) : Prop where
  maxKeys_pos : 0 < s.maxKeysPerNamespace
  sound : ∀ slot x, s.expirationAt slot = some x → x.Sound
  namespaces : NestedMap.NoEmpty s.namespaces
  ranks : NestedMap.NoEmpty s.ranks

theorem wellFormed_initial : WellFormed {} where
  maxKeys_pos := by decide
  sound := by
    intro slot x hx
    cases slot <;> cases hx
  namespaces := NestedMap.noEmpty_empty
  ranks := NestedMap.noEmpty_empty

/-- A read effect keeps namespaces and boards non-empty. -/
theorem ReadEffect.noEmpty {latest : TimePoint} {s s' : MemStoreManager}
    (h : ReadEffect latest s s') (hns : NestedMap.NoEmpty s.namespaces)
    (hranks : NestedMap.NoEmpty s.ranks) :
    NestedMap.NoEmpty s'.namespaces ∧ NestedMap.NoEmpty s'.ranks := by
  cases h with
  | recache => exact ⟨hns, hranks⟩
  | @erase ns key e releases hentry hexp =>
      rw [eraseEntry_namespaces, eraseEntry_ranks]
      cases releases with
      | true => exact ⟨NestedMap.noEmpty_retainAt hns ns _, hranks⟩
      | false => exact ⟨NestedMap.noEmpty_retainAt hns ns _, hranks⟩
  | purge invalidates ns hle =>
      rw [purgeNamespace_namespaces, (sameRanks_purgeNamespace invalidates s ns _).ranks]
      exact ⟨NestedMap.noEmpty_retainAt hns ns _, hranks⟩
  | @eraseRank ns key e hentry hexp =>
      rw [eraseRankEntry_ranks]
      exact ⟨hns, NestedMap.noEmpty_retainAt hranks ns _⟩
  | purgeRank ns hle =>
      rw [purgeBoard_ranks, (sameKeyValues_purgeBoard s ns _).namespaces]
      exact ⟨hns, NestedMap.noEmpty_retainAt hranks ns _⟩

theorem Reads.noEmpty {latest : TimePoint} {s s' : MemStoreManager} (h : Reads latest s s')
    (hns : NestedMap.NoEmpty s.namespaces) (hranks : NestedMap.NoEmpty s.ranks) :
    NestedMap.NoEmpty s'.namespaces ∧ NestedMap.NoEmpty s'.ranks := by
  induction h with
  | refl => exact ⟨hns, hranks⟩
  | tail _ heffect ih => exact heffect.noEmpty ih.1 ih.2

theorem noEmpty_clearNamespace {s : MemStoreManager} (hns : NestedMap.NoEmpty s.namespaces)
    (ns : StdString) : NestedMap.NoEmpty (s.clearNamespace ns).1.namespaces := by
  cases hfind : s.namespaces.find? ns with
  | none =>
      rw [clearNamespace_of_none hfind]
      exact hns
  | some keyMap =>
      obtain ⟨used, hclear⟩ := clearNamespace_of_some hfind
      rw [hclear]
      exact NestedMap.noEmpty_erase hns ns

theorem Change.noEmpty {env : Env} {s s' : MemStoreManager} {req : Request}
    (h : Change env s req s') (hns : NestedMap.NoEmpty s.namespaces)
    (hranks : NestedMap.NoEmpty s.ranks) :
    NestedMap.NoEmpty s'.namespaces ∧ NestedMap.NoEmpty s'.ranks := by
  cases h with
  | read hreads => exact hreads.noEmpty hns hranks
  | same | setLimits | refused => exact ⟨hns, hranks⟩
  | touched | wrote | incAbsent => exact ⟨NestedMap.noEmpty_upsertAt hns _ _ _ _, hranks⟩
  | incExpired | incLive | reexpired => exact ⟨NestedMap.noEmpty_modifyAt hns _ _ _, hranks⟩
  | deleted ns key =>
      rw [eraseEntry_namespaces, eraseEntry_ranks]
      exact ⟨NestedMap.noEmpty_retainAt hns ns _, hranks⟩
  | cleared ns =>
      rw [(sameRanks_clearNamespace s ns).ranks]
      exact ⟨noEmpty_clearNamespace hns ns, hranks⟩
  | rankWrote | rankIncAbsent => exact ⟨hns, NestedMap.noEmpty_upsertAt hranks _ _ _ _⟩
  | rankIncExpired | rankIncLive => exact ⟨hns, NestedMap.noEmpty_modifyAt hranks _ _ _⟩
  | rankDeleted ns key =>
      rw [eraseRankEntry_ranks]
      exact ⟨hns, NestedMap.noEmpty_retainAt hranks ns _⟩
  | rankCleared ns => exact ⟨hns, NestedMap.noEmpty_erase hranks ns⟩
  | swept => exact ⟨NestedMap.noEmpty_retainAll _ _, NestedMap.noEmpty_retainAll _ _⟩
  | wiped => exact ⟨NestedMap.noEmpty_empty, NestedMap.noEmpty_empty⟩

theorem Change.wellFormed {env : Env} {s s' : MemStoreManager} {req : Request}
    (h : Change env s req s') (hs : WellFormed s) : WellFormed s' where
  maxKeys_pos := by
    rw [h.toLimits]
    cases req with
    | setLimits a b c d e => exact maxKeysPerNamespace_pos_setLimits hs.maxKeys_pos a b c d e
    | _ => exact hs.maxKeys_pos
  sound := fun slot => (h.slotStep slot).sound (hs.sound slot)
  namespaces := (h.noEmpty hs.namespaces hs.ranks).1
  ranks := (h.noEmpty hs.namespaces hs.ranks).2

/-! ## Calls and runs -/

variable {alg : StdAlgorithm RankPair}

/-- A call in a run is a change, and the clock goes from its first to its last reading. -/
theorem World.call_change {w w' : World} {c : Call} {reply : Reply}
    (hw : WellFormed w.store) (h : w.call alg c = some (w', reply)) :
    w.clock ≤ c.env.first ∧ w'.clock = c.env.third ∧
      Change c.env w.store (c.op.outcome w.store.toLimits reply) w'.store := by
  obtain ⟨hclock, hexec, hclock'⟩ := World.call_eq_some_iff.mp h
  exact ⟨hclock, hclock', exec_change hw.maxKeys_pos hexec⟩

theorem World.wellFormed_call {w w' : World} {c : Call} {reply : Reply}
    (hw : WellFormed w.store) (h : w.call alg c = some (w', reply)) : WellFormed w'.store :=
  (World.call_change hw h).2.2.wellFormed hw

theorem World.clock_le_call {w w' : World} {c : Call} {reply : Reply}
    (h : w.call alg c = some (w', reply)) : w.clock ≤ w'.clock := by
  obtain ⟨hclock, _, hclock'⟩ := World.call_eq_some_iff.mp h
  rw [hclock']
  exact hclock.trans c.env.first_le_third

theorem wellFormed_of_run {guard : World → Call → Reply → Prop} {w w' : World}
    {steps : List (Call × Reply)} (h : Machine.Run (World.call alg) guard w steps w')
    (hw : WellFormed w.store) : WellFormed w'.store :=
  h.invariant (fun w => WellFormed w.store)
    (fun _ _ _ _ _ hs hcall => World.wellFormed_call hs hcall) hw

theorem clock_le_of_run {guard : World → Call → Reply → Prop} {w w' : World}
    {steps : List (Call × Reply)} (h : Machine.Run (World.call alg) guard w steps w') :
    w.clock ≤ w'.clock :=
  h.invariant (fun w' => w.clock ≤ w'.clock)
    (fun _ _ _ _ _ hs hcall => hs.trans (World.clock_le_call hcall)) le_rfl

theorem wellFormed_of_reachable {w : World} (h : Reachable alg w) : WellFormed w.store := by
  obtain ⟨steps, t, hrun⟩ := h
  exact wellFormed_of_run hrun wellFormed_initial

end MemStore
