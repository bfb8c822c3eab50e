import MemStore.Steps.Invariants

/-!
# Writes that fail

A write that returns false leaves the manager as it was, with one exception: a
setter with a payload evaluates `m_Namespaces[ns][key]` before it tests the
quota, so a rejected one leaves an entry without a value under a key that was
not stored (`LeavesGhost`).  `failed_write_unchanged_iff` says that this is the
only way in which a failed write shows.
-/

namespace MemStore

open MemStoreManager

/-- The call passes the key limit for a key that is not stored, and is then
rejected by the quota. -/
def MemStoreManager.LeavesGhost (s : MemStoreManager) (op : Op) (ns key : StdString) : Prop :=
  ∃ v policy extra, op.request s.toLimits = .write ns key v policy extra ∧ ¬ v.IsNumber ∧
    s.entryAt ns key = none ∧ s.checkNamespaceKeyLimit ns key = true ∧
      s.quotaExceeded v.bytes 0 = true

/-- Evaluating `m_Namespaces[ns][key]` for a stored key changes nothing. -/
theorem touch_of_stored {s : MemStoreManager} {ns key : StdString} {e : StoreEntry}
    (h : s.entryAt ns key = some e) (layout : Layout) : s.touch layout ns key = s := by
  have hsame : NestedMap.upsertAt layout layout s.namespaces ns key {} (fun e => e) =
      s.namespaces := by
    rw [NestedMap.upsertAt, UnorderedMap.upsert_of_mem
      (UnorderedMap.mem_keys_of_find? (NestedMap.find?_of_at? h))]
    refine UnorderedMap.filterMap_eq_self fun ns' keyMap hfind => ?_
    by_cases hns : ns' = ns
    · subst hns
      have hkey : keyMap.find? key = some e := by
        rw [← NestedMap.inner_of_find? hfind]
        exact h
      rw [if_pos rfl]
      exact congrArg some (UnorderedMap.upsert_id_of_find? hkey)
    · rw [if_neg hns]
  rw [touch, hsame]

theorem getPayloadBytes_getD_of_none {s : MemStoreManager} {ns key : StdString}
    (h : s.entryAt ns key = none) : getPayloadBytes ((s.entryAt ns key).getD {}) = 0 := by
  rw [h]
  rfl

/-- What a rejected setter leaves behind. -/
theorem Change.of_reject {env : Env} {s s' : MemStoreManager} {ns key : StdString} {v : Value}
    (h : Change env s (.reject ns key v) s') {op : Op} {policy : ExpirePolicy} {extra : Int32}
    (hrequest : op.request s.toLimits = .write ns key v policy extra)
    (hpayload : ¬ v.IsNumber) :
    s' = s ∧ ¬ s.LeavesGhost op ns key ∨
      s' = s.touch env.layout ns key ∧ s.LeavesGhost op ns key := by
  have hsame : ∀ {v' policy' extra'}, op.request s.toLimits = .write ns key v' policy' extra' →
      v' = v := by
    intro v' policy' extra' hrequest'
    rw [hrequest] at hrequest'
    cases hrequest'
    rfl
  cases h with
  | refused _ _ _ hlimit =>
      refine .inl ⟨rfl, ?_⟩
      rintro ⟨_, _, _, _, _, _, hlimit', _⟩
      rw [hlimit] at hlimit'
      cases hlimit'
  | touched _ _ _ hlimit hquota =>
      cases hentry : s.entryAt ns key with
      | some e =>
          refine .inl ⟨touch_of_stored hentry _, ?_⟩
          rintro ⟨_, _, _, _, _, hnone, _⟩
          rw [hentry] at hnone
          cases hnone
      | none =>
          rw [getPayloadBytes_getD_of_none hentry] at hquota
          exact .inr ⟨rfl, v, policy, extra, hrequest, hpayload, hentry, hlimit, hquota⟩

section Failed

variable {alg : StdAlgorithm RankPair} {s s' : MemStoreManager} {env : Env} {wr : Write}
  {reply : Reply}

/-- A failed write changes nothing, or leaves an entry behind where there was none. -/
theorem failed_write (hs : WellFormed s) (hexec : exec alg s env (.write wr) = some (s', reply))
    (hfail : reply.succeeded = false) :
    (s' = s ∧ ∀ ns key, ¬ s.LeavesGhost (.write wr) ns key) ∨
      ∃ ns key, s.LeavesGhost (.write wr) ns key ∧ s' = s.touch env.layout ns key := by
  have hchange := exec_change hs.maxKeys_pos hexec
  -- a setter with a payload is rejected; all other failures come to nothing
  cases hrequest : (Op.write wr).outcome s.toLimits reply with
  | reject ns key v =>
      obtain ⟨hpayload, policy, extra, hwrite⟩ := outcome_eq_reject hrequest
      rw [hrequest] at hchange
      rcases hchange.of_reject hwrite hpayload with ⟨hsame, hghost⟩ | ⟨htouch, hghost⟩
      · refine .inl ⟨hsame, fun ns' key' hghost' => ?_⟩
        obtain ⟨_, _, _, hwrite', _⟩ := id hghost'
        rw [hwrite] at hwrite'
        cases hwrite'
        exact hghost hghost'
      · exact .inr ⟨ns, key, hghost, htouch⟩
  | pass =>
      rw [hrequest] at hchange
      refine .inl ⟨by cases hchange; rfl, fun ns key hghost => ?_⟩
      obtain ⟨v, policy, extra, hwrite, hpayload, _⟩ := hghost
      rw [Op.outcome, hfail, if_neg Bool.false_ne_true,
        refusal_of_request hwrite hpayload] at hrequest
      cases hrequest
  | _ =>
      rw [Op.outcome, hfail, if_neg Bool.false_ne_true] at hrequest
      cases wr <;> cases hrequest

/-- A failed write leaves namespaces, leaderboards, used memory and sequence
counter unchanged, and with them the whole manager, if and only if it is not a
setter with a payload that the quota rejects for a key that is not stored. -/
theorem failed_write_unchanged_iff {w w' : World} {c : Call} (hreach : Reachable alg w)
    (hcall : w.call alg c = some (w', reply)) (hop : c.op = .write wr)
    (hfail : reply.succeeded = false) :
    ((w'.store.namespaces = w.store.namespaces ∧ w'.store.ranks = w.store.ranks ∧
        w'.store.approxMemoryUsed = w.store.approxMemoryUsed ∧
        w'.store.rankSequenceCounter = w.store.rankSequenceCounter) ↔
      ∀ ns key, ¬ w.store.LeavesGhost c.op ns key) ∧
    ((∀ ns key, ¬ w.store.LeavesGhost c.op ns key) → w'.store = w.store) := by
  obtain ⟨_, hexec, _⟩ := World.call_eq_some_iff.mp hcall
  rw [hop] at hexec ⊢
  rcases failed_write (wellFormed_of_reachable hreach) hexec hfail with ⟨hsame, hghost⟩ |
    ⟨ns, key, hghost, htouch⟩
  · rw [hsame]
    exact ⟨iff_of_true ⟨rfl, rfl, rfl, rfl⟩ hghost, fun _ => rfl⟩
  · refine ⟨iff_of_false ?_ fun h => h ns key hghost, fun h => absurd hghost (h ns key)⟩
    rintro ⟨hnamespaces, _⟩
    obtain ⟨_, _, _, _, _, hnone, _⟩ := hghost
    -- the entry left behind tells the managers apart
    have hstored : w'.store.entryAt ns key = some {} := by
      rw [htouch, entryAt_touch, if_pos ⟨rfl, rfl⟩, hnone]
      rfl
    rw [entryAt, hnamespaces, ← entryAt, hnone] at hstored
    cases hstored

end Failed

/-- An increment of a string fails and changes nothing. -/
theorem failed_write_unchanged_iff_mismatch : ∃ w w' : World,
    RunFromStart (StdAlgorithm.insertionSort (α := RankPair)) Machine.anyStep
      [(⟨.write (.setString [1] [2] [65] .persistent 0), .at 0 fun _ => 0⟩, .flag true)] w ∧
    w.call (StdAlgorithm.insertionSort (α := RankPair))
      ⟨.write (.incInt [1] [2] 5 .persistent 0), .at 1 fun _ => 0⟩ = some (w', .cell none) ∧
    w'.store = w.store := by
  have hrun : ∃ w w',
      RunFromStart (StdAlgorithm.insertionSort (α := RankPair)) Machine.anyStep
        [(⟨.write (.setString [1] [2] [65] .persistent 0), .at 0 fun _ => 0⟩, .flag true)] w ∧
      w.call (StdAlgorithm.insertionSort (α := RankPair))
        ⟨.write (.incInt [1] [2] 5 .persistent 0), .at 1 fun _ => 0⟩ = some (w', .cell none) :=
    ⟨⟨_, 0⟩, ⟨_, 1⟩, ⟨0, run_cons trivial le_rfl rfl (.nil _)⟩,
      World.call_eq_some_iff.mpr ⟨by decide, rfl, rfl⟩⟩
  obtain ⟨w, w', hrun, hcall⟩ := hrun
  refine ⟨w, w', hrun, hcall, (failed_write_unchanged_iff ⟨_, hrun⟩ hcall rfl rfl).2 ?_⟩
  rintro ns key ⟨v, policy, extra, hrequest, _⟩
  cases hrequest

/-- A manager with a quota of one megabyte and room for longer strings. -/
private def oneMegabyte : MemStoreManager :=
  { toLimits := Limits.setLimits {} 0 0 2000000 0 1 }

private theorem oneMegabyte_setString :
    (oneMegabyte.setString (fun _ => 0) [1] [2] (List.replicate 1048577 65) .persistent 0 0) =
      (oneMegabyte.touch (fun _ => 0) [1] [2], false) := by
  have htake : (List.replicate 1048577 (65 : UInt8)).take oneMegabyte.maxStringLength.toNat =
      List.replicate 1048577 65 :=
    List.take_of_length_le (by rw [List.length_replicate]; decide)
  rw [setString_eq, htake]
  have hbytes : (Value.string (List.replicate 1048577 65)).bytes = 1048577 := by
    rw [Value.bytes, List.length_replicate]
    rfl
  have hquota : oneMegabyte.quotaExceeded 1048577
      (getPayloadBytes ((oneMegabyte.entryAt [1] [2]).getD {})) = true := by decide
  have hlimit : oneMegabyte.checkNamespaceKeyLimit [1] [2] = true := by decide
  rw [storePayload, hbytes, hlimit, hquota]
  rfl

/-- One byte more than the quota, set under a key that is not stored, is refused
and leaves a namespace behind. -/
theorem failed_write_changes_namespaces : ¬ ∀ (w w' : World) (c : Call) (wr : Write)
    (reply : Reply), Reachable (StdAlgorithm.insertionSort (α := RankPair)) w →
      w.call (StdAlgorithm.insertionSort (α := RankPair)) c = some (w', reply) →
      c.op = .write wr → reply.succeeded = false → w'.store.namespaces = w.store.namespaces := by
  intro h
  have hreach : Reachable (StdAlgorithm.insertionSort (α := RankPair)) ⟨oneMegabyte, 0⟩ :=
    ⟨[(⟨.setLimits 0 0 2000000 0 1, .at 0 fun _ => 0⟩, .done)], 0,
      run_cons trivial le_rfl rfl (.nil _)⟩
  have hexec : exec (StdAlgorithm.insertionSort (α := RankPair)) oneMegabyte
      (.at 0 fun _ => 0)
      (.write (.setString [1] [2] (List.replicate 1048577 65) .persistent 0)) =
        some (oneMegabyte.touch (fun _ => 0) [1] [2], .flag false) := by
    have hset := oneMegabyte_setString
    simp only [exec, Write.run, Env.at, hset]
  have hsame := h ⟨oneMegabyte, 0⟩ ⟨_, 0⟩ ⟨_, .at 0 fun _ => 0⟩ _ _ hreach
    (World.call_eq_some_iff.mpr ⟨le_rfl, hexec, rfl⟩) rfl rfl
  have hfind := congrArg (fun m => (m.find? [1]).isSome) hsame
  revert hfind
  decide

end MemStore
