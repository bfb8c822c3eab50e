import MemStore.Steps.Invariants

/-!
# What the limits on keys and namespaces count

A new key needs room: in its namespace, or among the namespaces if it is the
first of its own.  `HasRoom` is this rule, for entries of which a predicate says
whether they count.

The methods count every entry that is stored (`write_succeeds`,
`rankSet_succeeds`), also the expired ones that no call has come across yet.
Purging is lazy by design, and the limits bound what is held in memory; so a
write may be refused, or let through, because of entries that no read reports.
Where nothing that is stored has expired, counting stored and counting live
entries is the same (`hasRoom_congr`).
-/

namespace MemStore

open MemStoreManager

variable {ε : Type}

/-! ## The rule -/

/-- The number of entries in a namespace that count. -/
def heldKeys (m : NestedMap StdString StdString ε) (counts : ε → Bool) (ns : StdString) : ℕ :=
  (NestedMap.inner m ns).entries.countP fun pair => counts pair.2

/-- The number of namespaces with an entry that counts. -/
def heldNamespaces (m : NestedMap StdString StdString ε) (counts : ε → Bool) : ℕ :=
  m.entries.countP fun pair => pair.2.entries.any fun entry => counts entry.2

/-- A key may be written: its entry counts already, or its namespace has an entry
that counts and room for one more, or it has none and there is room for one more
namespace. -/
def HasRoom (limits : Limits) (m : NestedMap StdString StdString ε) (counts : ε → Bool)
    (ns key : StdString) : Prop :=
  (NestedMap.at? m ns key).any counts = true ∨
    0 < heldKeys m counts ns ∧ heldKeys m counts ns < limits.maxKeysPerNamespace.toNat ∨
    heldKeys m counts ns = 0 ∧ heldNamespaces m counts < limits.maxNamespaces.toNat

/-- Two ways of counting that agree on what is stored. -/
theorem hasRoom_congr {limits : Limits} {m : NestedMap StdString StdString ε}
    {counts counts' : ε → Bool}
    (h : ∀ ns key e, NestedMap.at? m ns key = some e → counts e = counts' e)
    (ns key : StdString) : HasRoom limits m counts ns key ↔ HasRoom limits m counts' ns key := by
  have hany : (NestedMap.at? m ns key).any counts = (NestedMap.at? m ns key).any counts' := by
    cases hentry : NestedMap.at? m ns key with
    | none => rfl
    | some e => exact h ns key e hentry
  have hkeys : heldKeys m counts ns = heldKeys m counts' ns := by
    refine List.countP_congr fun pair hpair => ?_
    rw [h ns pair.1 pair.2 (UnorderedMap.find?_eq_some_iff.mpr hpair)]
  have hnamespaces : heldNamespaces m counts = heldNamespaces m counts' := by
    refine List.countP_congr fun pair hpair => ?_
    have hfind := UnorderedMap.find?_eq_some_iff.mpr hpair
    simp only [List.any_eq_true]
    have hentry : ∀ entry ∈ pair.2.entries, counts entry.2 = counts' entry.2 := by
      intro entry hmem
      apply h pair.1 entry.1 entry.2
      rw [NestedMap.at?, NestedMap.inner_of_find? hfind]
      exact UnorderedMap.find?_eq_some_iff.mpr hmem
    constructor
    · rintro ⟨entry, hmem, hcounts⟩
      exact ⟨entry, hmem, (hentry entry hmem).symm.trans hcounts⟩
    · rintro ⟨entry, hmem, hcounts⟩
      exact ⟨entry, hmem, (hentry entry hmem).trans hcounts⟩
  rw [HasRoom, HasRoom, hany, hkeys, hnamespaces]

/-! ## The tests of the methods -/

/-- The test that `CheckNamespaceKeyLimit` and `RankSet` make on their maps. -/
def limitTest (limits : Limits) (m : NestedMap StdString StdString ε) (ns key : StdString) :
    Bool :=
  match m.find? ns with
  | some keyMap =>
      match keyMap.find? key with
      | some _ => true
      | none => keyMap.size < limits.maxKeysPerNamespace.toNat
  | none => m.size < limits.maxNamespaces.toNat

theorem checkNamespaceKeyLimit_eq (s : MemStoreManager) (ns key : StdString) :
    s.checkNamespaceKeyLimit ns key = limitTest s.toLimits s.namespaces ns key := by
  unfold checkNamespaceKeyLimit limitTest
  cases s.namespaces.find? ns with
  | none => rfl
  | some keyMap =>
      dsimp only
      cases keyMap.find? key <;> rfl

theorem checkRankLimit_eq (s : MemStoreManager) (ns key : StdString) :
    s.checkRankLimit ns key = limitTest s.toLimits s.ranks ns key := by
  unfold checkRankLimit limitTest
  cases s.ranks.find? ns with
  | none => rfl
  | some board =>
      dsimp only
      cases board.find? key <;> rfl

theorem heldKeys_true (m : NestedMap StdString StdString ε) (ns : StdString) :
    heldKeys m (fun _ => true) ns = (NestedMap.inner m ns).size :=
  congrFun List.countP_true _

theorem heldNamespaces_true {m : NestedMap StdString StdString ε} (hm : NestedMap.NoEmpty m) :
    heldNamespaces m (fun _ => true) = m.size := by
  refine List.countP_eq_length.mpr fun pair hpair => ?_
  have hne := hm pair.1 pair.2 (UnorderedMap.find?_eq_some_iff.mpr hpair)
  obtain ⟨entry, hentry⟩ := List.exists_mem_of_length_pos (UnorderedMap.size_pos_iff.mpr hne)
  exact List.any_eq_true.mpr ⟨entry, hentry, rfl⟩

/-- The test counts what is stored. -/
theorem limitTest_iff {m : NestedMap StdString StdString ε} (hm : NestedMap.NoEmpty m)
    (limits : Limits) (ns key : StdString) :
    limitTest limits m ns key = true ↔ HasRoom limits m (fun _ => true) ns key := by
  rw [HasRoom, heldKeys_true, heldNamespaces_true hm, NestedMap.at?]
  unfold limitTest
  cases hfind : m.find? ns with
  | none =>
      have hsize : (NestedMap.inner m ns).size = 0 := by
        rw [NestedMap.inner_of_find?_none hfind]
        rfl
      have hnone : (NestedMap.inner m ns).find? key = none := by
        rw [NestedMap.inner_of_find?_none hfind]
        rfl
      rw [hsize, hnone]
      simp
  | some keyMap =>
      rw [NestedMap.inner_of_find? hfind]
      -- no namespace is stored empty
      have hpos : 0 < keyMap.size := UnorderedMap.size_pos_iff.mpr (hm ns keyMap hfind)
      rcases Option.eq_none_or_eq_some (keyMap.find? key) with hkey | ⟨e, hkey⟩
      · simp [hkey, hpos, hpos.ne']
      · simp [hkey]

/-! ## Writes -/

section Writes

variable {s : MemStoreManager} {env : Env} {ns key : StdString} {policy : ExpirePolicy}
  {extra : Int32}

theorem storeScalar_succeeds (fill : StoreEntry → StoreEntry) :
    (s.storeScalar env.layout ns key fill policy extra env.first).2 =
      limitTest s.toLimits s.namespaces ns key := by
  rw [storeScalar, ← checkNamespaceKeyLimit_eq]
  cases s.checkNamespaceKeyLimit ns key <;> rfl

theorem storePayload_succeeds {bytes : SizeT} (fill : StoreEntry → StoreEntry)
    (hquota : s.quotaExceeded bytes (getPayloadBytes ((s.entryAt ns key).getD {})) = false) :
    (s.storePayload env.layout ns key fill bytes policy extra env.first).2 =
      limitTest s.toLimits s.namespaces ns key := by
  rw [storePayload, hquota, ← checkNamespaceKeyLimit_eq]
  cases s.checkNamespaceKeyLimit ns key <;> rfl

/-- A setter that the quota does not stop succeeds if the key passes the limits. -/
theorem write_succeeds {wr : Write} {v : Value}
    (hrequest : (Op.write wr).request s.toLimits = .write ns key v policy extra)
    (hquota : v.IsNumber ∨
      s.quotaExceeded v.bytes (getPayloadBytes ((s.entryAt ns key).getD {})) = false) :
    (wr.run s env).2.succeeded = limitTest s.toLimits s.namespaces ns key := by
  have hpayload : ¬ v.IsNumber →
      s.quotaExceeded v.bytes (getPayloadBytes ((s.entryAt ns key).getD {})) = false :=
    fun hnot => hquota.resolve_left hnot
  cases wr with
  | setInt | setFloat =>
      cases hrequest
      exact storeScalar_succeeds _
  | setString ns key val policy extra =>
      cases hrequest
      simp only [Write.run, setString_eq]
      exact storePayload_succeeds _ (hpayload fun hnumber => by cases hnumber)
  | setArray ns key data policy extra =>
      cases hrequest
      simp only [Write.run, setArray_eq]
      exact storePayload_succeeds _ (hpayload fun hnumber => by cases hnumber)
  | _ => cases hrequest

theorem rankSet_succeeds (hpos : 0 < s.maxKeysPerNamespace) (score : Cell) :
    ((Write.rankSet ns key score policy extra).run s env).2.succeeded =
      limitTest s.toLimits s.ranks ns key := by
  simp only [Write.run, rankSet_eq hpos]
  rw [← checkRankLimit_eq]
  cases s.checkRankLimit ns key <;> rfl

end Writes

variable {alg : StdAlgorithm RankPair}

/-- **The limits count what is stored.**  In every reachable manager:

* a setter of any type that the byte quota does not stop succeeds if and only if
  its key has room among the stored key-values, and a `RankSet` if and only if
  its key has room among the stored rank entries;
* a live key always has room;
* where nothing stored has expired, this is the rule that counts live entries. -/
theorem limits_count_stored {w : World} (hreach : Reachable alg w) (env : Env)
    (ns key : StdString) :
    (∀ wr v policy extra,
      (Op.write wr).request w.store.toLimits = .write ns key v policy extra →
      (v.IsNumber ∨ w.store.quotaExceeded v.bytes
        (getPayloadBytes ((w.store.entryAt ns key).getD {})) = false) →
      ((wr.run w.store env).2.succeeded = true ↔
        HasRoom w.store.toLimits w.store.namespaces (fun _ => true) ns key)) ∧
    (∀ score policy extra,
      ((Write.rankSet ns key score policy extra).run w.store env).2.succeeded = true ↔
        HasRoom w.store.toLimits w.store.ranks (fun _ => true) ns key) ∧
    ((w.store.liveAt env.first ns key).isSome →
      HasRoom w.store.toLimits w.store.namespaces (fun _ => true) ns key) ∧
    ((w.store.liveRankAt env.first ns key).isSome →
      HasRoom w.store.toLimits w.store.ranks (fun _ => true) ns key) ∧
    ((∀ ns key e, w.store.entryAt ns key = some e → e.isExpired env.first = false) →
      (HasRoom w.store.toLimits w.store.namespaces (fun _ => true) ns key ↔
        HasRoom w.store.toLimits w.store.namespaces (fun e => !e.isExpired env.first) ns key)) ∧
    ((∀ ns key e, w.store.rankAt ns key = some e → e.isExpired env.first = false) →
      (HasRoom w.store.toLimits w.store.ranks (fun _ => true) ns key ↔
        HasRoom w.store.toLimits w.store.ranks (fun e => !e.isExpired env.first) ns key)) := by
  have hw := wellFormed_of_reachable hreach
  refine ⟨?_, ?_, ?_, ?_, ?_, ?_⟩
  · intro wr v policy extra hrequest hquota
    rw [write_succeeds hrequest hquota, limitTest_iff hw.namespaces]
  · intro score policy extra
    rw [rankSet_succeeds hw.maxKeys_pos, limitTest_iff hw.ranks]
  · intro hlive
    obtain ⟨e, he⟩ := Option.isSome_iff_exists.mp hlive
    have hentry : NestedMap.at? w.store.namespaces ns key = some e :=
      (liveAt_eq_some_iff.mp he).1
    exact .inl (by rw [hentry]; rfl)
  · intro hlive
    obtain ⟨e, he⟩ := Option.isSome_iff_exists.mp hlive
    have hentry : NestedMap.at? w.store.ranks ns key = some e := (liveRankAt_eq_some_iff.mp he).1
    exact .inl (by rw [hentry]; rfl)
  · intro hfresh
    exact hasRoom_congr (fun ns key e he => by rw [hfresh ns key e he]; rfl) ns key
  · intro hfresh
    exact hasRoom_congr (fun ns key e he => by rw [hfresh ns key e he]; rfl) ns key

/-- Namespaces are given room for one key, and one is filled. -/
private def filling : List (Call × Reply) :=
  [(⟨.setLimits 1 0 0 0 0, .at 0 fun _ => 0⟩, .done),
    (⟨.write (.setInt [1] [2] 7 .ttl 1), .at 0 fun _ => 0⟩, .flag true)]

private theorem run_filling : ∃ w : World,
    RunFromStart (StdAlgorithm.insertionSort (α := RankPair)) Machine.anyStep filling w ∧
    w.clock = 0 ∧ w.store = (MemStoreManager.setInt
      { toLimits := Limits.setLimits {} 1 0 0 0 0 } (fun _ => 0) [1] [2] 7 .ttl 1 0).1 :=
  ⟨⟨_, 0⟩, ⟨0, run_cons trivial le_rfl rfl (run_cons trivial le_rfl rfl (.nil _))⟩, rfl, rfl⟩

/-- A namespace that is full has no room for a second key, and still takes the first. -/
theorem limits_count_stored_full : ∃ w : World,
    RunFromStart (StdAlgorithm.insertionSort (α := RankPair)) Machine.anyStep filling w ∧
    ((Write.setInt [1] [3] 7 .persistent 0).run w.store (.at 0 fun _ => 0)).2.succeeded = false ∧
    ((Write.setInt [1] [2] 8 .persistent 0).run w.store (.at 0 fun _ => 0)).2.succeeded = true := by
  obtain ⟨w, hrun, _, hstore⟩ := run_filling
  have hcount := limits_count_stored ⟨filling, hrun⟩ (.at 0 fun _ => 0) [1]
  refine ⟨w, hrun, Bool.eq_false_iff.mpr fun hsucceeded => ?_, ?_⟩
  · have hroom := ((hcount [3]).1 _ (.int 7) .persistent 0 rfl (.inl (.int 7))).mp hsucceeded
    rw [hstore] at hroom
    revert hroom
    unfold HasRoom
    decide
  · -- a live key has room wherever it is
    obtain ⟨hsetter, _, hlive, _⟩ := hcount [2]
    exact (hsetter _ (.int 8) .persistent 0 rfl (.inl (.int 8))).mpr
      (hlive (by rw [hstore]; rfl))

/-- An expired key that is still stored takes the room of a new one. -/
theorem limits_count_expired : ¬ ∀ (w : World) (env : Env) (ns key : StdString) (val : Cell)
    (policy : ExpirePolicy) (extra : Int32),
    Reachable (StdAlgorithm.insertionSort (α := RankPair)) w → w.clock ≤ env.first →
      w.store.liveAt env.first ns key = none →
      (((Write.setInt ns key val policy extra).run w.store env).2.succeeded = true ↔
        HasRoom w.store.toLimits w.store.namespaces (fun e => !e.isExpired env.first) ns key) := by
  intro h
  obtain ⟨w, hrun, hclock, hstore⟩ := run_filling
  have hiff := h w (.at 2000000000 fun _ => 0) [1] [3] 7 .persistent 0 ⟨filling, hrun⟩
    (by rw [hclock]; decide) (by rw [hstore]; rfl)
  rw [hstore] at hiff
  revert hiff
  unfold HasRoom
  decide

end MemStore
