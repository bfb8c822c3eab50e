import MemStore.Natives.RoundTrips

/-!
# What `mem_iterate_keys` delivers

The keys are listed before the first callback is made, so that the list is a
snapshot: callbacks may do anything to the store, and each key that was live is
handed over once, until a callback answers with `PLUGIN_HANDLED`
(`iterate_delivers`).  A callback that deletes the key it gets is safe and
leaves nothing behind (`iterate_deletes`).

The callbacks of one call make up a run of a machine that is fed with keys.
-/

namespace MemStore

open MemStoreManager
open Machine (Run)

variable {host : AmxHost} {alg : StdAlgorithm RankPair}

/-! ## The loop -/

section Loop

variable {callback : Callback} {data count count' : Cell} {keys : List StdString}
  {p p' : PluginWorld}

/-- The calls of a callback for some keys: a call that is answered with
`PLUGIN_HANDLED` is the last one, and without such a call all keys are delivered. -/
structure Deliveries (callback : Callback) (data : Cell) (keys : List StdString)
    (p : PluginWorld) (calls : List (StdString × Cell)) (p' : PluginWorld) : Prop where
  run : Run (fun p key => callback key data p) Machine.anyStep p calls p'
  inOrder : calls.map Prod.fst <+: keys
  stops : ∀ before call after, calls = before ++ call :: after → call.2 = 1 → after = []
  complete : calls.map Prod.fst = keys ∨ ∃ call ∈ calls, call.2 = 1

theorem Deliveries.cons {key : StdString} {ret : Cell} {q : PluginWorld}
    {calls : List (StdString × Cell)} (hcall : callback key data p = some (q, ret))
    (hret : ret ≠ 1) (h : Deliveries callback data keys q calls p') :
    Deliveries callback data (key :: keys) p ((key, ret) :: calls) p' where
  run := .cons trivial hcall h.run
  inOrder := List.cons_prefix_cons.mpr ⟨rfl, h.inOrder⟩
  stops := by
    intro before call after heq hhandled
    cases before with
    | nil =>
        cases heq
        exact absurd hhandled hret
    | cons first before =>
        cases heq
        exact h.stops before call after rfl hhandled
  complete := by
    rcases h.complete with hall | ⟨call, hmem, hhandled⟩
    · exact .inl (congrArg (key :: ·) hall)
    · exact .inr ⟨call, List.mem_cons_of_mem _ hmem, hhandled⟩

/-- The loop makes and counts such calls. -/
theorem deliveries_of_iterateKeys
    (h : iterateKeys callback data keys count p = some (p', count')) :
    ∃ calls, Deliveries callback data (keys.map cStr) p calls p' ∧
      count' = count + Int32.ofNat calls.length := by
  induction keys generalizing count p with
  | nil =>
      cases h
      refine ⟨[], ⟨.nil _, List.nil_prefix, ?_, .inl rfl⟩, (Int32.add_zero _).symm⟩
      intro before call after heq
      exact absurd heq.symm (List.append_ne_nil_of_right_ne_nil _ (List.cons_ne_nil _ _))
  | cons key keys ih =>
      obtain ⟨⟨q, ret⟩, hcall, hrest⟩ := Option.bind_eq_some_iff.mp h
      split at hrest
      · next hret =>
          cases hrest
          refine ⟨[(cStr key, ret)], ⟨.single trivial hcall, ?_, ?_, ?_⟩, rfl⟩
          · exact List.cons_prefix_cons.mpr ⟨rfl, List.nil_prefix⟩
          · intro before call after heq _
            cases before with
            | nil =>
                cases heq
                rfl
            | cons first before => cases before <;> cases heq
          · exact .inr ⟨_, List.mem_singleton_self _, hret⟩
      · next hret =>
          obtain ⟨calls, hcalls, hcount⟩ := ih hrest
          refine ⟨(cStr key, ret) :: calls, hcalls.cons hcall hret, ?_⟩
          rw [hcount, List.length_cons, Int32.add_assoc, Nat.add_comm, Int32.ofNat_add]
          rfl

end Loop

/-! ## The snapshot -/

theorem getActiveKeys_view (s : MemStoreManager) (ns : StdString) (now : TimePoint) :
    (s.getActiveKeys ns now).2 = ((s.liveView now).namespaces ns).keys := by
  rw [getActiveKeys, purgeNamespace_view]

theorem mem_getActiveKeys {s : MemStoreManager} {ns key : StdString} {now : TimePoint} :
    key ∈ (s.getActiveKeys ns now).2 ↔ (s.liveAt now ns key).isSome := by
  rw [getActiveKeys_view, UnorderedMap.mem_keys_iff, ← Option.isSome_iff_exists,
    ← entryAt_liveView]
  exact Iff.rfl

theorem nodup_getActiveKeys (s : MemStoreManager) (ns : StdString) (now : TimePoint) :
    (s.getActiveKeys ns now).2.Nodup := by
  rw [getActiveKeys_view]
  exact UnorderedMap.keys_nodup _

/-- Names from plugins are handed over as they are. -/
theorem map_cStr_getActiveKeys {s : MemStoreManager} (hdata : PluginData s) (ns : StdString)
    (now : TimePoint) :
    (s.getActiveKeys ns now).2.map cStr = (s.getActiveKeys ns now).2 := by
  refine (List.map_congr_left fun key hkey => ?_).trans (List.map_id _)
  obtain ⟨e, he⟩ := Option.isSome_iff_exists.mp (mem_getActiveKeys.mp hkey)
  exact cStr_of_notMem (hdata.entries ns key e (liveAt_eq_some_iff.mp he).1).key.2

/-- What a call of `mem_iterate_keys` does behind its checks. -/
theorem iterate_of_checks {w w' : World} {nsParam nameParam : Cell} {rest : List Cell}
    {mem : AmxMemory} {now : TimePoint} {callbacks : StdString → Option Callback}
    {ns funcName : StdString} {callback : Callback} {r : NativeResult}
    (hns : getNamespace host mem nsParam = .ok ns)
    (hname : nonemptyText host mem .emptyCallback nameParam = .ok funcName)
    (hcallback : callbacks funcName = some callback)
    (h : w.iterate host ⟨nsParam :: nameParam :: rest, mem, now, callbacks⟩ = some (w', r)) :
    r.error = none ∧ iterateKeys callback (rest[0]?.getD 0) (w.store.getActiveKeys ns now).2 0
      ⟨⟨(w.store.getActiveKeys ns now).1, now⟩, mem⟩ = some (⟨w', r.mem⟩, r.ret) := by
  unfold World.iterate at h
  split at h
  · simp only [hns, hname, hcallback] at h
    obtain ⟨x, hloop, heq⟩ := Option.map_eq_some_iff.mp h
    cases heq
    exact ⟨rfl, hloop⟩
  · cases h

section Results

variable {t₀ : TimePoint} {w w' : World} {nsParam nameParam : Cell} {rest : List Cell}
  {mem : AmxMemory} {now : TimePoint} {callbacks : StdString → Option Callback}
  {ns funcName : StdString} {callback : Callback} {r : NativeResult}

/-- **`mem_iterate_keys` works on a snapshot.**  In every session, whatever its
callback does to the store meanwhile:

* `keys` are the keys of the namespace that are live at the time of the call, each
  of them once;
* the callback is called for them one after another, each time in the state the
  call before has left behind, beginning with a state that looks like the one
  before;
* the first call that returns `PLUGIN_HANDLED` is the last one, and without such a
  call every key is delivered;
* the native returns the number of the calls. -/
theorem iterate_delivers (hsession : Session host alg (World.initial t₀) w)
    (hns : getNamespace host mem nsParam = .ok ns)
    (hname : nonemptyText host mem .emptyCallback nameParam = .ok funcName)
    (hcallback : callbacks funcName = some callback)
    (h : w.iterate host ⟨nsParam :: nameParam :: rest, mem, now, callbacks⟩ = some (w', r)) :
    ∃ (keys : List StdString) (calls : List (StdString × Cell)) (s : MemStoreManager),
      keys.Nodup ∧ (∀ key, key ∈ keys ↔ (w.store.liveAt now ns key).isSome) ∧
      (∀ later, now ≤ later → s.liveView later = w.store.liveView later) ∧
      Deliveries callback (rest[0]?.getD 0) keys ⟨⟨s, now⟩, mem⟩ calls ⟨w', r.mem⟩ ∧
      r.ret = Int32.ofNat calls.length ∧ r.error = none := by
  have hdata := pluginData_of_session hsession
  obtain ⟨hok, hloop⟩ := iterate_of_checks hns hname hcallback h
  obtain ⟨calls, hcalls, hcount⟩ := deliveries_of_iterateKeys hloop
  rw [map_cStr_getActiveKeys hdata] at hcalls
  refine ⟨_, calls, _, nodup_getActiveKeys w.store ns now, fun key => mem_getActiveKeys, ?_, hcalls,
    by rw [hcount, Int32.zero_add], hok⟩
  intro later hlater
  have hreads : Reads now w.store ((Query.getActiveKeys ns).run alg w.store now).1 :=
    reads_query alg w.store (.getActiveKeys ns) le_rfl
  exact hreads.liveView hlater

/-- The store after two calls by a plugin, which have stored two keys. -/
private def twoKeys : MemStoreManager :=
  ((({} : MemStoreManager).setInt (fun _ => 0) [110] [107] 7 .persistent 0 0).1.incInt (fun _ => 0)
    [110] [104, 105] 1 .persistent 0 0 0).1

private theorem session_twoKeys :
    Session .signedChars .insertionSort (World.initial 0) ⟨twoKeys, 0⟩ :=
  .native (c := ⟨.setInt, [100, 200, 7], threeTexts, .at 0 fun _ => 0⟩)
    (World.native_of_run le_rfl rfl)
    (.native (c := ⟨.incInt, [100, 300], threeTexts, .at 0 fun _ => 0⟩)
      (World.native_of_run le_rfl rfl) (.nil _))

/-- A callback that does nothing is called for both keys. -/
theorem iterate_delivers_two : ∃ (w' : World) (keys : List StdString)
    (calls : List (StdString × Cell)) (p p' : PluginWorld),
    Session .signedChars .insertionSort (World.initial 0) ⟨twoKeys, 0⟩ ∧
      World.iterate .signedChars ⟨twoKeys, 0⟩
        ⟨[100, 300, 9], threeTexts, 0, fun _ => some fun _ _ p => some (p, 0)⟩ =
          some (w', ⟨2, threeTexts, none⟩) ∧
      [107] ∈ keys ∧ [104, 105] ∈ keys ∧
      Deliveries (fun _ _ p => some (p, 0)) 9 keys p calls p' := by
  have hns : getNamespace .signedChars threeTexts 100 = .ok [110] := rfl
  have hname : nonemptyText .signedChars threeTexts .emptyCallback 300 = .ok [104, 105] := rfl
  have hiterate : World.iterate .signedChars ⟨twoKeys, 0⟩
      ⟨[100, 300, 9], threeTexts, 0, fun _ => some fun _ _ p => some (p, 0)⟩ =
        some (⟨(twoKeys.getActiveKeys [110] 0).1, 0⟩, ⟨2, threeTexts, none⟩) := rfl
  obtain ⟨keys, calls, s, _, hkeys, _, hcalls, _⟩ :=
    iterate_delivers session_twoKeys hns hname rfl hiterate
  exact ⟨_, keys, calls, _, _, session_twoKeys, hiterate, (hkeys [107]).mpr rfl,
    (hkeys [104, 105]).mpr rfl, hcalls⟩

/-! ## Deleting while iterating -/

theorem entryAt_deleteKey (s : MemStoreManager) (ns key ns' key' : StdString) :
    (s.deleteKey ns key).1.entryAt ns' key' =
      if ns' = ns ∧ key' = key then none else s.entryAt ns' key' := by
  unfold deleteKey
  cases hentry : s.entryAt ns key with
  | none =>
      change s.entryAt ns' key' = _
      split
      · next heq =>
          obtain ⟨rfl, rfl⟩ := heq
          exact hentry
      · rfl
  | some e => exact entryAt_eraseEntry ..

theorem rankAt_deleteKey (s : MemStoreManager) (ns key ns' key' : StdString) :
    (s.deleteKey ns key).1.rankAt ns' key' = s.rankAt ns' key' := by
  unfold deleteKey
  cases hentry : s.entryAt ns key with
  | none => rfl
  | some e =>
      have hsame : SameRanks s ((s.release (getPayloadBytes e)).eraseEntry ns key) :=
        ⟨by simp, by simp, by simp⟩
      exact hsame.rankAt ns' key'

/-- Called with one of the keys, the callback deletes it and goes on. -/
def Callback.Deletes (callback : Callback) (ns : StdString) (keys : List StdString) : Prop :=
  ∀ key ∈ keys, ∀ data p p' ret, callback key data p = some (p', ret) →
    ret ≠ 1 ∧ p'.world.store = (p.world.store.deleteKey ns key).1

/-- What is left after a run of such callbacks. -/
theorem Callback.Deletes.run {keys : List StdString} (hdelete : callback.Deletes ns keys)
    {data : Cell} {p p' : PluginWorld} {calls : List (StdString × Cell)}
    (h : Run (fun p key => callback key data p) Machine.anyStep p calls p')
    (hkeys : ∀ call ∈ calls, call.1 ∈ keys) :
    (∀ call ∈ calls, call.2 ≠ 1) ∧
      (∀ ns' key', p'.world.store.entryAt ns' key' =
        if ns' = ns ∧ key' ∈ calls.map Prod.fst then none else p.world.store.entryAt ns' key') ∧
      ∀ ns' key', p'.world.store.rankAt ns' key' = p.world.store.rankAt ns' key' := by
  induction h with
  | nil p =>
      refine ⟨fun call hcall => absurd hcall List.not_mem_nil, fun ns' key' => ?_, fun _ _ => rfl⟩
      exact (if_neg fun h => absurd h.2 List.not_mem_nil).symm
  | @cons p q p' key ret calls _ hcall _ ih =>
      obtain ⟨hkey, hkeys⟩ := List.forall_mem_cons.mp hkeys
      obtain ⟨hret, hstore⟩ := hdelete key hkey data p q ret hcall
      obtain ⟨hrest, hentries, hranks⟩ := ih hkeys
      refine ⟨List.forall_mem_cons.mpr ⟨hret, hrest⟩, fun ns' key' => ?_, fun ns' key' => ?_⟩
      · rw [hentries, hstore, entryAt_deleteKey, List.map_cons]
        by_cases hkey : ns' = ns ∧ key' = key
        · obtain ⟨rfl, rfl⟩ := hkey
          rw [if_pos (show ns' = ns' ∧ key' = key' from ⟨rfl, rfl⟩), ite_self]
          exact (if_pos ⟨rfl, List.mem_cons_self⟩).symm
        · rw [if_neg hkey]
          refine if_congr ⟨fun h => ⟨h.1, List.mem_cons_of_mem _ h.2⟩, fun h => ⟨h.1, ?_⟩⟩ rfl rfl
          exact (List.mem_cons.mp h.2).resolve_left fun heq => hkey ⟨h.1, heq⟩
      · rw [hranks, hstore, rankAt_deleteKey]

/-- **Keys may be deleted while they are iterated over.**  If the callback deletes
every live key it gets, does nothing else to the store and does not answer with
`PLUGIN_HANDLED`, the namespace is empty afterwards, other namespaces and the
leaderboards are as before, and the native returns what `mem_get_namespace_count`
would have returned before. -/
theorem iterate_deletes (hsession : Session host alg (World.initial t₀) w)
    (hns : getNamespace host mem nsParam = .ok ns)
    (hname : nonemptyText host mem .emptyCallback nameParam = .ok funcName)
    (hcallback : callbacks funcName = some callback)
    (hdelete : callback.Deletes ns (w.store.getActiveKeys ns now).2)
    (h : w.iterate host ⟨nsParam :: nameParam :: rest, mem, now, callbacks⟩ = some (w', r)) :
    (∀ key, w'.store.entryAt ns key = none) ∧
      (∀ ns' key, ns' ≠ ns → w'.store.entryAt ns' key = w.store.entryAt ns' key) ∧
      (∀ ns' key, w'.store.rankAt ns' key = w.store.rankAt ns' key) ∧
      r.ret = Int32.ofNat (w.store.getNamespaceCount ns now).2 := by
  have hdata := pluginData_of_session hsession
  obtain ⟨_, hloop⟩ := iterate_of_checks hns hname hcallback h
  obtain ⟨calls, hcalls, hcount⟩ := deliveries_of_iterateKeys hloop
  rw [map_cStr_getActiveKeys hdata] at hcalls
  obtain ⟨hrets, hentries, hranks⟩ := hdelete.run hcalls.run fun call hcall =>
    hcalls.inOrder.subset (List.mem_map_of_mem hcall)
  -- no call is the last one before its time
  have hall : calls.map Prod.fst = (w.store.getActiveKeys ns now).2 := by
    rcases hcalls.complete with hall | ⟨call, hmem, hhandled⟩
    · exact hall
    · exact absurd hhandled (hrets call hmem)
  have hlisted : ∀ ns' key', (w.store.getActiveKeys ns now).1.entryAt ns' key' =
      if ns' = ns then (w.store.entryAt ns' key').filter fun e => !e.isExpired now
      else w.store.entryAt ns' key' := fun ns' key' => entryAt_purgeNamespace ..
  refine ⟨fun key => ?_, fun ns' key hne => ?_, fun ns' key => ?_, ?_⟩
  · rw [hentries, hall]
    split
    · rfl
    · next hnot =>
        -- what is not in the list was not live, and has been erased by listing
        have hdead : w.store.liveAt now ns key = none := by
          rw [← Option.not_isSome_iff_eq_none, ← mem_getActiveKeys]
          exact fun hmem => hnot ⟨rfl, hmem⟩
        exact (hlisted ns key).trans ((if_pos rfl).trans hdead)
  · rw [hentries, if_neg fun h => hne h.1]
    exact (hlisted ns' key).trans (if_neg hne)
  · rw [hranks]
    exact (sameRanks_purgeNamespace false w.store ns now).rankAt ns' key
  · have hlength := congrArg List.length hall
    rw [List.length_map] at hlength
    rw [hcount, Int32.zero_add, hlength, getNamespaceCount, getActiveKeys_view,
      purgeNamespace_view, UnorderedMap.length_keys]

/-- A callback with the namespace at address 100, which copies the key to address 400 and
passes both to `mem_delete_key`. -/
private def deleteFromN : Callback := fun key _ p =>
  let mem := AmxHost.signedChars.setAmxString (p.mem.setCells 100 [110, 0]) 400 key 31
  (p.world.native .signedChars .insertionSort
    ⟨.deleteKey, [100, 400], mem, .at p.world.clock fun _ => 0⟩).map fun x =>
      (⟨x.1, x.2.mem⟩, 0)

private theorem deletes_deleteFromN : deleteFromN.Deletes [110] [[104, 105], [107]] := by
  intro key hkey data p p' ret h
  obtain ⟨⟨w', r⟩, hnative, heq⟩ := Option.map_eq_some_iff.mp h
  cases heq
  obtain ⟨_, hrun, _⟩ := World.native_eq_some_iff.mp hnative
  have hnames : getNamespaceAndKey .signedChars
      (AmxHost.signedChars.setAmxString (p.mem.setCells 100 [110, 0]) 400 key 31) 100 400 =
        .ok ([110], key) := by
    rcases List.mem_pair.mp hkey with rfl | rfl <;> rfl
  have hdelete : amxxMemDeleteKey .signedChars p.world.store
      (AmxHost.signedChars.setAmxString (p.mem.setCells 100 [110, 0]) 400 key 31) [100, 400] =
        some (w'.store, r) := hrun
  rw [amxxMemDeleteKey, onKey, hnames] at hdelete
  exact ⟨by decide, (Prod.mk.inj (Option.some.inj hdelete)).1.symm⟩

/-- Both keys are deleted. -/
theorem iterate_deletes_two : ∃ (w : World) (r : NativeResult),
    Session .signedChars .insertionSort (World.initial 0) ⟨twoKeys, 0⟩ ∧
      World.iterate .signedChars ⟨twoKeys, 0⟩
        ⟨[100, 300], threeTexts, 0, fun _ => some deleteFromN⟩ = some (w, r) ∧
      w.store.entryAt [110] [107] = none ∧ w.store.entryAt [110] [104, 105] = none ∧
      r.ret = 2 := by
  have hns : getNamespace .signedChars threeTexts 100 = .ok [110] := rfl
  have hname : nonemptyText .signedChars threeTexts .emptyCallback 300 = .ok [104, 105] := rfl
  have hiterate : ∃ w' r, World.iterate .signedChars ⟨twoKeys, 0⟩
      ⟨[100, 300], threeTexts, 0, fun _ => some deleteFromN⟩ = some (w', r) := ⟨_, _, rfl⟩
  obtain ⟨w', r, hiterate⟩ := hiterate
  obtain ⟨hgone, _, _, hcount⟩ := iterate_deletes session_twoKeys hns hname rfl
    deletes_deleteFromN hiterate
  exact ⟨w', r, session_twoKeys, hiterate, hgone [107], hgone [104, 105], hcount⟩

end Results

end MemStore
