import MemStore.Natives.Sessions

/-!
# What plugins can have stored

The manager stores whatever it is given; what it is given by plugins has passed
the checks of the natives.  So in every session what is stored is such as
plugins can name and get back (`PluginData`): names are C strings that are not
empty, stored strings are C strings, stored arrays are not empty, and the limits
are positive.

`Request.FromPlugin` is what a call made by a plugin asks for, and one step keeps
the invariant for requests of this kind (`Change.pluginData`).
-/

namespace MemStore

open MemStoreManager

/-! ## Data from plugins -/

/-- A value that can have been passed by a plugin. -/
def Value.FromPlugin : Value → Prop
  | .int _ | .float _ => True
  | .string text => 0 ∉ text
  | .array cells => cells ≠ []

theorem Value.IsNumber.fromPlugin {v : Value} (h : v.IsNumber) : v.FromPlugin := by
  cases h <;> trivial

theorem Value.FromPlugin.plus {old delta : Value} (h : old.FromPlugin) :
    (old.plus delta).FromPlugin := by
  cases old <;> cases delta <;> exact h

/-- An entry a plugin can have stored under the names. -/
structure EntryFromPlugin (ns key : StdString) (e : StoreEntry) : Prop where
  ns : IsName ns
  key : IsName key
  value : ∀ v, e.value? = some v → v.FromPlugin

/-- The limits that truncate and count, which plugins cannot set to zero. -/
structure LimitsFromPlugin (limits : Limits) : Prop where
  maxKeys_pos : 0 < limits.maxKeysPerNamespace
  maxArray_pos : 0 < limits.maxArraySize
  maxString_pos : 0 < limits.maxStringLength

theorem limitsFromPlugin_default : LimitsFromPlugin {} := ⟨by decide, by decide, by decide⟩

/-- What holds of the manager as long as only plugins make it store something. -/
structure PluginData (s : MemStoreManager) : Prop where
  limits : LimitsFromPlugin s.toLimits
  entries : ∀ ns key e, s.entryAt ns key = some e → EntryFromPlugin ns key e
  ranks : ∀ ns key e, s.rankAt ns key = some e → IsName ns ∧ IsName key

theorem pluginData_initial : PluginData {} where
  limits := limitsFromPlugin_default
  entries := fun _ _ _ h => by cases h
  ranks := fun _ _ _ h => by cases h

/-! ## Requests from plugins -/

/-- What a plugin can ask of one key. -/
def KeyAction.FromPlugin (ns key : StdString) : KeyAction → Prop
  | .reject | .increment .. => IsName ns ∧ IsName key
  | .write v _ _ => IsName ns ∧ IsName key ∧ v.FromPlugin
  | _ => True

/-- What a plugin can ask of one rank entry. -/
def RankAction.FromPlugin (ns key : StdString) : RankAction → Prop
  | .write .. | .increment .. => IsName ns ∧ IsName key
  | _ => True

/-- What a plugin can ask for. -/
def Request.FromPlugin : Request → Prop
  | .setLimits maxKeysPerNs maxArraySize maxStringLen _ _ =>
      0 < maxKeysPerNs ∧ 0 < maxArraySize ∧ 0 < maxStringLen
  | .reject ns key _ | .increment ns key _ _ _ | .rankWrite ns key _ _ _
  | .rankIncrement ns key _ _ _ => IsName ns ∧ IsName key
  | .write ns key v _ _ => IsName ns ∧ IsName key ∧ v.FromPlugin
  | _ => True

theorem Request.FromPlugin.atKey {req : Request} (h : req.FromPlugin) (ns' key' : StdString) :
    (req.atKey ns' key').FromPlugin ns' key' := by
  cases req with
  | reject | write | increment =>
      rw [Request.atKey]
      split
      · next heq =>
          obtain ⟨rfl, rfl⟩ := heq
          exact h
      · trivial
  | reexpire | deleteKey | clearNamespace =>
      rw [Request.atKey]
      split <;> trivial
  | _ => trivial

theorem Request.FromPlugin.atRankKey {req : Request} (h : req.FromPlugin) (ns' key' : StdString) :
    (req.atRankKey ns' key').FromPlugin ns' key' := by
  cases req with
  | rankWrite | rankIncrement =>
      rw [Request.atRankKey]
      split
      · next heq =>
          obtain ⟨rfl, rfl⟩ := heq
          exact h
      · trivial
  | rankDelete | rankClear =>
      rw [Request.atRankKey]
      split <;> trivial
  | _ => trivial

theorem Value.fromPlugin_string_take {val : StdString} (h : 0 ∉ val) (n : ℕ) :
    (Value.string (val.take n)).FromPlugin := fun hmem => h (List.mem_of_mem_take hmem)

theorem Value.fromPlugin_array_take {data : List Cell} (h : data ≠ []) {n : SizeT} (hn : 0 < n) :
    (Value.array (data.take n.toNat)).FromPlugin := by
  intro hnil
  have hpos := UInt32.lt_iff_toNat_lt.mp hn
  rcases List.take_eq_nil_iff.mp hnil with hzero | hnone
  · rw [hzero] at hpos
    exact absurd hpos (Nat.lt_irrefl 0)
  · exact h hnone

/-- The request behind a call of a plugin. -/
theorem Op.FromPlugin.outcome {op : Op} (h : op.FromPlugin) {limits : Limits}
    (hlimits : LimitsFromPlugin limits) (reply : Reply) :
    (op.outcome limits reply).FromPlugin := by
  unfold Op.outcome
  split
  · cases op with
    | write w =>
        cases w with
        | setInt | setFloat => exact ⟨h.1, h.2, trivial⟩
        | setString => exact ⟨h.1, h.2.1, Value.fromPlugin_string_take h.2.2 _⟩
        | setArray => exact ⟨h.1, h.2.1, Value.fromPlugin_array_take h.2.2 hlimits.maxArray_pos⟩
        | _ => exact h
    | setLimits => exact h
    | _ => trivial
  · cases op with
    | write w =>
        cases w with
        | setString | setArray => exact ⟨h.1, h.2.1⟩
        | _ => trivial
    | _ => trivial

/-! ## One step -/

/-- What a step leaves under a key can have been stored by a plugin. -/
theorem EntryStep.fromPlugin {env : Env} {a : KeyAction} {o o' : Option StoreEntry}
    {ns key : StdString} (h : EntryStep env a o o') (ha : a.FromPlugin ns key)
    (ho : ∀ e, o = some e → EntryFromPlugin ns key e) :
    ∀ e, o' = some e → EntryFromPlugin ns key e := by
  intro e' he'
  cases h with
  | keep | reject => exact ho e' he'
  | purge | deleteKey | clearNamespace | clearAll => cases he'
  | ghost =>
      cases he'
      exact ⟨ha.1, ha.2, nofun⟩
  | write o v policy extra =>
      cases he'
      refine ⟨ha.1, ha.2.1, fun v' hv' => ?_⟩
      rw [value?_applyExpiration, Value.value?_fill] at hv'
      cases hv'
      exact ha.2.2
  | @incDead o delta policy extra hnumber hdead =>
      cases he'
      refine ⟨ha.1, ha.2, fun v' hv' => ?_⟩
      rw [value?_applyExpiration, Value.value?_fill] at hv'
      cases hv'
      exact hnumber.fromPlugin
  | @incLive e delta policy extra hnumber hlive htype =>
      cases he'
      obtain ⟨old, hold, hsum⟩ := hnumber.value?_addTo htype
      refine ⟨ha.1, ha.2, fun v' hv' => ?_⟩
      rw [value?_reapplyExpiration, hsum] at hv'
      cases hv'
      exact ((ho e rfl).value old hold).plus
  | reexpire e policy extra =>
      cases he'
      exact ⟨(ho e rfl).ns, (ho e rfl).key, (ho e rfl).value⟩
  | sweep =>
      obtain ⟨e, he, hsweep⟩ := Option.bind_eq_some_iff.mp he'
      obtain ⟨x, _, rfl⟩ := Option.map_eq_some_iff.mp hsweep
      exact ⟨(ho e he).ns, (ho e he).key, (ho e he).value⟩

theorem RankStep.fromPlugin {env : Env} {sequence : UInt64} {a : RankAction}
    {o o' : Option RankEntry} {ns key : StdString} (h : RankStep env sequence a o o')
    (ha : a.FromPlugin ns key) (ho : ∀ e, o = some e → IsName ns ∧ IsName key) :
    ∀ e, o' = some e → IsName ns ∧ IsName key := by
  intro e' he'
  cases h with
  | keep => exact ho e' he'
  | purge | delete | clear | clearAll => cases he'
  | write | incDead => exact ha
  | incLive => exact ho _ rfl
  | sweep =>
      obtain ⟨e, he, _⟩ := Option.bind_eq_some_iff.mp he'
      exact ho e he

theorem LimitsFromPlugin.request {req : Request} (hreq : req.FromPlugin) {limits : Limits}
    (h : LimitsFromPlugin limits) : LimitsFromPlugin (req.limits limits) := by
  cases req with
  | setLimits maxKeysPerNs maxArraySize maxStringLen maxNamespaces maxMemoryMb =>
      obtain ⟨hkeys, harray, hstring⟩ := hreq
      rw [Request.limits, Limits.setLimits, if_pos hkeys, if_pos harray, if_pos hstring]
      exact ⟨hkeys, harray, hstring⟩
  | _ => exact h

theorem Change.pluginData {env : Env} {s s' : MemStoreManager} {req : Request}
    (h : Change env s req s') (hreq : req.FromPlugin) (hs : PluginData s) : PluginData s' where
  limits := by
    rw [h.toLimits]
    exact hs.limits.request hreq
  entries := fun ns key =>
    (h.entryStep ns key).fromPlugin (hreq.atKey ns key) (hs.entries ns key)
  ranks := fun ns key =>
    (h.rankStep ns key).fromPlugin (hreq.atRankKey ns key) (hs.ranks ns key)

/-! ## Runs and sessions -/

variable {host : AmxHost} {alg : StdAlgorithm RankPair}

theorem PluginRun.wellFormed {w w' : World} (h : PluginRun alg w w') (hw : WellFormed w.store) :
    WellFormed w'.store :=
  h.invariant WellFormed (fun _ _ _ _ _ hs hcall => World.wellFormed_call hs hcall) hw

theorem PluginRun.pluginData {w w' : World} (h : PluginRun alg w w') (hw : WellFormed w.store)
    (hdata : PluginData w.store) : PluginData w'.store := by
  refine (h.invariant (fun s => WellFormed s ∧ PluginData s) ?_ ⟨hw, hdata⟩).2
  intro w c reply w' hop hs hcall
  obtain ⟨_, _, hchange⟩ := World.call_change hs.1 hcall
  exact ⟨hchange.wellFormed hs.1, hchange.pluginData (hop.outcome hs.2.limits reply) hs.2⟩

theorem pluginData_of_session {t : TimePoint} {w : World}
    (h : Session host alg (World.initial t) w) : PluginData w.store :=
  (session_run h).pluginData wellFormed_initial pluginData_initial

/-- **What is stored has been checked.**  In every session, whatever plugins do:

* entries have names that are neither empty nor contain a zero character, so that
  they are handed back to plugins as they are;
* a stored string contains no zero character, and a stored array is not empty;
* the names of rank entries are such names, too;
* the limits on keys, array sizes and string lengths are positive. -/
theorem session_keeps_data {t : TimePoint} {w : World}
    (h : Session host alg (World.initial t) w) :
    (∀ ns key e, w.store.entryAt ns key = some e → (IsName ns ∧ IsName key) ∧
      (∀ text, e.value? = some (.string text) → 0 ∉ text) ∧
        ∀ cells, e.value? = some (.array cells) → cells ≠ []) ∧
    (∀ ns key e, w.store.rankAt ns key = some e → IsName ns ∧ IsName key) ∧
    0 < w.store.maxKeysPerNamespace ∧ 0 < w.store.maxArraySize ∧ 0 < w.store.maxStringLength := by
  have hdata := pluginData_of_session h
  refine ⟨fun ns key e he => ?_, hdata.ranks, hdata.limits.maxKeys_pos, hdata.limits.maxArray_pos,
    hdata.limits.maxString_pos⟩
  obtain ⟨hns, hkey, hvalue⟩ := hdata.entries ns key e he
  exact ⟨⟨hns, hkey⟩, fun text htext => hvalue _ htext, fun cells hcells => hvalue _ hcells⟩

/-- A text is stored. -/
theorem session_keeps_data_text : ∃ (w : World) (e : StoreEntry),
    Session .signedChars .insertionSort (World.initial 0) w ∧
      w.store.entryAt [110] [107] = some e ∧ (IsName [110] ∧ IsName [107]) ∧
      ∀ text, e.value? = some (.string text) → 0 ∉ text := by
  let s := (({} : MemStoreManager).setString (fun _ => 0) [110] [107] [104, 105] .persistent 0 0).1
  have hset : (World.initial 0).native .signedChars .insertionSort
      ⟨.setString, [100, 200, 300], threeTexts, .at 0 fun _ => 0⟩ =
        some (⟨s, 0⟩, ⟨1, threeTexts, none⟩) := rfl
  have hsession : Session .signedChars .insertionSort (World.initial 0) ⟨s, 0⟩ :=
    .native hset (.nil _)
  obtain ⟨hnames, htext, _⟩ := (session_keeps_data hsession).1 [110] [107] _ rfl
  exact ⟨_, _, hsession, rfl, hnames, htext⟩

end MemStore
