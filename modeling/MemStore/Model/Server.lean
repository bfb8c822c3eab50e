import MemStore.Model.RankNatives

/-!
# The module on its server

`Native` is the table `MemStore_natives` without `mem_iterate_keys`, which calls
back into the plugin and gets a definition of its own.

The callback of `mem_iterate_keys` is plugin code, and may call natives itself.
It is a function on the manager, the clock and the memory of its plugin; a
`Session` is what plugins may do with the module, and asks of a callback that
what it does is a session, too.  A session also has the module's entry points:
`OnPluginsUnloaded` at a map change and `OnAmxxDetach` at the end.
-/

namespace MemStore

/-! ## The table of natives -/

/-- The natives that do not call back. -/
inductive Native
  | setInt | getInt | setFloat | getFloat | setString | getString | setArray | getArray
  | getArraySize | getKeyType | keyExists | deleteKey | clearNamespace | setExpire
  | getNamespaceCount | getKeyAt | rankSet | rankGetScore | rankGetPos | rankGetTop
  | rankGetCount | rankDelete | rankClear | setLimits | incInt | incFloat | rankInc | getTtl
  | rankGetRange | rankExists | getMemoryStats | flushAll
  deriving DecidableEq, Repr

/-- The name a native is registered under. -/
def Native.name : Native → String
  | .setInt => "mem_set_int"
  | .getInt => "mem_get_int"
  | .setFloat => "mem_set_float"
  | .getFloat => "mem_get_float"
  | .setString => "mem_set_string"
  | .getString => "mem_get_string"
  | .setArray => "mem_set_array"
  | .getArray => "mem_get_array"
  | .getArraySize => "mem_get_array_size"
  | .getKeyType => "mem_get_key_type"
  | .keyExists => "mem_key_exists"
  | .deleteKey => "mem_delete_key"
  | .clearNamespace => "mem_clear_namespace"
  | .setExpire => "mem_set_expire"
  | .getNamespaceCount => "mem_get_namespace_count"
  | .getKeyAt => "mem_get_key_at"
  | .rankSet => "mem_rank_set"
  | .rankGetScore => "mem_rank_get_score"
  | .rankGetPos => "mem_rank_get_pos"
  | .rankGetTop => "mem_rank_get_top"
  | .rankGetCount => "mem_rank_get_count"
  | .rankDelete => "mem_rank_delete"
  | .rankClear => "mem_rank_clear"
  | .setLimits => "mem_set_limits"
  | .incInt => "mem_inc_int"
  | .incFloat => "mem_inc_float"
  | .rankInc => "mem_rank_inc"
  | .getTtl => "mem_get_ttl"
  | .rankGetRange => "mem_rank_get_range"
  | .rankExists => "mem_rank_exists"
  | .getMemoryStats => "mem_get_memory_stats"
  | .flushAll => "mem_flush_all"

/-- The table in its order, without `mem_iterate_keys`. -/
def memStoreNatives : List Native :=
  [.setInt, .getInt, .setFloat, .getFloat, .setString, .getString, .setArray, .getArray,
    .getArraySize, .getKeyType, .keyExists, .deleteKey, .clearNamespace, .setExpire,
    .getNamespaceCount, .getKeyAt, .rankSet, .rankGetScore, .rankGetPos, .rankGetTop,
    .rankGetCount, .rankDelete, .rankClear, .setLimits, .incInt, .incFloat, .rankInc, .getTtl,
    .rankGetRange, .rankExists, .getMemoryStats, .flushAll]

theorem mem_memStoreNatives (native : Native) : native ∈ memStoreNatives := by
  cases native <;> decide

/-- No two natives are registered under one name. -/
theorem nodup_names : ("mem_iterate_keys" :: memStoreNatives.map Native.name).Nodup := by
  decide +kernel

/-- A plugin that asks for a native by its name gets that one. -/
theorem Native.name_injective : Function.Injective Native.name := fun native native' h =>
  List.inj_on_of_nodup_map (List.nodup_cons.mp nodup_names).2 (mem_memStoreNatives native)
    (mem_memStoreNatives native') h

variable (host : AmxHost) (alg : StdAlgorithm RankPair)

/-- The function a native is registered with. -/
def Native.run (s : MemStoreManager) (env : Env) (mem : AmxMemory) (params : List Cell) :
    Native → NativeOutcome
  | .setInt => amxxMemSetInt host s env mem params
  | .getInt => amxxMemGetInt host s env mem params
  | .setFloat => amxxMemSetFloat host s env mem params
  | .getFloat => amxxMemGetFloat host s env mem params
  | .setString => amxxMemSetString host s env mem params
  | .getString => amxxMemGetString host s env mem params
  | .setArray => amxxMemSetArray host s env mem params
  | .getArray => amxxMemGetArray host s env mem params
  | .getArraySize => amxxMemGetArraySize host s env mem params
  | .getKeyType => amxxMemGetKeyType host s env mem params
  | .keyExists => amxxMemKeyExists host s env mem params
  | .deleteKey => amxxMemDeleteKey host s mem params
  | .clearNamespace => amxxMemClearNamespace host s mem params
  | .setExpire => amxxMemSetExpire host s env mem params
  | .getNamespaceCount => amxxMemGetNamespaceCount host s env mem params
  | .getKeyAt => amxxMemGetKeyAt host s env mem params
  | .rankSet => amxxMemRankSet host s env mem params
  | .rankGetScore => amxxMemRankGetScore host s env mem params
  | .rankGetPos => amxxMemRankGetPos host s env mem params
  | .rankGetTop => amxxMemRankGetTop host alg s env mem params
  | .rankGetCount => amxxMemRankGetCount host s env mem params
  | .rankDelete => amxxMemRankDelete host s mem params
  | .rankClear => amxxMemRankClear host s mem params
  | .setLimits => amxxMemSetLimitsParams alg s env mem params
  | .incInt => amxxMemIncInt host s env mem params
  | .incFloat => amxxMemIncFloat host s env mem params
  | .rankInc => amxxMemRankInc host s env mem params
  | .getTtl => amxxMemGetTtl host s env mem params
  | .rankGetRange => amxxMemRankGetRangeParams host alg s env mem params
  | .rankExists => amxxMemRankExists host s env mem params
  | .getMemoryStats => amxxMemGetMemoryStatsParams host s mem params
  | .flushAll => amxxMemFlushAll s mem params

/-- A call of a native by a plugin. -/
structure NativeCall where
  native : Native
  params : List Cell
  mem : AmxMemory
  env : Env

/-- A plugin calls a native. -/
def World.native (w : World) (c : NativeCall) : Option (World × NativeResult) :=
  if w.clock ≤ c.env.first then
    (c.native.run host alg w.store c.env c.mem c.params).map fun r => (⟨r.1, c.env.third⟩, r.2)
  else none

/-! ## Iterating over keys -/

/-- A manager and a plugin. -/
structure PluginWorld where
  world : World
  mem : AmxMemory

/-- A public function of a plugin that takes a string and a cell.  It is `none`
where the natives it calls have no behaviour. -/
abbrev Callback := StdString → Cell → PluginWorld → Option (PluginWorld × Cell)

/-- The loop of `amxx_mem_iterate_keys`, which counts the calls it makes. -/
def iterateKeys (callback : Callback) (extraData : Cell) :
    List StdString → Cell → PluginWorld → Option (PluginWorld × Cell)
  | [], count, p => some (p, count)
  | key :: keys, count, p =>
      (callback (cStr key) extraData p).bind fun r =>
        -- PLUGIN_HANDLED
        if r.2 = 1 then some (r.1, count + 1)
        else iterateKeys callback extraData keys (count + 1) r.1

/-- A call of `mem_iterate_keys`; `callbacks` are the public functions of the
plugin that calls. -/
structure IterateCall where
  params : List Cell
  mem : AmxMemory
  now : TimePoint
  callbacks : StdString → Option Callback

/-- `amxx_mem_iterate_keys`. -/
def World.iterate (w : World) (c : IterateCall) : Option (World × NativeResult) :=
  if w.clock ≤ c.now then
    match c.params with
    | ns :: callbackFunction :: rest =>
        match getNamespace host c.mem ns with
        | .error e => some (⟨w.store, c.now⟩, ⟨0, c.mem, some e⟩)
        | .ok ns =>
            match nonemptyText host c.mem .emptyCallback callbackFunction with
            | .error e => some (⟨w.store, c.now⟩, ⟨0, c.mem, some e⟩)
            | .ok funcName =>
                match c.callbacks funcName with
                | none => some (⟨w.store, c.now⟩, ⟨0, c.mem, some (.callbackNotFound funcName)⟩)
                | some callback =>
                    let r := w.store.getActiveKeys ns c.now
                    (iterateKeys callback (rest[0]?.getD 0) r.2 0 ⟨⟨r.1, c.now⟩, c.mem⟩).map
                      fun x => (x.1.world, ⟨x.2, x.1.mem, none⟩)
    | _ => none
  else none

/-! ## Entry points of the module -/

/-- `OnPluginsUnloaded`. -/
def World.pluginsUnloaded (w : World) (now : TimePoint) : World := ⟨w.store.sweepMapEnd now, now⟩

/-- `OnAmxxDetach`. -/
def World.amxxDetach (w : World) (now : TimePoint) : World := ⟨w.store.clearAll, now⟩

/-- What can happen to the module between two moments. -/
inductive Session : World → World → Prop
  | nil (w : World) : Session w w
  | native {w w' w'' : World} {c : NativeCall} {r : NativeResult}
      (hcall : w.native host alg c = some (w', r)) (hrest : Session w' w'') : Session w w''
  | iterate {w w' w'' : World} {c : IterateCall} {r : NativeResult}
      (hcallbacks : ∀ funcName callback, c.callbacks funcName = some callback →
        ∀ key data p p' ret, callback key data p = some (p', ret) → Session p.world p'.world)
      (hcall : w.iterate host c = some (w', r)) (hrest : Session w' w'') : Session w w''
  | pluginsUnloaded {w w'' : World} {now : TimePoint} (hclock : w.clock ≤ now)
      (hrest : Session (w.pluginsUnloaded now) w'') : Session w w''
  | amxxDetach {w w'' : World} {now : TimePoint} (hclock : w.clock ≤ now)
      (hrest : Session (w.amxxDetach now) w'') : Session w w''

end MemStore
