import MemStore.Model.KeyValueNatives

/-!
# The natives over leaderboards, limits and statistics

The remaining natives of `Natives.cpp`, except for `mem_iterate_keys`.  Three of
them have their core in `Model.Natives`; here they get the parameters as the
plugin passes them.
-/

namespace MemStore

variable (host : AmxHost) (alg : StdAlgorithm RankPair) (s : MemStoreManager) (env : Env)
  (mem : AmxMemory)

/-! ## Leaderboards -/

/-- `amxx_mem_rank_set`. -/
def amxxMemRankSet : List Cell → NativeOutcome
  | ns :: key :: score :: rest =>
      setter host s mem ns key rest fun ns key policy extra =>
        s.rankSet env.layout ns key score policy extra env.first
  | _ => none

/-- `amxx_mem_rank_inc`. -/
def amxxMemRankInc : List Cell → NativeOutcome
  | ns :: key :: rest =>
      incrementer host s mem ns key rest (fun ns key policy extra =>
        s.rankInc env.layout ns key (rest[0]?.getD 1) policy extra env.first env.second) 0
  | _ => none

/-- `amxx_mem_rank_get_score`. -/
def amxxMemRankGetScore : List Cell → NativeOutcome
  | ns :: key :: score :: _ =>
      guarded 0 s mem do
        let names ← getNamespaceAndKey host mem ns key
        let r := s.rankGetScore names.1 names.2 env.first
        pure (some (r.1,
          match r.2 with
          | none => ⟨0, mem, none⟩
          | some value => ⟨1, setReference host mem score value, none⟩))
  | _ => none

/-- `amxx_mem_rank_get_pos`. -/
def amxxMemRankGetPos : List Cell → NativeOutcome
  | ns :: key :: rest =>
      guarded 0 s mem do
        let names ← getNamespaceAndKey host mem ns key
        let order ← orderParam rest[0]?
        let r := s.rankGetPosition names.1 names.2 order env.first
        pure (some (r.1, ⟨Int32.ofNat r.2, mem, none⟩))
  | _ => none

/-- `amxx_mem_rank_get_top`. -/
def amxxMemRankGetTop : List Cell → NativeOutcome
  | ns :: rankPos :: dest :: maxlen :: rest =>
      guarded 0 s mem do
        let ns ← getNamespace host mem ns
        if maxlen ≤ 0 ∨ rankPos < 1 then pure (some (s, ⟨0, mem, none⟩))
        else
          let order ← orderParam rest[1]?
          let r := s.rankGetTop alg ns rankPos order env.first
          pure (some (r.1,
            match r.2 with
            | none => ⟨0, mem, none⟩
            | some (key, score) =>
                ⟨1, setOptional host (host.setAmxString mem dest (cStr key) maxlen) rest[0]? score,
                  none⟩))
  | _ => none

/-- `amxx_mem_rank_get_count`. -/
def amxxMemRankGetCount : List Cell → NativeOutcome
  | ns :: _ =>
      onNamespace host s mem ns fun ns =>
        let r := s.rankGetCount ns env.first
        (r.1, Int32.ofNat r.2)
  | _ => none

/-- `amxx_mem_rank_delete`. -/
def amxxMemRankDelete : List Cell → NativeOutcome
  | ns :: key :: _ =>
      onKey host s mem 0 ns key fun ns key =>
        let r := s.rankDelete ns key
        (r.1, boolCell r.2)
  | _ => none

/-- `amxx_mem_rank_clear`. -/
def amxxMemRankClear : List Cell → NativeOutcome
  | ns :: _ =>
      onNamespace host s mem ns fun ns =>
        let r := s.rankClear ns
        (r.1, boolCell r.2)
  | _ => none

/-- `amxx_mem_rank_exists`. -/
def amxxMemRankExists : List Cell → NativeOutcome
  | ns :: key :: _ =>
      onKey host s mem 0 ns key fun ns key =>
        let r := s.rankExists ns key env.first
        (r.1, boolCell r.2)
  | _ => none

/-- The error `amxx_mem_rank_get_range` logs about its numbers: only those that
pass the silent checks come to the order. -/
def RangeParams.error (p : RangeParams) : Option NativeError :=
  if p.startPos < 1 ∨ p.count ≤ 0 ∨ p.maxItems ≤ 0 ∨ p.maxKeyLen ≤ 0 then none
  else
    match orderParam p.order with
    | .ok _ => none
    | .error e => some e

/-- `amxx_mem_rank_get_range` with its parameters. -/
def amxxMemRankGetRangeParams : List Cell → NativeOutcome
  | ns :: startPos :: count :: keys :: scores :: maxItems :: maxKeyLen :: rest =>
      guarded 0 s mem do
        let ns ← getNamespace host mem ns
        let p : RangeParams := ⟨ns, startPos, count, keys, scores, maxItems, maxKeyLen, rest[0]?⟩
        let r := amxxMemRankGetRange alg host.toAmxLibrary s mem p env.first
        pure (r.2.map fun written => (r.1, ⟨written.2, written.1, p.error⟩))
  | _ => none

/-! ## Limits and statistics -/

/-- `amxx_mem_set_limits` with its parameters. -/
def amxxMemSetLimitsParams : List Cell → NativeOutcome
  | maxKeys :: maxArray :: maxStr :: rest =>
      (exec alg s env (amxxMemSetLimits maxKeys maxArray maxStr rest[0]? rest[1]?)).map fun r =>
        (r.1, ⟨1, mem, none⟩)
  | _ => none

/-- `amxx_mem_get_memory_stats` with its parameters. -/
def amxxMemGetMemoryStatsParams (params : List Cell) : NativeOutcome :=
  let stats := amxxMemGetMemoryStats s
  let mem := setOptional host mem params[0]? stats.usedBytes
  let mem := setOptional host mem params[1]? stats.maxBytes
  let mem := setOptional host mem params[2]? stats.nsCount
  let mem := setOptional host mem params[3]? stats.rankNsCount
  some (s, ⟨1, mem, none⟩)

/-- `amxx_mem_flush_all`. -/
def amxxMemFlushAll (_ : List Cell) : NativeOutcome := some (s.flushAll, ⟨1, mem, none⟩)

end MemStore
