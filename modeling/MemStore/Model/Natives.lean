import MemStore.Model.Calls

/-!
# Natives with arithmetic of their own

Most natives check their parameters and pass them on to the manager.  The three
modelled here do more: `mem_set_limits` turns cells into sizes,
`mem_get_memory_stats` turns sizes back into cells, and `mem_rank_get_range`
writes its results into arrays of the plugin.

A plugin's memory maps byte addresses to cells.  Addresses are cells themselves
and are added as 32-bit numbers, by the natives and by the virtual machine.
`MF_SetAmxString` belongs to the host; what its documentation says of it is part
of `AmxLibrary`.  The parameters a plugin may leave out are options.
-/

namespace MemStore

/-! ## Limits and statistics -/

/-- `(value > 0) ? static_cast<size_t>(value) : fallback`. -/
def positiveOr (fallback : SizeT) (value : Cell) : SizeT :=
  if 0 < value then value.toUInt32 else fallback

/-- `amxx_mem_set_limits`: the call of `SetLimits` it makes. -/
def amxxMemSetLimits (maxKeys maxArray maxStr : Cell) (maxNsParam maxMemParam : Option Cell) :
    Op :=
  .setLimits (positiveOr 5000 maxKeys) (positiveOr 4096 maxArray) (positiveOr 4096 maxStr)
    (maxNsParam.elim 0 (positiveOr 0)) (maxMemParam.elim 0 (positiveOr 0))

/-- The cells `mem_get_memory_stats` hands to the plugin. -/
structure MemoryStatsCells where
  usedBytes : Cell
  maxBytes : Cell
  nsCount : Cell
  rankNsCount : Cell
  deriving DecidableEq, Repr

/-- `amxx_mem_get_memory_stats`: what it writes to the parameters that are passed. -/
def amxxMemGetMemoryStats (s : MemStoreManager) : MemoryStatsCells where
  usedBytes := s.getMemoryStats.usedBytes.toInt32
  maxBytes := s.getMemoryStats.maxBytes.toInt32
  nsCount := (UInt32.ofNat s.getMemoryStats.nsCount).toInt32
  rankNsCount := (UInt32.ofNat s.getMemoryStats.rankNsCount).toInt32

/-! ## The memory of a plugin -/

/-- The cell at every byte address. -/
abbrev AmxMemory := Cell → Cell

/-- The address of `base[i]`. -/
def cellAddr (base : Cell) (i : ℕ) : Cell := base + Int32.ofNat (4 * i)

namespace AmxMemory

/-- `base[i]`. -/
def read (mem : AmxMemory) (base : Cell) (i : ℕ) : Cell := mem (cellAddr base i)

/-- Store one cell. -/
def set (mem : AmxMemory) (addr value : Cell) : AmxMemory :=
  fun a => if a = addr then value else mem a

/-- Store the cells one after another from `base` on. -/
def setCells (mem : AmxMemory) (base : Cell) : List Cell → AmxMemory
  | [] => mem
  | value :: rest => (mem.set base value).setCells (base + 4) rest

end AmxMemory

/-- The characters of `s.c_str()`. -/
def cStr (s : StdString) : StdString := s.takeWhile (· ≠ 0)

/-- The services of the host, with what is documented of them. -/
structure AmxLibrary where
  /-- A character as a cell. -/
  charCell : UInt8 → Cell
  /-- `MF_SetAmxString`. -/
  setAmxString : AmxMemory → Cell → StdString → Cell → AmxMemory
  charCell_ne_zero : ∀ c, c ≠ 0 → charCell c ≠ 0
  setAmxString_eq : ∀ mem addr s max, 0 < max → 0 ∉ s →
    setAmxString mem addr s max =
      mem.setCells addr ((s.take max.toInt.toNat).map charCell ++ [0])

/-- The host with characters that are signed. -/
def AmxLibrary.signedChars : AmxLibrary where
  charCell c := c.toInt8.toInt32
  setAmxString mem addr s max :=
    mem.setCells addr ((s.take max.toInt.toNat).map (fun c => c.toInt8.toInt32) ++ [0])
  charCell_ne_zero := by
    intro c hne hzero
    have hchar : c.toInt8.toInt = 0 := by
      rw [← Int8.toInt_toInt32, hzero]
      rfl
    have hsigned : c.toInt8 = 0 := Int8.toInt_inj.mp hchar
    rw [← c.toUInt8_toInt8, hsigned] at hne
    exact hne rfl
  setAmxString_eq := fun _ _ _ _ _ _ => rfl

/-! ## A slice of the leaderboard -/

/-- `static_cast<RankOrder>`, for the values that `IsValidRankOrder` lets through. -/
def rankOrderOf (value : Cell) : Option RankOrder :=
  if value = 0 then some .desc else if value = 1 then some .asc else none

/-- The loop of `amxx_mem_rank_get_range` from its `i`-th round on.  An array
that is passed as 0 is left out. -/
def writeRows (lib : AmxLibrary) (keys scores maxKeyLen : Cell) :
    ℕ → List (StdString × Cell) → AmxMemory → AmxMemory
  | _, [], mem => mem
  | i, (key, score) :: rest, mem =>
      let mem :=
        if keys ≠ 0 then
          let rowAddr := keys + mem.read keys i
          lib.setAmxString mem rowAddr (cStr key) maxKeyLen
        else mem
      let mem := if scores ≠ 0 then mem.set (cellAddr scores i) score else mem
      writeRows lib keys scores maxKeyLen (i + 1) rest mem

/-- The parameters of `mem_rank_get_range`. -/
structure RangeParams where
  ns : StdString
  startPos : Cell
  count : Cell
  keys : Cell
  scores : Cell
  maxItems : Cell
  maxKeyLen : Cell
  order : Option Cell := none

/-- `fetchCount`. -/
def RangeParams.fetchCount (p : RangeParams) : SizeT := min p.count.toUInt32 p.maxItems.toUInt32

/-- `amxx_mem_rank_get_range`.  The result is `none` if `RankGetRange` throws,
otherwise the memory of the plugin and the number of entries retrieved. -/
def amxxMemRankGetRange (alg : StdAlgorithm RankPair) (lib : AmxLibrary) (s : MemStoreManager)
    (mem : AmxMemory) (p : RangeParams) (now : TimePoint) :
    MemStoreManager × Option (AmxMemory × Cell) :=
  if p.ns = [] then (s, some (mem, 0))
  else if p.startPos < 1 ∨ p.count ≤ 0 then (s, some (mem, 0))
  else if p.maxItems ≤ 0 ∨ p.maxKeyLen ≤ 0 then (s, some (mem, 0))
  else
    match p.order.elim (some .desc) rankOrderOf with
    | none => (s, some (mem, 0))
    | some order =>
        let r := s.rankGetRange alg p.ns p.startPos p.fetchCount order now
        (r.1, r.2.map fun results =>
          (writeRows lib p.keys p.scores p.maxKeyLen 0 results mem,
            Int32.ofNat results.length))

end MemStore
