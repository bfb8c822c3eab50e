import MemStore.Containers.Selection
import MemStore.Model.Manager

/-!
# The leaderboard operations and the lifecycle hooks

The rank half of `MemStoreManager`, then the sweep and the operations on the
manager as a whole.

* `RankGetPosition` counts better entries; `RankGetTop` and `RankGetRange`
  copy the live entries into a vector and select by a comparator, through the
  standard algorithms `alg`.
* Positions are natural numbers.  The source counts them in an `int32_t`, which
  would wrap at a board of 2^31 entries; the 32-bit address space is exhausted
  long before.
* `RankGetRange` adds its `size_t` bounds with wrap-around.
-/

namespace MemStore

/-- One pair of `activeEntries`. -/
abbrev RankPair := StdString × RankEntry

/-- `compDesc`. -/
def compDesc (a b : RankPair) : Bool :=
  if a.2.score ≠ b.2.score then b.2.score < a.2.score else a.2.sequence < b.2.sequence

/-- `compAsc`. -/
def compAsc (a b : RankPair) : Bool :=
  if a.2.score ≠ b.2.score then a.2.score < b.2.score else a.2.sequence < b.2.sequence

/-- The comparator chosen by the order. -/
def comp (order : RankOrder) : RankPair → RankPair → Bool :=
  match order with
  | .desc => compDesc
  | .asc => compAsc

/-- The test in the counting loop of `RankGetPosition`. -/
def outranks (order : RankOrder) (e : RankEntry) (targetScore : Cell) (targetSeq : UInt64) :
    Bool :=
  match order with
  | .desc =>
      targetScore < e.score || (e.score == targetScore && e.sequence < targetSeq)
  | .asc =>
      e.score < targetScore || (e.score == targetScore && e.sequence < targetSeq)

namespace MemStoreManager

/-- `m_Ranks.find(ns)` followed by `find(key)`; `none` when either fails. -/
def rankAt (s : MemStoreManager) (ns key : StdString) : Option RankEntry :=
  NestedMap.at? s.ranks ns key

/-- Erase one rank entry and drop an emptied board. -/
def eraseRankEntry (s : MemStoreManager) (ns key : StdString) : MemStoreManager :=
  { s with ranks := NestedMap.dropIfEmpty (s.ranks.modify ns fun board => board.erase key) ns }

/-- Change a stored rank entry through a reference to it. -/
def modifyRankEntry (s : MemStoreManager) (ns key : StdString) (f : RankEntry → RankEntry) :
    MemStoreManager :=
  { s with ranks := NestedMap.modifyAt s.ranks ns key f }

/-- The loop of the queries over a whole board: erase its expired entries and
drop the board if that empties it.  The result is what is kept. -/
def purgeBoard (s : MemStoreManager) (ns : StdString) (now : TimePoint) :
    MemStoreManager × UnorderedMap StdString RankEntry :=
  match s.ranks.find? ns with
  | none => (s, ∅)
  | some board =>
      ({ s with
          ranks := NestedMap.dropIfEmpty
            (s.ranks.modify ns fun board => board.eraseIf fun e => e.isExpired now) ns },
        board.eraseIf fun e => e.isExpired now)

/-- `RankSet`.  A new board is created before the limit on its entries is tested. -/
def rankSet (s : MemStoreManager) (layout : Layout) (ns key : StdString) (score : Cell)
    (policy : ExpirePolicy) (extra : Int32) (now : TimePoint) : MemStoreManager × Bool :=
  if (s.ranks.find? ns).isNone && s.maxNamespaces.toNat ≤ s.ranks.size then (s, false)
  else
    let s := { s with ranks := s.ranks.upsert layout ns ∅ fun board => board }
    let rankMap := NestedMap.inner s.ranks ns
    if (rankMap.find? key).isNone && s.maxKeysPerNamespace.toNat ≤ rankMap.size then (s, false)
    else
      let sequence := s.rankSequenceCounter + 1
      ({ s with
          rankSequenceCounter := sequence
          ranks := s.ranks.modify ns fun board => board.upsert layout key {} fun e =>
            applyRankExpiration { e with score := score, sequence := sequence } policy extra now },
        true)

/-- `RankGetScore`; the result is `scoreOut` when it returns true. -/
def rankGetScore (s : MemStoreManager) (ns key : StdString) (now : TimePoint) :
    MemStoreManager × Option Cell :=
  match s.rankAt ns key with
  | none => (s, none)
  | some e => if e.isExpired now then (s.eraseRankEntry ns key, none) else (s, some e.score)

/-- `RankExists`. -/
def rankExists (s : MemStoreManager) (ns key : StdString) (now : TimePoint) :
    MemStoreManager × Bool :=
  let r := s.rankGetScore ns key now
  (r.1, r.2.isSome)

/-- `RankGetPosition`. -/
def rankGetPosition (s : MemStoreManager) (ns key : StdString) (order : RankOrder)
    (now : TimePoint) : MemStoreManager × ℕ :=
  match s.rankAt ns key with
  | none => (s, 0)
  | some target =>
      if target.isExpired now then (s.eraseRankEntry ns key, 0)
      else
        let r := s.purgeBoard ns now
        (r.1, 1 + r.2.entries.countP fun pair =>
          pair.1 ≠ key && outranks order pair.2 target.score target.sequence)

/-- `RankGetTop`; the result is `keyOut` and `scoreOut` when it returns true. -/
def rankGetTop (alg : StdAlgorithm RankPair) (s : MemStoreManager) (ns : StdString)
    (rankPos : Int32) (order : RankOrder) (now : TimePoint) :
    MemStoreManager × Option (StdString × Cell) :=
  if rankPos < 1 then (s, none)
  else
    let r := s.purgeBoard ns now
    let activeEntries := r.2.entries
    if activeEntries.length < rankPos.toInt.toNat then (r.1, none)
    else
      let targetIdx := (rankPos - 1).toInt.toNat
      (r.1, (alg.nthElement (comp order) targetIdx activeEntries)[targetIdx]?.map fun pair =>
        (pair.1, pair.2.score))

/-- `RankGetCount`. -/
def rankGetCount (s : MemStoreManager) (ns : StdString) (now : TimePoint) :
    MemStoreManager × ℕ :=
  let r := s.purgeBoard ns now
  (r.1, r.2.size)

/-- `RankGetRange`; `none` when `reserve(endIndex - startIndex)` throws because
the subtraction wraps. -/
def rankGetRange (alg : StdAlgorithm RankPair) (s : MemStoreManager) (ns : StdString)
    (startPos : Int32) (count : SizeT) (order : RankOrder) (now : TimePoint) :
    MemStoreManager × Option (List (StdString × Cell)) :=
  if startPos < 1 ∨ count = 0 then (s, some [])
  else
    let r := s.purgeBoard ns now
    let activeEntries := r.2.entries
    let startIndex : SizeT := UInt32.ofNat (startPos - 1).toInt.toNat
    if activeEntries.length ≤ startIndex.toNat then (r.1, some [])
    else
      let endIndex := min (startIndex + count).toNat activeEntries.length
      let sorted :=
        if endIndex < activeEntries.length then
          alg.partialSort (comp order) endIndex activeEntries
        else alg.sort (comp order) activeEntries
      if endIndex < startIndex.toNat then (r.1, none)
      else
        (r.1, some (((sorted.take endIndex).drop startIndex.toNat).map fun pair =>
          (pair.1, pair.2.score)))

/-- `RankDelete`. -/
def rankDelete (s : MemStoreManager) (ns key : StdString) : MemStoreManager × Bool :=
  match s.rankAt ns key with
  | none => (s, false)
  | some _ => (s.eraseRankEntry ns key, true)

/-- `RankClear`. -/
def rankClear (s : MemStoreManager) (ns : StdString) : MemStoreManager × Bool :=
  match s.ranks.find? ns with
  | none => (s, false)
  | some _ => ({ s with ranks := s.ranks.erase ns }, true)

/-- `if (policy != ExpirePolicy::Persistent || extra != 0) ApplyRankExpiration(...)`. -/
def reapplyRankExpiration (e : RankEntry) (policy : ExpirePolicy) (extra : Int32)
    (now : TimePoint) : RankEntry :=
  if policy ≠ .persistent ∨ extra ≠ 0 then applyRankExpiration e policy extra now else e

/-- `RankInc`; the result is `newScore` when it returns true. -/
def rankInc (s : MemStoreManager) (layout : Layout) (ns key : StdString) (delta : Cell)
    (policy : ExpirePolicy) (extra : Int32) (now₀ now₁ : TimePoint) :
    MemStoreManager × Option Cell :=
  match s.rankAt ns key with
  | some e =>
      let sequence := s.rankSequenceCounter + 1
      if e.isExpired now₀ then
        ({ s with rankSequenceCounter := sequence }.modifyRankEntry ns key fun e =>
            applyRankExpiration { e with score := delta, sequence := sequence } policy extra now₁,
          some delta)
      else
        ({ s with rankSequenceCounter := sequence }.modifyRankEntry ns key fun e =>
            reapplyRankExpiration { e with score := e.score + delta, sequence := sequence }
              policy extra now₁,
          some (e.score + delta))
  | none =>
      match s.rankSet layout ns key delta policy extra now₁ with
      | (s, true) => (s, some delta)
      | (s, false) => (s, none)

/-! ## Lifecycle hooks and administration -/

/-- `SweepMapEnd`. -/
def sweepMapEnd (s : MemStoreManager) (now : TimePoint) : MemStoreManager :=
  let s :=
    s.namespaces.entries.foldl (fun s keyMap =>
      keyMap.2.entries.foldl (fun s pair =>
        if (sweepEntry now pair.2).isNone then s.release (getPayloadBytes pair.2) else s) s) s
  { s with
    namespaces := NestedMap.retainAll s.namespaces fun _ e => sweepEntry now e
    keyCaches := ∅
    ranks := NestedMap.retainAll s.ranks fun _ e => sweepRankEntry now e }

/-- `ClearAll`. -/
def clearAll (s : MemStoreManager) : MemStoreManager :=
  { s with
    namespaces := ∅
    ranks := ∅
    keyCaches := ∅
    approxMemoryUsed := 0
    rankSequenceCounter := 0 }

/-- `FlushAll`. -/
def flushAll (s : MemStoreManager) : MemStoreManager := s.clearAll

/-- What `GetMemoryStats` writes to its out-parameters. -/
structure MemoryStats where
  usedBytes : SizeT
  maxBytes : SizeT
  nsCount : ℕ
  rankNsCount : ℕ
  deriving DecidableEq, Repr

/-- `GetMemoryStats`. -/
def getMemoryStats (s : MemStoreManager) : MemoryStats where
  usedBytes := s.approxMemoryUsed
  maxBytes := s.maxMemoryBytes
  nsCount := s.namespaces.size
  rankNsCount := s.ranks.size

end MemStoreManager

end MemStore
