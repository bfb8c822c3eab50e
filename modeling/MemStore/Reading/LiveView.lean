import MemStore.Steps.Changes

/-!
# What the reads see

Expired entries stay in the manager until some call comes across them.  No read
operation lets on: its reply is a function of the entries that are live at its
clock reading, the `LiveView`, and of nothing else.

* `query_reply` computes the reply of each read operation from the view
  (`Query.answer`), in which nothing expires and nothing is erased.
* `Reads.liveView` says that what reads erase is not in the view, then or later.

Together they allow proofs about replies to forget that reads have side
effects.
-/

namespace MemStore

open MemStoreManager

/-! ## Views -/

/-- The entries a reader can see, in the order in which the maps list them. -/
structure LiveView where
  namespaces : StdString → UnorderedMap StdString StoreEntry
  ranks : StdString → UnorderedMap StdString RankEntry

namespace LiveView

def entryAt (view : LiveView) (ns key : StdString) : Option StoreEntry :=
  (view.namespaces ns).find? key

def rankAt (view : LiveView) (ns key : StdString) : Option RankEntry :=
  (view.ranks ns).find? key

/-- What is left of a view at a clock reading. -/
def expire (view : LiveView) (now : TimePoint) : LiveView where
  namespaces ns := (view.namespaces ns).eraseIf fun e => e.isExpired now
  ranks ns := (view.ranks ns).eraseIf fun e => e.isExpired now

end LiveView

/-- The entries that are live at a clock reading. -/
def MemStoreManager.liveView (s : MemStoreManager) (now : TimePoint) : LiveView :=
  LiveView.expire ⟨NestedMap.inner s.namespaces, NestedMap.inner s.ranks⟩ now

theorem entryAt_liveView (s : MemStoreManager) (now : TimePoint) (ns key : StdString) :
    (s.liveView now).entryAt ns key = s.liveAt now ns key :=
  UnorderedMap.find?_eraseIf ..

theorem rankAt_liveView (s : MemStoreManager) (now : TimePoint) (ns key : StdString) :
    (s.liveView now).rankAt ns key = s.liveRankAt now ns key :=
  UnorderedMap.find?_eraseIf ..

/-- Erasing what has expired, and again later, is erasing it later. -/
private theorem eraseIf_isExpired {ε : Type} (toExpiration : ε → Expiration)
    {now later : TimePoint} (hle : now ≤ later) (m : UnorderedMap StdString ε) :
    (m.eraseIf fun e => (toExpiration e).isExpired now).eraseIf
        (fun e => (toExpiration e).isExpired later) =
      m.eraseIf fun e => (toExpiration e).isExpired later := by
  rw [UnorderedMap.eraseIf_eraseIf]
  congr 1
  funext e
  cases hexp : (toExpiration e).isExpired now with
  | false => rfl
  | true => rw [Expiration.isExpired_of_later hle hexp]; rfl

theorem expire_liveView (s : MemStoreManager) {now later : TimePoint} (hle : now ≤ later) :
    (s.liveView now).expire later = s.liveView later := by
  have hentries := fun ns => eraseIf_isExpired (fun e : StoreEntry => e.toExpiration) hle
    (NestedMap.inner s.namespaces ns)
  have hranks := fun ns => eraseIf_isExpired (fun e : RankEntry => e.toExpiration) hle
    (NestedMap.inner s.ranks ns)
  exact congrArg₂ LiveView.mk (funext hentries) (funext hranks)

/-- Erasing an expired entry does not show among those that are not expired. -/
private theorem eraseIf_erase {ε : Type} {p : ε → Bool} {m : UnorderedMap StdString ε}
    {key : StdString} {e : ε} (hfind : m.find? key = some e) (hexp : p e = true) :
    (m.filterMap fun k v => if k = key then none else some v).eraseIf p = m.eraseIf p := by
  rw [UnorderedMap.eraseIf, UnorderedMap.filterMap_filterMap]
  refine UnorderedMap.filterMap_congr fun k v hk => ?_
  by_cases hkey : k = key
  · subst hkey
    rw [hfind] at hk
    cases hk
    simp [hexp]
  · simp [hkey]

/-- Two managers show the same from a clock reading on. -/
theorem liveView_congr {s s' : MemStoreManager} {now : TimePoint}
    (hentries : ∀ ns, (NestedMap.inner s'.namespaces ns).eraseIf (fun e => e.isExpired now) =
      (NestedMap.inner s.namespaces ns).eraseIf fun e => e.isExpired now)
    (hranks : ∀ ns, (NestedMap.inner s'.ranks ns).eraseIf (fun e => e.isExpired now) =
      (NestedMap.inner s.ranks ns).eraseIf fun e => e.isExpired now) :
    s'.liveView now = s.liveView now :=
  congrArg₂ LiveView.mk (funext hentries) (funext hranks)

theorem ReadEffect.liveView {latest : TimePoint} {s s' : MemStoreManager}
    (h : ReadEffect latest s s') : s'.liveView latest = s.liveView latest := by
  cases h with
  | recache => rfl
  | @erase ns key e releases hentry hexp =>
      -- whether bytes are released shows in neither map
      have hnamespaces : ((if releases then s.release (getPayloadBytes e) else s).eraseEntry ns
          key).namespaces =
          NestedMap.retainAt s.namespaces ns fun k e => if k = key then none else some e := by
        rw [eraseEntry_namespaces]
        split <;> rfl
      have hranks : ((if releases then s.release (getPayloadBytes e) else s).eraseEntry ns
          key).ranks = s.ranks := by
        rw [eraseEntry_ranks]
        split <;> rfl
      apply liveView_congr
      · intro ns'
        rw [hnamespaces, NestedMap.inner_retainAt]
        by_cases hns : ns' = ns
        · rw [if_pos hns, hns]
          exact eraseIf_erase (p := fun e => e.isExpired latest) hentry hexp
        · rw [if_neg hns]
      · intro ns'
        rw [hranks]
  | @purge invalidates ns now hle =>
      apply liveView_congr
      · intro ns'
        rw [purgeNamespace_namespaces, NestedMap.inner_retainAt]
        by_cases hns : ns' = ns
        · rw [if_pos hns, hns]
          exact eraseIf_isExpired (fun e : StoreEntry => e.toExpiration) hle _
        · rw [if_neg hns]
      · intro ns'
        rw [(sameRanks_purgeNamespace invalidates s ns now).ranks]
  | @eraseRank ns key e hentry hexp =>
      apply liveView_congr
      · intro ns'
        rw [(sameKeyValues_eraseRankEntry s ns key).namespaces]
      · intro ns'
        rw [eraseRankEntry_ranks, NestedMap.inner_retainAt]
        by_cases hns : ns' = ns
        · rw [if_pos hns, hns]
          exact eraseIf_erase (p := fun e => e.isExpired latest) hentry hexp
        · rw [if_neg hns]
  | @purgeRank ns now hle =>
      apply liveView_congr
      · intro ns'
        rw [(sameKeyValues_purgeBoard s ns now).namespaces]
      · intro ns'
        rw [purgeBoard_ranks, NestedMap.inner_retainAt]
        by_cases hns : ns' = ns
        · rw [if_pos hns, hns]
          exact eraseIf_isExpired (fun e : RankEntry => e.toExpiration) hle _
        · rw [if_neg hns]

/-- Reads up to one clock reading leave the view from then on as it is. -/
theorem Reads.liveView {latest later : TimePoint} {s s' : MemStoreManager}
    (h : Reads latest s s') (hle : latest ≤ later) : s'.liveView later = s.liveView later := by
  have hlatest : s'.liveView latest = s.liveView latest := by
    induction h with
    | refl => rfl
    | tail _ heffect ih => exact heffect.liveView.trans ih
  rw [← expire_liveView s' hle, hlatest, expire_liveView s hle]

/-! ## Replies -/

namespace LiveView

variable (view : LiveView) (ns key : StdString)

/-- The reply of `RankGetPosition`. -/
def position (order : RankOrder) : ℕ :=
  match view.rankAt ns key with
  | none => 0
  | some target =>
      1 + (view.ranks ns).entries.countP fun pair =>
        pair.1 ≠ key && outranks order pair.2 target.score target.sequence

theorem position_of_none {view : LiveView} {ns key : StdString} {order : RankOrder}
    (h : view.rankAt ns key = none) : view.position ns key order = 0 := by
  rw [position, h]

/-- The reply of `RankGetTop`. -/
def top (alg : StdAlgorithm RankPair) (rankPos : Int32) (order : RankOrder) :
    Option (StdString × Cell) :=
  if rankPos < 1 then none
  else
    let activeEntries := (view.ranks ns).entries
    if activeEntries.length < rankPos.toInt.toNat then none
    else
      let targetIdx := (rankPos - 1).toInt.toNat
      (alg.nthElement (comp order) targetIdx activeEntries)[targetIdx]?.map fun pair =>
        (pair.1, pair.2.score)

/-- The reply of `RankGetRange`. -/
def range (alg : StdAlgorithm RankPair) (startPos : Int32) (count : SizeT) (order : RankOrder) :
    Option (List (StdString × Cell)) :=
  if startPos < 1 ∨ count = 0 then some []
  else
    let activeEntries := (view.ranks ns).entries
    let startIndex : SizeT := UInt32.ofNat (startPos - 1).toInt.toNat
    if activeEntries.length ≤ startIndex.toNat then some []
    else
      let endIndex := min (startIndex + count).toNat activeEntries.length
      let sorted :=
        if endIndex < activeEntries.length then
          alg.partialSort (comp order) endIndex activeEntries
        else alg.sort (comp order) activeEntries
      if endIndex < startIndex.toNat then none
      else
        some (((sorted.take endIndex).drop startIndex.toNat).map fun pair =>
          (pair.1, pair.2.score))

/-- The reply of `GetTTL`. -/
def ttl (now : TimePoint) : Int32 :=
  match view.entryAt ns key with
  | none => -2
  | some e =>
      if e.policy = .ttl then
        let diff := (e.expireTime - now).tdiv 1000000000
        if 0 < diff then Int32.ofInt diff else 0
      else -1

end LiveView

/-- The reply of a read operation, from what can be seen. -/
def Query.answer (alg : StdAlgorithm RankPair) (view : LiveView) (now : TimePoint) :
    Query → Reply
  | .getInt ns key d => .intRead (readAs .int (fun e => e.cellValue) d (view.entryAt ns key))
  | .getFloat ns key d =>
      .floatRead (readAs .float (fun e => e.floatValue) d (view.entryAt ns key))
  | .getString ns key d =>
      .stringRead (readAs .string (fun e => e.stringValue) d (view.entryAt ns key))
  | .getArray ns key maxlen =>
      .arrayRead (readAs .array (fun e =>
        ⟨e.arrayValue.take maxlen.toNat, min maxlen.toNat e.arrayValue.length⟩) {}
          (view.entryAt ns key))
  | .getArraySize ns key =>
      .count ((view.entryAt ns key).elim 0 fun e =>
        if e.type = .array then e.arrayValue.length else 0)
  | .getKeyType ns key => .entryType ((view.entryAt ns key).elim .none fun e => e.type)
  | .keyExists ns key => .flag (view.entryAt ns key).isSome
  | .getNamespaceCount ns => .count (view.namespaces ns).size
  | .getActiveKeys ns => .keys (view.namespaces ns).keys
  | .getTTL ns key => .ttl (view.ttl ns key now)
  | .rankGetScore ns key => .cell ((view.rankAt ns key).map fun e => e.score)
  | .rankExists ns key => .flag (view.rankAt ns key).isSome
  | .rankGetPosition ns key order => .count (view.position ns key order)
  | .rankGetTop ns rankPos order => .top (view.top ns alg rankPos order)
  | .rankGetCount ns => .count (view.ranks ns).size
  | .rankGetRange ns startPos count order => .range (view.range ns alg startPos count order)

/-! ## The replies are the answers -/

section Replies

variable (s : MemStoreManager) (ns key : StdString) (now : TimePoint)

theorem purgeNamespace_view (invalidates : Bool) :
    (s.purgeNamespace invalidates ns now).2 = (s.liveView now).namespaces ns :=
  purgeNamespace_kept ..

theorem purgeBoard_view : (s.purgeBoard ns now).2 = (s.liveView now).ranks ns :=
  purgeBoard_kept ..

theorem findLive_view (releases : Bool) :
    (s.findLive releases ns key now).2 = (s.liveView now).entryAt ns key := by
  rw [findLive_result, entryAt_liveView]

theorem getArraySize_view : (s.getArraySize ns key now).2 =
    ((s.liveView now).entryAt ns key).elim 0 fun e =>
      if e.type = .array then e.arrayValue.length else 0 := by
  rw [← findLive_view s ns key now true, getArraySize]
  split <;> next hfind => rw [hfind]; rfl

theorem getKeyType_view : (s.getKeyType ns key now).2 =
    ((s.liveView now).entryAt ns key).elim .none fun e => e.type := by
  rw [← findLive_view s ns key now false, getKeyType]
  split <;> next hfind => rw [hfind]; rfl

theorem keyExists_view :
    (s.keyExists ns key now).2 = ((s.liveView now).entryAt ns key).isSome := by
  rw [keyExists_eq, entryAt_liveView]

theorem getTTL_view : s.getTTL ns key now = (s.liveView now).ttl ns key now := by
  rw [getTTL, LiveView.ttl, entryAt_liveView, liveAt]
  cases s.entryAt ns key with
  | none => rfl
  | some e =>
      cases hexp : e.isExpired now with
      | true => simp [Option.filter, hexp]
      | false => simp [Option.filter, hexp]

theorem rankGetScore_view : (s.rankGetScore ns key now).2 =
    ((s.liveView now).rankAt ns key).map fun e => e.score := by
  rw [rankGetScore, rankAt_liveView, liveRankAt]
  cases s.rankAt ns key with
  | none => rfl
  | some e =>
      cases hexp : e.isExpired now with
      | true => simp [Option.filter, hexp]
      | false => simp [Option.filter, hexp]

theorem rankGetPosition_view (order : RankOrder) :
    (s.rankGetPosition ns key order now).2 = (s.liveView now).position ns key order := by
  rw [rankGetPosition, LiveView.position, rankAt_liveView, liveRankAt]
  cases s.rankAt ns key with
  | none => rfl
  | some e =>
      cases hexp : e.isExpired now with
      | true => simp [Option.filter, hexp]
      | false => simp [Option.filter, hexp, purgeBoard_view]

theorem rankGetTop_view (alg : StdAlgorithm RankPair) (rankPos : Int32) (order : RankOrder) :
    (s.rankGetTop alg ns rankPos order now).2 = (s.liveView now).top ns alg rankPos order := by
  simp only [rankGetTop, LiveView.top, purgeBoard_view, apply_ite Prod.snd]

theorem rankGetCount_view :
    (s.rankGetCount ns now).2 = ((s.liveView now).ranks ns).size := by
  rw [rankGetCount, purgeBoard_view]

theorem rankGetRange_view (alg : StdAlgorithm RankPair) (startPos : Int32) (count : SizeT)
    (order : RankOrder) : (s.rankGetRange alg ns startPos count order now).2 =
      (s.liveView now).range ns alg startPos count order := by
  simp only [rankGetRange, LiveView.range, purgeBoard_view, apply_ite Prod.snd]

end Replies

/-- What a read operation returns depends on what can be seen, and on nothing else. -/
theorem query_reply (alg : StdAlgorithm RankPair) (s : MemStoreManager) (now : TimePoint)
    (q : Query) : (q.run alg s now).2 = q.answer alg (s.liveView now) now := by
  cases q with
  | getInt ns key d | getFloat ns key d | getString ns key d | getArray ns key d =>
      rw [Query.answer, ← findLive_view]
      rfl
  | getArraySize ns key => exact congrArg Reply.count (getArraySize_view s ns key now)
  | getKeyType ns key => exact congrArg Reply.entryType (getKeyType_view s ns key now)
  | keyExists ns key => exact congrArg Reply.flag (keyExists_view s ns key now)
  | getNamespaceCount ns | getActiveKeys ns =>
      rw [Query.answer, ← purgeNamespace_view]
      rfl
  | getTTL ns key => exact congrArg Reply.ttl (getTTL_view s ns key now)
  | rankGetScore ns key => exact congrArg Reply.cell (rankGetScore_view s ns key now)
  | rankExists ns key =>
      have hscore := congrArg Option.isSome (rankGetScore_view s ns key now)
      rw [Option.isSome_map] at hscore
      exact congrArg Reply.flag hscore
  | rankGetPosition ns key order =>
      exact congrArg Reply.count (rankGetPosition_view s ns key now order)
  | rankGetTop ns rankPos order =>
      exact congrArg Reply.top (rankGetTop_view s ns now alg rankPos order)
  | rankGetCount ns => exact congrArg Reply.count (rankGetCount_view s ns now)
  | rankGetRange ns startPos count order =>
      exact congrArg Reply.range (rankGetRange_view s ns now alg startPos count order)

end MemStore
