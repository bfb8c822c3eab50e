import MemStore.KeyValue.Edits

/-!
# What the leaderboard operations do to the stored entries

The building blocks of the rank methods, with their effect on `rankAt`.
`RankSet` tests its limits in two places and creates a board between them;
`rankSet_eq` shows that for a positive key limit this amounts to one test
(`checkRankLimit`, the counterpart of `CheckNamespaceKeyLimit`) before one write
(`rankStore`).
-/

namespace MemStore

namespace MemStoreManager

/-- The limits of `RankSet` as one test. -/
def checkRankLimit (s : MemStoreManager) (ns key : StdString) : Bool :=
  match s.ranks.find? ns with
  | some board =>
      match board.find? key with
      | some _ => true
      | none => board.size < s.maxKeysPerNamespace.toNat
  | none => s.ranks.size < s.maxNamespaces.toNat

/-- A key that is stored passes the limits. -/
theorem checkRankLimit_of_rankAt {s : MemStoreManager} {ns key : StdString} {e : RankEntry}
    (h : s.rankAt ns key = some e) : s.checkRankLimit ns key = true := by
  have hfind : (NestedMap.inner s.ranks ns).find? key = some e := h
  simp only [checkRankLimit, NestedMap.find?_of_at? h, hfind]

/-- What an accepted `RankSet` does. -/
def rankStore (s : MemStoreManager) (layout : Layout) (ns key : StdString) (score : Cell)
    (policy : ExpirePolicy) (extra : Int32) (now : TimePoint) : MemStoreManager :=
  let sequence := s.rankSequenceCounter + 1
  { s with
    rankSequenceCounter := sequence
    ranks := NestedMap.upsertAt layout layout s.ranks ns key {} fun e =>
      applyRankExpiration { e with score := score, sequence := sequence } policy extra now }

/-- What an increment of a stored rank entry does: the counter goes up, and the
entry is changed by `f` with the new sequence number. -/
def rankTouch (s : MemStoreManager) (ns key : StdString) (f : UInt64 → RankEntry → RankEntry) :
    MemStoreManager :=
  { s with rankSequenceCounter := s.rankSequenceCounter + 1 }.modifyRankEntry ns key
    (f (s.rankSequenceCounter + 1))

theorem rankSet_eq {s : MemStoreManager} (hpos : 0 < s.maxKeysPerNamespace) (layout : Layout)
    (ns key : StdString) (score : Cell) (policy : ExpirePolicy) (extra : Int32)
    (now : TimePoint) :
    s.rankSet layout ns key score policy extra now =
      if s.checkRankLimit ns key then (s.rankStore layout ns key score policy extra now, true)
      else (s, false) := by
  have hmax : 0 < s.maxKeysPerNamespace.toNat := UInt32.lt_iff_toNat_lt.mp hpos
  unfold rankSet checkRankLimit rankStore
  cases hfind : s.ranks.find? ns with
  | none =>
      by_cases hfull : s.maxNamespaces.toNat ≤ s.ranks.size
      · simp [hfull, Nat.not_lt.mpr hfull]
      · have hinner : NestedMap.inner
            (s.ranks.upsert layout ns ∅ fun board => board) ns = ∅ := by
          rw [NestedMap.inner, UnorderedMap.find?_upsert]
          simp [hfind]
        have hnot : ¬ s.maxKeysPerNamespace.toNat ≤ 0 := by omega
        simp [hfull, Nat.not_le.mp hfull, hinner, hnot, UnorderedMap.modify_upsert,
          NestedMap.upsertAt]
  | some board =>
      have hinner : NestedMap.inner (s.ranks.upsert layout ns ∅ fun board => board) ns =
          board := by
        rw [NestedMap.inner, UnorderedMap.find?_upsert]
        simp [hfind]
      simp only [Option.isNone_some, Bool.false_and, Bool.false_eq_true, if_false, hinner,
        UnorderedMap.modify_upsert, NestedMap.upsertAt]
      rw [UnorderedMap.upsert_id_of_find? hfind]
      rcases Option.eq_none_or_eq_some (board.find? key) with hkey | ⟨e, hkey⟩
      · by_cases hfull : s.maxKeysPerNamespace.toNat ≤ board.size
        · simp [hkey, hfull, Nat.not_lt.mpr hfull]
        · simp [hkey, hfull, Nat.not_le.mp hfull]
      · simp [hkey]

/-- `RankSet` stamps the stored entry and inserts nothing. -/
theorem rankSet_of_rankAt {s : MemStoreManager} {ns key : StdString} {e : RankEntry}
    (h : s.rankAt ns key = some e) (layout : Layout) (score : Cell) (policy : ExpirePolicy)
    (extra : Int32) (now : TimePoint) :
    s.rankSet layout ns key score policy extra now =
      (s.rankTouch ns key fun sequence e =>
        applyRankExpiration { e with score := score, sequence := sequence } policy extra now,
        true) := by
  have hboard : s.ranks.find? ns = some (NestedMap.inner s.ranks ns) := NestedMap.find?_of_at? h
  have hfind : (NestedMap.inner s.ranks ns).find? key = some e := h
  have hsame : s.ranks.upsert layout ns ∅ (fun board => board) = s.ranks :=
    UnorderedMap.upsert_id_of_find? hboard
  have hmodify : (s.ranks.modify ns fun board => board.upsert layout key {} fun e =>
      applyRankExpiration { e with score := score, sequence := s.rankSequenceCounter + 1 } policy
        extra now) =
      NestedMap.modifyAt s.ranks ns key fun e =>
        applyRankExpiration { e with score := score, sequence := s.rankSequenceCounter + 1 } policy
          extra now :=
    UnorderedMap.modify_congr hboard
      (UnorderedMap.upsert_of_mem (UnorderedMap.mem_keys_of_find? hfind))
  simp only [rankSet, hboard, Option.isNone_some, Bool.false_and, Bool.false_eq_true, if_false,
    hsame, hfind, hmodify]
  rfl

/-- Without a live entry `RankInc` is `RankSet`. -/
theorem rankInc_of_dead {s : MemStoreManager} {ns key : StdString} {now₀ now₁ : TimePoint}
    (hdead : ∀ e, s.rankAt ns key = some e → e.isExpired now₀ = true) (layout : Layout)
    (delta : Cell) (policy : ExpirePolicy) (extra : Int32) :
    s.rankInc layout ns key delta policy extra now₀ now₁ =
      ((s.rankSet layout ns key delta policy extra now₁).1,
        if (s.rankSet layout ns key delta policy extra now₁).2 then some delta else none) := by
  cases hentry : s.rankAt ns key with
  | none =>
      rw [rankInc, hentry]
      dsimp only
      obtain ⟨s', stored⟩ := s.rankSet layout ns key delta policy extra now₁
      cases stored <;> rfl
  | some e =>
      rw [rankSet_of_rankAt hentry, rankInc, hentry]
      dsimp only
      rw [if_pos (hdead e hentry), if_pos rfl]
      rfl

/-! ## Fields that stay as they are -/

section Frame

variable (s : MemStoreManager) (ns key : StdString) (now : TimePoint)

theorem sameKeyValues_eraseRankEntry : SameKeyValues s (s.eraseRankEntry ns key) :=
  ⟨rfl, rfl, rfl, rfl⟩

theorem sameKeyValues_purgeBoard : SameKeyValues s (s.purgeBoard ns now).1 := by
  unfold purgeBoard
  split <;> exact ⟨rfl, rfl, rfl, rfl⟩

@[simp] theorem eraseRankEntry_ranks : (s.eraseRankEntry ns key).ranks =
    NestedMap.retainAt s.ranks ns fun k e => if k = key then none else some e := by
  simp [eraseRankEntry, NestedMap.retainAt, UnorderedMap.erase]

@[simp] theorem eraseRankEntry_rankSequenceCounter :
    (s.eraseRankEntry ns key).rankSequenceCounter = s.rankSequenceCounter := rfl

@[simp] theorem purgeBoard_rankSequenceCounter :
    (s.purgeBoard ns now).1.rankSequenceCounter = s.rankSequenceCounter := by
  unfold purgeBoard
  split <;> rfl

/-- The boards after the loop of the queries over a whole board. -/
theorem purgeBoard_ranks : (s.purgeBoard ns now).1.ranks =
    NestedMap.retainAt s.ranks ns fun _ e => if e.isExpired now then none else some e := by
  unfold purgeBoard
  cases hfind : s.ranks.find? ns with
  | none => rw [NestedMap.retainAt_of_find?_none hfind]
  | some board => rfl

theorem purgeBoard_kept : (s.purgeBoard ns now).2 =
    (NestedMap.inner s.ranks ns).eraseIf fun e => e.isExpired now := by
  unfold purgeBoard
  cases hfind : s.ranks.find? ns with
  | none => rw [NestedMap.inner_of_find?_none hfind]; rfl
  | some board => rw [NestedMap.inner_of_find? hfind]

end Frame

/-! ## Entries after an edit -/

section RankAt

variable (s : MemStoreManager) (ns key ns' key' : StdString)

theorem rankAt_eraseRankEntry : (s.eraseRankEntry ns key).rankAt ns' key' =
    if ns' = ns ∧ key' = key then none else s.rankAt ns' key' := by
  rw [rankAt, eraseRankEntry_ranks]
  exact NestedMap.at?_retainAt_erase ..

theorem rankAt_purgeBoard (now : TimePoint) : (s.purgeBoard ns now).1.rankAt ns' key' =
    if ns' = ns then (s.rankAt ns' key').filter fun e => !e.isExpired now
    else s.rankAt ns' key' := by
  rw [rankAt, purgeBoard_ranks]
  exact NestedMap.at?_retainAt_eraseIf ..

theorem rankAt_rankTouch (f : UInt64 → RankEntry → RankEntry) :
    (s.rankTouch ns key f).rankAt ns' key' =
      if ns' = ns ∧ key' = key then (s.rankAt ns key).map (f (s.rankSequenceCounter + 1))
      else s.rankAt ns' key' :=
  NestedMap.at?_modifyAt ..

theorem rankAt_rankStore (layout : Layout) (score : Cell) (policy : ExpirePolicy)
    (extra : Int32) (now : TimePoint) :
    (s.rankStore layout ns key score policy extra now).rankAt ns' key' =
      if ns' = ns ∧ key' = key then
        some (applyRankExpiration { (s.rankAt ns key).getD {} with
          score := score, sequence := s.rankSequenceCounter + 1 } policy extra now)
      else s.rankAt ns' key' :=
  NestedMap.at?_upsertAt ..

end RankAt

/-- The live rank entry under a key. -/
def liveRankAt (s : MemStoreManager) (now : TimePoint) (ns key : StdString) : Option RankEntry :=
  (s.rankAt ns key).filter fun e => !e.isExpired now

theorem liveRankAt_eq_some_iff {s : MemStoreManager} {now : TimePoint} {ns key : StdString}
    {e : RankEntry} :
    s.liveRankAt now ns key = some e ↔ s.rankAt ns key = some e ∧ e.isExpired now = false := by
  simp [liveRankAt, Option.filter_eq_some_iff]

theorem liveRankAt_eq_none_iff {s : MemStoreManager} {now : TimePoint} {ns key : StdString} :
    s.liveRankAt now ns key = none ↔ ∀ e, s.rankAt ns key = some e → e.isExpired now = true := by
  simp [liveRankAt, Option.filter_eq_none_iff]

theorem liveRankAt_of_later {s : MemStoreManager} {ns key : StdString} {now later : TimePoint}
    (hle : now ≤ later) {e : RankEntry} (h : s.liveRankAt later ns key = some e) :
    s.liveRankAt now ns key = some e := by
  obtain ⟨hentry, hlive⟩ := liveRankAt_eq_some_iff.mp h
  exact liveRankAt_eq_some_iff.mpr ⟨hentry, Expiration.live_of_earlier hle hlive⟩

end MemStoreManager

end MemStore
