import MemStore.Ranking.Comparators
import MemStore.Reading.LiveView
import MemStore.Steps.Entries

/-!
# What a reply says about one slot

`Op.Shows` reads off the reply of a call whether it reports the entry in a slot
as present.  No call shows a slot without a live entry: for the read operations
this follows from their answers (`query_not_shows`), and for `GetKeyAt` from the
paths on which it finds a key (`getKeyAt_live`).
-/

namespace MemStore

open MemStoreManager

/-- The reply reports the entry in the slot as present.  A count does so if it
exceeds the number of the other entries that are live. -/
def Op.Shows (s : MemStoreManager) (now : TimePoint) (slot : Slot) : Op → Reply → Prop
  | .query (.getInt ns key _), .intRead r => slot = .keyValue ns key ∧ r.found = true
  | .query (.getFloat ns key _), .floatRead r => slot = .keyValue ns key ∧ r.found = true
  | .query (.getString ns key _), .stringRead r => slot = .keyValue ns key ∧ r.found = true
  | .query (.getArray ns key _), .arrayRead r => slot = .keyValue ns key ∧ r.found = true
  | .query (.getArraySize ns key), .count n => slot = .keyValue ns key ∧ n ≠ 0
  | .query (.getKeyType ns key), .entryType type => slot = .keyValue ns key ∧ type ≠ .none
  | .query (.keyExists ns key), .flag b => slot = .keyValue ns key ∧ b = true
  | .query (.getNamespaceCount ns), .count n => ∃ key, slot = .keyValue ns key ∧
      ((s.liveView now).namespaces ns).keys.countP (fun k => k ≠ key) < n
  | .query (.getActiveKeys ns), .keys keys => ∃ key, slot = .keyValue ns key ∧ key ∈ keys
  | .query (.getTTL ns key), .ttl remaining => slot = .keyValue ns key ∧ remaining ≠ -2
  | .query (.rankGetScore ns key), .cell value => slot = .rank ns key ∧ value.isSome
  | .query (.rankExists ns key), .flag b => slot = .rank ns key ∧ b = true
  | .query (.rankGetPosition ns key _), .count n => slot = .rank ns key ∧ n ≠ 0
  | .query (.rankGetTop ns _ _), .top entry => ∃ key score, slot = .rank ns key ∧
      entry = some (key, score)
  | .query (.rankGetCount ns), .count n => ∃ key, slot = .rank ns key ∧
      ((s.liveView now).ranks ns).keys.countP (fun k => k ≠ key) < n
  | .query (.rankGetRange ns _ _ _), .range entries => ∃ key score l, slot = .rank ns key ∧
      entries = some l ∧ (key, score) ∈ l
  | .getKeyAt ns _, .keyAt r => ∃ key, slot = .keyValue ns key ∧ r = some key
  | _, _ => False

/-- The view has an entry for the slot. -/
def LiveView.Has (view : LiveView) : Slot → Prop
  | .keyValue ns key => (view.entryAt ns key).isSome
  | .rank ns key => (view.rankAt ns key).isSome

theorem not_has_liveView {s : MemStoreManager} {now : TimePoint} {slot : Slot}
    (h : Dead (s.expirationAt slot) now) : ¬ (s.liveView now).Has slot := by
  cases slot with
  | keyValue ns key =>
      have hnone : s.liveAt now ns key = none :=
        liveAt_eq_none_iff.mpr fun e he => h e.toExpiration (congrArg (Option.map _) he)
      rw [LiveView.Has, entryAt_liveView, hnone]
      exact Bool.false_ne_true
  | rank ns key =>
      have hnone : s.liveRankAt now ns key = none :=
        liveRankAt_eq_none_iff.mpr fun e he => h e.toExpiration (congrArg (Option.map _) he)
      rw [LiveView.Has, rankAt_liveView, hnone]
      exact Bool.false_ne_true

/-! ## The read operations -/

section Answers

variable {view : LiveView} {ns key : StdString} {alg : StdAlgorithm RankPair}

theorem readAs_found {α : Type} (type : EntryType) (value : StoreEntry → α) (d : α)
    (o : Option StoreEntry) : (readAs type value d o).found = o.isSome := by
  cases o with
  | none => rfl
  | some e =>
      unfold readAs
      dsimp only
      split <;> rfl

/-- A count of keys that lack one is a count of the others. -/
theorem countP_keys_ne {ε : Type} {m : UnorderedMap StdString ε} {key : StdString}
    (h : m.find? key = none) : m.keys.countP (fun k => k ≠ key) = m.size := by
  rw [← UnorderedMap.length_keys, List.countP_eq_length]
  intro k hk
  rw [decide_eq_true_eq]
  rintro rfl
  exact UnorderedMap.find?_eq_none_iff.mp h hk

theorem LiveView.isSome_of_pair {score : Cell} {l : List RankPair}
    (hperm : l.Perm (view.ranks ns).entries)
    (h : ∃ pair ∈ l, (pair.1, pair.2.score) = (key, score)) : (view.rankAt ns key).isSome := by
  obtain ⟨⟨k, e⟩, hmem, hpair⟩ := h
  cases hpair
  exact Option.isSome_iff_exists.mpr ⟨e, UnorderedMap.find?_eq_some_iff.mpr
    (hperm.mem_iff.mp hmem)⟩

theorem LiveView.isSome_of_top {rankPos : Int32} {order : RankOrder} {score : Cell}
    (h : view.top ns alg rankPos order = some (key, score)) : (view.rankAt ns key).isSome := by
  simp only [LiveView.top] at h
  split at h
  · cases h
  · split at h
    · cases h
    · obtain ⟨pair, hget, hpair⟩ := Option.map_eq_some_iff.mp h
      exact isSome_of_pair (alg.nthElement_perm (strictWeakOrder_comp order) _ _)
        ⟨pair, List.mem_of_getElem? hget, hpair⟩

theorem LiveView.isSome_of_range {startPos : Int32} {count : SizeT} {order : RankOrder}
    {l : List (StdString × Cell)} {score : Cell}
    (h : view.range ns alg startPos count order = some l) (hmem : (key, score) ∈ l) :
    (view.rankAt ns key).isSome := by
  simp only [LiveView.range] at h
  split at h
  · cases h
    cases hmem
  · split at h
    · cases h
      cases hmem
    · split at h
      · cases h
      · cases h
        obtain ⟨pair, hpair, heq⟩ := List.mem_map.mp hmem
        have hsorted := List.mem_of_mem_take (List.mem_of_mem_drop hpair)
        refine isSome_of_pair ?_ ⟨pair, hsorted, heq⟩
        split
        · exact alg.partialSort_perm (strictWeakOrder_comp order) _ _
        · exact alg.sort_perm (strictWeakOrder_comp order) _

end Answers

/-- No read operation shows an entry that is not in view. -/
theorem query_not_shows (alg : StdAlgorithm RankPair) {s : MemStoreManager} {now : TimePoint}
    {slot : Slot} (h : ¬ (s.liveView now).Has slot) (q : Query) :
    ¬ (Op.query q).Shows s now slot (q.run alg s now).2 := by
  rw [query_reply]
  intro hshows
  apply h
  cases q with
  | getInt | getFloat | getString | getArray =>
      obtain ⟨rfl, hfound⟩ := hshows
      rwa [readAs_found] at hfound
  | getArraySize ns key | getKeyType ns key =>
      obtain ⟨rfl, hvalue⟩ := hshows
      by_contra hnone
      rw [LiveView.Has, Option.not_isSome_iff_eq_none] at hnone
      rw [hnone] at hvalue
      exact hvalue rfl
  | keyExists | rankExists =>
      obtain ⟨rfl, hflag⟩ := hshows
      exact hflag
  | getNamespaceCount ns | rankGetCount ns =>
      obtain ⟨key, rfl, hlt⟩ := hshows
      by_contra hnone
      rw [LiveView.Has, Option.not_isSome_iff_eq_none] at hnone
      exact hlt.ne (countP_keys_ne hnone)
  | getActiveKeys ns =>
      obtain ⟨key, rfl, hmem⟩ := hshows
      exact Option.isSome_iff_exists.mpr (UnorderedMap.mem_keys_iff.mp hmem)
  | getTTL ns key =>
      obtain ⟨rfl, hvalue⟩ := hshows
      by_contra hnone
      rw [LiveView.Has, Option.not_isSome_iff_eq_none] at hnone
      rw [LiveView.ttl, hnone] at hvalue
      exact hvalue rfl
  | rankGetScore ns key =>
      obtain ⟨rfl, hvalue⟩ := hshows
      rwa [Option.isSome_map] at hvalue
  | rankGetPosition ns key order =>
      obtain ⟨rfl, hvalue⟩ := hshows
      by_contra hnone
      rw [LiveView.Has, Option.not_isSome_iff_eq_none] at hnone
      exact hvalue (LiveView.position_of_none hnone)
  | rankGetTop ns rankPos order =>
      obtain ⟨key, score, rfl, htop⟩ := hshows
      exact LiveView.isSome_of_top htop
  | rankGetRange ns startPos count order =>
      obtain ⟨key, score, l, rfl, hrange, hmem⟩ := hshows
      exact LiveView.isSome_of_range hrange hmem

/-! ## `GetKeyAt` -/

/-- A key found in a slot of a cache is live at one of the two readings. -/
theorem slotRead_live {s s' : MemStoreManager} {ns key : StdString} {index : ℕ}
    {now₁ now₂ : TimePoint} {keys : List StdString} (hle : now₁ ≤ now₂)
    (h : SlotRead s ns index now₁ now₂ keys s' (some key)) :
    ∃ now, now₁ ≤ now ∧ (s.liveAt now ns key).isSome := by
  generalize hr : some key = r at h
  cases h with
  | outside => cases hr
  | live hslot hlive =>
      cases hr
      exact ⟨now₁, le_rfl, hlive⟩
  | @stale key' s' hslot hdead hrebuild =>
      refine ⟨now₂, hle, ?_⟩
      -- the rebuilt cache lists what is in view at the second reading
      have hview := (reads_findLive false s ns key' hle).liveView (le_refl now₂)
      have hmem : key ∈ ((s.liveView now₂).namespaces ns).keys := by
        rw [← hview]
        exact List.mem_of_getElem? hr.symm
      rw [← entryAt_liveView]
      exact Option.isSome_iff_exists.mpr (UnorderedMap.mem_keys_iff.mp hmem)

/-- A key that `GetKeyAt` finds is live at one of its readings. -/
theorem getKeyAt_live {s s' : MemStoreManager} {layout : Layout} {ns key : StdString}
    {index : ℕ} {now₀ now₁ now₂ : TimePoint} (hle₀ : now₀ ≤ now₁) (hle₁ : now₁ ≤ now₂)
    (h : s.getKeyAt layout ns index now₀ now₁ now₂ = some (s', some key)) :
    ∃ now, now₀ ≤ now ∧ (s.liveAt now ns key).isSome := by
  rcases getKeyAt_cases h with ⟨_, _, hnone⟩ | ⟨keys, _, hread⟩ | ⟨_, s₁, hrebuild, hread⟩
  · cases hnone
  · obtain ⟨now, hnow, hlive⟩ := slotRead_live hle₁ hread
    exact ⟨now, hle₀.trans hnow, hlive⟩
  · obtain ⟨now, hnow, hlive⟩ := slotRead_live hle₁ hread
    -- rebuilding is a read, and does not change what is in view later
    have hreads : Reads now₀ s s₁ :=
      .head (.recache (s.keyCaches.upsert layout ns {} fun cache => cache))
        (reads_rebuildKeyCache le_rfl hrebuild)
    refine ⟨now, hle₀.trans hnow, ?_⟩
    rwa [← entryAt_liveView, ← hreads.liveView (hle₀.trans hnow), entryAt_liveView]

/-- No call shows a slot that is dead when the call begins. -/
theorem not_shows_of_dead {alg : StdAlgorithm RankPair} {s s' : MemStoreManager} {env : Env}
    {op : Op} {reply : Reply} {slot : Slot} (h : exec alg s env op = some (s', reply))
    (hdead : Dead (s.expirationAt slot) env.first) : ¬ op.Shows s env.first slot reply := by
  cases op with
  | query q =>
      have hrun : q.run alg s env.first = (s', reply) := Option.some.inj h
      have hnot := query_not_shows alg (not_has_liveView hdead) q
      rwa [hrun] at hnot
  | getKeyAt ns index =>
      obtain ⟨⟨s₁, r⟩, hkey, heq⟩ := Option.map_eq_some_iff.mp h
      cases heq
      rintro ⟨key, rfl, rfl⟩
      obtain ⟨now, hle, hlive⟩ := getKeyAt_live env.first_le env.second_le hkey
      apply not_has_liveView (hdead.later hle)
      rw [LiveView.Has, entryAt_liveView]
      exact hlive
  | _ => exact fun hshows => hshows.elim

end MemStore
