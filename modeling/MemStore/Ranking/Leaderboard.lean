import MemStore.Ranking.Positions

/-!
# The sorted leaderboard

All queries about a board describe parts of one list, the `leaderboard`: the
live keys with their scores, best first.

* `top_eq_leaderboard` and `range_eq_leaderboard` read the replies of
  `RankGetTop` and `RankGetRange` off the list, whichever algorithm selects or
  sorts; `getElem?_leaderboard` does so for `RankGetPosition`.
* `SameBoard` compares two boards by scores and by how ties are broken.  Boards
  that are the same in this sense have the same leaderboard
  (`SameBoard.leaderboard`), though their stamps may differ.
-/

namespace MemStore

open MemStoreManager

/-- The live keys of a board with their scores, best first. -/
def LiveView.leaderboard (view : LiveView) (ns : StdString) (order : RankOrder) :
    List (StdString × Cell) :=
  (StdAlgorithm.ranking (comp order) (view.ranks ns).entries).map fun pair =>
    (pair.1, pair.2.score)

variable {view view' : LiveView} {ns : StdString} {order : RankOrder}

theorem length_leaderboard (view : LiveView) (ns : StdString) (order : RankOrder) :
    (view.leaderboard ns order).length = (view.ranks ns).size := by
  rw [LiveView.leaderboard, List.length_map,
    StdAlgorithm.length_ranking (strictWeakOrder_comp order)]
  rfl

/-! ## Replies as parts of the leaderboard -/

/-- A key stands where its position says. -/
theorem getElem?_leaderboard (h : Stamped (view.ranks ns)) {n : ℕ} {key : StdString}
    {score : Cell} :
    (view.leaderboard ns order)[n]? = some (key, score) ↔
      view.position ns key order = n + 1 ∧
        ∃ e, view.rankAt ns key = some e ∧ e.score = score := by
  rcases Nat.lt_or_ge n (view.ranks ns).entries.length with hn | hn
  · rw [LiveView.leaderboard, List.getElem?_map, Option.map_eq_some_iff]
    constructor
    · rintro ⟨⟨key', e⟩, hget, hpair⟩
      cases hpair
      obtain ⟨hmem, hbetter⟩ :=
        (StdAlgorithm.getElem?_ranking (decides_comp h order) (entries_nodup _) hn).mp hget
      have hfind : view.rankAt ns key' = some e := UnorderedMap.find?_eq_some_iff.mpr hmem
      exact ⟨by rw [position_eq hfind, hbetter]; omega, e, hfind, rfl⟩
    · rintro ⟨hposition, e, hfind, rfl⟩
      rw [position_eq hfind] at hposition
      refine ⟨(key, e), ?_, rfl⟩
      rw [StdAlgorithm.getElem?_ranking (decides_comp h order) (entries_nodup _) hn]
      exact ⟨UnorderedMap.find?_eq_some_iff.mp hfind, by omega⟩
  · -- past the end of the board no key has the position
    have hlength := length_leaderboard view ns order
    have hsize : (view.ranks ns).size = (view.ranks ns).entries.length := rfl
    rw [List.getElem?_eq_none (by omega)]
    refine iff_of_false (Option.some_ne_none _).symm ?_
    rintro ⟨hposition, _⟩
    have hle : view.position ns key order ≤ (view.ranks ns).size := position_le_size key
    omega

theorem top_eq_leaderboard (h : Stamped (view.ranks ns)) (alg : StdAlgorithm RankPair)
    {i : Int32} (hpos : 1 ≤ i.toInt) :
    view.top ns alg i order = (view.leaderboard ns order)[i.toInt.toNat - 1]? := by
  ext ⟨key, score⟩
  rw [top_eq_some_iff h alg, getElem?_leaderboard h]
  constructor
  · rintro ⟨_, hposition, hentry⟩
    exact ⟨by omega, hentry⟩
  · rintro ⟨hposition, hentry⟩
    exact ⟨hpos, by omega, hentry⟩

/-- The reply of `RankGetRange`, computed from the leaderboard. -/
theorem range_eq_leaderboard (h : Stamped (view.ranks ns)) (alg : StdAlgorithm RankPair)
    (startPos : Int32) (count : SizeT) :
    view.range ns alg startPos count order =
      if startPos < 1 ∨ count = 0 then some []
      else
        let startIndex : SizeT := UInt32.ofNat (startPos - 1).toInt.toNat
        if (view.leaderboard ns order).length ≤ startIndex.toNat then some []
        else
          let endIndex := min (startIndex + count).toNat (view.leaderboard ns order).length
          if endIndex < startIndex.toNat then none
          else some (((view.leaderboard ns order).take endIndex).drop startIndex.toNat) := by
  have hlength : (view.ranks ns).entries.length = (view.leaderboard ns order).length :=
    (length_leaderboard view ns order).symm
  have hdecides := decides_comp h order
  unfold LiveView.range
  dsimp only
  rw [hlength]
  split
  · rfl
  · split
    · rfl
    · split
      · rfl
      · -- both sorting branches leave the front of the sorted list
        congr 1
        rw [LiveView.leaderboard, ← List.map_take, ← List.map_drop]
        congr 2
        split
        · exact StdAlgorithm.take_partialSort alg hdecides (entries_nodup _) _
        · rw [StdAlgorithm.sort_eq_ranking alg hdecides (entries_nodup _)]

theorem top_of_leaderboard (h : Stamped (view.ranks ns)) (h' : Stamped (view'.ranks ns))
    (heq : view'.leaderboard ns order = view.leaderboard ns order) (alg : StdAlgorithm RankPair)
    (i : Int32) : view'.top ns alg i order = view.top ns alg i order := by
  by_cases hlow : i < 1
  · rw [LiveView.top, LiveView.top, if_pos hlow, if_pos hlow]
  · have hpos : 1 ≤ i.toInt := by
      rw [Int32.lt_iff_toInt_lt, Int32.toInt_one] at hlow
      omega
    rw [top_eq_leaderboard h' alg hpos, top_eq_leaderboard h alg hpos, heq]

theorem range_of_leaderboard (h : Stamped (view.ranks ns)) (h' : Stamped (view'.ranks ns))
    (heq : view'.leaderboard ns order = view.leaderboard ns order) (alg : StdAlgorithm RankPair)
    (startPos : Int32) (count : SizeT) :
    view'.range ns alg startPos count order = view.range ns alg startPos count order := by
  rw [range_eq_leaderboard h' alg, range_eq_leaderboard h alg, heq]

/-! ## Comparing boards -/

/-- Two boards have the same live keys with the same scores, and break ties the same way. -/
structure SameBoard (view view' : LiveView) (ns : StdString) : Prop where
  score : ∀ key, (view'.rankAt ns key).map (fun e => e.score) =
    (view.rankAt ns key).map fun e => e.score
  tie : ∀ key e e' key' f f', view.rankAt ns key = some e → view'.rankAt ns key = some e' →
    view.rankAt ns key' = some f → view'.rankAt ns key' = some f' → e.score = f.score →
      (e'.sequence < f'.sequence ↔ e.sequence < f.sequence)

theorem SameBoard.isSome_rankAt (h : SameBoard view view' ns) (key : StdString) :
    (view'.rankAt ns key).isSome = (view.rankAt ns key).isSome := by
  have hkey := congrArg Option.isSome (h.score key)
  rwa [Option.isSome_map, Option.isSome_map] at hkey

theorem SameBoard.of_rankAt (h : ∀ key, view'.rankAt ns key = view.rankAt ns key) :
    SameBoard view view' ns where
  score := by
    intro key
    rw [h]
  tie := by
    intro key e e' key' f f' he he' hf hf' _
    rw [h, he] at he'
    rw [h, hf] at hf'
    cases he'
    cases hf'
    rfl

/-- A key that is behind all keys tied with it may get a later stamp. -/
theorem SameBoard.of_restamped {key : StdString} {e e' : RankEntry}
    (he : view.rankAt ns key = some e) (he' : view'.rankAt ns key = some e')
    (hother : ∀ key₁, key₁ ≠ key → view'.rankAt ns key₁ = view.rankAt ns key₁)
    (hscore : e'.score = e.score)
    (htie : ∀ key₁ f, key₁ ≠ key → view.rankAt ns key₁ = some f → f.score = e.score →
      f.sequence < e.sequence ∧ f.sequence < e'.sequence) : SameBoard view view' ns where
  score := by
    intro key₁
    by_cases hkey : key₁ = key
    · rw [hkey, he, he', Option.map_some, Option.map_some, hscore]
    · rw [hother key₁ hkey]
  tie := by
    intro key₁ f f' key₂ g g' hf hf' hg hg' heq
    by_cases hkey₁ : key₁ = key
    · subst hkey₁
      cases he.symm.trans hf
      cases he'.symm.trans hf'
      by_cases hkey₂ : key₂ = key₁
      · subst hkey₂
        cases he.symm.trans hg
        cases he'.symm.trans hg'
        exact iff_of_false (UInt64.lt_irrefl _) (UInt64.lt_irrefl _)
      · cases (hother key₂ hkey₂).symm.trans hg' |>.symm.trans hg
        obtain ⟨hlt, hlt'⟩ := htie key₂ g hkey₂ hg heq.symm
        exact iff_of_false (UInt64.lt_asymm hlt') (UInt64.lt_asymm hlt)
    · cases (hother key₁ hkey₁).symm.trans hf' |>.symm.trans hf
      by_cases hkey₂ : key₂ = key
      · subst hkey₂
        cases he.symm.trans hg
        cases he'.symm.trans hg'
        obtain ⟨hlt, hlt'⟩ := htie key₁ f hkey₁ hf heq
        exact iff_of_true hlt' hlt
      · cases (hother key₂ hkey₂).symm.trans hg' |>.symm.trans hg
        rfl

/-- What `better` counts, counted over the keys. -/
theorem better_eq_countP_keys (board : UnorderedMap StdString RankEntry) (order : RankOrder)
    (x : RankPair) :
    StdAlgorithm.better (comp order) board.entries x =
      board.keys.countP fun key => (board.find? key).any fun e => comp order (key, e) x := by
  rw [StdAlgorithm.better, UnorderedMap.keys, List.countP_map]
  refine List.countP_congr fun pair hpair => ?_
  have hfind : board.find? pair.1 = some pair.2 := UnorderedMap.find?_eq_some_iff.mpr hpair
  simp [hfind]

theorem SameBoard.comp_eq (h : SameBoard view view' ns) {key key' : StdString}
    {e e' f f' : RankEntry} (he : view.rankAt ns key = some e)
    (he' : view'.rankAt ns key = some e') (hf : view.rankAt ns key' = some f)
    (hf' : view'.rankAt ns key' = some f') :
    comp order (key, e') (key', f') = comp order (key, e) (key', f) := by
  have hscore : e'.score = e.score := by
    have hkey := h.score key
    rw [he, he'] at hkey
    exact Option.some.inj hkey
  have hscore' : f'.score = f.score := by
    have hkey := h.score key'
    rw [hf, hf'] at hkey
    exact Option.some.inj hkey
  have htie := h.tie key e e' key' f f' he he' hf hf'
  rw [UInt64.lt_iff_toNat_lt, UInt64.lt_iff_toNat_lt] at htie
  rw [Bool.eq_iff_iff, comp_eq_true_iff, comp_eq_true_iff, hscore, hscore']
  -- a tie of scores is a tie of keys
  by_cases hsame : e.score = f.score
  · simp only [htie hsame]
  · have hkey : scoreKey order e.score ≠ scoreKey order f.score := by
      intro heq
      apply hsame
      cases order with
      | desc =>
          simp only [scoreKey] at heq
          exact Int32.toInt_inj.mp (by omega)
      | asc => exact Int32.toInt_inj.mp heq
    simp [hkey]

theorem SameBoard.position (h : SameBoard view view' ns) (key : StdString) :
    view'.position ns key order = view.position ns key order := by
  have hkeys : (view'.ranks ns).keys.Perm (view.ranks ns).keys :=
    UnorderedMap.keys_perm h.isSome_rankAt
  cases he : view.rankAt ns key with
  | none =>
      have he' : view'.rankAt ns key = none := by
        have hkey := h.isSome_rankAt key
        rw [he] at hkey
        exact Option.not_isSome_iff_eq_none.mp (by rw [hkey]; simp)
      rw [LiveView.position_of_none he, LiveView.position_of_none he']
  | some e =>
      obtain ⟨e', he'⟩ : ∃ e', view'.rankAt ns key = some e' := by
        rw [← Option.isSome_iff_exists, h.isSome_rankAt, he]
        rfl
      rw [position_eq he, position_eq he', better_eq_countP_keys, better_eq_countP_keys,
        hkeys.countP_eq]
      refine congrArg (1 + ·) (List.countP_congr fun key' hmem => ?_)
      obtain ⟨f, hf⟩ := UnorderedMap.mem_keys_iff.mp hmem
      obtain ⟨f', hf'⟩ := UnorderedMap.mem_keys_iff.mp (hkeys.mem_iff.mpr hmem)
      rw [hf, hf', Option.any_some, Option.any_some, h.comp_eq hf hf' he he']

/-- Boards that are the same up to stamps have the same leaderboard. -/
theorem SameBoard.leaderboard (hsame : SameBoard view view' ns) (h : Stamped (view.ranks ns))
    (h' : Stamped (view'.ranks ns)) :
    view'.leaderboard ns order = view.leaderboard ns order := by
  apply List.ext_getElem?
  intro n
  ext ⟨key, score⟩
  rw [getElem?_leaderboard h', getElem?_leaderboard h, hsame.position]
  have hentry : (∃ e, view'.rankAt ns key = some e ∧ e.score = score) ↔
      ∃ e, view.rankAt ns key = some e ∧ e.score = score := by
    rw [← Option.map_eq_some_iff, ← Option.map_eq_some_iff, hsame.score]
  rw [hentry]

end MemStore
