import MemStore.Ranking.Comparators
import MemStore.Ranking.Sequences
import MemStore.Reading.LiveView

/-!
# The two leaderboard algorithms agree

`RankGetPosition` counts the entries that outrank its target; `RankGetTop`
selects with `std::nth_element`.  Both go by score first and by stamp second.
Since stamps are distinct (`Sequenced`), the comparator orders any two entries
of a board (`decides_comp`), and the general facts about selection apply: the
entry that is selected for a position is the one with that many better entries.

* `position_eq` writes the counting loop as the number of better entries;
* `top_eq_some_iff` says what is selected, in terms of positions;
* `rank_algorithms_agree` collects the consequences for every run.
-/

namespace MemStore

open MemStoreManager

/-! ## One board -/

/-- No two entries of the board carry the same stamp. -/
def Stamped (board : UnorderedMap StdString RankEntry) : Prop :=
  ∀ key e key' e', board.find? key = some e → board.find? key' = some e' →
    e.sequence = e'.sequence → key' = key

theorem decides_comp {board : UnorderedMap StdString RankEntry} (h : Stamped board)
    (order : RankOrder) : Decides (comp order) board.entries where
  weak := strictWeakOrder_comp order
  total := by
    rintro ⟨key, e⟩ hmem ⟨key', e'⟩ hmem' hne
    have hfind := UnorderedMap.find?_eq_some_iff.mpr hmem
    have hfind' := UnorderedMap.find?_eq_some_iff.mpr hmem'
    -- entries with one stamp have one key, and then they are the same
    have hstamp : e.sequence.toNat ≠ e'.sequence.toNat := by
      intro heq
      have hkey := h key e key' e' hfind hfind' (UInt64.toNat_inj.mp heq)
      subst hkey
      rw [hfind] at hfind'
      cases hfind'
      exact hne rfl
    simp only [comp_eq_true_iff]
    omega

theorem entries_nodup (board : UnorderedMap StdString RankEntry) : board.entries.Nodup :=
  board.nodup_keys.of_map

open StdAlgorithm (better)

variable {view : LiveView} {ns : StdString} {order : RankOrder}

/-- The position of a live entry is one more than the number of better ones. -/
theorem position_eq {key : StdString} {e : RankEntry} (h : view.rankAt ns key = some e) :
    view.position ns key order = 1 + better (comp order) (view.ranks ns).entries (key, e) := by
  rw [LiveView.position, h]
  refine congrArg (1 + ·) (List.countP_congr fun pair hpair => ?_)
  rw [← outranks_eq_comp]
  -- the loop skips the target, which does not outrank itself
  by_cases hkey : pair.1 = key
  · have hself : pair.2 = e := by
      have hfind := UnorderedMap.find?_eq_some_iff.mpr hpair
      rw [hkey] at hfind
      exact Option.some.inj (hfind.symm.trans h)
    have hirrefl := (strictWeakOrder_comp order).irrefl (key, e)
    rw [← outranks_eq_comp] at hirrefl
    simp [hkey, hself, hirrefl]
  · simp [hkey]

theorem position_pos_iff {key : StdString} :
    0 < view.position ns key order ↔ (view.rankAt ns key).isSome := by
  rcases Option.eq_none_or_eq_some (view.rankAt ns key) with hnone | ⟨e, hsome⟩
  · rw [LiveView.position_of_none hnone, hnone]
    simp
  · rw [position_eq hsome, hsome]
    exact iff_of_true (by omega) rfl

theorem position_le_size (key : StdString) :
    view.position ns key order ≤ (view.ranks ns).size := by
  rcases Option.eq_none_or_eq_some (view.rankAt ns key) with hnone | ⟨e, hsome⟩
  · rw [LiveView.position_of_none hnone]
    exact Nat.zero_le _
  · have hlt : better (comp order) (view.ranks ns).entries (key, e) < (view.ranks ns).size :=
      StdAlgorithm.better_lt_length (strictWeakOrder_comp order)
        (UnorderedMap.find?_eq_some_iff.mp hsome)
    rw [position_eq hsome]
    omega

theorem position_injective (h : Stamped (view.ranks ns)) {key key' : StdString}
    (hpos : 0 < view.position ns key order)
    (heq : view.position ns key order = view.position ns key' order) : key = key' := by
  obtain ⟨e, he⟩ := Option.isSome_iff_exists.mp (position_pos_iff.mp hpos)
  rw [heq] at hpos
  obtain ⟨e', he'⟩ := Option.isSome_iff_exists.mp (position_pos_iff.mp hpos)
  rw [position_eq he, position_eq he'] at heq
  have hpair : ((key, e) : RankPair) = (key', e') :=
    StdAlgorithm.better_injective (decides_comp h order)
      (UnorderedMap.find?_eq_some_iff.mp he) (UnorderedMap.find?_eq_some_iff.mp he') (by omega)
  exact congrArg Prod.fst hpair

/-- Every position up to the size of the board is taken. -/
theorem exists_position (h : Stamped (view.ranks ns)) {i : ℕ} (hpos : 1 ≤ i)
    (hle : i ≤ (view.ranks ns).size) : ∃ key, view.position ns key order = i := by
  have hlt : i - 1 < (view.ranks ns).entries.length := by
    have hsize : (view.ranks ns).size = (view.ranks ns).entries.length := rfl
    omega
  let alg : StdAlgorithm RankPair := .insertionSort
  have hlen : (alg.sort (comp order) (view.ranks ns).entries).length =
      (view.ranks ns).entries.length := (alg.sort_perm (strictWeakOrder_comp order) _).length_eq
  -- any sorting algorithm shows which key it is
  obtain ⟨⟨key, e⟩, hget⟩ :
      ∃ x, (alg.sort (comp order) (view.ranks ns).entries)[i - 1]? = some x :=
    ⟨_, List.getElem?_eq_getElem (by omega)⟩
  obtain ⟨hmem, hbetter⟩ :=
    (alg.getElem?_sort (decides_comp h order) (entries_nodup _) hlt).mp hget
  refine ⟨key, ?_⟩
  rw [position_eq (UnorderedMap.find?_eq_some_iff.mpr hmem), hbetter]
  omega

/-- What `RankGetTop` selects is the entry with the position asked for. -/
theorem top_eq_some_iff (h : Stamped (view.ranks ns)) (alg : StdAlgorithm RankPair) {i : Int32}
    {key : StdString} {score : Cell} :
    view.top ns alg i order = some (key, score) ↔
      1 ≤ i.toInt ∧ (view.position ns key order : ℤ) = i.toInt ∧
        ∃ e, view.rankAt ns key = some e ∧ e.score = score := by
  by_cases hlow : i < 1
  · have hnot : ¬ 1 ≤ i.toInt := by
      rw [Int32.lt_iff_toInt_lt, Int32.toInt_one] at hlow
      omega
    rw [LiveView.top, if_pos hlow]
    exact iff_of_false (Option.some_ne_none _).symm fun hright => hnot hright.1
  · have hpos : 1 ≤ i.toInt := by
      rw [Int32.lt_iff_toInt_lt, Int32.toInt_one] at hlow
      omega
    have hsub : (i - 1).toInt = i.toInt - 1 := by
      apply Expiration.toInt_sub_one
      rw [Int32.lt_iff_toInt_lt, Int32.toInt_zero]
      omega
    rw [LiveView.top, if_neg hlow]
    dsimp only
    -- past the end of the board no key has the position
    by_cases hhigh : (view.ranks ns).entries.length < i.toInt.toNat
    · rw [if_pos hhigh]
      refine iff_of_false (Option.some_ne_none _).symm ?_
      rintro ⟨_, hposition, _⟩
      have hle : view.position ns key order ≤ (view.ranks ns).size := position_le_size key
      have hsize : (view.ranks ns).size = (view.ranks ns).entries.length := rfl
      omega
    · rw [if_neg hhigh, hsub]
      have hindex : (i.toInt - 1).toNat < (view.ranks ns).entries.length := by omega
      have hselect := fun x : RankPair =>
        alg.getElem?_nthElement (decides_comp h order) (entries_nodup _) hindex (x := x)
      rw [Option.map_eq_some_iff]
      constructor
      · rintro ⟨⟨key', e⟩, hget, hpair⟩
        cases hpair
        obtain ⟨hmem, hbetter⟩ := (hselect _).mp hget
        have hfind : view.rankAt ns key' = some e := UnorderedMap.find?_eq_some_iff.mpr hmem
        refine ⟨hpos, ?_, e, hfind, rfl⟩
        rw [position_eq hfind, hbetter]
        omega
      · rintro ⟨_, hposition, e, hfind, rfl⟩
        rw [position_eq hfind] at hposition
        exact ⟨(key, e), (hselect _).mpr ⟨UnorderedMap.find?_eq_some_iff.mp hfind, by omega⟩, rfl⟩

theorem top_isSome_iff (h : Stamped (view.ranks ns)) (alg : StdAlgorithm RankPair) {i : Int32} :
    (view.top ns alg i order).isSome ↔ 1 ≤ i.toInt ∧ i.toInt ≤ (view.ranks ns).size := by
  rw [Option.isSome_iff_exists]
  constructor
  · rintro ⟨⟨key, score⟩, htop⟩
    obtain ⟨hpos, hposition, _⟩ := (top_eq_some_iff h alg).mp htop
    have hle : view.position ns key order ≤ (view.ranks ns).size := position_le_size key
    omega
  · rintro ⟨hpos, hle⟩
    obtain ⟨key, hposition⟩ : ∃ key, view.position ns key order = i.toInt.toNat :=
      exists_position h (by omega) (by omega)
    obtain ⟨e, he⟩ := Option.isSome_iff_exists.mp
      (position_pos_iff.mp (show 0 < view.position ns key order by omega))
    exact ⟨(key, e.score), (top_eq_some_iff h alg).mpr ⟨hpos, by omega, e, he, rfl⟩⟩

/-- The better of two live entries has the lower position. -/
theorem position_lt_of_comp {key key' : StdString} {e e' : RankEntry}
    (he : view.rankAt ns key = some e) (he' : view.rankAt ns key' = some e')
    (hbetter : comp order (key, e) (key', e') = true) :
    view.position ns key order < view.position ns key' order := by
  have hlt := StdAlgorithm.better_lt (strictWeakOrder_comp order)
    (UnorderedMap.find?_eq_some_iff.mp he) hbetter
  rw [position_eq he, position_eq he']
  exact Nat.add_lt_add_left hlt 1

theorem position_lt_iff_comp {key key' : StdString} {e e' : RankEntry}
    (he : view.rankAt ns key = some e) (he' : view.rankAt ns key' = some e') :
    view.position ns key order < view.position ns key' order ↔
      comp order (key, e) (key', e') = true := by
  refine ⟨fun hlt => ?_, position_lt_of_comp he he'⟩
  by_contra hnot
  have hle := StdAlgorithm.better_le (strictWeakOrder_comp order) (l := (view.ranks ns).entries)
    (show comp order (key, e) (key', e') = false by simpa using hnot)
  rw [position_eq he, position_eq he'] at hlt
  omega

/-- A lower position has a score that is not worse. -/
theorem scoreKey_le_of_position {key key' : StdString} {e e' : RankEntry}
    (he : view.rankAt ns key = some e) (he' : view.rankAt ns key' = some e')
    (hle : view.position ns key order ≤ view.position ns key' order) :
    scoreKey order e.score ≤ scoreKey order e'.score := by
  by_contra hworse
  have hbefore : comp order (key', e') (key, e) = true := by
    rw [comp_eq_true_iff]
    exact .inl (not_le.mp hworse)
  exact absurd hle (not_le.mpr (position_lt_of_comp he' he hbefore))

/-! ## Boards that differ in iteration order only -/

section Congr

variable {view' : LiveView} (hsame : ∀ key, view'.rankAt ns key = view.rankAt ns key)

include hsame

theorem size_congr : (view'.ranks ns).size = (view.ranks ns).size :=
  (UnorderedMap.perm_of_find?_eq hsame).length_eq

theorem position_congr (key : StdString) :
    view'.position ns key order = view.position ns key order := by
  rcases Option.eq_none_or_eq_some (view.rankAt ns key) with hnone | ⟨e, hsome⟩
  · rw [LiveView.position_of_none hnone, LiveView.position_of_none ((hsame key).trans hnone)]
  · rw [position_eq hsome, position_eq ((hsame key).trans hsome),
      StdAlgorithm.better_perm (UnorderedMap.perm_of_find?_eq hsame)]

theorem top_congr (h : Stamped (view.ranks ns)) (alg alg' : StdAlgorithm RankPair) (i : Int32) :
    view'.top ns alg' i order = view.top ns alg i order := by
  have h' : Stamped (view'.ranks ns) := by
    intro key e key' e' he he'
    exact h key e key' e' ((hsame key).symm.trans he) ((hsame key').symm.trans he')
  ext ⟨key, score⟩
  rw [top_eq_some_iff h' alg', top_eq_some_iff h alg, position_congr hsame, hsame]

end Congr

/-! ## Runs -/

variable {alg : StdAlgorithm RankPair}

theorem stamped_of_sequenced {n : ℕ} {s : MemStoreManager} (h : Sequenced n s)
    (now : TimePoint) (ns : StdString) : Stamped ((s.liveView now).ranks ns) := by
  intro key e key' e' he he' heq
  have hentry := (liveRankAt_eq_some_iff.mp ((rankAt_liveView s now ns key).symm.trans he)).1
  have hentry' := (liveRankAt_eq_some_iff.mp ((rankAt_liveView s now ns key').symm.trans he')).1
  exact (h.distinct ns key e ns key' e' hentry hentry' heq).2

/-- **Counting and selecting agree.**  In every run with fewer than 2^64 rank
writes since everything was last cleared, on every board, in both orders and at
every clock reading:

* `RankGetTop` succeeds for the numbers from 1 to `RankGetCount`, and
  `RankGetPosition` is not 0 for the live keys;
* they are inverse to each other, and `RankGetTop` reports the score of the key;
* the live keys have the positions from 1 to `RankGetCount`, one each;
* scores do not get better as positions go up;
* the replies stay the same with another standard library, and on any manager
  with the same live entries in another iteration order. -/
theorem rank_algorithms_agree {steps : List (Call × Reply)} {w : World}
    (hrun : RunFromStart alg Machine.anyStep steps w) (hwrites : rankWrites steps < 2 ^ 64)
    (now : TimePoint) (ns : StdString) (order : RankOrder) :
    let count := (w.store.rankGetCount ns now).2
    let position := fun key => (w.store.rankGetPosition ns key order now).2
    let top := fun i => (w.store.rankGetTop alg ns i order now).2
    (∀ i, (top i).isSome ↔ 1 ≤ i.toInt ∧ i.toInt ≤ count) ∧
    (∀ key, position key ≠ 0 ↔ (w.store.liveRankAt now ns key).isSome) ∧
    (∀ (i : Int32) (key : StdString), 1 ≤ i.toInt →
      ((position key : ℤ) = i.toInt ↔ ∃ score, top i = some (key, score))) ∧
    (∀ i key score, top i = some (key, score) →
      (w.store.rankGetScore ns key now).2 = some score) ∧
    (∀ key, position key ≤ count) ∧
    (∀ i, 1 ≤ i → i ≤ count → ∃! key, position key = i) ∧
    (∀ (i i' : Int32) (key key' : StdString) (score score' : Cell), i.toInt ≤ i'.toInt →
      top i = some (key, score) → top i' = some (key', score') →
      match order with
      | .desc => score' ≤ score
      | .asc => score ≤ score') ∧
    ∀ (alg' : StdAlgorithm RankPair) (s' : MemStoreManager),
      (∀ key, s'.liveRankAt now ns key = w.store.liveRankAt now ns key) →
      (s'.rankGetCount ns now).2 = count ∧
      (∀ key, (s'.rankGetPosition ns key order now).2 = position key) ∧
      ∀ i, (s'.rankGetTop alg' ns i order now).2 = top i := by
  have hstamped := stamped_of_sequenced (sequenced_of_run hrun hwrites) now ns
  simp only [rankGetCount_view, rankGetPosition_view, rankGetTop_view, rankGetScore_view,
    ← rankAt_liveView]
  refine ⟨fun i => top_isSome_iff hstamped alg, fun key => ?_, fun i key hpos => ?_,
    fun i key score htop => ?_, position_le_size, fun i hpos hle => ?_,
    fun i i' key key' score score' hle htop htop' => ?_, fun alg' s' hsame => ?_⟩
  · rw [← Nat.pos_iff_ne_zero, position_pos_iff]
  · constructor
    · intro hposition
      have hlive : 0 < (w.store.liveView now).position ns key order := by omega
      obtain ⟨e, he⟩ := Option.isSome_iff_exists.mp (position_pos_iff.mp hlive)
      exact ⟨e.score, (top_eq_some_iff hstamped alg).mpr ⟨hpos, hposition, e, he, rfl⟩⟩
    · rintro ⟨score, htop⟩
      exact ((top_eq_some_iff hstamped alg).mp htop).2.1
  · obtain ⟨_, _, e, he, rfl⟩ := (top_eq_some_iff hstamped alg).mp htop
    rw [he, Option.map_some]
  · -- each position is taken, and by one key only
    obtain ⟨key, hkey⟩ : ∃ key, (w.store.liveView now).position ns key order = i :=
      exists_position hstamped hpos hle
    refine ⟨key, hkey, fun key' hkey' => ?_⟩
    exact position_injective hstamped (show 0 < _ by omega) (hkey'.trans hkey.symm)
  · obtain ⟨_, hposition, e, he, rfl⟩ := (top_eq_some_iff hstamped alg).mp htop
    obtain ⟨_, hposition', e', he', rfl⟩ := (top_eq_some_iff hstamped alg).mp htop'
    have hkey : scoreKey order e.score ≤ scoreKey order e'.score :=
      scoreKey_le_of_position he he' (by omega)
    cases order with
    | desc =>
        simp only [scoreKey] at hkey
        exact Int32.le_iff_toInt_le.mpr (by omega)
    | asc => exact Int32.le_iff_toInt_le.mpr hkey
  · exact ⟨size_congr hsame, position_congr hsame, top_congr hsame hstamped alg alg'⟩

/-- Two keys reach the same score. -/
private def twoWithFive : List (Call × Reply) :=
  [(⟨.write (.rankSet [1] [2] 5 .persistent 0), .at 0 fun _ => 0⟩, .flag true),
    (⟨.write (.rankSet [1] [3] 5 .persistent 0), .at 0 fun _ => 0⟩, .flag true)]

/-- Two keys with one score are told apart by their stamps. -/
theorem rank_algorithms_agree_tie : ∃ w : World,
    RunFromStart (StdAlgorithm.insertionSort (α := RankPair)) Machine.anyStep twoWithFive w ∧
    (w.store.rankGetCount [1] 0).2 = 2 ∧
    ∀ (i : Int32) (key : StdString), 1 ≤ i.toInt →
      (((w.store.rankGetPosition [1] key .desc 0).2 : ℤ) = i.toInt ↔
        ∃ score, (w.store.rankGetTop (StdAlgorithm.insertionSort (α := RankPair)) [1] i .desc
          0).2 = some (key, score)) := by
  have hrun : ∃ w, (w.store.rankGetCount [1] 0).2 = 2 ∧
      RunFromStart (StdAlgorithm.insertionSort (α := RankPair)) Machine.anyStep twoWithFive w :=
    ⟨⟨_, 0⟩, rfl, 0, run_cons trivial le_rfl rfl (run_cons trivial le_rfl rfl (.nil _))⟩
  obtain ⟨w, hcount, hrun⟩ := hrun
  exact ⟨w, hrun, hcount, (rank_algorithms_agree hrun (by decide) 0 [1] .desc).2.2.1⟩

end MemStore
