import MemStore.Model.Natives
import MemStore.Ranking.Leaderboard
import MemStore.Reading.LazyPurging

/-!
# Slices and pages of the leaderboard

For the parameters `mem_rank_get_range` lets through, the sum of the start index
and the count stays below 2^32 (`toNat_startIndex_add`), so that `RankGetRange`
returns the slice of the leaderboard that was asked for (`range_eq_slice`).
Pages of one size put together are then the leaderboard itself
(`flatten_pages`), although each page comes from a call of its own that may
erase what has expired (`rangePages_eq`).

All this rests on stamps being distinct.  A run of more than 2^64 rank writes
can bring the counter back to a stamp that is still in use, and then two
algorithms may break the tie differently (`slices_disagree`).
-/

namespace MemStore

open MemStoreManager

/-! ## Index arithmetic -/

theorem toInt_sub_one_of_pos {i : Int32} (hpos : 1 ≤ i.toInt) : (i - 1).toInt = i.toInt - 1 := by
  apply Expiration.toInt_sub_one
  rw [Int32.lt_iff_toInt_lt, Int32.toInt_zero]
  omega

/-- The start index of a positive position. -/
theorem toNat_startIndex {startPos : Int32} (hpos : 1 ≤ startPos.toInt) :
    (UInt32.ofNat (startPos - 1).toInt.toNat).toNat = startPos.toInt.toNat - 1 := by
  have hlt := startPos.toInt_lt
  rw [toInt_sub_one_of_pos hpos, UInt32.toNat_ofNat_of_lt']
  · omega
  · simp only [UInt32.size]
    omega

/-- A positive cell keeps its value as a size. -/
theorem toNat_toUInt32 {i : Int32} (hpos : 1 ≤ i.toInt) : i.toUInt32.toNat = i.toInt.toNat := by
  have hnonneg : 0 ≤ i := by
    rw [Int32.le_iff_toInt_le, Int32.toInt_zero]
    omega
  have hvalue := Int32.cast_toNatClampNeg i hnonneg
  rw [Int32.toNat_toUInt32_of_le hnonneg]
  omega

theorem toNat_fetchCount {p : RangeParams} (hcount : 1 ≤ p.count.toInt)
    (hitems : 1 ≤ p.maxItems.toInt) :
    p.fetchCount.toNat = min p.count.toInt.toNat p.maxItems.toInt.toNat := by
  have hmin : p.fetchCount =
      if p.count.toUInt32 ≤ p.maxItems.toUInt32 then p.count.toUInt32 else p.maxItems.toUInt32 :=
    rfl
  rw [hmin]
  split
  · next hle =>
      rw [UInt32.le_iff_toNat_le, toNat_toUInt32 hcount, toNat_toUInt32 hitems] at hle
      rw [toNat_toUInt32 hcount, min_eq_left hle]
  · next hgt =>
      rw [UInt32.le_iff_toNat_le, toNat_toUInt32 hcount, toNat_toUInt32 hitems] at hgt
      rw [toNat_toUInt32 hitems, min_eq_right (by omega)]

/-- Start index and count of a call of the native do not wrap. -/
theorem toNat_startIndex_add {p : RangeParams} (hstart : 1 ≤ p.startPos.toInt)
    (hcount : 1 ≤ p.count.toInt) (hitems : 1 ≤ p.maxItems.toInt) :
    (UInt32.ofNat (p.startPos - 1).toInt.toNat + p.fetchCount).toNat =
      p.startPos.toInt.toNat - 1 + min p.count.toInt.toNat p.maxItems.toInt.toNat := by
  have hstartLt := p.startPos.toInt_lt
  have hcountLt := p.count.toInt_lt
  rw [UInt32.toNat_add, toNat_startIndex hstart, toNat_fetchCount hcount hitems]
  apply Nat.mod_eq_of_lt
  omega

/-! ## One slice -/

variable {view : LiveView} {ns : StdString} {order : RankOrder}

/-- What `RankGetRange` returns if its indices do not wrap. -/
theorem range_eq_slice (h : Stamped (view.ranks ns)) (alg : StdAlgorithm RankPair)
    {startPos : Int32} {count : SizeT} (hstart : 1 ≤ startPos.toInt) (hcount : 0 < count.toNat)
    (hwrap : (UInt32.ofNat (startPos - 1).toInt.toNat + count).toNat =
      startPos.toInt.toNat - 1 + count.toNat) :
    view.range ns alg startPos count order =
      some (((view.leaderboard ns order).drop (startPos.toInt.toNat - 1)).take count.toNat) := by
  have hlow : ¬ startPos < 1 := by
    rw [Int32.lt_iff_toInt_lt, Int32.toInt_one]
    omega
  have hne : count ≠ 0 := by
    rintro rfl
    exact absurd hcount (lt_irrefl _)
  rw [range_eq_leaderboard h alg, if_neg (not_or.mpr ⟨hlow, hne⟩)]
  dsimp only
  rw [toNat_startIndex hstart, hwrap]
  split
  · next hpast => rw [List.drop_eq_nil_of_le hpast, List.take_nil]
  · next hinside =>
      rw [if_neg (by omega), List.drop_take]
      congr 1
      -- cutting at the end of the list or behind it is the same
      rcases Nat.le_total (startPos.toInt.toNat - 1 + count.toNat)
        (view.leaderboard ns order).length with hle | hge
      · rw [min_eq_left hle, Nat.add_sub_cancel_left]
      · rw [min_eq_right hge, List.take_of_length_le, List.take_of_length_le]
        · rw [List.length_drop]
          omega
        · rw [List.length_drop]

/-- How long the slice is.  This does not depend on how ties are broken. -/
theorem length_range (alg : StdAlgorithm RankPair) {startPos : Int32} {count : SizeT}
    (hstart : 1 ≤ startPos.toInt) (hcount : 0 < count.toNat)
    (hwrap : (UInt32.ofNat (startPos - 1).toInt.toNat + count).toNat =
      startPos.toInt.toNat - 1 + count.toNat) :
    ∃ entries, view.range ns alg startPos count order = some entries ∧
      entries.length = min count.toNat ((view.ranks ns).size + 1 - startPos.toInt.toNat) := by
  have hlow : ¬ startPos < 1 := by
    rw [Int32.lt_iff_toInt_lt, Int32.toInt_one]
    omega
  have hne : count ≠ 0 := by
    rintro rfl
    exact absurd hcount (lt_irrefl _)
  have hsize : (view.ranks ns).size = (view.ranks ns).entries.length := rfl
  unfold LiveView.range
  rw [if_neg (not_or.mpr ⟨hlow, hne⟩), hsize]
  dsimp only
  rw [toNat_startIndex hstart, hwrap]
  split
  · next hpast => exact ⟨[], rfl, by rw [List.length_nil]; omega⟩
  · next hinside =>
      rw [if_neg (by omega)]
      refine ⟨_, rfl, ?_⟩
      -- both sorting algorithms rearrange the entries
      rw [List.length_map, List.length_drop, List.length_take]
      split
      · rw [(alg.partialSort_perm (strictWeakOrder_comp order) _ _).length_eq]
        omega
      · rw [(alg.sort_perm (strictWeakOrder_comp order) _).length_eq]
        omega

/-! ## Pages -/

/-- Pages of one size from the beginning of a list. -/
theorem flatten_pages {α : Type*} (l : List α) (size m : ℕ) :
    ((List.range m).map fun k => (l.drop (k * size)).take size).flatten = l.take (m * size) := by
  induction m with
  | zero => simp
  | succ m ih =>
      rw [List.range_succ, List.map_append, List.flatten_append, ih, Nat.succ_mul, List.take_add]
      simp

/-- Pages read one after another at one clock reading. -/
def rangePages (alg : StdAlgorithm RankPair) (ns : StdString) (count : SizeT) (order : RankOrder)
    (now : TimePoint) : MemStoreManager → List Int32 → List (Option (List (StdString × Cell)))
  | _, [] => []
  | s, startPos :: rest =>
      let r := s.rankGetRange alg ns startPos count order now
      r.2 :: rangePages alg ns count order now r.1 rest

/-- Reading a page leaves the leaderboard as it is. -/
theorem rangePages_eq (alg : StdAlgorithm RankPair) (ns : StdString) (count : SizeT)
    (order : RankOrder) (now : TimePoint) (s : MemStoreManager) (starts : List Int32) :
    rangePages alg ns count order now s starts =
      starts.map fun startPos => (s.liveView now).range ns alg startPos count order := by
  induction starts generalizing s with
  | nil => rfl
  | cons startPos rest ih =>
      have hview : (s.rankGetRange alg ns startPos count order now).1.liveView now =
          s.liveView now := query_liveView alg s (.rankGetRange ns startPos count order) le_rfl
      rw [rangePages, ih, hview, rankGetRange_view, List.map_cons]

/-- Pages from the first position on, put together. -/
theorem rangePages_flatten (alg : StdAlgorithm RankPair) {s : MemStoreManager} {now : TimePoint}
    (h : Stamped ((s.liveView now).ranks ns)) {page : Cell} {m : ℕ} {start : ℕ → Int32}
    (hpage : 1 ≤ page.toInt)
    (hcover : ((s.liveView now).leaderboard ns order).length ≤ m * page.toInt.toNat)
    (hstart : ∀ k < m, (start k).toInt = 1 + (k : ℤ) * page.toInt) :
    ∃ pages : List (List (StdString × Cell)),
      rangePages alg ns page.toUInt32 order now s ((List.range m).map start) = pages.map some ∧
        pages.flatten = (s.liveView now).leaderboard ns order := by
  set board := (s.liveView now).leaderboard ns order with hboard
  have hsize := toNat_toUInt32 hpage
  have hslice : ∀ k < m, (s.liveView now).range ns alg (start k) page.toUInt32 order =
      some ((board.drop (k * page.toInt.toNat)).take page.toInt.toNat) := by
    intro k hk
    have hvalue := hstart k hk
    have hmul : ((k * page.toInt.toNat : ℕ) : ℤ) = (k : ℤ) * page.toInt := by
      rw [Int.natCast_mul, Int.toNat_of_nonneg (by omega)]
    have hindex : (start k).toInt.toNat - 1 = k * page.toInt.toNat := by omega
    have hstartLt := (start k).toInt_lt
    have hpageLt := page.toInt_lt
    have hwrap : (UInt32.ofNat (start k - 1).toInt.toNat + page.toUInt32).toNat =
        (start k).toInt.toNat - 1 + page.toUInt32.toNat := by
      rw [UInt32.toNat_add, toNat_startIndex (by omega)]
      exact Nat.mod_eq_of_lt (by omega)
    rw [range_eq_slice h alg (by omega) (by omega) hwrap, hsize, hindex]
  refine ⟨(List.range m).map fun k =>
    (board.drop (k * page.toInt.toNat)).take page.toInt.toNat, ?_, ?_⟩
  · rw [rangePages_eq, List.map_map, List.map_map]
    apply List.map_congr_left
    intro k hk
    exact hslice k (List.mem_range.mp hk)
  · rw [flatten_pages, List.take_of_length_le hcover]

/-- The leaderboard names every key once. -/
theorem nodup_leaderboard (view : LiveView) (ns : StdString) (order : RankOrder) :
    ((view.leaderboard ns order).map Prod.fst).Nodup := by
  have hperm : (StdAlgorithm.ranking (comp order) (view.ranks ns).entries).Perm
      (view.ranks ns).entries :=
    StdAlgorithm.insertionSort.sort_perm (strictWeakOrder_comp order) _
  rw [LiveView.leaderboard, List.map_map]
  exact ((hperm.map Prod.fst).nodup_iff.mpr (view.ranks ns).nodup_keys)

/-- What the native does with parameters that pass its checks. -/
theorem amxxMemRankGetRange_eq (alg : StdAlgorithm RankPair) (lib : AmxLibrary)
    (s : MemStoreManager) (mem : AmxMemory) {p : RangeParams} (now : TimePoint)
    (hns : p.ns ≠ []) (hstart : 1 ≤ p.startPos.toInt) (hcount : 1 ≤ p.count.toInt)
    (hitems : 1 ≤ p.maxItems.toInt) (hlen : 1 ≤ p.maxKeyLen.toInt)
    (horder : p.order.elim (some .desc) rankOrderOf = some order) :
    amxxMemRankGetRange alg lib s mem p now =
      ((s.rankGetRange alg p.ns p.startPos p.fetchCount order now).1,
        (s.rankGetRange alg p.ns p.startPos p.fetchCount order now).2.map fun results =>
          (writeRows lib p.keys p.scores p.maxKeyLen 0 results mem,
            Int32.ofNat results.length)) := by
  have hpositions : ¬ (p.startPos < 1 ∨ p.count ≤ 0) := by
    rw [Int32.lt_iff_toInt_lt, Int32.le_iff_toInt_le, Int32.toInt_one, Int32.toInt_zero]
    omega
  have hsizes : ¬ (p.maxItems ≤ 0 ∨ p.maxKeyLen ≤ 0) := by
    rw [Int32.le_iff_toInt_le, Int32.le_iff_toInt_le, Int32.toInt_zero]
    omega
  rw [amxxMemRankGetRange, if_neg hns, if_neg hpositions, if_neg hsizes, horder]

variable {alg : StdAlgorithm RankPair}

/-- **`RankGetRange` returns slices of one sorted leaderboard.**  In every run with
fewer than 2^64 rank writes since everything was last cleared, on every board,
in both orders and at every clock reading there is a list `board` of the live
entries, each key once, such that:

* `RankGetTop` returns the entry of `board` at the position asked for;
* for the parameters that `mem_rank_get_range` accepts, start index and count do
  not wrap, the slice of `board` is returned, and its length is the smallest of
  the count, the capacity and what is left from the start position on;
* the entries of the slice are those `RankGetTop` returns for the positions from
  the start position on, and the native returns their number;
* pages of any size, read one after another, put together are `board`. -/
theorem range_returns_slices {steps : List (Call × Reply)} {w : World}
    (hrun : RunFromStart alg Machine.anyStep steps w) (hwrites : rankWrites steps < 2 ^ 64)
    (ns : StdString) (order : RankOrder) (now : TimePoint) :
    ∃ board : List (StdString × Cell),
      board.length = (w.store.rankGetCount ns now).2 ∧ (board.map Prod.fst).Nodup ∧
      (∀ i : Int32, 1 ≤ i.toInt →
        (w.store.rankGetTop alg ns i order now).2 = board[i.toInt.toNat - 1]?) ∧
      (∀ p : RangeParams, 1 ≤ p.startPos.toInt → 1 ≤ p.count.toInt → 1 ≤ p.maxItems.toInt →
        let c := min p.count.toInt.toNat p.maxItems.toInt.toNat
        (UInt32.ofNat (p.startPos - 1).toInt.toNat + p.fetchCount).toNat =
          p.startPos.toInt.toNat - 1 + c ∧
        ∃ entries : List (StdString × Cell),
          (w.store.rankGetRange alg ns p.startPos p.fetchCount order now).2 = some entries ∧
          entries = (board.drop (p.startPos.toInt.toNat - 1)).take c ∧
          entries.length = min c ((w.store.rankGetCount ns now).2 + 1 - p.startPos.toInt.toNat) ∧
          (∀ j < entries.length, ∀ i : Int32, i.toInt = p.startPos.toInt + j →
            (w.store.rankGetTop alg ns i order now).2 = entries[j]?) ∧
          (p.ns = ns → ns ≠ [] → 1 ≤ p.maxKeyLen.toInt →
            p.order.elim (some .desc) rankOrderOf = some order →
            ∀ lib mem, (amxxMemRankGetRange alg lib w.store mem p now).2.map Prod.snd =
              some (Int32.ofNat entries.length))) ∧
      ∀ (page : Cell) (m : ℕ) (start : ℕ → Int32), 1 ≤ page.toInt →
        board.length ≤ m * page.toInt.toNat →
        (∀ k < m, (start k).toInt = 1 + (k : ℤ) * page.toInt) →
        ∃ pages : List (List (StdString × Cell)),
          rangePages alg ns page.toUInt32 order now w.store ((List.range m).map start) =
            pages.map some ∧ pages.flatten = board := by
  have hstamped := stamped_of_sequenced (sequenced_of_run hrun hwrites) now ns
  set board := (w.store.liveView now).leaderboard ns order with hboard
  have htop : ∀ i : Int32, 1 ≤ i.toInt →
      (w.store.rankGetTop alg ns i order now).2 = board[i.toInt.toNat - 1]? := by
    intro i hpos
    rw [rankGetTop_view, top_eq_leaderboard hstamped alg hpos]
  have hlength : board.length = (w.store.rankGetCount ns now).2 := by
    rw [rankGetCount_view]
    exact length_leaderboard _ ns order
  refine ⟨board, hlength, nodup_leaderboard _ ns order, htop, ?_, ?_⟩
  · intro p hstart hcount hitems
    have hwrap := toNat_startIndex_add hstart hcount hitems
    have hfetch := toNat_fetchCount hcount hitems
    have hslice : (w.store.liveView now).range ns alg p.startPos p.fetchCount order =
        some ((board.drop (p.startPos.toInt.toNat - 1)).take p.fetchCount.toNat) :=
      range_eq_slice hstamped alg hstart (by omega) (by omega)
    rw [hfetch] at hslice
    refine ⟨hwrap, _, (rankGetRange_view ..).trans hslice, rfl, ?_, ?_, ?_⟩
    · rw [List.length_take, List.length_drop, ← hlength]
      omega
    · intro j hj i hi
      rw [List.length_take, List.length_drop] at hj
      rw [htop i (by omega), List.getElem?_take, if_pos (by omega), List.getElem?_drop]
      congr 1
      omega
    · rintro rfl hne hlen horder lib mem
      rw [amxxMemRankGetRange_eq alg lib w.store mem now hne hstart hcount hitems hlen horder,
        rankGetRange_view, hslice]
      rfl
  · intro page m start hpage hcover hstart
    exact rangePages_flatten alg hstamped hpage hcover hstart

/-- Three keys reach the same score. -/
private def threeWithFive : List (Call × Reply) :=
  [(⟨.write (.rankSet [1] [2] 5 .persistent 0), .at 0 fun _ => 0⟩, .flag true),
    (⟨.write (.rankSet [1] [3] 5 .persistent 0), .at 0 fun _ => 0⟩, .flag true),
    (⟨.write (.rankSet [1] [4] 5 .persistent 0), .at 0 fun _ => 0⟩, .flag true)]

/-- Three tied keys, read in pages of two. -/
theorem range_returns_slices_pages : ∃ w : World,
    RunFromStart (StdAlgorithm.insertionSort (α := RankPair)) Machine.anyStep threeWithFive w ∧
    ∃ board : List (StdString × Cell), board.length = 3 ∧ (board.map Prod.fst).Nodup ∧
      ∃ pages : List (List (StdString × Cell)),
        rangePages (StdAlgorithm.insertionSort (α := RankPair)) [1] 2 .desc 0 w.store [1, 3] =
          pages.map some ∧ pages.flatten = board := by
  have hrun : ∃ w, (w.store.rankGetCount [1] 0).2 = 3 ∧
      RunFromStart (StdAlgorithm.insertionSort (α := RankPair)) Machine.anyStep threeWithFive w :=
    ⟨⟨_, 0⟩, rfl, 0, run_cons trivial le_rfl rfl (run_cons trivial le_rfl rfl
      (run_cons trivial le_rfl rfl (.nil _)))⟩
  obtain ⟨w, hcount, hrun⟩ := hrun
  obtain ⟨board, hlength, hnodup, _, _, hpages⟩ :=
    range_returns_slices hrun (by decide) [1] .desc 0
  refine ⟨w, hrun, board, by rw [hlength, hcount], hnodup, ?_⟩
  exact hpages 2 2 (fun k => 1 + 2 * Int32.ofNat k) (by decide) (by rw [hlength, hcount]; decide)
    (by decide)

/-! ## Beyond 2^64 rank writes -/

/-- Sorting from the front, selecting from the back. -/
private def backwards : StdAlgorithm RankPair :=
  { (StdAlgorithm.insertionSort : StdAlgorithm RankPair) with
    nthElement := fun comp n l => StdAlgorithm.insertionSort.nthElement comp n l.reverse
    nthElement_perm := fun hcomp n l =>
      (StdAlgorithm.insertionSort.nthElement_perm hcomp n l.reverse).trans (List.reverse_perm l)
    nthElement_before := fun hcomp n l =>
      StdAlgorithm.insertionSort.nthElement_before hcomp n l.reverse
    nthElement_after := fun hcomp n l =>
      StdAlgorithm.insertionSort.nthElement_after hcomp n l.reverse }

/-- Two keys with one score, the second one written last. -/
private def tied (counter : UInt64) : MemStoreManager where
  ranks :=
    { entries := [([1],
        { entries := [([3], { score := 5, sequence := counter }),
            ([2], { score := 5, sequence := 1 })]
          nodup_keys := show ([[3], [2]] : List StdString).Nodup by decide })]
      nodup_keys := show ([[1]] : List StdString).Nodup by decide }
  rankSequenceCounter := counter

/-- The second key is written again and again. -/
private theorem tied_run (n : ℕ) (counter : UInt64) : ∃ steps,
    Machine.Run (World.call backwards) Machine.anyStep ⟨tied counter, 0⟩ steps
      ⟨tied (counter + UInt64.ofNat n), 0⟩ := by
  induction n generalizing counter with
  | zero =>
      refine ⟨[], ?_⟩
      have hsame : counter + UInt64.ofNat 0 = counter := UInt64.add_zero counter
      rw [hsame]
      exact .nil _
  | succ n ih =>
      obtain ⟨steps, hsteps⟩ := ih (counter + 1)
      have hnext : counter + 1 + UInt64.ofNat n = counter + UInt64.ofNat (n + 1) := by
        rw [UInt64.add_assoc, UInt64.ofNat_add, UInt64.add_comm (UInt64.ofNat n)]
        rfl
      rw [hnext] at hsteps
      have hwrite : exec backwards (tied counter) (.at 0 fun _ => 0)
          (.write (.rankSet [1] [3] 5 .persistent 0)) =
            some (tied (counter + 1), .flag true) := rfl
      exact ⟨(⟨.write (.rankSet [1] [3] 5 .persistent 0), .at 0 fun _ => 0⟩, .flag true) :: steps,
        run_cons trivial le_rfl hwrite hsteps⟩

/-- The first place and nothing else. -/
private def firstPlace : RangeParams where
  ns := [1]
  startPos := 1
  count := 1
  keys := 0
  scores := 0
  maxItems := 1
  maxKeyLen := 31

/-- After 2^64 further writes of the second key both stamps are 1, and the first
place is one key for `RankGetTop` and the other one for `RankGetRange`. -/
theorem slices_disagree : ¬ ∀ (alg : StdAlgorithm RankPair) (steps : List (Call × Reply))
    (w : World), RunFromStart alg Machine.anyStep steps w →
      ∀ (ns : StdString) (order : RankOrder) (now : TimePoint) (p : RangeParams),
        1 ≤ p.startPos.toInt → 1 ≤ p.count.toInt → 1 ≤ p.maxItems.toInt →
        ∃ entries : List (StdString × Cell),
          (w.store.rankGetRange alg ns p.startPos p.fetchCount order now).2 = some entries ∧
          ∀ j < entries.length, ∀ i : Int32, i.toInt = p.startPos.toInt + j →
            (w.store.rankGetTop alg ns i order now).2 = entries[j]? := by
  intro h
  obtain ⟨steps, hsteps⟩ := tied_run (2 ^ 64 - 1) 2
  have hcounter : (2 : UInt64) + UInt64.ofNat (2 ^ 64 - 1) = 1 := by decide
  rw [hcounter] at hsteps
  have hrun : ∃ steps, RunFromStart backwards Machine.anyStep steps ⟨tied 1, 0⟩ :=
    ⟨(⟨.write (.rankSet [1] [2] 5 .persistent 0), .at 0 fun _ => 0⟩, .flag true) ::
        (⟨.write (.rankSet [1] [3] 5 .persistent 0), .at 0 fun _ => 0⟩, .flag true) :: steps,
      0, run_cons trivial le_rfl rfl (run_cons trivial le_rfl rfl hsteps)⟩
  obtain ⟨steps, hrun⟩ := hrun
  obtain ⟨entries, hentries, htop⟩ := h backwards steps ⟨tied 1, 0⟩ hrun [1] .desc 0
    firstPlace (by decide) (by decide) (by decide)
  have hrange : (MemStoreManager.rankGetRange backwards (tied 1) [1] firstPlace.startPos
      firstPlace.fetchCount .desc 0).2 = some [([3], 5)] := by decide
  have hfirst : (MemStoreManager.rankGetTop backwards (tied 1) [1] 1 .desc 0).2 =
      some ([2], 5) := by decide
  rw [hrange] at hentries
  cases hentries
  have hboth := htop 0 (by decide) 1 (by decide)
  rw [hfirst] at hboth
  cases hboth

end MemStore
