import MemStore.Model.Rank

/-!
# The comparators of the leaderboard

An entry is better than another if it has the better score, or the same score
and the older stamp (`comp_eq_true_iff`).  That is a strict weak order, as the
sorting algorithms demand, and it is also the test in the counting loop of
`RankGetPosition` (`outranks_eq_comp`).
-/

namespace MemStore

/-- A score as a number that is the smaller the better. -/
def scoreKey (order : RankOrder) (score : Cell) : ℤ :=
  match order with
  | .desc => -score.toInt
  | .asc => score.toInt

/-- A better entry has the better score, or the same score and the older stamp. -/
theorem comp_eq_true_iff {order : RankOrder} {a b : RankPair} :
    comp order a b = true ↔
      scoreKey order a.2.score < scoreKey order b.2.score ∨
        scoreKey order a.2.score = scoreKey order b.2.score ∧
          a.2.sequence.toNat < b.2.sequence.toNat := by
  have hne : a.2.score ≠ b.2.score ↔ a.2.score.toInt ≠ b.2.score.toInt :=
    not_congr Int32.toInt_inj.symm
  cases order with
  | desc =>
      simp only [comp, compDesc, scoreKey, hne]
      split
      · rw [decide_eq_true_eq, Int32.lt_iff_toInt_lt]
        omega
      · rw [decide_eq_true_eq, UInt64.lt_iff_toNat_lt]
        omega
  | asc =>
      simp only [comp, compAsc, scoreKey, hne]
      split
      · rw [decide_eq_true_eq, Int32.lt_iff_toInt_lt]
        omega
      · rw [decide_eq_true_eq, UInt64.lt_iff_toNat_lt]
        omega

theorem comp_eq_false_iff {order : RankOrder} {a b : RankPair} :
    comp order a b = false ↔
      scoreKey order b.2.score < scoreKey order a.2.score ∨
        scoreKey order a.2.score = scoreKey order b.2.score ∧
          b.2.sequence.toNat ≤ a.2.sequence.toNat := by
  rw [← Bool.not_eq_true, comp_eq_true_iff]
  omega

theorem strictWeakOrder_comp (order : RankOrder) : StrictWeakOrder (comp order) where
  irrefl := by
    intro a
    rw [comp_eq_false_iff]
    omega
  trans := by
    intro a b c hab hbc
    rw [comp_eq_true_iff] at hab hbc ⊢
    omega
  incomp_trans := by
    intro a b c hab hbc
    rw [comp_eq_false_iff] at hab hbc ⊢
    omega

/-- The counting loop and the comparators apply the same test. -/
theorem outranks_eq_comp (order : RankOrder) (a b : RankPair) :
    outranks order a.2 b.2.score b.2.sequence = comp order a b := by
  cases order with
  | desc =>
      by_cases hscore : a.2.score = b.2.score
      · simp [outranks, comp, compDesc, hscore]
      · simp [outranks, comp, compDesc, hscore]
  | asc =>
      by_cases hscore : a.2.score = b.2.score
      · simp [outranks, comp, compAsc, hscore]
      · simp [outranks, comp, compAsc, hscore]

end MemStore
