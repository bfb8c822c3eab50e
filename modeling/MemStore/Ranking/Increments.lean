import MemStore.Expiry.Reapplying
import MemStore.Ranking.Leaderboard

/-!
# Positive increments

`IncInt` and `RankInc` add 32-bit numbers.  Up to the largest cell the result is
the sum, and on a leaderboard the key moves to where the higher score belongs
(`Promotes`), whatever stamp it gets: towards the front in descending order and
towards the back in ascending order, past keys that keep their order.  Beyond it
the sum wraps around and the value drops.
-/

namespace MemStore

open MemStoreManager

/-! ## The sum -/

/-- The wrapped sum is the sum unless it would be too large. -/
theorem toInt_add_iff {a b : Int32} (hpos : 0 < b) :
    (a + b).toInt = a.toInt + b.toInt ↔ a.toInt + b.toInt < 2 ^ 31 := by
  have hlow := a.le_toInt
  have hltA := a.toInt_lt
  have hltB := b.toInt_lt
  rw [Int32.lt_iff_toInt_lt, Int32.toInt_zero] at hpos
  rw [Int32.toInt_add, Int.bmod_def]
  omega

/-- A positive sum is above the first summand if it does not wrap around. -/
theorem lt_add_of_toInt {a b : Int32} (hpos : 0 < b) (hsum : (a + b).toInt = a.toInt + b.toInt) :
    a < a + b := by
  rw [Int32.lt_iff_toInt_lt, Int32.toInt_zero] at hpos
  rw [Int32.lt_iff_toInt_lt, hsum]
  omega

/-! ## Positions when one score changes -/

section Positions

variable {view view' : LiveView} {ns key : StdString} {order : RankOrder}
  (hother : ∀ key₁, key₁ ≠ key → view'.rankAt ns key₁ = view.rankAt ns key₁)

include hother

/-- The other keys keep their order. -/
theorem position_lt_congr {key₁ key₂ : StdString} (hne₁ : key₁ ≠ key) (hne₂ : key₂ ≠ key) :
    view'.position ns key₁ order < view'.position ns key₂ order ↔
      view.position ns key₁ order < view.position ns key₂ order := by
  have h₁ := hother key₁ hne₁
  have h₂ := hother key₂ hne₂
  cases he₁ : view.rankAt ns key₁ with
  | none =>
      rw [LiveView.position_of_none he₁, LiveView.position_of_none (h₁.trans he₁), position_pos_iff,
        position_pos_iff, h₂]
  | some e₁ =>
      cases he₂ : view.rankAt ns key₂ with
      | none =>
          rw [LiveView.position_of_none he₂, LiveView.position_of_none (h₂.trans he₂)]
          exact iff_of_false (Nat.not_lt_zero _) (Nat.not_lt_zero _)
      | some e₂ =>
          rw [position_lt_iff_comp he₁ he₂, position_lt_iff_comp (h₁.trans he₁) (h₂.trans he₂)]

/-- A better score does not make the position worse. -/
theorem position_le_of_scoreKey_lt {e e' : RankEntry} (he : view.rankAt ns key = some e)
    (he' : view'.rankAt ns key = some e')
    (hbetter : scoreKey order e'.score < scoreKey order e.score) :
    view'.position ns key order ≤ view.position ns key order := by
  have hsome : ∀ key₁, (view'.rankAt ns key₁).isSome = (view.rankAt ns key₁).isSome := by
    intro key₁
    by_cases hkey : key₁ = key
    · rw [hkey, he, he', Option.isSome_some, Option.isSome_some]
    · rw [hother key₁ hkey]
  have hkeys : (view'.ranks ns).keys.Perm (view.ranks ns).keys := UnorderedMap.keys_perm hsome
  rw [position_eq he, position_eq he', better_eq_countP_keys, better_eq_countP_keys,
    hkeys.countP_eq]
  refine Nat.add_le_add_left (List.countP_mono_left fun key₁ _ hcount => ?_) 1
  obtain ⟨f, hf, hcomp⟩ := (Option.any_eq_true _ _).mp hcount
  by_cases hkey : key₁ = key
  · -- no entry is better than itself
    subst hkey
    cases he'.symm.trans hf
    rw [(strictWeakOrder_comp order).irrefl] at hcomp
    cases hcomp
  · refine (Option.any_eq_true _ _).mpr ⟨f, (hother key₁ hkey).symm.trans hf, ?_⟩
    rw [comp_eq_true_iff] at hcomp ⊢
    dsimp only at hcomp ⊢
    omega

end Positions

/-! ## The increments -/

/-- What a positive increment of a live key should do to the answers about its
board at a clock reading. -/
structure Promotes (s s' : MemStoreManager) (ns key : StdString) (now : TimePoint) : Prop where
  desc : (s'.rankGetPosition ns key .desc now).2 ≤ (s.rankGetPosition ns key .desc now).2
  asc : (s.rankGetPosition ns key .asc now).2 ≤ (s'.rankGetPosition ns key .asc now).2
  others : ∀ order key₁ key₂, key₁ ≠ key → key₂ ≠ key →
    ((s'.rankGetPosition ns key₁ order now).2 < (s'.rankGetPosition ns key₂ order now).2 ↔
      (s.rankGetPosition ns key₁ order now).2 < (s.rankGetPosition ns key₂ order now).2)

variable {alg : StdAlgorithm RankPair} {s s' : MemStoreManager} {ns key : StdString}

/-- A key whose score rises, while the other entries of its board stay the same. -/
theorem promotes_of_score_lt {now : TimePoint} {e e' : RankEntry}
    (he : s.liveRankAt now ns key = some e) (he' : s'.liveRankAt now ns key = some e')
    (hother : ∀ key₁, key₁ ≠ key → s'.liveRankAt now ns key₁ = s.liveRankAt now ns key₁)
    (hlt : e.score.toInt < e'.score.toInt) : Promotes s s' ns key now := by
  simp only [← rankAt_liveView] at he he' hother
  refine ⟨?_, ?_, ?_⟩
  · rw [rankGetPosition_view, rankGetPosition_view]
    exact position_le_of_scoreKey_lt hother he he' (by simp only [scoreKey]; omega)
  · rw [rankGetPosition_view, rankGetPosition_view]
    exact position_le_of_scoreKey_lt (fun key₁ hne => (hother key₁ hne).symm) he' he hlt
  · intro order key₁ key₂ hne₁ hne₂
    simp only [rankGetPosition_view]
    exact position_lt_congr hother hne₁ hne₂

section Increments

variable {w w' : World} {delta : Cell} {policy : ExpirePolicy} {extra : Int32} {env : Env}
  {reply : Reply}

/-- `IncInt` of a live `Int` entry stores the wrapped sum and returns it. -/
theorem call_incInt {e : StoreEntry} (he : w.store.entryAt ns key = some e)
    (hlive : e.isExpired env.first = false) (htype : e.type = .int)
    (hcall : w.call alg ⟨.write (.incInt ns key delta policy extra), env⟩ = some (w', reply)) :
    reply = .cell (some (e.cellValue + delta)) ∧
      (w'.store.entryAt ns key).map (fun e => e.cellValue) = some (e.cellValue + delta) := by
  have hexec := (World.call_eq_some_iff.mp hcall).2.1
  rw [exec_incInt_of_live he hlive htype, Option.some.injEq, Prod.mk.injEq] at hexec
  obtain ⟨hstore, rfl⟩ := hexec
  refine ⟨rfl, ?_⟩
  rw [← hstore, entryAt_modifyEntry, if_pos ⟨rfl, rfl⟩, he, Option.map_some, Option.map_some]
  unfold reapplyExpiration
  split <;> rfl

/-- So does `RankInc` of a live rank entry. -/
theorem call_rankInc {e : RankEntry} (he : w.store.rankAt ns key = some e)
    (hlive : e.isExpired env.first = false)
    (hcall : w.call alg ⟨.write (.rankInc ns key delta policy extra), env⟩ = some (w', reply)) :
    reply = .cell (some (e.score + delta)) ∧
      ∀ e', w'.store.rankAt ns key = some e' → e'.score = e.score + delta := by
  have hexec := (World.call_eq_some_iff.mp hcall).2.1
  rw [exec_rankInc_of_live he hlive, Option.some.injEq, Prod.mk.injEq] at hexec
  obtain ⟨hstore, rfl⟩ := hexec
  refine ⟨rfl, fun e' he' => ?_⟩
  rw [← hstore, rankAt_rankTouch, if_pos ⟨rfl, rfl⟩, he] at he'
  rw [← Option.some.inj he', score_reapplyRankExpiration]

/-- `RankInc` promotes the key if the score it stores is above the old one. -/
theorem promotes_of_rankInc (hwf : WellFormed w.store) {e : RankEntry}
    (he : w.store.rankAt ns key = some e) (hlive : e.isExpired env.first = false)
    (hcall : w.call alg ⟨.write (.rankInc ns key delta policy extra), env⟩ = some (w', reply))
    (hlt : e.score < e.score + delta) {now : TimePoint} (hle : env.third ≤ now)
    (hbefore : (w.store.liveRankAt now ns key).isSome)
    (hafter : (w'.store.liveRankAt now ns key).isSome) : Promotes w.store w'.store ns key now := by
  obtain ⟨_, _, hchange⟩ := World.call_change hwf hcall
  obtain ⟨rfl, hscores⟩ := call_rankInc he hlive hcall
  obtain ⟨e₀, he₀⟩ := Option.isSome_iff_exists.mp hbefore
  obtain ⟨e₁, he₁⟩ := Option.isSome_iff_exists.mp hafter
  have hsame : e₀ = e := Option.some.inj ((liveRankAt_eq_some_iff.mp he₀).1.symm.trans he)
  have hscore : e₁.score = e.score + delta := hscores e₁ (liveRankAt_eq_some_iff.mp he₁).1
  have hother : ∀ key₁, key₁ ≠ key →
      w'.store.liveRankAt now ns key₁ = w.store.liveRankAt now ns key₁ := fun key₁ hne =>
    hchange.liveRankAt_of_pass hle (if_neg fun hboth => hne hboth.2)
  refine promotes_of_score_lt he₀ he₁ hother ?_
  rw [hsame, hscore]
  exact Int32.lt_iff_toInt_lt.mp hlt

end Increments

/-- **Positive increments are exact and promote up to the largest cell.**  On every
reachable state, for a live entry of the matching kind and every positive delta:

* `IncInt` succeeds with the sum, which it stores and which is above the old
  value, if and only if the sum is a cell;
* `RankInc` succeeds with the sum and moves the key as it should, at every clock
  reading at which the key is live before and after the call, if and only if the
  sum is a cell. -/
theorem increment_exact_iff {w w' : World} (hreach : Reachable alg w) {ns key : StdString}
    {delta : Cell} (hdelta : 0 < delta) {policy : ExpirePolicy} {extra : Int32} {env : Env}
    {reply : Reply} :
    (∀ e, w.store.entryAt ns key = some e → e.isExpired env.first = false → e.type = .int →
      w.call alg ⟨.write (.incInt ns key delta policy extra), env⟩ = some (w', reply) →
      ((∃ value, reply = .cell (some value) ∧
          (w'.store.entryAt ns key).map (fun e => e.cellValue) = some value ∧
          value.toInt = e.cellValue.toInt + delta.toInt ∧ e.cellValue < value) ↔
        e.cellValue.toInt + delta.toInt < 2 ^ 31)) ∧
    ∀ e, w.store.rankAt ns key = some e → e.isExpired env.first = false →
      w.call alg ⟨.write (.rankInc ns key delta policy extra), env⟩ = some (w', reply) →
      ((∃ score, reply = .cell (some score) ∧ score.toInt = e.score.toInt + delta.toInt ∧
          e.score < score ∧
          ∀ now, env.third ≤ now → (w.store.liveRankAt now ns key).isSome →
            (w'.store.liveRankAt now ns key).isSome → Promotes w.store w'.store ns key now) ↔
        e.score.toInt + delta.toInt < 2 ^ 31) := by
  constructor
  · intro e he hlive htype hcall
    obtain ⟨rfl, hstored⟩ := call_incInt he hlive htype hcall
    rw [← toInt_add_iff hdelta]
    constructor
    · rintro ⟨value, hreply, _, hsum, _⟩
      cases hreply
      exact hsum
    · intro hsum
      exact ⟨_, rfl, hstored, hsum, lt_add_of_toInt hdelta hsum⟩
  · intro e he hlive hcall
    obtain ⟨rfl, _⟩ := call_rankInc he hlive hcall
    rw [← toInt_add_iff hdelta]
    constructor
    · rintro ⟨score, hreply, hsum, _⟩
      cases hreply
      exact hsum
    · intro hsum
      have hlt : e.score < e.score + delta := lt_add_of_toInt hdelta hsum
      refine ⟨_, rfl, hsum, hlt, fun now hle hbefore hafter => ?_⟩
      exact promotes_of_rankInc (wellFormed_of_reachable hreach) he hlive hcall hlt hle hbefore
        hafter

/-- A player with 5 points who gets 3 more. -/
theorem increment_exact_iff_points : ∃ w w' : World, ∃ score : Cell,
    RunFromStart (StdAlgorithm.insertionSort (α := RankPair)) Machine.anyStep
      [(⟨.write (.rankSet [1] [2] 5 .persistent 0), .at 0 fun _ => 0⟩, .flag true)] w ∧
    w.call (StdAlgorithm.insertionSort (α := RankPair))
      ⟨.write (.rankInc [1] [2] 3 .persistent 0), .at 0 fun _ => 0⟩ =
        some (w', .cell (some score)) ∧
    score.toInt = 5 + 3 ∧ Promotes w.store w'.store [1] [2] 0 := by
  have hrun : ∃ w, w.clock ≤ 0 ∧
      RunFromStart (StdAlgorithm.insertionSort (α := RankPair)) Machine.anyStep
        [(⟨.write (.rankSet [1] [2] 5 .persistent 0), .at 0 fun _ => 0⟩, .flag true)] w ∧
      w.store.rankAt [1] [2] = some { score := 5, sequence := 1 } ∧
      (w.store.liveRankAt 0 [1] [2]).isSome ∧
      ∃ s' reply, exec (StdAlgorithm.insertionSort (α := RankPair)) w.store (.at 0 fun _ => 0)
          (.write (.rankInc [1] [2] 3 .persistent 0)) = some (s', reply) ∧
        (s'.liveRankAt 0 [1] [2]).isSome :=
    ⟨⟨_, 0⟩, le_rfl, ⟨0, run_cons trivial le_rfl rfl (.nil _)⟩, rfl, rfl, _, _, rfl, rfl⟩
  obtain ⟨w, hclock, hrun, he, hbefore, s', reply, hexec, hafter⟩ := hrun
  have hcall : w.call (StdAlgorithm.insertionSort (α := RankPair))
      ⟨.write (.rankInc [1] [2] 3 .persistent 0), .at 0 fun _ => 0⟩ = some (⟨s', 0⟩, reply) :=
    World.call_eq_some_iff.mpr ⟨hclock, hexec, rfl⟩
  obtain ⟨score, hreply, hsum, _, hpromotes⟩ :=
    ((increment_exact_iff ⟨_, hrun⟩ (by decide)).2 _ he rfl hcall).mpr (by decide)
  exact ⟨w, ⟨s', 0⟩, score, hrun, hreply ▸ hcall, hsum, hpromotes 0 le_rfl hbefore hafter⟩

/-- One point more than the largest cell is the smallest cell, and the last place. -/
theorem increment_wraps : ¬ ∀ (w w' : World) (ns key : StdString) (delta : Cell)
    (policy : ExpirePolicy) (extra : Int32) (env : Env) (reply : Reply),
      Reachable (StdAlgorithm.insertionSort (α := RankPair)) w → 0 < delta →
      (∀ e, w.store.entryAt ns key = some e → e.isExpired env.first = false → e.type = .int →
        w.call (StdAlgorithm.insertionSort (α := RankPair))
          ⟨.write (.incInt ns key delta policy extra), env⟩ = some (w', reply) →
        ∃ value, reply = .cell (some value) ∧
          value.toInt = e.cellValue.toInt + delta.toInt ∧ e.cellValue < value) ∧
      ∀ e, w.store.rankAt ns key = some e → e.isExpired env.first = false →
        w.call (StdAlgorithm.insertionSort (α := RankPair))
          ⟨.write (.rankInc ns key delta policy extra), env⟩ = some (w', reply) →
        (∃ score, reply = .cell (some score) ∧ score.toInt = e.score.toInt + delta.toInt ∧
          e.score < score) ∧
        ∀ now, env.third ≤ now → (w.store.liveRankAt now ns key).isSome →
          (w'.store.liveRankAt now ns key).isSome → Promotes w.store w'.store ns key now := by
  intro h
  have hrun : ∃ w, w.clock ≤ 0 ∧ Reachable (StdAlgorithm.insertionSort (α := RankPair)) w ∧
      w.store.rankAt [1] [2] = some { score := 2147483647, sequence := 1 } ∧
      (w.store.liveRankAt 0 [1] [2]).isSome ∧
      (w.store.rankGetPosition [1] [2] .desc 0).2 = 1 ∧
      ∃ s' reply, exec (StdAlgorithm.insertionSort (α := RankPair)) w.store (.at 0 fun _ => 0)
          (.write (.rankInc [1] [2] 1 .persistent 0)) = some (s', reply) ∧
        (s'.liveRankAt 0 [1] [2]).isSome ∧ (s'.rankGetPosition [1] [2] .desc 0).2 = 2 :=
    ⟨⟨_, 0⟩, le_rfl,
      ⟨[(⟨.write (.rankSet [1] [2] 2147483647 .persistent 0), .at 0 fun _ => 0⟩, .flag true),
          (⟨.write (.rankSet [1] [3] 5 .persistent 0), .at 0 fun _ => 0⟩, .flag true)], 0,
        run_cons trivial le_rfl rfl (run_cons trivial le_rfl rfl (.nil _))⟩,
      rfl, rfl, rfl, _, _, rfl, rfl, rfl⟩
  obtain ⟨w, hclock, hreach, he, hbefore, hfirst, s', reply, hexec, hafter, hlast⟩ := hrun
  have hcall : w.call (StdAlgorithm.insertionSort (α := RankPair))
      ⟨.write (.rankInc [1] [2] 1 .persistent 0), .at 0 fun _ => 0⟩ = some (⟨s', 0⟩, reply) :=
    World.call_eq_some_iff.mpr ⟨hclock, hexec, rfl⟩
  have hpromotes := ((h w ⟨s', 0⟩ [1] [2] 1 .persistent 0 _ reply hreach (by decide)).2 _ he rfl
    hcall).2 0 le_rfl hbefore hafter
  have hdesc := hpromotes.desc
  rw [hfirst, hlast] at hdesc
  exact absurd hdesc (by decide)

end MemStore
