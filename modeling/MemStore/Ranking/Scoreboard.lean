import Mathlib.Data.Prod.Lex
import MemStore.Containers.Contents
import MemStore.Ranking.Positions

/-!
# The leaderboards as a history of scores

The abstract model of the leaderboards is a history.  For each key of each board a
`Scoreboard` has the score that was reached last, which of all rank writes that
was, and how long it lives (`Standing`): it knows nothing of maps, sequence
numbers or lazy erasure.  Places are counted among sets of keys
(`Scoreboard.place`).

The refinement relation `Shows` says that what is stored and alive is what the
scoreboard has.  It is preserved by every step (`RankStep.standing`), and
`boards_eq_scoreboard` reads the replies of the rank queries off the scoreboard.
-/

namespace MemStore

open MemStoreManager

/-! ## Scoreboards -/

/-- What a key has reached on a board: the `since`-th rank write was the last one
to change its score. -/
structure Standing where
  score : Cell
  since : ℕ
  life : Lifetime

/-- By score, and by age among equal scores; what comes first is less. -/
def Standing.rank (order : RankOrder) (x : Standing) : ℤ ×ₗ ℕ :=
  toLex (scoreKey order x.score, x.since)

/-- A standing, unless it has run out. -/
def standingAt (now : TimePoint) (o : Option Standing) : Option Standing :=
  o.filter fun x => x.life.alive now

/-- The standing of a key after an action on it, from what is alive at its start.
If the action is a rank write, it is the `n`-th one. -/
def Standing.advance (env : Env) (n : ℕ) (o : Option Standing) : RankAction → Option Standing
  | .pass => o
  | .write score policy extra => some ⟨score, n, .ofPolicy policy extra env.first⟩
  | .increment delta policy extra =>
      match o with
      | none => some ⟨delta, n, .ofPolicy policy extra env.second⟩
      | some x =>
          some ⟨x.score + delta, n,
            if policy ≠ .persistent ∨ extra ≠ 0 then .ofPolicy policy extra env.second else x.life⟩
  | .delete | .clear | .clearAll => none
  | .sweep => o.map fun x => { x with life := x.life.afterSweeps 1 }

/-- All boards, with the number of rank writes since everything was last cleared. -/
structure Scoreboard where
  writes : ℕ := 0
  standing : StdString → StdString → Option Standing := fun _ _ => none

namespace Scoreboard

/-- Enter a call; of its reply only the success of a write matters.  Limits do not
matter to what a call asks of a board. -/
def enter (b : Scoreboard) (step : Call × Reply) : Scoreboard where
  writes := countRankWrites b.writes step
  standing ns key :=
    Standing.advance step.1.env (countRankWrites b.writes step)
      (standingAt step.1.env.first (b.standing ns key))
      ((step.1.op.entered {} step.2).atRankKey ns key)

/-- What a key has at a time. -/
def live (b : Scoreboard) (now : TimePoint) (ns key : StdString) : Option Standing :=
  standingAt now (b.standing ns key)

/-- The keys that come before a standing. -/
def ahead (b : Scoreboard) (now : TimePoint) (ns : StdString) (order : RankOrder)
    (x : Standing) : Set StdString :=
  {key | ∃ y, b.live now ns key = some y ∧ y.rank order < x.rank order}

/-- The place of a key, which is 0 if it is not on the board. -/
noncomputable def place (b : Scoreboard) (now : TimePoint) (ns : StdString) (order : RankOrder)
    (key : StdString) : ℕ :=
  match b.live now ns key with
  | none => 0
  | some x => 1 + (b.ahead now ns order x).ncard

end Scoreboard

/-- The scoreboard of a run. -/
def scoreboard (steps : List (Call × Reply)) : Scoreboard := steps.foldl Scoreboard.enter {}

/-- What an entry stands for. -/
def RankEntry.standing (e : RankEntry) : Standing := ⟨e.score, e.sequence.toNat, e.lifetime⟩

/-! ## Standings -/

theorem standingAt_of_alive {now : TimePoint} {x : Standing} (h : x.life.alive now = true) :
    standingAt now (some x) = some x :=
  Option.filter_eq_some_iff.mpr ⟨rfl, h⟩

theorem standingAt_of_not_alive {now : TimePoint} {x : Standing} (h : x.life.alive now = false) :
    standingAt now (some x) = none := by
  simp [standingAt, Option.filter, h]

theorem standingAt_standingAt {now later : TimePoint} (hle : now ≤ later) (o : Option Standing) :
    standingAt later (standingAt now o) = standingAt later o := by
  cases o with
  | none => rfl
  | some x =>
      cases hlife : x.life.alive now with
      | true => rw [standingAt_of_alive hlife]
      | false =>
          rw [standingAt_of_not_alive hlife,
            standingAt_of_not_alive (Lifetime.not_alive_of_later hle hlife)]
          rfl

/-- What is alive under a key is what the rank queries find there. -/
theorem standingAt_rankAt (s : MemStoreManager) (ns key : StdString) (now : TimePoint) :
    standingAt now ((s.rankAt ns key).map RankEntry.standing) =
      (s.liveRankAt now ns key).map RankEntry.standing := by
  unfold liveRankAt
  cases s.rankAt ns key with
  | none => rfl
  | some e =>
      cases hexp : e.isExpired now with
      | true =>
          rw [Option.map_some, standingAt_of_not_alive (Expiration.isExpired_iff.mp hexp)]
          simp [Option.filter, hexp]
      | false =>
          rw [Option.map_some, standingAt_of_alive (Expiration.alive_of_not_isExpired hexp)]
          simp [Option.filter, hexp]

theorem standing_applyRankExpiration (e : RankEntry) (policy : ExpirePolicy) (extra : Int32)
    (now : TimePoint) : (applyRankExpiration e policy extra now).standing =
      ⟨e.score, e.sequence.toNat, .ofPolicy policy extra now⟩ := by
  rw [← Expiration.lifetime_apply e.toExpiration policy extra now]
  rfl

/-! ## One step -/

/-- The standing of an entry after a sweep. -/
theorem standing_sweep {e : RankEntry} (hsound : e.Sound) {now later : TimePoint}
    (hle : now ≤ later) : standingAt later ((sweepRankEntry now e).map RankEntry.standing) =
      standingAt later (some { e.standing with life := e.lifetime.afterSweeps 1 }) := by
  unfold sweepRankEntry
  cases hsweep : e.toExpiration.sweep now with
  | none =>
      have hover := (Expiration.sweep_eq_none_iff hsound).mp hsweep
      exact (standingAt_of_not_alive (Lifetime.not_alive_of_later hle hover)).symm
  | some x =>
      rw [← (Expiration.lifetime_of_sweep hsound hsweep).1]
      rfl

/-- A step keeps what is stored in line with the standing. -/
theorem RankStep.standing {env : Env} {sequence : UInt64} {a : RankAction}
    {o o' : Option RankEntry} (h : RankStep env sequence a o o')
    (hsound : ∀ e, o = some e → e.Sound) {n : ℕ} (hn : a.stamps → sequence.toNat = n) :
    standingAt env.third (o'.map RankEntry.standing) =
      standingAt env.third
        (Standing.advance env n (standingAt env.first (o.map RankEntry.standing)) a) := by
  cases h with
  | keep => rw [Standing.advance, standingAt_standingAt env.first_le_third]
  | @purge e hexp =>
      rw [Standing.advance, standingAt_standingAt env.first_le_third, Option.map_some,
        standingAt_of_not_alive (Expiration.isExpired_iff.mp hexp)]
      rfl
  | write o score policy extra =>
      rw [Option.map_some, standing_applyRankExpiration, ← hn trivial]
      rfl
  | incDead delta policy extra hdead =>
      -- a dead entry counts for nothing
      have hnone : standingAt env.first (o.map RankEntry.standing) = none := by
        cases ho : o with
        | none => rfl
        | some e =>
            exact standingAt_of_not_alive (Expiration.isExpired_iff.mp (hdead e ho))
      rw [hnone, Option.map_some, standing_applyRankExpiration, ← hn trivial]
      rfl
  | @incLive e delta policy extra hlive =>
      have hnow : standingAt env.first (some e.standing) = some e.standing :=
        standingAt_of_alive (Expiration.alive_of_not_isExpired hlive)
      rw [Option.map_some, Option.map_some, hnow, ← hn trivial, reapplyRankExpiration,
        Standing.advance]
      split
      · rw [standing_applyRankExpiration]
        rfl
      · rfl
  | delete | clear | clearAll => rfl
  | sweep =>
      cases o with
      | none => rfl
      | some e =>
          rw [Option.bind_some, standing_sweep (hsound e rfl) env.first_le_third, Standing.advance,
            Option.map_some]
          cases hlife : e.lifetime.alive env.first with
          | true =>
              have hnow : standingAt env.first (some e.standing) = some e.standing :=
                standingAt_of_alive hlife
              rw [hnow]
              rfl
          | false =>
              -- what has run out does not come back with fewer map ends to live
              have hnow : standingAt env.first (some e.standing) = none :=
                standingAt_of_not_alive hlife
              have hnext : (e.lifetime.afterSweeps 1).alive env.third = false :=
                Lifetime.not_alive_afterSweeps 1
                  (Lifetime.not_alive_of_later env.first_le_third hlife)
              rw [hnow]
              exact standingAt_of_not_alive hnext

/-! ## Runs -/

variable {alg : StdAlgorithm RankPair}

/-- What a call asks of a board does not depend on the limits. -/
theorem atRankKey_outcome (limits limits' : Limits) (op : Op) (reply : Reply)
    (ns key : StdString) :
    (op.outcome limits reply).atRankKey ns key = (op.outcome limits' reply).atRankKey ns key := by
  unfold Op.outcome
  split <;> cases op with
  | write w => cases w <;> rfl
  | _ => rfl

/-- What a call is entered as is what it does to a rank entry, also where the call had
nothing to do. -/
theorem World.rankStep_entered {w w' : World} {c : Call} {reply : Reply} (hw : WellFormed w.store)
    (hcall : w.call alg c = some (w', reply)) (ns key : StdString) :
    RankStep c.env (w.store.rankSequenceCounter + 1) ((c.op.entered {} reply).atRankKey ns key)
      (w.store.rankAt ns key) (w'.store.rankAt ns key) := by
  obtain ⟨_, hexec, _⟩ := World.call_eq_some_iff.mp hcall
  rcases exec_entered {} hexec with heq | ⟨hsame, hlacks⟩
  · rw [heq, atRankKey_outcome {} w.store.toLimits]
    exact (exec_change hw.maxKeys_pos hexec).rankStep ns key
  · rw [hsame]
    exact hlacks.rankStep c.env _ ns key

/-- The refinement relation between a scoreboard and a world.  It needs the stamps
to be distinct. -/
structure Shows (b : Scoreboard) (w : World) : Prop where
  sequenced : Sequenced b.writes w.store
  standing : ∀ ns key, standingAt w.clock ((w.store.rankAt ns key).map RankEntry.standing) =
    standingAt w.clock (b.standing ns key)

theorem shows_initial (t : TimePoint) : Shows {} (World.initial t) where
  sequenced := sequenced_initial
  standing _ _ := rfl

/-- Unless everything is cleared, the number of rank writes does not go back. -/
theorem Request.le_countRankWrites {req : Request} (h : req ≠ .clearAll) (n : ℕ) :
    n ≤ req.countRankWrites n := by
  cases req with
  | clearAll => exact absurd rfl h
  | rankWrite | rankIncrement => exact Nat.le_succ n
  | _ => exact le_rfl

theorem Shows.call {b : Scoreboard} {w w' : World} {c : Call} {reply : Reply}
    (hw : WellFormed w.store) (h : b.writes < 2 ^ 64 → Shows b w)
    (hcall : w.call alg c = some (w', reply)) (hn : (b.enter (c, reply)).writes < 2 ^ 64) :
    Shows (b.enter (c, reply)) w' := by
  obtain ⟨hle, _, hclock'⟩ := World.call_eq_some_iff.mp hcall
  have hcount : (c.op.entered {} reply).countRankWrites b.writes = (b.enter (c, reply)).writes :=
    countRankWrites_entered {} b.writes c reply
  refine ⟨World.sequenced_call hw (fun hlt => (h hlt).sequenced) hcall hn, fun ns key => ?_⟩
  have henter : (b.enter (c, reply)).standing ns key =
      Standing.advance c.env (b.enter (c, reply)).writes
        (standingAt c.env.first (b.standing ns key))
        ((c.op.entered {} reply).atRankKey ns key) := rfl
  have hstep := World.rankStep_entered hw hcall ns key
  rw [henter, hclock']
  by_cases hclear : c.op.entered {} reply = .clearAll
  · -- it does not matter what was there before
    rw [hclear] at hstep ⊢
    generalize w'.store.rankAt ns key = o' at hstep ⊢
    cases hstep
    rfl
  · have hshows := h ((Request.le_countRankWrites hclear b.writes).trans_lt (hcount ▸ hn))
    have hbefore : standingAt c.env.first ((w.store.rankAt ns key).map RankEntry.standing) =
        standingAt c.env.first (b.standing ns key) := by
      rw [← standingAt_standingAt hle, hshows.standing, standingAt_standingAt hle]
    rw [← hbefore]
    refine hstep.standing (fun e he => ?_) fun hstamps => ?_
    · exact hw.sound (.rank ns key) e.toExpiration (expirationAt_of_rankAt he)
    · rw [Request.countRankWrites_of_stamps b.writes hstamps] at hcount
      rw [← hcount] at hn ⊢
      exact hshows.sequenced.toNat_next hn

theorem shows_of_run {steps : List (Call × Reply)} {w : World}
    (hrun : RunFromStart alg Machine.anyStep steps w) (hn : rankWrites steps < 2 ^ 64) :
    Shows (scoreboard steps) w := by
  obtain ⟨t, hrun⟩ := hrun
  have hstep : ∀ (b : Scoreboard) (w : World) (c : Call) (reply : Reply) (w' : World),
      Machine.anyStep w c reply →
      (WellFormed w.store ∧ (b.writes < 2 ^ 64 → Shows b w)) →
      w.call alg c = some (w', reply) →
      WellFormed w'.store ∧
        ((b.enter (c, reply)).writes < 2 ^ 64 → Shows (b.enter (c, reply)) w') :=
    fun b w c reply w' _ hw hcall =>
      ⟨World.wellFormed_call hw.1 hcall, Shows.call hw.1 hw.2 hcall⟩
  have henter : ∀ (b : Scoreboard) step, countRankWrites b.writes step = (b.enter step).writes :=
    fun _ _ => rfl
  have hwrites : rankWrites steps = (scoreboard steps).writes := by
    rw [rankWrites, scoreboard, ← List.foldl_hom Scoreboard.writes henter]
  exact (hrun.simulates Scoreboard.enter
    (fun b w => WellFormed w.store ∧ (b.writes < 2 ^ 64 → Shows b w)) hstep {}
    ⟨wellFormed_initial, fun _ => shows_initial t⟩).2 (hwrites ▸ hn)

/-! ## The rank queries -/

section Queries

variable {b : Scoreboard} {w : World} {now : TimePoint} {ns : StdString} {order : RankOrder}

theorem Shows.live (h : Shows b w) (hnow : w.clock ≤ now) (ns key : StdString) :
    ((w.store.liveView now).rankAt ns key).map RankEntry.standing = b.live now ns key := by
  rw [rankAt_liveView, ← standingAt_rankAt, ← standingAt_standingAt hnow, h.standing,
    standingAt_standingAt hnow]
  rfl

/-- The comparators go by rank. -/
theorem comp_iff_rank_lt {key key' : StdString} {e e' : RankEntry} :
    comp order (key, e) (key', e') = true ↔ e.standing.rank order < e'.standing.rank order := by
  rw [comp_eq_true_iff, Standing.rank, Standing.rank, Prod.Lex.toLex_lt_toLex]
  rfl

theorem Shows.live_isSome (h : Shows b w) (hnow : w.clock ≤ now) (key : StdString) :
    (b.live now ns key).isSome = ((w.store.liveView now).rankAt ns key).isSome := by
  rw [← h.live hnow, Option.isSome_map]

/-- The position that is counted is the place on the scoreboard. -/
theorem Shows.position (h : Shows b w) (hnow : w.clock ≤ now) (key : StdString) :
    (w.store.liveView now).position ns key order = b.place now ns order key := by
  have hlive := h.live hnow ns
  rw [Scoreboard.place, ← hlive key]
  cases hkey : (w.store.liveView now).rankAt ns key with
  | none => exact LiveView.position_of_none hkey
  | some e =>
      rw [position_eq hkey, StdAlgorithm.better, ← UnorderedMap.ncard_setOf_find?]
      refine congrArg (1 + Set.ncard ·) (Set.ext fun key' => ?_)
      change (∃ v, (w.store.liveView now).rankAt ns key' = some v ∧
          comp order (key', v) (key, e) = true) ↔
        ∃ y, b.live now ns key' = some y ∧ y.rank order < e.standing.rank order
      rw [← hlive key']
      simp only [comp_iff_rank_lt, Option.map_eq_some_iff]
      constructor
      · rintro ⟨v, hv, hlt⟩
        exact ⟨_, ⟨v, hv, rfl⟩, hlt⟩
      · rintro ⟨_, ⟨v, hv, rfl⟩, hlt⟩
        exact ⟨v, hv, hlt⟩

end Queries

/-- **The leaderboards are what was reached on them.**  In every run with fewer than
2^64 rank writes since everything was last cleared, the rank queries report what
the scoreboard of the run has, on every board and at every later time:

* the score of a key is the one it reached last, as long as that lives;
* there are as many entries as keys with a standing;
* the position of a key is one more than the number of keys that come before it, by
  score and then by who got there first, and 0 for keys without a standing;
* the key at a position is the one that has this place, with its score. -/
theorem boards_eq_scoreboard {steps : List (Call × Reply)} {w : World}
    (hrun : RunFromStart alg Machine.anyStep steps w) (hwrites : rankWrites steps < 2 ^ 64)
    {now : TimePoint} (hnow : w.clock ≤ now) (ns : StdString) (order : RankOrder) :
    let b := scoreboard steps
    (∀ key, (w.store.rankGetScore ns key now).2 = (b.live now ns key).map Standing.score) ∧
    (∀ key, (w.store.rankExists ns key now).2 = (b.live now ns key).isSome) ∧
    (w.store.rankGetCount ns now).2 = {key | (b.live now ns key).isSome}.ncard ∧
    (∀ key, (w.store.rankGetPosition ns key order now).2 = b.place now ns order key) ∧
    ∀ (i : Int32) (key : StdString) (score : Cell),
      (w.store.rankGetTop alg ns i order now).2 = some (key, score) ↔
        1 ≤ i.toInt ∧ (b.place now ns order key : ℤ) = i.toInt ∧
          ∃ x, b.live now ns key = some x ∧ x.score = score := by
  intro b
  have hshows : Shows b w := shows_of_run hrun hwrites
  have hstamped := stamped_of_sequenced hshows.sequenced now ns
  have hlive := hshows.live hnow ns
  have hscore : ∀ key, (w.store.rankGetScore ns key now).2 =
      (b.live now ns key).map Standing.score := fun key => by
    rw [rankGetScore_view, ← hlive key, Option.map_map]
    rfl
  refine ⟨hscore, fun key => ?_, ?_, fun key => ?_, fun i key score => ?_⟩
  · exact (congrArg Option.isSome (hscore key)).trans Option.isSome_map
  · rw [rankGetCount_view, ← UnorderedMap.ncard_setOf_isSome]
    exact congrArg Set.ncard (Set.ext fun key =>
      Bool.eq_iff_iff.mp (hshows.live_isSome hnow key).symm)
  · rw [rankGetPosition_view]
    exact hshows.position hnow key
  · rw [rankGetTop_view, top_eq_some_iff hstamped alg, hshows.position hnow, ← hlive key]
    refine and_congr_right fun _ => and_congr_right fun _ => ?_
    constructor
    · rintro ⟨e, he, rfl⟩
      exact ⟨_, Option.map_eq_some_iff.mpr ⟨e, he, rfl⟩, rfl⟩
    · rintro ⟨_, hx, rfl⟩
      obtain ⟨e, he, rfl⟩ := Option.map_eq_some_iff.mp hx
      exact ⟨e, he, rfl⟩

/-- A key with 5 points is overtaken by one with 7, gets 4 more, and is alone again
once the other one is deleted. -/
private def overtaken : List (Call × Reply) :=
  [(⟨.write (.rankSet [1] [2] 5 .persistent 0), .at 0 fun _ => 0⟩, .flag true),
    (⟨.write (.rankSet [1] [3] 7 .persistent 0), .at 0 fun _ => 0⟩, .flag true),
    (⟨.write (.rankInc [1] [2] 4 .persistent 0), .at 0 fun _ => 0⟩, .cell (some 9)),
    (⟨.rankDelete [1] [3], .at 0 fun _ => 0⟩, .flag true)]

/-- The scoreboard gives the places on this board. -/
theorem boards_eq_scoreboard_three : ∃ w : World, w.clock = 0 ∧
    RunFromStart (StdAlgorithm.insertionSort (α := RankPair)) Machine.anyStep overtaken w ∧
      (w.store.rankGetScore [1] [2] 0).2 = some 9 ∧ (w.store.rankExists [1] [3] 0).2 = false ∧
      ∀ key, (w.store.rankGetPosition [1] key .desc 0).2 =
        (scoreboard overtaken).place 0 [1] .desc key := by
  have hrun : ∃ w, w.clock = 0 ∧
      RunFromStart (StdAlgorithm.insertionSort (α := RankPair)) Machine.anyStep overtaken w :=
    ⟨⟨_, 0⟩, rfl, 0, run_cons trivial le_rfl rfl (run_cons trivial le_rfl rfl
      (run_cons trivial le_rfl rfl (run_cons trivial le_rfl rfl (.nil _))))⟩
  obtain ⟨w, hclock, hrun⟩ := hrun
  obtain ⟨hscore, hexists, _, hposition, _⟩ :=
    boards_eq_scoreboard hrun (by decide) hclock.le [1] .desc
  exact ⟨w, hclock, hrun, hscore [2], hexists [3], hposition⟩

end MemStore
