import MemStore.KeyValue.Keeping
import Mathlib.Algebra.Ring.Int.Defs

/-!
# Counters lose no increments

A key that holds an integer may be increased by any number of callers, with any
calls in between that do not write to it.  As long as the lifetime lasts that it
was stored with, every increment that reports success is counted, once, and
nothing else is (`count_of_run`).

The increments are those that leave the expiration alone, which is the default of
`mem_inc_int`.  One call is `EntryStep.record_of_counting`; a run is followed by
adding up.
-/

namespace MemStore

open MemStoreManager

variable {alg : StdAlgorithm RankPair} {ns key : StdString}

/-- The call leaves the key alone, is a map end, is refused, or increments the key
without asking for another expiration. -/
def OnlyCounts (ns key : StdString) (w : World) (c : Call) (reply : Reply) : Prop :=
  Untouched ns key w c reply ∨
    (c.op.outcome w.store.toLimits reply).atKey ns key = .reject ∨
      ∃ delta, c.op = .write (.incInt ns key delta .persistent 0)

/-- What a call adds to the integer under a key. -/
def added (ns key : StdString) (step : Call × Reply) : ℤ :=
  match step.1.op with
  | .write (.incInt ns' key' delta _ _) =>
      if (ns = ns' ∧ key = key') ∧ step.2.succeeded then delta.toInt else 0
  | _ => 0

/-- The same, from what the call came to. -/
def KeyAction.adds : KeyAction → ℤ
  | .increment (.int delta) _ _ => delta.toInt
  | _ => 0

theorem adds_atKey_outcome (limits : Limits) (c : Call) (reply : Reply) :
    ((c.op.outcome limits reply).atKey ns key).adds = added ns key (c, reply) := by
  obtain ⟨op, env⟩ := c
  unfold Op.outcome added
  cases op with
  | write w =>
      cases w with
      | incInt ns' key' delta policy extra =>
          cases hreply : reply.succeeded with
          | true =>
              by_cases hkey : ns = ns' ∧ key = key'
              · simp [Op.request, Request.atKey, KeyAction.adds, hkey]
              · simp [Op.request, Request.atKey, KeyAction.adds, hkey]
          | false => simp [Op.refusal, Request.atKey, KeyAction.adds]
      | rankSet | rankInc => split <;> rfl
      | _ =>
          split
          · simp only [Op.request, Request.atKey]
            split <;> rfl
          · simp only [Op.refusal, Request.atKey]
            first | rfl | (split <;> rfl)
  | deleteKey | clearNamespace | setExpire =>
      split
      · simp only [Op.request, Request.atKey]
        split <;> rfl
      · rfl
  | _ => split <;> rfl

/-! ## One call -/

/-- An action that only counts. -/
inductive KeyAction.Counting : KeyAction → Prop
  | pass : Counting .pass
  | sweep : Counting .sweep
  | reject : Counting .reject
  | increment (delta : Cell) : Counting (.increment (.int delta) .persistent 0)

theorem OnlyCounts.counting {w : World} {c : Call} {reply : Reply}
    (h : OnlyCounts ns key w c reply) :
    ((c.op.outcome w.store.toLimits reply).atKey ns key).Counting := by
  rcases h with (hpass | hsweep) | hreject | ⟨delta, hop⟩
  · rw [hpass]
    exact .pass
  · rw [hsweep]
    exact .sweep
  · rw [hreject]
    exact .reject
  · rw [hop, Op.outcome]
    split
    · rw [Op.request, Request.atKey, if_pos ⟨rfl, rfl⟩]
      exact .increment delta
    · exact .pass

/-- A call that only counts adds to the integer on record. -/
theorem EntryStep.record_of_counting {env : Env} {a : KeyAction} {o o' : Option StoreEntry}
    (h : EntryStep env a o o') (hsound : ∀ e, o = some e → e.Sound) (ha : a.Counting) {v : ℤ}
    {life : Lifetime} (heq : livePart env.first (o.bind StoreEntry.record) =
      some (.int (.ofInt v), life))
    (halive : (life.afterSweeps a.slot.sweeps).alive env.third = true) :
    livePart env.third (o'.bind StoreEntry.record) =
      some (.int (.ofInt (v + a.adds)), life.afterSweeps a.slot.sweeps) := by
  have hreexpire : ∀ policy extra, a = .reexpire policy extra →
      ∀ e, o = some e → e.isExpired env.first = false := by
    rintro policy extra rfl
    cases ha
  have hrecord : livePart env.first (o.bind StoreEntry.record) =
      (⟨.wrote (.int (.ofInt v)), life⟩ : KeyHistory).record := heq
  rw [h.record hsound hreexpire hrecord]
  refine Eq.trans ?_ (livePart_of_alive halive)
  refine congrArg (livePart env.third) ?_
  -- nothing is added, and no map end is counted
  have hkeep : (some (.int (.ofInt (v + 0)), life.afterSweeps 0) : Option Record) =
      some (.int (.ofInt v), life) := by
    rw [add_zero, Lifetime.afterSweeps_zero]
  cases ha with
  | pass | reject => exact hkeep.symm
  | sweep =>
      have hnext : (life.afterSweeps 1).alive env.first = true :=
        Lifetime.alive_of_later env.first_le_third halive
      have hadvance : (⟨.wrote (.int (.ofInt v)), life⟩ : KeyHistory).advance env .sweep =
          ⟨.wrote (.int (.ofInt v)), life.afterSweeps 1⟩ := if_pos hnext
      rw [hadvance, show v + KeyAction.sweep.adds = v from add_zero v]
      rfl
  | increment delta =>
      have hsum : Int32.ofInt (v + delta.toInt) = .ofInt v + delta := by
        rw [Int32.ofInt_add, Int32.ofInt_toInt]
      have hlife : (if ExpirePolicy.persistent ≠ .persistent ∨ (0 : Int32) ≠ 0 then
          Lifetime.ofPolicy .persistent 0 env.second else life) = life := if_neg (by decide)
      rw [show v + (KeyAction.increment (.int delta) .persistent 0).adds = v + delta.toInt from rfl,
        hsum, KeyHistory.advance, KeyHistory.record]
      dsimp only
      rw [hlife, show (KeyAction.increment (.int delta) .persistent 0).slot.sweeps = 0 from rfl,
        Lifetime.afterSweeps_zero]
      rfl

/-! ## Runs -/

/-- An integer and how long it lives, after a call. -/
def Counter.after (ns key : StdString) (x : ℤ × Lifetime) (step : Call × Reply) : ℤ × Lifetime :=
  (x.1 + added ns key step, x.2.afterSweeps (if step.1.op.isSweep then 1 else 0))

theorem foldl_counter (steps : List (Call × Reply)) (v : ℤ) (life : Lifetime) :
    steps.foldl (Counter.after ns key) (v, life) =
      (v + (steps.map (added ns key)).sum, life.afterSweeps (sweepCount steps)) := by
  induction steps generalizing v life with
  | nil => rw [List.foldl_nil, List.map_nil, List.sum_nil, add_zero, sweepCount, List.countP_nil,
      Lifetime.afterSweeps_zero]
  | cons step steps ih =>
      rw [List.foldl_cons, Counter.after, ih, Lifetime.afterSweeps_add, List.map_cons,
        List.sum_cons, add_assoc, sweepCount, sweepCount, List.countP_cons, Nat.add_comm]

/-- While its lifetime lasts, the integer is on record. -/
structure Counts (ns key : StdString) (x : ℤ × Lifetime) (w : World) : Prop where
  wellFormed : WellFormed w.store
  record : x.2.alive w.clock = true → livePart w.clock ((w.store.entryAt ns key).bind
    StoreEntry.record) = some (.int (.ofInt x.1), x.2)

theorem Counts.call {x : ℤ × Lifetime} {w w' : World} {c : Call} {reply : Reply}
    (hguard : OnlyCounts ns key w c reply) (h : Counts ns key x w)
    (hcall : w.call alg c = some (w', reply)) :
    Counts ns key (Counter.after ns key x (c, reply)) w' := by
  obtain ⟨hle, hclock', hchange⟩ := World.call_change h.wellFormed hcall
  refine ⟨hchange.wellFormed h.wellFormed, fun halive => ?_⟩
  have hsweeps : ((c.op.outcome w.store.toLimits reply).atKey ns key).slot.sweeps =
      if c.op.isSweep then 1 else 0 :=
    sweeps_slotAction (World.call_eq_some_iff.mp hcall).2.1 w.store.toLimits (.keyValue ns key)
  rw [hclock', Counter.after, ← hsweeps] at halive
  rw [hclock', Counter.after, ← hsweeps, ← adds_atKey_outcome w.store.toLimits]
  have hfirst : x.2.alive c.env.first = true :=
    Lifetime.alive_of_later c.env.first_le_third (Lifetime.alive_of_afterSweeps halive)
  have hrecord : livePart c.env.first ((w.store.entryAt ns key).bind StoreEntry.record) =
      some (.int (.ofInt x.1), x.2) := by
    rw [← livePart_livePart hle, h.record (Lifetime.alive_of_later hle hfirst),
      livePart_of_alive hfirst]
  have hsound : ∀ e, w.store.entryAt ns key = some e → e.Sound := fun e he =>
    h.wellFormed.sound (.keyValue ns key) e.toExpiration (expirationAt_of_entryAt he)
  exact (hchange.entryStep ns key).record_of_counting hsound hguard.counting hrecord halive

/-- An integer that has been stored. -/
theorem Keeps.counts {v : Cell} {life : Lifetime} {w : World} (h : Keeps ns key (.int v, life) w) :
    Counts ns key (v.toInt, life) w := by
  refine ⟨h.wellFormed, fun halive => ?_⟩
  rw [h.record, Int32.ofInt_toInt, livePart_of_alive halive]

/-- As long as the lifetime lasts, the integer is there, with every increment added. -/
theorem count_of_run {v : ℤ} {life : Lifetime} {w w' : World} {steps : List (Call × Reply)}
    {t : TimePoint} (hrun : Machine.Run (World.call alg) (OnlyCounts ns key) w steps w')
    (h : Counts ns key (v, life) w) (ht : w'.clock ≤ t)
    (halive : (life.afterSweeps (sweepCount steps)).alive t = true) :
    ∃ e, w'.store.liveAt t ns key = some e ∧
      e.value? = some (.int (.ofInt (v + (steps.map (added ns key)).sum))) := by
  have hcounts := hrun.simulates (Counter.after ns key) (Counts ns key)
    (fun _ _ _ _ _ hguard hx hcall => hx.call hguard hcall) _ h
  rw [foldl_counter] at hcounts
  have hrecord := livePart_map_fst w'.store ns key t
  rw [← livePart_livePart ht, hcounts.record (Lifetime.alive_of_later ht halive),
    livePart_of_alive halive, Option.map_some] at hrecord
  exact Option.bind_eq_some_iff.mp hrecord.symm

end MemStore
