import MemStore.Expiry.Lifecycle
import MemStore.KeyValue.LastWrite

/-!
# A value is kept while its key is left alone

After a value has been written under a key, any calls may follow that are not
about this key: reads of all kinds, calls about other keys and namespaces, about
leaderboards and limits, and map ends (`Untouched`).  The value is there as long
as its lifetime lasts, less the map ends, and nothing is there afterwards
(`live_of_run`, `dead_of_run`).

What a run does to the record under the key is the subject: one call is
`EntryStep.record_of_untouched`, and a run is followed by counting its map ends.
-/

namespace MemStore

open MemStoreManager

variable {alg : StdAlgorithm RankPair} {ns key : StdString}

/-- The call asks nothing of the key, or is a map end. -/
def Untouched (ns key : StdString) (w : World) (c : Call) (reply : Reply) : Prop :=
  (c.op.outcome w.store.toLimits reply).atKey ns key = .pass ∨
    (c.op.outcome w.store.toLimits reply).atKey ns key = .sweep

/-- The record less the map ends a call counts. -/
def Record.after (r : Record) (step : Call × Reply) : Record :=
  (r.1, r.2.afterSweeps (if step.1.op.isSweep then 1 else 0))

theorem foldl_after (steps : List (Call × Reply)) (r : Record) :
    steps.foldl Record.after r = (r.1, r.2.afterSweeps (sweepCount steps)) := by
  induction steps generalizing r with
  | nil => rw [List.foldl_nil, sweepCount, List.countP_nil, Lifetime.afterSweeps_zero]
  | cons step steps ih =>
      rw [List.foldl_cons, ih, Record.after, Lifetime.afterSweeps_add, sweepCount, sweepCount,
        List.countP_cons, Nat.add_comm]

/-! ## One call -/

/-- A map end counts off the lifetime on record. -/
theorem livePart_advance_sweep {env : Env} (v : Value) (life : Lifetime) :
    livePart env.third (((⟨.wrote v, life⟩ : KeyHistory).settle env.first).advance env
      .sweep).record = livePart env.third (some (v, life.afterSweeps 1)) := by
  have hover : (life.afterSweeps 1).alive env.first = false →
      livePart env.third (some (v, life.afterSweeps 1)) = none := fun hnext =>
    livePart_of_not_alive (Lifetime.not_alive_of_later env.first_le_third hnext)
  cases hlife : life.alive env.first with
  | false =>
      rw [hover (Lifetime.not_alive_afterSweeps 1 hlife)]
      simp [KeyHistory.settle, KeyHistory.advance, KeyHistory.record, hlife, livePart]
  | true =>
      cases hnext : (life.afterSweeps 1).alive env.first with
      | false =>
          rw [hover hnext]
          simp [KeyHistory.settle, KeyHistory.advance, KeyHistory.record, hlife, hnext, livePart]
      | true =>
          simp [KeyHistory.settle, KeyHistory.advance, KeyHistory.record, hlife, hnext]

/-- A call that leaves a key alone keeps what is on record there. -/
theorem EntryStep.record_of_untouched {env : Env} {a : KeyAction} {o o' : Option StoreEntry}
    (h : EntryStep env a o o') (hsound : ∀ e, o = some e → e.Sound)
    (ha : a = .pass ∨ a = .sweep) {v : Value} {life : Lifetime}
    (heq : livePart env.first (o.bind StoreEntry.record) = livePart env.first (some (v, life))) :
    livePart env.third (o'.bind StoreEntry.record) =
      livePart env.third (some (v, life.afterSweeps a.slot.sweeps)) := by
  have hrecord : livePart env.first (o.bind StoreEntry.record) =
      ((⟨.wrote v, life⟩ : KeyHistory).settle env.first).record := by
    rw [KeyHistory.record_settle, heq]
    rfl
  have hreexpire : ∀ policy extra, a = .reexpire policy extra →
      ∀ e, o = some e → e.isExpired env.first = false := by
    rintro policy extra rfl
    rcases ha with ha | ha <;> cases ha
  rw [h.record hsound hreexpire hrecord]
  rcases ha with rfl | rfl
  · rw [KeyHistory.advance, KeyHistory.record_settle, livePart_livePart env.first_le_third]
    exact congrArg (fun l => livePart env.third (some (v, l))) (Lifetime.afterSweeps_zero life).symm
  · exact livePart_advance_sweep v life

theorem EntryStep.value_of_untouched {env : Env} {a : KeyAction} {o o' : Option StoreEntry}
    (h : EntryStep env a o o') (ha : a = .pass ∨ a = .sweep) {v : Value}
    (ho : ∀ e, o = some e → e.value? = some v) : ∀ e, o' = some e → e.value? = some v := by
  intro e' he'
  cases h with
  | keep => exact ho e' he'
  | purge => cases he'
  | sweep =>
      obtain ⟨e, he, hsweep⟩ := Option.bind_eq_some_iff.mp he'
      obtain ⟨x, _, rfl⟩ := Option.map_eq_some_iff.mp hsweep
      exact ho e he
  | _ => rcases ha with ha | ha <;> cases ha

/-! ## Runs -/

/-- What is on record under the key, as far as it is alive. -/
structure Keeps (ns key : StdString) (r : Record) (w : World) : Prop where
  wellFormed : WellFormed w.store
  value : ∀ e, w.store.entryAt ns key = some e → e.value? = some r.1
  record : livePart w.clock ((w.store.entryAt ns key).bind StoreEntry.record) =
    livePart w.clock (some r)

theorem Keeps.call {r : Record} {w w' : World} {c : Call} {reply : Reply}
    (hguard : Untouched ns key w c reply) (h : Keeps ns key r w)
    (hcall : w.call alg c = some (w', reply)) : Keeps ns key (r.after (c, reply)) w' := by
  obtain ⟨hle, hclock', hchange⟩ := World.call_change h.wellFormed hcall
  have hstep := hchange.entryStep ns key
  refine ⟨hchange.wellFormed h.wellFormed, hstep.value_of_untouched hguard h.value, ?_⟩
  have hsound : ∀ e, w.store.entryAt ns key = some e → e.Sound := fun e he =>
    h.wellFormed.sound (.keyValue ns key) e.toExpiration (expirationAt_of_entryAt he)
  have hrecord : livePart c.env.first ((w.store.entryAt ns key).bind StoreEntry.record) =
      livePart c.env.first (some (r.1, r.2)) := by
    rw [← livePart_livePart hle, h.record, livePart_livePart hle]
  have hsweeps : ((c.op.outcome w.store.toLimits reply).atKey ns key).slot.sweeps =
      if c.op.isSweep then 1 else 0 :=
    sweeps_slotAction (World.call_eq_some_iff.mp hcall).2.1 w.store.toLimits (.keyValue ns key)
  rw [hclock', Record.after, ← hsweeps]
  exact hstep.record_of_untouched hsound hguard hrecord

theorem keeps_of_run {r : Record} {w w' : World} {steps : List (Call × Reply)}
    (hrun : Machine.Run (World.call alg) (Untouched ns key) w steps w') (h : Keeps ns key r w) :
    Keeps ns key (r.1, r.2.afterSweeps (sweepCount steps)) w' := by
  rw [← foldl_after]
  exact hrun.simulates Record.after (Keeps ns key)
    (fun _ _ _ _ _ hguard hr hcall => hr.call hguard hcall) r h

section Finding

variable {v : Value} {life : Lifetime} {w w' : World} {steps : List (Call × Reply)}
  {t : TimePoint}

/-- As long as its lifetime lasts, the value is there. -/
theorem live_of_run (hrun : Machine.Run (World.call alg) (Untouched ns key) w steps w')
    (h : Keeps ns key (v, life) w) (ht : w'.clock ≤ t)
    (halive : (life.afterSweeps (sweepCount steps)).alive t = true) :
    ∃ e, w'.store.liveAt t ns key = some e ∧ e.value? = some v := by
  have hrecord := livePart_map_fst w'.store ns key t
  rw [← livePart_livePart ht, (keeps_of_run hrun h).record, livePart_livePart ht,
    livePart_of_alive halive, Option.map_some] at hrecord
  exact Option.bind_eq_some_iff.mp hrecord.symm

/-- Afterwards nothing is there. -/
theorem dead_of_run (hrun : Machine.Run (World.call alg) (Untouched ns key) w steps w')
    (h : Keeps ns key (v, life) w) (ht : w'.clock ≤ t)
    (hover : (life.afterSweeps (sweepCount steps)).alive t = false) :
    w'.store.liveAt t ns key = none := by
  have hkeeps := keeps_of_run hrun h
  have hrecord := livePart_map_fst w'.store ns key t
  rw [← livePart_livePart ht, hkeeps.record, livePart_livePart ht, livePart_of_not_alive hover,
    Option.map_none] at hrecord
  -- a live entry would hold the value
  cases hlive : w'.store.liveAt t ns key with
  | none => rfl
  | some e =>
      rw [hlive, Option.bind_some, hkeeps.value e (liveAt_eq_some_iff.mp hlive).1] at hrecord
      cases hrecord

end Finding

/-- What a write puts on record. -/
theorem keeps_of_write {env : Env} {v : Value} {policy : ExpirePolicy} {extra : Int32}
    {s s' : MemStoreManager} (hs : WellFormed s)
    (h : Change env s (.write ns key v policy extra) s') :
    Keeps ns key (v, .ofPolicy policy extra env.first) ⟨s', env.third⟩ := by
  have hentry : ∃ e,
      s'.entryAt ns key = some (applyExpiration (v.fill e) policy extra env.first) := by
    have hstep := h.entryStep ns key
    rw [Request.atKey, if_pos ⟨rfl, rfl⟩] at hstep
    generalize s'.entryAt ns key = o' at hstep ⊢
    cases hstep with
    | write o => exact ⟨_, rfl⟩
  obtain ⟨e, hentry⟩ := hentry
  refine ⟨h.wellFormed hs, fun e' he' => ?_, ?_⟩
  · rw [hentry] at he'
    cases he'
    rw [value?_applyExpiration, Value.value?_fill]
  · rw [hentry, Option.bind_some, record_applyExpiration (v.value?_fill _)]

end MemStore
