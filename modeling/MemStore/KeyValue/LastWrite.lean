import MemStore.Steps.Invariants

/-!
# The key-value half is a last-write-wins map

The abstract model is a history.  For one key, `journal` reads the calls of a
run and keeps the last event that concerned the key, and how long the value then
written has to live: it knows nothing of entries, maps or lazy erasure.  Of the
replies it reads only whether a setter or an increment succeeded.  A deletion, a
sweep or a new expiration is entered because it was called, so that the result is
also about what these calls do.  Expiry is an event of its own, which `settle`
notices.

The refinement relation `Tracks` says that, as far as it is alive, what is
stored under the key is what the journal has recorded.  It is preserved by
every step (`EntryStep.record`) except the expiration of an entry that has
already expired, which runs must not contain.  `getters_eq_journal` reads the
result off the four getters.
-/

namespace MemStore

open MemStoreManager

/-! ## Histories -/

/-- What last happened to a key. -/
inductive KeyEvent
  | nothing
  | wrote (v : Value)
  | deleted
  | clearedNamespace
  | clearedAll
  | swept
  | expired

/-- The last event, and the lifetime of the value if it was a write. -/
structure KeyHistory where
  last : KeyEvent := .nothing
  life : Lifetime := .forever

namespace KeyHistory

/-- Notice that the value written last has expired. -/
def settle (now : TimePoint) (h : KeyHistory) : KeyHistory :=
  match h.last with
  | .wrote _ => if h.life.alive now then h else { h with last := .expired }
  | _ => h

/-- The history after an action on the key, from one that is settled at its start. -/
def advance (env : Env) (h : KeyHistory) : KeyAction → KeyHistory
  | .pass | .reject => h
  | .write v policy extra => ⟨.wrote v, .ofPolicy policy extra env.first⟩
  | .increment delta policy extra =>
      match h.last with
      | .wrote v =>
          ⟨.wrote (v.plus delta),
            if policy ≠ .persistent ∨ extra ≠ 0 then .ofPolicy policy extra env.second
            else h.life⟩
      | _ => ⟨.wrote delta, .ofPolicy policy extra env.second⟩
  | .reexpire policy extra => { h with life := .ofPolicy policy extra env.first }
  | .deleteKey => { h with last := .deleted }
  | .clearNamespace => { h with last := .clearedNamespace }
  | .clearAll => { h with last := .clearedAll }
  | .sweep =>
      match h.last with
      | .wrote _ =>
          if (h.life.afterSweeps 1).alive env.first then
            { h with life := h.life.afterSweeps 1 }
          else { h with last := .swept }
      | _ => h

end KeyHistory

/-- The history of one key with the limits that cut down what is written to it. -/
structure Journal where
  limits : Limits := {}
  key : KeyHistory := {}

/-- Enter a call; of its reply only the success of a write matters. -/
def Journal.enter (ns key : StdString) (j : Journal) (step : Call × Reply) : Journal :=
  let request := step.1.op.entered j.limits step.2
  ⟨request.limits j.limits,
    (j.key.settle step.1.env.first).advance step.1.env (request.atKey ns key)⟩

/-- The journal of a run. -/
def journal (ns key : StdString) (steps : List (Call × Reply)) : Journal :=
  steps.foldl (Journal.enter ns key) {}

/-! ## Records -/

/-- A value and how long it lives. -/
abbrev Record := Value × Lifetime

/-- A record, unless it has run out. -/
def livePart (now : TimePoint) (r : Option Record) : Option Record :=
  r.filter fun r => r.2.alive now

/-- What a history has on record. -/
def KeyHistory.record (h : KeyHistory) : Option Record :=
  match h.last with
  | .wrote v => some (v, h.life)
  | _ => none

/-- What an entry has on record. -/
def StoreEntry.record (e : StoreEntry) : Option Record := e.value?.map fun v => (v, e.lifetime)

theorem livePart_some_iff {now : TimePoint} {r : Option Record} {x : Record} :
    livePart now r = some x ↔ r = some x ∧ x.2.alive now = true :=
  Option.filter_eq_some_iff

theorem livePart_of_alive {now : TimePoint} {x : Record} (h : x.2.alive now = true) :
    livePart now (some x) = some x :=
  livePart_some_iff.mpr ⟨rfl, h⟩

theorem livePart_of_not_alive {now : TimePoint} {x : Record} (h : x.2.alive now = false) :
    livePart now (some x) = none := by
  simp [livePart, Option.filter, h]

theorem livePart_livePart {now later : TimePoint} (hle : now ≤ later) (r : Option Record) :
    livePart later (livePart now r) = livePart later r := by
  ext x
  rw [livePart_some_iff, livePart_some_iff, livePart_some_iff]
  constructor
  · rintro ⟨⟨hr, _⟩, hx⟩
    exact ⟨hr, hx⟩
  · rintro ⟨hr, hx⟩
    exact ⟨⟨hr, Lifetime.alive_of_later hle hx⟩, hx⟩

theorem KeyHistory.record_settle (h : KeyHistory) (now : TimePoint) :
    (h.settle now).record = livePart now h.record := by
  obtain ⟨last, life⟩ := h
  cases last with
  | wrote v =>
      cases hlife : life.alive now with
      | true => simp [settle, record, livePart, Option.filter, hlife]
      | false => simp [settle, record, livePart, Option.filter, hlife]
  | _ => rfl

/-- A history with a record is one that ends in a write. -/
theorem KeyHistory.eq_of_record {h : KeyHistory} {v : Value} {life : Lifetime}
    (hrecord : h.record = some (v, life)) : h = ⟨.wrote v, life⟩ := by
  obtain ⟨last, life'⟩ := h
  cases last with
  | wrote v' =>
      cases hrecord
      rfl
  | _ => cases hrecord

theorem KeyHistory.record_eq_none_iff {h : KeyHistory} :
    h.record = none ↔ ∀ v, h.last ≠ .wrote v := by
  obtain ⟨last, life⟩ := h
  cases last <;> simp [record]

/-- Only a write puts something on record. -/
theorem KeyHistory.record_advance_of_none {h : KeyHistory} {a : KeyAction}
    (hnone : h.record = none)
    (hwrite : ∀ v policy extra, a ≠ .write v policy extra ∧ a ≠ .increment v policy extra)
    (env : Env) : (h.advance env a).record = none := by
  have hlast := record_eq_none_iff.mp hnone
  obtain ⟨last, life⟩ := h
  cases a with
  | write v policy extra => exact absurd rfl (hwrite v policy extra).1
  | increment delta policy extra => exact absurd rfl (hwrite delta policy extra).2
  | deleteKey | clearNamespace | clearAll => rfl
  | _ =>
      cases last with
      | wrote v => exact absurd rfl (hlast v)
      | _ => rfl

theorem StoreEntry.record_eq_some_iff {e : StoreEntry} {v : Value} {life : Lifetime} :
    e.record = some (v, life) ↔ e.value? = some v ∧ e.lifetime = life := by
  simp [record, Option.map_eq_some_iff]

theorem record_applyExpiration {e : StoreEntry} {v : Value} (h : e.value? = some v)
    (policy : ExpirePolicy) (extra : Int32) (now : TimePoint) :
    (applyExpiration e policy extra now).record =
      some (v, .ofPolicy policy extra now) :=
  StoreEntry.record_eq_some_iff.mpr ⟨h, Expiration.lifetime_apply ..⟩

theorem record_reapplyExpiration {e : StoreEntry} {v : Value} (h : e.value? = some v)
    (policy : ExpirePolicy) (extra : Int32) (now : TimePoint) :
    (reapplyExpiration e policy extra now).record =
      some (v, if policy ≠ .persistent ∨ extra ≠ 0 then .ofPolicy policy extra now
        else e.lifetime) := by
  unfold reapplyExpiration
  split
  · exact record_applyExpiration h policy extra now
  · exact StoreEntry.record_eq_some_iff.mpr ⟨h, rfl⟩

theorem KeyHistory.record_map_fst {h : KeyHistory} {v : Value} :
    h.record.map Prod.fst = some v ↔ h.last = .wrote v := by
  obtain ⟨last, life⟩ := h
  cases last <;> simp [record]

/-- Of an expired entry nothing is on record. -/
theorem livePart_record_of_expired {e : StoreEntry} {now : TimePoint}
    (h : e.isExpired now = true) : livePart now e.record = none := by
  cases hrecord : e.record with
  | none => rfl
  | some r =>
      obtain ⟨v, life⟩ := r
      obtain ⟨_, rfl⟩ := StoreEntry.record_eq_some_iff.mp hrecord
      exact livePart_of_not_alive (Expiration.isExpired_iff.mp h)

/-- What is alive on record under a key is what the getters find there. -/
theorem livePart_map_fst (s : MemStoreManager) (ns key : StdString) (now : TimePoint) :
    (livePart now ((s.entryAt ns key).bind StoreEntry.record)).map Prod.fst =
      (s.liveAt now ns key).bind StoreEntry.value? := by
  cases hentry : s.entryAt ns key with
  | none => rw [liveAt, hentry]; rfl
  | some e =>
      cases hexp : e.isExpired now with
      | true =>
          have hdead : s.liveAt now ns key = none := by simp [liveAt, hentry, Option.filter, hexp]
          rw [hdead, Option.bind_some, livePart_record_of_expired hexp]
          rfl
      | false =>
          have hlife : e.lifetime.alive now = true := Expiration.alive_of_not_isExpired hexp
          rw [liveAt_eq_some_iff.mpr ⟨hentry, hexp⟩, Option.bind_some, Option.bind_some]
          cases hvalue : e.value? with
          | none => rw [StoreEntry.record, hvalue]; rfl
          | some v =>
              rw [StoreEntry.record_eq_some_iff.mpr ⟨hvalue, rfl⟩, livePart_of_alive hlife]
              rfl

/-! ## One step -/

/-- What the sweep keeps has the same value and one map end less to live. -/
theorem record_of_sweepEntry {e e' : StoreEntry} (hsound : e.Sound) {now : TimePoint}
    (h : sweepEntry now e = some e') :
    e'.value? = e.value? ∧ e'.lifetime = e.lifetime.afterSweeps 1 := by
  obtain ⟨x, hsweep, rfl⟩ := Option.map_eq_some_iff.mp h
  exact ⟨rfl, (Expiration.lifetime_of_sweep hsound hsweep).1⟩

theorem sweepEntry_eq_none_iff {e : StoreEntry} (hsound : e.Sound) {now : TimePoint} :
    sweepEntry now e = none ↔ (e.lifetime.afterSweeps 1).alive now = false := by
  rw [sweepEntry, Option.map_eq_none_iff]
  exact Expiration.sweep_eq_none_iff hsound

/-- The record of an entry after a sweep. -/
private theorem record_sweep {env : Env} {e : StoreEntry} (hsound : e.Sound) {h : KeyHistory}
    (heq : livePart env.first e.record = h.record) :
    (sweepEntry env.first e).bind StoreEntry.record = (h.advance env .sweep).record := by
  have hkeep : h.record = none → (h.advance env .sweep).record = none := fun hnone =>
    KeyHistory.record_advance_of_none hnone (by simp) env
  cases hvalue : e.value? with
  | none =>
      have hnone : e.record = none := by rw [StoreEntry.record, hvalue]; rfl
      rw [hkeep (by rw [← heq, hnone]; rfl), Option.bind_eq_none_iff]
      intro e' he'
      rw [StoreEntry.record, (record_of_sweepEntry hsound he').1, hvalue]
      rfl
  | some v =>
      have hrecord : e.record = some (v, e.lifetime) :=
        StoreEntry.record_eq_some_iff.mpr ⟨hvalue, rfl⟩
      -- the sweep ends the lifetime or takes one map end off it
      cases hnext : (e.lifetime.afterSweeps 1).alive env.first with
      | false =>
          rw [(sweepEntry_eq_none_iff hsound).mpr hnext]
          refine Eq.symm ?_
          cases hlife : e.lifetime.alive env.first with
          | false =>
              rw [hrecord, livePart_of_not_alive hlife] at heq
              exact hkeep heq.symm
          | true =>
              rw [hrecord, livePart_of_alive hlife] at heq
              rw [KeyHistory.eq_of_record heq.symm]
              simp [KeyHistory.advance, KeyHistory.record, hnext]
      | true =>
          have hlife := Lifetime.alive_of_afterSweeps hnext
          rw [hrecord, livePart_of_alive hlife] at heq
          rw [KeyHistory.eq_of_record heq.symm]
          cases hsweep : sweepEntry env.first e with
          | none =>
              rw [(sweepEntry_eq_none_iff hsound).mp hsweep] at hnext
              cases hnext
          | some e' =>
              obtain ⟨hvalue', hlifetime'⟩ := record_of_sweepEntry hsound hsweep
              have hrecord' : e'.record = some (v, e.lifetime.afterSweeps 1) :=
                StoreEntry.record_eq_some_iff.mpr ⟨hvalue'.trans hvalue, hlifetime'⟩
              simp [KeyHistory.advance, KeyHistory.record, hnext, hrecord']

/-- A step keeps the record of the entry in line with the history. -/
theorem EntryStep.record {env : Env} {a : KeyAction} {o o' : Option StoreEntry}
    (hstep : EntryStep env a o o') (hsound : ∀ e, o = some e → e.Sound)
    (hreexpire : ∀ policy extra, a = .reexpire policy extra →
      ∀ e, o = some e → e.isExpired env.first = false)
    {h : KeyHistory} (heq : livePart env.first (o.bind StoreEntry.record) = h.record) :
    livePart env.third (o'.bind StoreEntry.record) =
      livePart env.third (h.advance env a).record := by
  cases hstep with
  | keep | reject =>
      rw [KeyHistory.advance, ← heq, livePart_livePart env.first_le_third]
  | purge hexp =>
      rw [KeyHistory.advance, ← heq, livePart_livePart env.first_le_third, Option.bind_some,
        livePart_record_of_expired hexp]
      rfl
  | ghost =>
      -- the entry that is left behind holds no value
      rw [KeyHistory.advance, ← heq]
      rfl
  | write o v policy extra =>
      rw [Option.bind_some, record_applyExpiration (v.value?_fill _)]
      rfl
  | incDead policy extra hnumber hdead =>
      -- a dead entry counts for nothing, so the increment is entered as a write
      have hnone : h.record = none := by
        rw [← heq]
        cases ho : o with
        | none => rfl
        | some e => exact livePart_record_of_expired (hdead e ho)
      rename_i delta
      rw [Option.bind_some, record_applyExpiration (delta.value?_fill _)]
      have hlast := KeyHistory.record_eq_none_iff.mp hnone
      obtain ⟨last, life⟩ := h
      cases last with
      | wrote v => exact absurd rfl (hlast v)
      | _ => rfl
  | @incLive e delta policy extra hnumber hlive htype =>
      obtain ⟨old, hold, hnew⟩ := hnumber.value?_addTo htype
      have hlife : e.lifetime.alive env.first = true := Expiration.alive_of_not_isExpired hlive
      rw [Option.bind_some, StoreEntry.record_eq_some_iff.mpr ⟨hold, rfl⟩,
        livePart_of_alive hlife] at heq
      rw [KeyHistory.eq_of_record heq.symm, Option.bind_some, record_reapplyExpiration hnew]
      rw [delta.toExpiration_addTo]
      rfl
  | reexpire e policy extra =>
      -- a late expiration would bring the value back to life, which no history records
      have hlife : e.lifetime.alive env.first = true :=
        Expiration.alive_of_not_isExpired (hreexpire policy extra rfl e rfl)
      cases hvalue : e.value? with
      | none =>
          have hnone : e.record = none := by rw [StoreEntry.record, hvalue]; rfl
          rw [Option.bind_some, hnone] at heq
          rw [KeyHistory.record_advance_of_none heq.symm (by simp), Option.bind_some,
            StoreEntry.record, value?_applyExpiration, hvalue]
          rfl
      | some v =>
          rw [Option.bind_some, StoreEntry.record_eq_some_iff.mpr ⟨hvalue, rfl⟩,
            livePart_of_alive hlife] at heq
          rw [KeyHistory.eq_of_record heq.symm, Option.bind_some, record_applyExpiration hvalue]
          rfl
  | deleteKey | clearNamespace | clearAll => rfl
  | sweep =>
      cases o with
      | none =>
          rw [KeyHistory.record_advance_of_none heq.symm (by simp)]
          rfl
      | some e => rw [Option.bind_some, record_sweep (hsound e rfl) heq]

/-! ## Runs -/

variable {alg : StdAlgorithm RankPair}

/-- The call does not set the expiration of an entry that has already expired. -/
def NoLateExpire (w : World) (c : Call) (_ : Reply) : Prop :=
  ∀ ns key policy extra, c.op = .setExpire ns key policy extra →
    ∀ e, w.store.entryAt ns key = some e → e.isExpired c.env.first = false

/-- The refinement relation between a journal and a world. -/
structure Tracks (ns key : StdString) (j : Journal) (w : World) : Prop where
  wellFormed : WellFormed w.store
  limits : w.store.toLimits = j.limits
  record : livePart w.clock ((w.store.entryAt ns key).bind StoreEntry.record) =
    livePart w.clock j.key.record

theorem tracks_initial (ns key : StdString) (t : TimePoint) :
    Tracks ns key {} (World.initial t) where
  wellFormed := wellFormed_initial
  limits := rfl
  record := rfl

/-- What a call is entered as keeps the record of a key in line, also where the call
had nothing to do. -/
theorem Tracks.record_entered {ns key : StdString} {j : Journal} {w w' : World} {c : Call}
    {reply : Reply} (hguard : NoLateExpire w c reply) (h : Tracks ns key j w)
    (hcall : w.call alg c = some (w', reply)) :
    livePart c.env.third ((w'.store.entryAt ns key).bind StoreEntry.record) =
      livePart c.env.third ((j.key.settle c.env.first).advance c.env
        ((c.op.entered w.store.toLimits reply).atKey ns key)).record := by
  obtain ⟨hle, hexec, _⟩ := World.call_eq_some_iff.mp hcall
  have hsound : ∀ e, w.store.entryAt ns key = some e → e.Sound := fun e he =>
    h.wellFormed.sound (.keyValue ns key) e.toExpiration (expirationAt_of_entryAt he)
  have hbefore : livePart c.env.first ((w.store.entryAt ns key).bind StoreEntry.record) =
      (j.key.settle c.env.first).record := by
    rw [KeyHistory.record_settle, ← livePart_livePart hle, h.record, livePart_livePart hle]
  rcases exec_entered w.store.toLimits hexec with heq | ⟨hsame, hlacks⟩
  · have hchange := exec_change h.wellFormed.maxKeys_pos hexec
    rw [heq]
    refine (hchange.entryStep ns key).record hsound ?_ hbefore
    intro policy extra haction
    exact hguard ns key policy extra (outcome_eq_reexpire (Request.eq_of_atKey_reexpire haction))
  · rw [hsame]
    rcases hlacks.atKey ns key with hpass | ⟨hnone, haction⟩
    · rw [hpass]
      exact (EntryStep.keep _).record hsound (fun _ _ haction => by cases haction) hbefore
    · rw [hnone] at hbefore ⊢
      rw [KeyHistory.record_advance_of_none hbefore.symm haction]
      rfl

theorem Tracks.call {ns key : StdString} {j : Journal} {w w' : World} {c : Call} {reply : Reply}
    (hguard : NoLateExpire w c reply) (h : Tracks ns key j w)
    (hcall : w.call alg c = some (w', reply)) :
    Tracks ns key (j.enter ns key (c, reply)) w' := by
  have hrecord := h.record_entered hguard hcall
  obtain ⟨_, hexec, hclock'⟩ := World.call_eq_some_iff.mp hcall
  refine ⟨World.wellFormed_call h.wellFormed hcall, ?_, ?_⟩
  · rw [Journal.enter, ← h.limits]
    rcases exec_entered w.store.toLimits hexec with heq | ⟨hsame, hlacks⟩
    · rw [heq]
      exact (exec_change h.wellFormed.maxKeys_pos hexec).toLimits
    · rw [hsame, hlacks.limits]
  · rw [hclock', Journal.enter, ← h.limits]
    exact hrecord

theorem tracks_of_run {steps : List (Call × Reply)} {w : World}
    (h : RunFromStart alg NoLateExpire steps w) (ns key : StdString) :
    Tracks ns key (journal ns key steps) w := by
  obtain ⟨t, hrun⟩ := h
  exact hrun.simulates (Journal.enter ns key) (Tracks ns key)
    (fun _ _ _ _ _ hguard hj hcall => hj.call hguard hcall) {} (tracks_initial ns key t)

/-- The value under a key, as the getters see it. -/
theorem Tracks.value {ns key : StdString} {j : Journal} {w : World} (h : Tracks ns key j w)
    {now : TimePoint} (hnow : w.clock ≤ now) (v : Value) :
    (w.store.liveAt now ns key).bind StoreEntry.value? = some v ↔
      (j.key.settle now).last = .wrote v := by
  have hrecord : livePart now ((w.store.entryAt ns key).bind StoreEntry.record) =
      (j.key.settle now).record := by
    rw [KeyHistory.record_settle, ← livePart_livePart hnow, h.record, livePart_livePart hnow]
  rw [← livePart_map_fst, hrecord]
  exact KeyHistory.record_map_fst

/-- Each getter returns true with a value exactly if the last thing that happened
to the key is that this value, of the getter's type, was written. -/
theorem getters_eq_journal {steps : List (Call × Reply)} {w : World}
    (h : RunFromStart alg NoLateExpire steps w) (ns key : StdString) {now : TimePoint}
    (hnow : w.clock ≤ now) :
    (∀ d v, (w.store.getInt ns key d now).2.ret = true ∧
        (w.store.getInt ns key d now).2.val = v ↔
      ((journal ns key steps).key.settle now).last = .wrote (.int v)) ∧
    (∀ d v, (w.store.getFloat ns key d now).2.ret = true ∧
        (w.store.getFloat ns key d now).2.val = v ↔
      ((journal ns key steps).key.settle now).last = .wrote (.float v)) ∧
    (∀ d v, (w.store.getString ns key d now).2.ret = true ∧
        (w.store.getString ns key d now).2.val = v ↔
      ((journal ns key steps).key.settle now).last = .wrote (.string v)) ∧
    (∀ maxlen copy, (w.store.getArray ns key maxlen now).2.ret = true ∧
        (w.store.getArray ns key maxlen now).2.val = copy ↔
      ∃ cells, ((journal ns key steps).key.settle now).last = .wrote (.array cells) ∧
        copy = ⟨cells.take maxlen.toNat, min maxlen.toNat cells.length⟩) := by
  have hvalue := (tracks_of_run h ns key).value hnow
  refine ⟨fun d v => ?_, fun d v => ?_, fun d v => ?_, fun maxlen copy => ?_⟩
  · simp only [getInt, findLive_result, readAs_eq_iff, ← hvalue, Option.bind_eq_some_iff,
      StoreEntry.value?_eq_int_iff]
  · simp only [getFloat, findLive_result, readAs_eq_iff, ← hvalue, Option.bind_eq_some_iff,
      StoreEntry.value?_eq_float_iff]
  · simp only [getString, findLive_result, readAs_eq_iff, ← hvalue, Option.bind_eq_some_iff,
      StoreEntry.value?_eq_string_iff]
  · simp only [getArray, findLive_result, readAs_eq_iff, ← hvalue, Option.bind_eq_some_iff,
      StoreEntry.value?_eq_array_iff]
    constructor
    · rintro ⟨e, hlive, htype, rfl⟩
      exact ⟨e.arrayValue, ⟨e, hlive, htype, rfl⟩, rfl⟩
    · rintro ⟨_, ⟨e, hlive, htype, rfl⟩, rfl⟩
      exact ⟨e, hlive, htype, rfl⟩

/-- A text for two maps, a counter that is deleted and counted again, and a map end. -/
private def textAndCounter : List (Call × Reply) :=
  [(⟨.write (.setString [1] [2] [104, 105] .mapCount 2), .at 0 fun _ => 0⟩, .flag true),
    (⟨.write (.incInt [1] [3] 5 .persistent 0), .at 0 fun _ => 0⟩, .cell (some 5)),
    (⟨.deleteKey [1] [3], .at 1 fun _ => 0⟩, .flag true),
    (⟨.write (.incInt [1] [3] 7 .persistent 0), .at 2 fun _ => 0⟩, .cell (some 7)),
    (⟨.sweepMapEnd, .at 3 fun _ => 0⟩, .done)]

/-- The text is still there after the first map, and the counter reads 7 and not 12. -/
theorem getters_eq_journal_swept : ∃ w : World,
    RunFromStart (StdAlgorithm.insertionSort (α := RankPair)) NoLateExpire textAndCounter w ∧
    (w.store.getString [1] [2] [] 4).2.ret = true ∧
    (w.store.getString [1] [2] [] 4).2.val = [104, 105] ∧
    (w.store.getInt [1] [3] 0 4).2.ret = true ∧ (w.store.getInt [1] [3] 0 4).2.val = 7 := by
  have hrun : ∃ w, w.clock = 3 ∧
      RunFromStart (StdAlgorithm.insertionSort (α := RankPair)) NoLateExpire textAndCounter w :=
    ⟨_, rfl, 0, run_cons (fun _ _ _ _ h => by cases h) le_rfl rfl
      (run_cons (fun _ _ _ _ h => by cases h) le_rfl rfl
        (run_cons (fun _ _ _ _ h => by cases h) (by decide) rfl
          (run_cons (fun _ _ _ _ h => by cases h) (by decide) rfl
            (run_cons (fun _ _ _ _ h => by cases h) (by decide) rfl (.nil _)))))⟩
  obtain ⟨w, hclock, hrun⟩ := hrun
  have hnow : w.clock ≤ 4 := by
    rw [hclock]
    decide
  have htext := ((getters_eq_journal hrun [1] [2] hnow).2.2.1 [] [104, 105]).mpr rfl
  have hcounter := ((getters_eq_journal hrun [1] [3] hnow).1 0 7).mpr rfl
  exact ⟨w, hrun, htext.1, htext.2, hcounter.1, hcounter.2⟩

end MemStore
