import MemStore.Expiry.Lifecycle
import MemStore.Reading.LiveView

/-!
# What `GetTTL` forecasts

`GetTTL` answers with the whole seconds that are left of an entry's lifetime,
with -1 for an entry that has no deadline and with -2 if nothing is alive.  As a
number without bounds this is the `forecast` of a lifetime.

* No deadline is more than 30 days ahead (`capped_of_reachable`), so that the
  answer is the forecast (`toInt_getTTL`), although it is a 32-bit number.
* A forecast cannot rise (`forecast_le_of_later`), and as long as nobody
  meddles with the entry (`Spares`), what is stored later has the lifetime that
  was left (`forecastAt_run`).

`ttl_forecast` puts both together: an entry outlives the seconds forecast, and
is gone one second later.
-/

namespace MemStore

open MemStoreManager

/-! ## Forecasts of a lifetime -/

namespace Lifetime

/-- The whole seconds left at a clock reading, -1 without a deadline, -2 afterwards. -/
def forecast (now : TimePoint) : Lifetime → ℤ
  | forever => -1
  | maps n => if 0 < n then -1 else -2
  | .until deadline => if now < deadline then (deadline - now) / 1000000000 else -2

theorem forecast_until {deadline now : TimePoint} (hlt : now < deadline) :
    (Lifetime.until deadline).forecast now = (deadline - now) / 1000000000 :=
  if_pos hlt

theorem seconds_nonneg {deadline now : ℤ} (hlt : now < deadline) :
    0 ≤ (deadline - now) / 1000000000 :=
  Int.ediv_nonneg (Int.sub_nonneg_of_le hlt.le) (by decide)

theorem forecast_of_not_alive {l : Lifetime} {now : TimePoint} (h : l.alive now = false) :
    l.forecast now = -2 := by
  cases l with
  | forever => cases h
  | maps n => exact if_neg (of_decide_eq_false h)
  | «until» deadline => exact if_neg (of_decide_eq_false h)

/-- A lifetime that is alive has a forecast of -1 or of the seconds left. -/
theorem neg_one_le_forecast {l : Lifetime} {now : TimePoint} (h : l.alive now = true) :
    -1 ≤ l.forecast now := by
  cases l with
  | forever => exact le_rfl
  | maps n =>
      rw [forecast, if_pos (of_decide_eq_true h)]
  | «until» deadline =>
      rw [forecast_until (of_decide_eq_true h)]
      exact le_trans (by decide) (seconds_nonneg (of_decide_eq_true h))

theorem forecast_eq_neg_two_iff {l : Lifetime} {now : TimePoint} :
    l.forecast now = -2 ↔ l.alive now = false := by
  refine ⟨fun h => ?_, forecast_of_not_alive⟩
  by_contra halive
  have hle := neg_one_le_forecast (Bool.not_eq_false _ ▸ halive)
  omega

theorem neg_two_le_forecast (l : Lifetime) (now : TimePoint) : -2 ≤ l.forecast now := by
  cases halive : l.alive now with
  | false => exact (forecast_of_not_alive halive).ge
  | true => exact le_trans (by decide) (neg_one_le_forecast halive)

/-- Neither time nor map ends raise a forecast. -/
theorem forecast_le_of_later {l : Lifetime} {now later : TimePoint} (hle : now ≤ later) (k : ℕ) :
    (l.afterSweeps k).forecast later ≤ l.forecast now := by
  cases halive : (l.afterSweeps k).alive later with
  | false =>
      rw [forecast_of_not_alive halive]
      exact neg_two_le_forecast l now
  | true =>
      have hbefore : l.alive now = true := alive_of_later hle (alive_of_afterSweeps halive)
      cases l with
      | forever => exact le_rfl
      | maps n =>
          rw [afterSweeps, forecast, forecast, if_pos (of_decide_eq_true halive),
            if_pos (of_decide_eq_true hbefore)]
      | «until» deadline =>
          have hlater : later < deadline := of_decide_eq_true halive
          rw [afterSweeps, forecast_until hlater, forecast_until (hle.trans_lt hlater)]
          exact Int.ediv_le_ediv (by decide) (Int.sub_le_sub_left hle deadline)

/-- The deadline, if there is one, is at most 30 days ahead. -/
def Capped (now : TimePoint) : Lifetime → Prop
  | .until deadline => deadline ≤ now + 2592000 * 1000000000
  | _ => True

theorem Capped.later {l : Lifetime} {now later : TimePoint} (h : l.Capped now)
    (hle : now ≤ later) : l.Capped later := by
  cases l with
  | «until» deadline => exact h.trans (Int.add_le_add_right hle _)
  | _ => trivial

theorem Capped.afterSweeps {l : Lifetime} {now : TimePoint} (h : l.Capped now) (k : ℕ) :
    (l.afterSweeps k).Capped now := by
  cases l with
  | «until» deadline => exact h
  | _ => trivial

/-- Every policy gives a deadline within the cap, whatever its extra argument. -/
theorem capped_ofPolicy (policy : ExpirePolicy) (extra : Int32) (now : TimePoint) :
    (ofPolicy policy extra now).Capped now := by
  cases policy with
  | ttl =>
      have hcap : ttlSeconds extra ≤ 2592000 := by
        unfold ttlSeconds
        split <;> omega
      exact Int.add_le_add_left (Int.mul_le_mul_of_nonneg_right hcap (by decide)) now
  | _ => trivial

theorem forecast_le_of_capped {l : Lifetime} {now : TimePoint} (h : l.Capped now) :
    l.forecast now ≤ 2592000 := by
  cases l with
  | forever => exact show (-1 : ℤ) ≤ 2592000 by decide
  | maps n =>
      rw [forecast]
      split <;> decide
  | «until» deadline =>
      rw [forecast]
      split
      · exact Int.ediv_le_of_le_mul (by decide) (Int.sub_left_le_of_le_add h)
      · decide

end Lifetime

/-! ## No deadline is more than 30 days ahead -/

theorem SlotStep.capped {env : Env} {a : SlotAction} {o o' : Option Expiration}
    (h : SlotStep env a o o') (hsound : ∀ x, o = some x → x.Sound)
    (ho : ∀ x, o = some x → x.lifetime.Capped env.first) :
    ∀ x, o' = some x → x.lifetime.Capped env.third := by
  intro x' hx'
  cases h with
  | keep | reject => exact (ho x' hx').later env.first_le_third
  | purge | remove => cases hx'
  | ghost =>
      cases hx'
      trivial
  | write o policy extra =>
      cases hx'
      rw [Expiration.lifetime_apply]
      exact (Lifetime.capped_ofPolicy policy extra env.first).later env.first_le_third
  | incDead policy extra hdead =>
      cases hx'
      rw [Expiration.lifetime_apply]
      exact (Lifetime.capped_ofPolicy policy extra env.second).later env.second_le
  | incLive policy extra hlive =>
      cases hx'
      unfold Expiration.reapply
      split
      · rw [Expiration.lifetime_apply]
        exact (Lifetime.capped_ofPolicy policy extra env.second).later env.second_le
      · exact (ho _ rfl).later env.first_le_third
  | reexpire x policy extra =>
      cases hx'
      rw [Expiration.lifetime_apply]
      exact (Lifetime.capped_ofPolicy policy extra env.first).later env.first_le_third
  | sweep =>
      obtain ⟨x, hx, hsweep⟩ := Option.bind_eq_some_iff.mp hx'
      rw [(Expiration.lifetime_of_sweep (hsound x hx) hsweep).1]
      exact ((ho x hx).later env.first_le_third).afterSweeps 1

/-- All deadlines are at most 30 days ahead of a clock reading. -/
def MemStoreManager.DeadlinesCapped (s : MemStoreManager) (now : TimePoint) : Prop :=
  ∀ slot x, s.expirationAt slot = some x → x.lifetime.Capped now

variable {alg : StdAlgorithm RankPair}

theorem MemStoreManager.DeadlinesCapped.later {s : MemStoreManager} {now later : TimePoint}
    (h : s.DeadlinesCapped now) (hle : now ≤ later) : s.DeadlinesCapped later :=
  fun slot x hx => (h slot x hx).later hle

theorem capped_of_run {guard : World → Call → Reply → Prop} {w w' : World}
    {steps : List (Call × Reply)} (hrun : Machine.Run (World.call alg) guard w steps w')
    (hwf : WellFormed w.store) (hcap : w.store.DeadlinesCapped w.clock) :
    w'.store.DeadlinesCapped w'.clock := by
  have hstep : ∀ (w : World) (c : Call) (reply : Reply) (w' : World), guard w c reply →
      (WellFormed w.store ∧ w.store.DeadlinesCapped w.clock) → w.call alg c = some (w', reply) →
      WellFormed w'.store ∧ w'.store.DeadlinesCapped w'.clock := by
    rintro w c reply w' - ⟨hwf, hcap⟩ hcall
    obtain ⟨hclock, hclock', hchange⟩ := World.call_change hwf hcall
    refine ⟨hchange.wellFormed hwf, fun slot => ?_⟩
    rw [hclock']
    exact (hchange.slotStep slot).capped (hwf.sound slot) (hcap.later hclock slot)
  exact (hrun.invariant (fun w => WellFormed w.store ∧ w.store.DeadlinesCapped w.clock) hstep
    ⟨hwf, hcap⟩).2

theorem capped_of_reachable {w : World} (h : Reachable alg w) :
    w.store.DeadlinesCapped w.clock := by
  obtain ⟨steps, t, hrun⟩ := h
  refine capped_of_run hrun wellFormed_initial fun slot x hx => ?_
  cases slot <;> cases hx

/-! ## The answer is the forecast -/

/-- The forecast for what is stored in a slot. -/
def MemStoreManager.forecastAt (s : MemStoreManager) (slot : Slot) (now : TimePoint) : ℤ :=
  (s.expirationAt slot).elim (-2) fun x => x.lifetime.forecast now

namespace Expiration

variable {x : Expiration} {now : TimePoint}

theorem lifetime_of_ttl (h : x.policy = .ttl) : x.lifetime = .until x.expireTime := by
  rw [lifetime, h]

theorem lt_expireTime_of_ttl (h : x.policy = .ttl) (hlive : x.isExpired now = false) :
    now < x.expireTime := by
  rw [isExpired, if_pos h] at hlive
  exact not_le.mp (of_decide_eq_false hlive)

/-- A live entry without a deadline. -/
theorem forecast_of_ne_ttl (h : x.policy ≠ .ttl) (hlive : x.isExpired now = false) :
    x.lifetime.forecast now = -1 := by
  have halive := alive_of_not_isExpired hlive
  unfold lifetime at halive ⊢
  cases hpolicy : x.policy with
  | ttl => exact absurd hpolicy h
  | persistent | mapEnd => rfl
  | mapCount =>
      rw [hpolicy] at halive
      exact if_pos (of_decide_eq_true halive)

end Expiration

section Answers

variable {s : MemStoreManager} {ns key : StdString} {now : TimePoint}

theorem forecastAt_of_entryAt {e : StoreEntry} (h : s.entryAt ns key = some e) :
    s.forecastAt (.keyValue ns key) now = e.lifetime.forecast now := by
  rw [forecastAt, expirationAt_of_entryAt h, Option.elim_some]

theorem neg_two_le_forecastAt (slot : Slot) : -2 ≤ s.forecastAt slot now := by
  rw [forecastAt]
  cases s.expirationAt slot with
  | none => exact le_rfl
  | some x => exact Lifetime.neg_two_le_forecast x.lifetime now

theorem forecastAt_of_none {slot : Slot} (h : s.expirationAt slot = none) :
    s.forecastAt slot now = -2 := by
  rw [forecastAt, h]
  rfl

/-- The deadline lies in the second after those that are left. -/
theorem seconds_bounds (deadline now : ℤ) :
    now + (deadline - now) / 1000000000 * 1000000000 ≤ deadline ∧
      deadline < now + ((deadline - now) / 1000000000 + 1) * 1000000000 := by
  omega

/-- The conversion loses nothing of a number of seconds up to 30 days. -/
theorem toInt_clamped {diff : ℤ} (hnonneg : 0 ≤ diff) (hle : diff ≤ 2592000) :
    (if 0 < diff then Int32.ofInt diff else 0).toInt = diff := by
  split
  · exact Int32.toInt_ofInt_of_le (by omega) (by omega)
  · rw [Int32.toInt_zero]
    omega

theorem getTTL_of_dead (h : s.liveAt now ns key = none) : s.getTTL ns key now = -2 := by
  rw [getTTL_view, LiveView.ttl, entryAt_liveView, h]

theorem getTTL_of_ne_ttl {e : StoreEntry} (he : s.liveAt now ns key = some e)
    (hpolicy : e.policy ≠ .ttl) : s.getTTL ns key now = -1 := by
  rw [getTTL_view, LiveView.ttl, entryAt_liveView, he]
  exact if_neg hpolicy

theorem getTTL_of_ttl (hcap : s.DeadlinesCapped now) {e : StoreEntry}
    (he : s.liveAt now ns key = some e) (hpolicy : e.policy = .ttl) :
    (s.getTTL ns key now).toInt = (e.expireTime - now) / 1000000000 ∧
      0 ≤ (s.getTTL ns key now).toInt ∧ (s.getTTL ns key now).toInt ≤ 2592000 := by
  obtain ⟨hentry, hlive⟩ := liveAt_eq_some_iff.mp he
  have hlt := Expiration.lt_expireTime_of_ttl hpolicy hlive
  have hnonneg := Lifetime.seconds_nonneg hlt
  have hle := Lifetime.forecast_le_of_capped
    (hcap (.keyValue ns key) e.toExpiration (expirationAt_of_entryAt hentry))
  rw [Expiration.lifetime_of_ttl hpolicy, Lifetime.forecast_until hlt] at hle
  have hanswer : (s.getTTL ns key now).toInt = (e.expireTime - now) / 1000000000 := by
    rw [getTTL_view, LiveView.ttl, entryAt_liveView, he]
    dsimp only
    rw [if_pos hpolicy, Int.tdiv_eq_ediv_of_nonneg (Int.sub_nonneg_of_le hlt.le)]
    exact toInt_clamped hnonneg hle
  rw [hanswer]
  exact ⟨rfl, hnonneg, hle⟩

theorem liveAt_of_getTTL (htwo : s.getTTL ns key now ≠ -2) :
    ∃ e, s.liveAt now ns key = some e :=
  Option.ne_none_iff_exists'.mp fun hdead => htwo (getTTL_of_dead hdead)

theorem deadline_of_getTTL (htwo : s.getTTL ns key now ≠ -2) (hone : s.getTTL ns key now ≠ -1) :
    ∃ e, s.liveAt now ns key = some e ∧ e.policy = .ttl := by
  obtain ⟨e, he⟩ := liveAt_of_getTTL htwo
  refine ⟨e, he, ?_⟩
  by_contra hpolicy
  exact hone (getTTL_of_ne_ttl he hpolicy)

theorem getTTL_eq_neg_one_iff (hcap : s.DeadlinesCapped now) :
    s.getTTL ns key now = -1 ↔ ∃ e, s.liveAt now ns key = some e ∧ e.policy ≠ .ttl := by
  constructor
  · intro hanswer
    obtain ⟨e, he⟩ := liveAt_of_getTTL (by rw [hanswer]; decide)
    refine ⟨e, he, fun hpolicy => ?_⟩
    have hnonneg := (getTTL_of_ttl hcap he hpolicy).2.1
    rw [hanswer] at hnonneg
    exact absurd hnonneg (by decide)
  · rintro ⟨e, he, hpolicy⟩
    exact getTTL_of_ne_ttl he hpolicy

/-- What is not alive is forecast as over. -/
theorem forecastAt_eq_neg_two_iff :
    s.forecastAt (.keyValue ns key) now = -2 ↔ s.liveAt now ns key = none := by
  rw [liveAt_eq_none_iff]
  cases hentry : s.entryAt ns key with
  | none =>
      have hnone : s.expirationAt (.keyValue ns key) = none := by
        rw [expirationAt, hentry, Option.map_none]
      refine iff_of_true (forecastAt_of_none hnone) ?_
      intro e he
      cases he
  | some e =>
      rw [forecastAt_of_entryAt hentry, Lifetime.forecast_eq_neg_two_iff,
        ← Expiration.isExpired_iff]
      exact ⟨fun h e' he' => Option.some.inj he' ▸ h, fun h => h e rfl⟩

theorem keyExists_eq_false_iff :
    (s.keyExists ns key now).2 = false ↔ s.forecastAt (.keyValue ns key) now = -2 := by
  rw [keyExists_eq, Option.isSome_eq_false_iff, Option.isNone_iff_eq_none,
    forecastAt_eq_neg_two_iff]

/-- The answer in 32 bits is the forecast. -/
theorem toInt_getTTL (hcap : s.DeadlinesCapped now) :
    (s.getTTL ns key now).toInt = s.forecastAt (.keyValue ns key) now := by
  cases he : s.liveAt now ns key with
  | none =>
      rw [getTTL_of_dead he, forecastAt_eq_neg_two_iff.mpr he]
      rfl
  | some e =>
      obtain ⟨hentry, hlive⟩ := liveAt_eq_some_iff.mp he
      rw [forecastAt_of_entryAt hentry]
      by_cases hpolicy : e.policy = .ttl
      · rw [(getTTL_of_ttl hcap he hpolicy).1, Expiration.lifetime_of_ttl hpolicy,
          Lifetime.forecast_until (Expiration.lt_expireTime_of_ttl hpolicy hlive)]
      · rw [getTTL_of_ne_ttl he hpolicy, Expiration.forecast_of_ne_ttl hpolicy hlive]
        rfl

theorem getTTL_eq_neg_two_iff (hcap : s.DeadlinesCapped now) :
    s.getTTL ns key now = -2 ↔ s.forecastAt (.keyValue ns key) now = -2 := by
  rw [← toInt_getTTL hcap, ← Int32.toInt_inj]
  exact Iff.rfl

end Answers

/-! ## Runs that leave an entry to itself -/

/-- The call is a read, a map end or an operation on other keys.  While the entry
is stored, it may also be one under its key that leaves it alone; once it is gone,
such a call could leave an entry of its own. -/
def Spares (slot : Slot) (w : World) (c : Call) (reply : Reply) : Prop :=
  c.slotAction w.store.toLimits reply slot = .pass ∨
    c.slotAction w.store.toLimits reply slot = .sweep ∨
    (w.store.expirationAt slot).isSome ∧ Undisturbed slot w c reply

section Runs

variable {slot : Slot} {w w' : World} {c : Call} {reply : Reply} {steps : List (Call × Reply)}

theorem Spares.undisturbed (h : Spares slot w c reply) : Undisturbed slot w c reply := by
  unfold Undisturbed
  rcases h with h | h | ⟨_, h⟩
  · rw [h]
    trivial
  · rw [h]
    trivial
  · exact h

/-- Nothing is put into an empty slot. -/
theorem Spares.none (h : Spares slot w c reply) (hwf : WellFormed w.store)
    (hcall : w.call alg c = some (w', reply)) (hnone : w.store.expirationAt slot = none) :
    w'.store.expirationAt slot = none := by
  obtain ⟨_, _, hchange⟩ := World.call_change hwf hcall
  have hstep : SlotStep c.env (c.slotAction w.store.toLimits reply slot)
      (w.store.expirationAt slot) (w'.store.expirationAt slot) := hchange.slotStep slot
  rw [hnone] at hstep
  generalize w'.store.expirationAt slot = o' at hstep ⊢
  rcases h with h | h | ⟨hsome, _⟩
  · rw [h] at hstep
    cases hstep
    rfl
  · rw [h] at hstep
    cases hstep
    rfl
  · rw [hnone] at hsome
    cases hsome

theorem none_of_run (hrun : Machine.Run (World.call alg) (Spares slot) w steps w')
    (hwf : WellFormed w.store) (hnone : w.store.expirationAt slot = none) :
    w'.store.expirationAt slot = none :=
  (hrun.invariant (fun w => WellFormed w.store ∧ w.store.expirationAt slot = none)
    (fun _ _ _ _ hspares hs hcall =>
      ⟨World.wellFormed_call hs.1 hcall, hspares.none hs.1 hcall hs.2⟩) ⟨hwf, hnone⟩).2

/-- What is stored at the end has been stored all along. -/
theorem stored_of_run (hrun : Machine.Run (World.call alg) (Spares slot) w steps w')
    (hwf : WellFormed w.store) (hsome : (w'.store.expirationAt slot).isSome) :
    Machine.Run (World.call alg) (Stored slot) w steps w' := by
  induction hrun with
  | nil w => exact .nil w
  | @cons w w₁ w₂ c reply steps hspares hcall hrest ih =>
      refine .cons ?_ hcall (ih (World.wellFormed_call hwf hcall) hsome)
      rw [Stored, Option.isSome_iff_ne_none]
      intro hnone
      rw [none_of_run (.cons hspares hcall hrest) hwf hnone] at hsome
      cases hsome

/-- After a run that leaves the entry to itself, the forecast is that for the
lifetime that is left. -/
theorem forecastAt_run (hrun : Machine.Run (World.call alg) (Spares slot) w steps w')
    (hwf : WellFormed w.store) {x : Expiration} (hx : w.store.expirationAt slot = some x)
    {t : TimePoint} (ht : w'.clock ≤ t) :
    w'.store.forecastAt slot t = (x.lifetime.afterSweeps (sweepCount steps)).forecast t := by
  have halone : Machine.Run (World.call alg) (Undisturbed slot) w steps w' :=
    hrun.weaken fun _ _ _ hspares => hspares.undisturbed
  rcases lifecycle_run halone hwf hx with ⟨_, x', hx', hlife⟩ | ⟨hgone, hover⟩
  · rw [forecastAt, hx', Option.elim_some, hlife]
  · rw [Lifetime.forecast_of_not_alive (Lifetime.not_alive_of_later ht hover)]
    -- it has been erased, or has expired in its place
    cases hx' : w'.store.expirationAt slot with
    | none => exact forecastAt_of_none hx'
    | some x' =>
        have hstored : (w'.store.expirationAt slot).isSome := by rw [hx']; rfl
        have hexp : x'.isExpired t = true := by
          by_contra hlive
          exact hgone t ⟨stored_of_run hrun hwf hstored, x', hx', by simpa using hlive⟩
        rw [forecastAt, hx', Option.elim_some,
          Lifetime.forecast_of_not_alive (Expiration.isExpired_iff.mp hexp)]

/-- An entry with a deadline exists until then. -/
theorem keyExists_of_run {ns key : StdString}
    (hrun : Machine.Run (World.call alg) (Spares (.keyValue ns key)) w steps w')
    (hwf : WellFormed w.store) {e : StoreEntry} (he : w.store.entryAt ns key = some e)
    (hpolicy : e.policy = .ttl) {t : TimePoint} (ht : w'.clock ≤ t) :
    (w'.store.keyExists ns key t).2 = decide (t < e.expireTime) := by
  have hforecast := forecastAt_run hrun hwf (expirationAt_of_entryAt he) ht
  rw [Expiration.lifetime_of_ttl hpolicy] at hforecast
  have hiff : (w'.store.keyExists ns key t).2 = false ↔ decide (t < e.expireTime) = false := by
    rw [keyExists_eq_false_iff, hforecast, Lifetime.forecast_eq_neg_two_iff]
    exact Iff.rfl
  rw [Bool.eq_iff_iff, ← not_iff_not, Bool.not_eq_true, Bool.not_eq_true]
  exact hiff

/-- In such a run the forecast does not rise. -/
theorem forecastAt_le_of_run (hrun : Machine.Run (World.call alg) (Spares slot) w steps w')
    (hwf : WellFormed w.store) {t : TimePoint} (ht : w'.clock ≤ t) :
    w'.store.forecastAt slot t ≤ w.store.forecastAt slot w.clock := by
  cases hx : w.store.expirationAt slot with
  | none => rw [forecastAt_of_none hx, forecastAt_of_none (none_of_run hrun hwf hx)]
  | some x =>
      rw [forecastAt_run hrun hwf hx ht, forecastAt, hx, Option.elim_some]
      exact Lifetime.forecast_le_of_later ((clock_le_of_run hrun).trans ht) _

/-- So the answers do not rise either, and nothing is below the last one. -/
theorem getTTL_of_run {ns key : StdString}
    (hrun : Machine.Run (World.call alg) (Spares (.keyValue ns key)) w steps w')
    (hwf : WellFormed w.store) (hcap : w.store.DeadlinesCapped w.clock) {t : TimePoint}
    (ht : w'.clock ≤ t) :
    (w'.store.getTTL ns key t).toInt ≤ (w.store.getTTL ns key w.clock).toInt ∧
      (w.store.getTTL ns key w.clock = -2 → w'.store.getTTL ns key t = -2) := by
  have hcap' : w'.store.DeadlinesCapped t := (capped_of_run hrun hwf hcap).later ht
  have hle : w'.store.forecastAt (.keyValue ns key) t ≤
      w.store.forecastAt (.keyValue ns key) w.clock := forecastAt_le_of_run hrun hwf ht
  refine ⟨?_, fun htwo => ?_⟩
  · rw [toInt_getTTL hcap', toInt_getTTL hcap]
    exact hle
  · rw [getTTL_eq_neg_two_iff hcap] at htwo
    rw [getTTL_eq_neg_two_iff hcap']
    rw [htwo] at hle
    exact le_antisymm hle (neg_two_le_forecastAt _)

end Runs

/-- **`GetTTL` is a sound and tight forecast.**  In every reachable state and at
every clock reading `t`, with the answer `r`:

* `r` is -2 if and only if `KeyExists` fails, and -1 if and only if the entry is
  live without a deadline;
* otherwise it is the number of whole seconds to the deadline, which is at most
  30 days ahead and fits its 32 bits;
* then the key exists for `r` seconds and is gone after `r + 1`, after every run
  that leaves the entry to itself;
* along such a run the answers never rise, and one of -2 is final. -/
theorem ttl_forecast {w : World} (hreach : Reachable alg w) (ns key : StdString)
    {t : TimePoint} (ht : w.clock ≤ t) :
    let r := w.store.getTTL ns key t
    (r = -2 ↔ (w.store.keyExists ns key t).2 = false) ∧
    (r = -1 ↔ ∃ e, w.store.liveAt t ns key = some e ∧ e.policy ≠ .ttl) ∧
    (r ≠ -2 → r ≠ -1 → 0 ≤ r.toInt ∧ r.toInt ≤ 2592000 ∧
      ∃ e, w.store.liveAt t ns key = some e ∧ e.policy = .ttl ∧
        r.toInt = (e.expireTime - t).tdiv 1000000000) ∧
    ∀ (steps : List (Call × Reply)) (w' : World) (t' : TimePoint),
      Machine.Run (World.call alg) (Spares (.keyValue ns key)) ⟨w.store, t⟩ steps w' →
      w'.clock ≤ t' →
      (r ≠ -2 → r ≠ -1 →
        (t' < t + r.toInt * 1000000000 → (w'.store.keyExists ns key t').2 = true) ∧
        (t + (r.toInt + 1) * 1000000000 ≤ t' → (w'.store.keyExists ns key t').2 = false)) ∧
      ∀ (steps' : List (Call × Reply)) (w'' : World) (t'' : TimePoint),
        Machine.Run (World.call alg) (Spares (.keyValue ns key)) ⟨w'.store, t'⟩ steps' w'' →
        w''.clock ≤ t'' →
        (w''.store.getTTL ns key t'').toInt ≤ (w'.store.getTTL ns key t').toInt ∧
        (w'.store.getTTL ns key t' = -2 → w''.store.getTTL ns key t'' = -2) := by
  have hwf := wellFormed_of_reachable hreach
  have hcap : w.store.DeadlinesCapped t := (capped_of_reachable hreach).later ht
  refine ⟨?_, ?_, ?_, ?_⟩
  · rw [keyExists_eq_false_iff, getTTL_eq_neg_two_iff hcap]
  · exact getTTL_eq_neg_one_iff hcap
  · intro htwo hone
    obtain ⟨e, he, hpolicy⟩ := deadline_of_getTTL htwo hone
    obtain ⟨hanswer, hnonneg, hle⟩ := getTTL_of_ttl hcap he hpolicy
    refine ⟨hnonneg, hle, e, he, hpolicy, ?_⟩
    have hlt := Expiration.lt_expireTime_of_ttl hpolicy (liveAt_eq_some_iff.mp he).2
    rw [hanswer, Int.tdiv_eq_ediv_of_nonneg (Int.sub_nonneg_of_le hlt.le)]
  · intro steps w' t' hrun ht'
    refine ⟨fun htwo hone => ?_, fun steps' w'' t'' hrun' ht'' => ?_⟩
    · obtain ⟨e, he, hpolicy⟩ := deadline_of_getTTL htwo hone
      rw [keyExists_of_run hrun hwf (liveAt_eq_some_iff.mp he).1 hpolicy ht',
        (getTTL_of_ttl hcap he hpolicy).1]
      obtain ⟨hlow, hhigh⟩ := seconds_bounds e.expireTime t
      exact ⟨fun hlt => decide_eq_true (hlt.trans_le hlow),
        fun hle => decide_eq_false (hhigh.trans_le hle).not_gt⟩
    · have hwf' : WellFormed w'.store := wellFormed_of_run hrun hwf
      have hcap' : w'.store.DeadlinesCapped t' := (capped_of_run hrun hwf hcap).later ht'
      exact getTTL_of_run hrun' hwf' hcap' ht''

/-- Half a second after a key has been given a minute, 59 seconds are forecast; a
map end makes no difference. -/
theorem ttl_forecast_minute : ∃ w w' : World,
    RunFromStart (StdAlgorithm.insertionSort (α := RankPair)) Machine.anyStep
      [(⟨.write (.setInt [1] [2] 7 .ttl 60), .at 0 fun _ => 0⟩, .flag true)] w ∧
    w.store.getTTL [1] [2] 500000000 = 59 ∧
    Machine.Run (World.call (StdAlgorithm.insertionSort (α := RankPair)))
      (Spares (.keyValue [1] [2])) ⟨w.store, 500000000⟩
      [(⟨.sweepMapEnd, .at 30000000000 fun _ => 0⟩, .done)] w' ∧
    (w'.store.keyExists [1] [2] 59000000000).2 = true ∧
    (w'.store.keyExists [1] [2] 60500000000).2 = false := by
  let alg : StdAlgorithm RankPair := .insertionSort
  have hrun : ∃ w w' : World,
      RunFromStart alg Machine.anyStep
        [(⟨.write (.setInt [1] [2] 7 .ttl 60), .at 0 fun _ => 0⟩, .flag true)] w ∧
      w.clock ≤ 500000000 ∧ w.store.getTTL [1] [2] 500000000 = 59 ∧ w'.clock = 30000000000 ∧
      Machine.Run (World.call alg) (Spares (.keyValue [1] [2])) ⟨w.store, 500000000⟩
        [(⟨.sweepMapEnd, .at 30000000000 fun _ => 0⟩, .done)] w' :=
    ⟨⟨_, 0⟩, ⟨_, 30000000000⟩, ⟨0, run_cons trivial le_rfl rfl (.nil _)⟩, by decide, rfl, rfl,
      run_cons (.inr (.inl rfl)) (by decide) rfl (.nil _)⟩
  obtain ⟨w, w', hset, hclock, hanswer, hclock', hrun⟩ := hrun
  have hforecast := fun t' => (ttl_forecast ⟨_, hset⟩ [1] [2] hclock).2.2.2 _ w' t' hrun
  rw [hanswer] at hforecast
  refine ⟨w, w', hset, hanswer, hrun, ?_, ?_⟩
  · exact ((hforecast 59000000000 (by rw [hclock']; decide)).1 (by decide) (by decide)).1
      (by decide)
  · exact ((hforecast 60500000000 (by rw [hclock']; decide)).1 (by decide) (by decide)).2
      (by decide)

end MemStore
