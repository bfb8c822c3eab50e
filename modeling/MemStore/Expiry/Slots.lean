import MemStore.Expiry.Lifetime

/-!
# Slots

Key-value and rank entries expire by the same rules, so whatever concerns
expiration only is stated for a slot: the place of one key, seen as
`Option Expiration`.  `SlotStep` is what one call can do to a slot, and the two
kinds of entries are shown elsewhere to follow it.

Four facts about a step are proved here:

* `SlotStep.sound`: counters stay positive;
* `SlotStep.dead`: a dead slot stays dead unless the step revives it;
* `SlotStep.lifetime`: an entry that is left alone keeps its lifetime, less the
  map ends that were counted;
* `SlotStep.removed`: an entry that is left alone is removed only once its
  lifetime has run out.
-/

namespace MemStore

/-- `if (policy != ExpirePolicy::Persistent || extra != 0) ApplyExpiration(...)`. -/
def Expiration.reapply (x : Expiration) (policy : ExpirePolicy) (extra : Int32)
    (now : TimePoint) : Expiration :=
  if policy ≠ .persistent ∨ extra ≠ 0 then x.apply policy extra now else x

/-- What a call asks of one slot. -/
inductive SlotAction
  | pass
  | reject
  | write (policy : ExpirePolicy) (extra : Int32)
  | increment (policy : ExpirePolicy) (extra : Int32)
  | reexpire (policy : ExpirePolicy) (extra : Int32)
  | remove
  | sweep
  deriving DecidableEq

/-- Nothing live at a clock reading. -/
def Dead (o : Option Expiration) (now : TimePoint) : Prop :=
  ∀ x, o = some x → x.isExpired now = true

/-- What a call does to one slot. -/
inductive SlotStep (env : Env) : SlotAction → Option Expiration → Option Expiration → Prop
  | keep (o : Option Expiration) : SlotStep env .pass o o
  | purge {x : Expiration} (hexp : x.isExpired env.third = true) :
      SlotStep env .pass (some x) none
  | reject (o : Option Expiration) : SlotStep env .reject o o
  | ghost : SlotStep env .reject none (some {})
  | write (o : Option Expiration) (policy : ExpirePolicy) (extra : Int32) :
      SlotStep env (.write policy extra) o (some ((o.getD {}).apply policy extra env.first))
  | incDead {o : Option Expiration} (policy : ExpirePolicy) (extra : Int32)
      (hdead : Dead o env.first) :
      SlotStep env (.increment policy extra) o (some ((o.getD {}).apply policy extra env.second))
  | incLive {x : Expiration} (policy : ExpirePolicy) (extra : Int32)
      (hlive : x.isExpired env.first = false) :
      SlotStep env (.increment policy extra) (some x) (some (x.reapply policy extra env.second))
  | reexpire (x : Expiration) (policy : ExpirePolicy) (extra : Int32) :
      SlotStep env (.reexpire policy extra) (some x) (some (x.apply policy extra env.first))
  | remove (o : Option Expiration) : SlotStep env .remove o none
  | sweep (o : Option Expiration) : SlotStep env .sweep o (o.bind fun x => x.sweep env.first)

/-- The number of map ends an action counts. -/
def SlotAction.sweeps : SlotAction → ℕ
  | .sweep => 1
  | _ => 0

/-- The actions that neither rewrite, re-expire nor remove the entry in a slot.
An increment is one of them if it finds the entry live and passes the arguments
that keep its expiration. -/
def SlotAction.LeavesAlone (env : Env) (o : Option Expiration) : SlotAction → Prop
  | .pass | .reject | .sweep => True
  | .increment policy extra =>
      policy = .persistent ∧ extra = 0 ∧ ∀ x, o = some x → x.isExpired env.first = false
  | .write _ _ | .reexpire _ _ | .remove => False

theorem Dead.later {o : Option Expiration} {now later : TimePoint} (h : Dead o now)
    (hle : now ≤ later) : Dead o later :=
  fun x hx => Expiration.isExpired_of_later hle (h x hx)

theorem dead_none (now : TimePoint) : Dead none now := by
  intro x hx
  cases hx

theorem dead_some_iff {x : Expiration} {now : TimePoint} :
    Dead (some x) now ↔ x.isExpired now = true := by
  constructor
  · exact fun h => h x rfl
  · rintro h y hy
    cases hy
    exact h

namespace Expiration

theorem sound_default : Sound {} := fun h => by cases h

theorem sound_reapply {x : Expiration} (h : x.Sound) (policy : ExpirePolicy) (extra : Int32)
    (now : TimePoint) : (x.reapply policy extra now).Sound := by
  unfold reapply
  split
  · exact sound_apply x policy extra now
  · exact h

theorem live_reapply {x : Expiration} {now : TimePoint} (h : x.isExpired now = false)
    (policy : ExpirePolicy) (extra : Int32) :
    (x.reapply policy extra now).isExpired now = false := by
  unfold reapply
  split
  · exact isExpired_apply x policy extra now
  · exact h

/-- A sound entry of policy `MapCount` never counts as expired. -/
theorem isExpired_of_mapCount {x : Expiration} (h : x.Sound) (hpolicy : x.policy = .mapCount)
    (now : TimePoint) : x.isExpired now = false := by
  have hcounter : ¬ x.mapCounter ≤ 0 := Int32.not_le.mpr (h hpolicy)
  simp [isExpired, hpolicy, hcounter]

end Expiration

namespace SlotStep

variable {env : Env} {a : SlotAction} {o o' : Option Expiration}

theorem sound (h : SlotStep env a o o') (ho : ∀ x, o = some x → x.Sound) :
    ∀ x, o' = some x → x.Sound := by
  intro x' hx'
  cases h with
  | keep | reject => exact ho x' hx'
  | purge | remove => cases hx'
  | ghost =>
      cases hx'
      exact Expiration.sound_default
  | write o policy extra =>
      cases hx'
      exact Expiration.sound_apply _ policy extra env.first
  | incDead policy extra hdead =>
      cases hx'
      exact Expiration.sound_apply _ policy extra env.second
  | incLive policy extra hlive =>
      cases hx'
      exact Expiration.sound_reapply (ho _ rfl) policy extra env.second
  | reexpire x policy extra =>
      cases hx'
      exact Expiration.sound_apply x policy extra env.first
  | sweep =>
      obtain ⟨x, hx, hsweep⟩ := Option.bind_eq_some_iff.mp hx'
      exact (Expiration.lifetime_of_sweep (ho x hx) hsweep).2

/-- The steps after which a dead slot is still dead: all but successful writes
and increments, the expiration of an entry that is stored, and a rejected write
that fills the slot. -/
theorem dead (h : SlotStep env a o o') (ho : ∀ x, o = some x → x.Sound)
    (hdead : Dead o env.first)
    (hwrite : ∀ policy extra, a ≠ .write policy extra ∧ a ≠ .increment policy extra)
    (hreexpire : ∀ policy extra, a = .reexpire policy extra → o = none)
    (hreject : a = .reject → o' = o) : Dead o' env.third := by
  cases h with
  | keep | reject => exact hdead.later env.first_le_third
  | purge | remove => exact dead_none _
  | ghost => cases hreject rfl
  | write o policy extra => exact absurd rfl (hwrite policy extra).1
  | incDead policy extra _ => exact absurd rfl (hwrite policy extra).2
  | incLive policy extra _ => exact absurd rfl (hwrite policy extra).2
  | reexpire x policy extra => cases hreexpire policy extra rfl
  | sweep =>
      -- what is expired before the sweep is swept
      intro x' hx'
      obtain ⟨x, hx, hsweep⟩ := Option.bind_eq_some_iff.mp hx'
      have hexp : x.lifetime.alive env.first = false := Expiration.isExpired_iff.mp (hdead x hx)
      have hlife : (x.lifetime.afterSweeps 1).alive env.first = true := by
        by_contra hnot
        rw [(Expiration.sweep_eq_none_iff (ho x hx)).mpr (by simpa using hnot)] at hsweep
        cases hsweep
      rw [Lifetime.alive_of_afterSweeps hlife] at hexp
      cases hexp

theorem lifetime {x x' : Expiration} (h : SlotStep env a o o') (ho : o = some x)
    (ho' : o' = some x') (hx : x.Sound) (halone : a.LeavesAlone env (some x)) :
    x'.lifetime = x.lifetime.afterSweeps a.sweeps := by
  cases h with
  | keep | reject =>
      rw [Option.some.inj (ho.symm.trans ho')]
      exact (Lifetime.afterSweeps_zero _).symm
  | purge | remove => cases ho'
  | ghost => cases ho
  | write | reexpire => exact halone.elim
  | incDead policy extra hdead =>
      have hlive := halone.2.2 x rfl
      rw [hdead x ho] at hlive
      cases hlive
  | incLive policy extra hlive =>
      cases ho
      cases ho'
      obtain ⟨rfl, rfl, _⟩ := halone
      exact (Lifetime.afterSweeps_zero _).symm
  | sweep =>
      subst ho
      exact (Expiration.lifetime_of_sweep hx ho').1

theorem removed {x : Expiration} (h : SlotStep env a o o') (ho : o = some x) (ho' : o' = none)
    (hx : x.Sound) (halone : a.LeavesAlone env (some x)) :
    (x.lifetime.afterSweeps a.sweeps).alive env.third = false := by
  cases h with
  | keep | reject =>
      rw [ho] at ho'
      cases ho'
  | purge hexp =>
      cases ho
      rw [show SlotAction.pass.sweeps = 0 from rfl, Lifetime.afterSweeps_zero]
      exact Expiration.isExpired_iff.mp hexp
  | remove => exact halone.elim
  | ghost | write | incDead | incLive | reexpire => cases ho'
  | sweep =>
      subst ho
      exact Lifetime.not_alive_of_later env.first_le_third
        ((Expiration.sweep_eq_none_iff hx).mp ho')

end SlotStep

end MemStore
