import MemStore.Steps.Invariants

/-!
# The lifecycle law

How long an entry lives is settled when an expiration is applied to it
(`Applies`): after `k` map ends and at clock reading `t` it is alive if and only
if its policy says so (`LawfullyAlive`), whatever other calls have been made in
between, as long as none of them rewrote, re-expired or removed it
(`Undisturbed`).

The entry is the stored object.  Once it has been erased it is dead for good;
what a later call might put under its key is another entry.  So being alive
after a run means that the slot was filled at each of its steps (`Stored`).
`lifecycle_run` follows the entry through a run, and `lifecycle_law` applies it
to slots of both kinds.
-/

namespace MemStore

open MemStoreManager

/-! ## Applying an expiration -/

/-- The action applies an expiration, at the clock reading `t₀`, to what it
finds in the slot. -/
inductive Applies (env : Env) (o : Option Expiration) :
    SlotAction → ExpirePolicy → Int32 → TimePoint → Prop
  | write (policy : ExpirePolicy) (extra : Int32) :
      Applies env o (.write policy extra) policy extra env.first
  | incDead (policy : ExpirePolicy) (extra : Int32) (hdead : Dead o env.first) :
      Applies env o (.increment policy extra) policy extra env.second
  | incLive (policy : ExpirePolicy) (extra : Int32) (hargs : policy ≠ .persistent ∨ extra ≠ 0) :
      Applies env o (.increment policy extra) policy extra env.second
  | reexpire (policy : ExpirePolicy) (extra : Int32) :
      Applies env o (.reexpire policy extra) policy extra env.first

/-- The law: when an entry is alive to which `policy` and `extra` were applied
at `t₀`, at clock reading `t` and after `k` map ends. -/
def LawfullyAlive (policy : ExpirePolicy) (extra : Int32) (t₀ : TimePoint) (k : ℕ)
    (t : TimePoint) : Prop :=
  match policy with
  | .persistent => True
  | .mapEnd => k = 0
  | .mapCount => (k : ℤ) < max extra.toInt 1
  | .ttl =>
      t < t₀ + (if extra.toInt ≤ 0 then 60 else min extra.toInt (30 * 24 * 60 * 60)) * 1000000000

theorem lawfullyAlive_iff (policy : ExpirePolicy) (extra : Int32) (t₀ : TimePoint) (k : ℕ)
    (t : TimePoint) : LawfullyAlive policy extra t₀ k t ↔
      ((Lifetime.ofPolicy policy extra t₀).afterSweeps k).alive t = true := by
  cases policy with
  | persistent => simp [LawfullyAlive, Lifetime.ofPolicy, Lifetime.afterSweeps, Lifetime.alive]
  | mapEnd =>
      simp only [LawfullyAlive, Lifetime.ofPolicy, Lifetime.afterSweeps, Lifetime.alive,
        decide_eq_true_eq]
      omega
  | mapCount =>
      simp only [LawfullyAlive, Lifetime.ofPolicy, Lifetime.afterSweeps, Lifetime.alive,
        decide_eq_true_eq]
      omega
  | ttl =>
      have hsame : (if extra.toInt ≤ 0 then 60 else min extra.toInt (30 * 24 * 60 * 60)) =
          Lifetime.ttlSeconds extra := by
        unfold Lifetime.ttlSeconds
        split <;> split <;> omega
      simp only [LawfullyAlive, Lifetime.ofPolicy, Lifetime.afterSweeps, Lifetime.alive,
        decide_eq_true_eq, hsame]

theorem SlotStep.applied {env : Env} {a : SlotAction} {o o' : Option Expiration}
    {policy : ExpirePolicy} {extra : Int32} {t₀ : TimePoint} (h : SlotStep env a o o')
    (happlies : Applies env o a policy extra t₀) :
    ∃ x, o' = some x ∧ x.lifetime = .ofPolicy policy extra t₀ := by
  cases happlies with
  | write =>
      cases h
      exact ⟨_, rfl, Expiration.lifetime_apply ..⟩
  | reexpire =>
      cases h
      exact ⟨_, rfl, Expiration.lifetime_apply ..⟩
  | incDead _ _ hdead =>
      cases h with
      | incDead => exact ⟨_, rfl, Expiration.lifetime_apply ..⟩
      | incLive _ _ hlive =>
          rw [dead_some_iff.mp hdead] at hlive
          cases hlive
  | incLive _ _ hargs =>
      cases h with
      | incDead => exact ⟨_, rfl, Expiration.lifetime_apply ..⟩
      | incLive =>
          refine ⟨_, rfl, ?_⟩
          rw [Expiration.reapply, if_pos hargs]
          exact Expiration.lifetime_apply ..

/-! ## Map ends -/

/-- Whether a call is one of `SweepMapEnd`. -/
def Op.isSweep : Op → Bool
  | .sweepMapEnd => true
  | _ => false

/-- The number of map ends in a run. -/
def sweepCount (steps : List (Call × Reply)) : ℕ := steps.countP fun step => step.1.op.isSweep

/-- What a call asks of a slot. -/
def Call.slotAction (c : Call) (limits : Limits) (reply : Reply) (slot : Slot) : SlotAction :=
  (c.op.outcome limits reply).atSlot slot

theorem Request.sweeps_atSlot_of_ne {req : Request} (h : req ≠ .sweep) (slot : Slot) :
    (req.atSlot slot).sweeps = 0 := by
  cases slot with
  | keyValue ns key =>
      cases req with
      | sweep => exact absurd rfl h
      | reject | write | increment | reexpire | deleteKey | clearNamespace =>
          simp only [Request.atSlot, Request.atKey]
          split <;> rfl
      | _ => rfl
  | rank ns key =>
      cases req with
      | sweep => exact absurd rfl h
      | rankWrite | rankIncrement | rankDelete | rankClear =>
          simp only [Request.atSlot, Request.atRankKey]
          split <;> rfl
      | _ => rfl

/-- A map end is counted in every slot, and nothing else is. -/
theorem sweeps_slotAction {s s' : MemStoreManager} {alg : StdAlgorithm RankPair} {c : Call}
    {reply : Reply} (h : exec alg s c.env c.op = some (s', reply)) (limits : Limits)
    (slot : Slot) :
    (c.slotAction limits reply slot).sweeps = if c.op.isSweep then 1 else 0 := by
  obtain ⟨op, env⟩ := c
  cases op with
  | sweepMapEnd =>
      cases h
      cases slot <;> rfl
  | write w =>
      refine Request.sweeps_atSlot_of_ne ?_ slot
      unfold Op.outcome
      split <;> cases w <;> simp [Op.request, Op.refusal]
  | _ =>
      refine Request.sweeps_atSlot_of_ne ?_ slot
      unfold Op.outcome
      split <;> simp [Op.request, Op.refusal]

/-! ## Runs -/

variable {alg : StdAlgorithm RankPair}

/-- The call leaves the expiration of the entry in the slot alone. -/
def Undisturbed (slot : Slot) (w : World) (c : Call) (reply : Reply) : Prop :=
  (c.slotAction w.store.toLimits reply slot).LeavesAlone c.env (w.store.expirationAt slot)

/-- The slot is filled. -/
def Stored (slot : Slot) (w : World) (_ : Call) (_ : Reply) : Prop :=
  (w.store.expirationAt slot).isSome

/-- The entry that is in the slot at the beginning of a run is alive at clock
reading `t` after it. -/
def AliveAfter (alg : StdAlgorithm RankPair) (slot : Slot) (w : World)
    (steps : List (Call × Reply)) (w' : World) (t : TimePoint) : Prop :=
  Machine.Run (World.call alg) (Stored slot) w steps w' ∧
    ∃ x, w'.store.expirationAt slot = some x ∧ x.isExpired t = false

/-- Where the entry of a slot is after a run that leaves it alone: still stored,
with its lifetime less the map ends, or erased, and then its lifetime is over. -/
theorem lifecycle_run {slot : Slot} {w w' : World} {steps : List (Call × Reply)}
    (hrun : Machine.Run (World.call alg) (Undisturbed slot) w steps w')
    (hwf : WellFormed w.store) {x : Expiration} (hx : w.store.expirationAt slot = some x) :
    (Machine.Run (World.call alg) (Stored slot) w steps w' ∧
      ∃ x', w'.store.expirationAt slot = some x' ∧
        x'.lifetime = x.lifetime.afterSweeps (sweepCount steps)) ∨
    ((∀ t, ¬ AliveAfter alg slot w steps w' t) ∧
      (x.lifetime.afterSweeps (sweepCount steps)).alive w'.clock = false) := by
  -- induction on the run: in its first step the entry stays, with the lifetime the
  -- step leaves it, or it is erased, and then its lifetime was over
  induction hrun generalizing x with
  | nil w => exact .inl ⟨.nil w, x, hx, (Lifetime.afterSweeps_zero _).symm⟩
  | @cons w w₁ w₂ c reply steps hguard hcall hrest ih =>
      obtain ⟨_, hclock, hchange⟩ := World.call_change hwf hcall
      have hstep : SlotStep c.env (c.slotAction w.store.toLimits reply slot)
          (w.store.expirationAt slot) (w₁.store.expirationAt slot) := hchange.slotStep slot
      have hsound := hwf.sound slot x hx
      have halone : (c.slotAction w.store.toLimits reply slot).LeavesAlone c.env (some x) :=
        hx ▸ hguard
      have hstored : Stored slot w c reply := by simp [Stored, hx]
      have hcount : sweepCount ((c, reply) :: steps) =
          (c.slotAction w.store.toLimits reply slot).sweeps + sweepCount steps := by
        rw [sweeps_slotAction (World.call_eq_some_iff.mp hcall).2.1, sweepCount,
          List.countP_cons, sweepCount, Nat.add_comm]
      rw [hcount, ← Lifetime.afterSweeps_add]
      cases hx₁ : w₁.store.expirationAt slot with
      | some x₁ =>
          rw [← hstep.lifetime hx hx₁ hsound halone]
          rcases ih (hchange.wellFormed hwf) hx₁ with ⟨hkept, hfinal⟩ | ⟨hgone, hover⟩
          · exact .inl ⟨.cons hstored hcall hkept, hfinal⟩
          · refine .inr ⟨fun t halive => hgone t ⟨?_, halive.2⟩, hover⟩
            cases halive.1 with
            | cons _ hcall' hrest' =>
                rw [hcall] at hcall'
                cases hcall'
                exact hrest'
      | none =>
          have hover := hstep.removed hx hx₁ hsound halone
          refine .inr ⟨?_, ?_⟩
          · -- from here on the slot would have to be filled
            rintro t ⟨hkept, x', hx', _⟩
            cases hkept with
            | cons _ hcall' hrest' =>
                rw [hcall] at hcall'
                cases hcall'
                cases hrest' with
                | nil =>
                    rw [hx₁] at hx'
                    cases hx'
                | cons hstored' _ _ =>
                    rw [Stored, hx₁] at hstored'
                    cases hstored'
          · have hle : c.env.third ≤ w₂.clock := hclock ▸ clock_le_of_run hrest
            refine Lifetime.not_alive_of_later hle ?_
            by_contra halive
            rw [Lifetime.alive_of_afterSweeps (by simpa using halive)] at hover
            cases hover

/-- What is left of the lifetime decides whether the entry is alive after a run. -/
theorem aliveAfter_iff {slot : Slot} {w w' : World} {steps : List (Call × Reply)} {t : TimePoint}
    (hrun : Machine.Run (World.call alg) (Undisturbed slot) w steps w')
    (hwf : WellFormed w.store) {x : Expiration} (hx : w.store.expirationAt slot = some x)
    (ht : w'.clock ≤ t) : AliveAfter alg slot w steps w' t ↔
      (x.lifetime.afterSweeps (sweepCount steps)).alive t = true := by
  -- the entry is still there, or its lifetime is over at the end of the run
  rcases lifecycle_run hrun hwf hx with ⟨hkept, x', hx', hlife'⟩ | ⟨hgone, hover⟩
  · rw [← hlife']
    constructor
    · rintro ⟨_, x'', hx'', hlive⟩
      rw [hx', Option.some.injEq] at hx''
      subst hx''
      exact Expiration.alive_of_not_isExpired hlive
    · intro halive
      refine ⟨hkept, x', hx', ?_⟩
      rw [Expiration.isExpired_eq_not_alive, halive]
      rfl
  · refine iff_of_false (hgone t) ?_
    rw [Lifetime.not_alive_of_later ht hover]
    exact Bool.false_ne_true

/-- An entry lives exactly as long as the expiration last applied to it says.
In particular no counter of a `MapCount` entry reaches zero before the sweep
that erases it. -/
theorem lifecycle_law :
    (∀ (slot : Slot) (w₀ w₁ w₂ : World) (c : Call) (reply : Reply)
        (steps : List (Call × Reply)) (policy : ExpirePolicy) (extra : Int32)
        (t₀ t : TimePoint),
      Reachable alg w₀ → w₀.call alg c = some (w₁, reply) →
      Applies c.env (w₀.store.expirationAt slot) (c.slotAction w₀.store.toLimits reply slot)
        policy extra t₀ →
      Machine.Run (World.call alg) (Undisturbed slot) w₁ steps w₂ → w₂.clock ≤ t →
      (AliveAfter alg slot w₁ steps w₂ t ↔
        LawfullyAlive policy extra t₀ (sweepCount steps) t)) ∧
    ∀ (w : World) (slot : Slot) (x : Expiration), Reachable alg w →
      w.store.expirationAt slot = some x → x.policy = .mapCount →
      1 ≤ x.mapCounter ∧ (x.mapCounter - 1).toInt = x.mapCounter.toInt - 1 ∧
        ∀ t, x.isExpired t = false := by
  constructor
  · intro slot w₀ w₁ w₂ c reply steps policy extra t₀ t hreach hcall happlies hrun ht
    have hwf := wellFormed_of_reachable hreach
    obtain ⟨_, _, hchange⟩ := World.call_change hwf hcall
    obtain ⟨x, hx, hlife⟩ := (hchange.slotStep slot).applied happlies
    rw [lawfullyAlive_iff, ← hlife]
    exact aliveAfter_iff hrun (hchange.wellFormed hwf) hx ht
  · intro w slot x hreach hx hpolicy
    have hsound := (wellFormed_of_reachable hreach).sound slot x hx
    refine ⟨?_, Expiration.toInt_sub_one (hsound hpolicy),
      Expiration.isExpired_of_mapCount hsound hpolicy⟩
    have hpos := Int32.lt_iff_toInt_lt.mp (hsound hpolicy)
    rw [Int32.toInt_zero] at hpos
    rw [Int32.le_iff_toInt_le, Int32.toInt_one]
    omega

/-- A rank entry that lives for two maps is alive after one sweep, at any time. -/
theorem lifecycle_law_two_maps : ∃ w₁ w₂ : World,
    (World.initial 0).call (StdAlgorithm.insertionSort (α := RankPair))
      ⟨.write (.rankSet [1] [2] 7 .mapCount 2), .at 0 fun _ => 0⟩ = some (w₁, .flag true) ∧
    Machine.Run (World.call (StdAlgorithm.insertionSort (α := RankPair)))
      (Undisturbed (.rank [1] [2])) w₁ [(⟨.sweepMapEnd, .at 5 fun _ => 0⟩, .done)] w₂ ∧
    ∀ t, 5 ≤ t → ∃ x, w₂.store.expirationAt (.rank [1] [2]) = some x ∧ x.isExpired t = false := by
  have hrun : ∃ w₁ w₂,
      (World.initial 0).call (StdAlgorithm.insertionSort (α := RankPair))
        ⟨.write (.rankSet [1] [2] 7 .mapCount 2), .at 0 fun _ => 0⟩ = some (w₁, .flag true) ∧
      w₂.clock = 5 ∧
      Machine.Run (World.call (StdAlgorithm.insertionSort (α := RankPair)))
        (Undisturbed (.rank [1] [2])) w₁ [(⟨.sweepMapEnd, .at 5 fun _ => 0⟩, .done)] w₂ :=
    ⟨⟨_, 0⟩, _, World.call_eq_some_iff.mpr ⟨le_rfl, rfl, rfl⟩, rfl,
      run_cons trivial (by decide) rfl (.nil _)⟩
  obtain ⟨w₁, w₂, hcall, hclock, hrun⟩ := hrun
  refine ⟨w₁, w₂, hcall, hrun, fun t ht => ?_⟩
  have hlaw := (lifecycle_law.1 (.rank [1] [2]) (World.initial 0) w₁ w₂ _ _ _ .mapCount 2 0
    t ⟨[], 0, .nil _⟩ hcall (.write .mapCount 2) hrun (hclock.trans_le ht)).mpr
    (by change ((1 : ℕ) : ℤ) < max (2 : Int32).toInt 1; decide)
  exact hlaw.2

end MemStore
