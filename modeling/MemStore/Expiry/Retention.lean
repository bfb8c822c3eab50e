import MemStore.Expiry.Lifecycle

/-!
# How many map changes an entry survives

`MapCount` with extra `n` is documented to survive `n` map changes.  Its counter
starts at `n` and the sweep erases an entry whose counter it takes to 0, so that
the entry survives `n - 1` of them and is gone after the `n`-th
(`map_count_never_survives`).  In particular `MapCount` with extra 1 is
`MapEnd`.
-/

namespace MemStore

open MemStoreManager

variable {alg : StdAlgorithm RankPair}

/-- The entry in the slot is alive after the next `n` map changes and gone after
one more, whatever calls are made that leave it alone. -/
def SurvivesMapChanges (alg : StdAlgorithm RankPair) (slot : Slot) (w : World) (n : ℤ) : Prop :=
  ∀ (steps : List (Call × Reply)) (w' : World) (t : TimePoint),
    Machine.Run (World.call alg) (Undisturbed slot) w steps w' → w'.clock ≤ t →
    (AliveAfter alg slot w steps w' t ↔ (sweepCount steps : ℤ) ≤ n)

/-- At some time the entry in the one slot is alive and the entry in the other one is gone. -/
def Outlives (alg : StdAlgorithm RankPair) (slot slot' : Slot) (w : World) : Prop :=
  ∃ (steps : List (Call × Reply)) (w' : World) (t : TimePoint),
    Machine.Run (World.call alg)
      (fun w c reply => Undisturbed slot w c reply ∧ Undisturbed slot' w c reply) w steps w' ∧
    w'.clock ≤ t ∧ AliveAfter alg slot w steps w' t ∧ ¬ AliveAfter alg slot' w steps w' t

/-- Map changes can always come one after another, and they leave every entry alone. -/
theorem exists_sweeps (alg : StdAlgorithm RankPair) (w : World) (n : ℕ) :
    ∃ steps w', Machine.Run (World.call alg)
        (fun w c reply => ∀ slot, Undisturbed slot w c reply) w steps w' ∧
      sweepCount steps = n := by
  induction n generalizing w with
  | zero => exact ⟨[], w, .nil w, rfl⟩
  | succ n ih =>
      obtain ⟨steps, w', hsteps, hcount⟩ := ih ⟨w.store.sweepMapEnd w.clock, w.clock⟩
      refine ⟨(⟨.sweepMapEnd, .at w.clock fun _ => 0⟩, .done) :: steps, w',
        run_cons ?_ le_rfl rfl hsteps, ?_⟩
      · intro slot
        cases slot <;> trivial
      · rw [sweepCount, List.countP_cons_of_pos rfl, ← hcount, sweepCount]

section MapEndsLeft

variable {slot slot' : Slot} {w : World} {x y : Expiration} {n m : ℕ} (hwf : WellFormed w.store)
  (hx : w.store.expirationAt slot = some x) (hmaps : x.lifetime = .maps n)

include hwf hx hmaps

/-- An entry with `n` map ends left is alive before the `n`-th. -/
theorem aliveAfter_maps_iff {steps : List (Call × Reply)} {w' : World} {t : TimePoint}
    (hrun : Machine.Run (World.call alg) (Undisturbed slot) w steps w') (ht : w'.clock ≤ t) :
    AliveAfter alg slot w steps w' t ↔ sweepCount steps < n := by
  rw [aliveAfter_iff hrun hwf hx ht, hmaps]
  simp only [Lifetime.afterSweeps, Lifetime.alive, decide_eq_true_eq]
  omega

/-- The `n`-th map change is the one that erases it. -/
theorem not_survivesMapChanges : ¬ SurvivesMapChanges alg slot w n := by
  intro hsurvives
  obtain ⟨steps, w', hsteps, hcount⟩ := exists_sweeps alg w n
  have hrun := hsteps.weaken fun _ _ _ halone => halone slot
  have halive := (hsurvives steps w' w'.clock hrun le_rfl).mpr (by omega)
  have hlt := (aliveAfter_maps_iff hwf hx hmaps hrun le_rfl).mp halive
  omega

/-- Of two entries the one with more map ends left lives longer. -/
theorem outlives_iff (hy : w.store.expirationAt slot' = some y) (hmaps' : y.lifetime = .maps m) :
    Outlives alg slot slot' w ↔ m < n := by
  constructor
  · rintro ⟨steps, w', t, hsteps, ht, halive, hgone⟩
    have hrun := hsteps.weaken fun _ _ _ halone => halone.1
    have hrun' := hsteps.weaken fun _ _ _ halone => halone.2
    rw [aliveAfter_maps_iff hwf hx hmaps hrun ht] at halive
    rw [aliveAfter_maps_iff hwf hy hmaps' hrun' ht] at hgone
    omega
  · intro hlt
    -- the map change that erases the other entry
    obtain ⟨steps, w', hsteps, hcount⟩ := exists_sweeps alg w m
    have hrun := hsteps.weaken fun _ _ _ halone => halone slot
    have hrun' := hsteps.weaken fun _ _ _ halone => halone slot'
    refine ⟨steps, w', w'.clock, hsteps.weaken fun _ _ _ halone => ⟨halone slot, halone slot'⟩,
      le_rfl, ?_, ?_⟩
    · rw [aliveAfter_maps_iff hwf hx hmaps hrun le_rfl]
      omega
    · rw [aliveAfter_maps_iff hwf hy hmaps' hrun' le_rfl]
      omega

end MapEndsLeft

/-- **`MapCount` survives one map change less than documented.**  Whenever a call
applies `MapCount` with extra `n ≥ 1` to an entry of either kind:

* the entry does not survive `n` map changes;
* it survives those before the `n`-th, in every run that leaves it alone;
* it outlives a `MapEnd` entry that is stored at that moment if and only if `n ≥ 2`. -/
theorem map_count_never_survives {slot : Slot} {w₀ w₁ : World} {c : Call} {reply : Reply}
    {extra : Int32} {t₀ : TimePoint} (hreach : Reachable alg w₀)
    (hcall : w₀.call alg c = some (w₁, reply))
    (happlies : Applies c.env (w₀.store.expirationAt slot)
      (c.slotAction w₀.store.toLimits reply slot) .mapCount extra t₀)
    (hextra : 1 ≤ extra.toInt) :
    ¬ SurvivesMapChanges alg slot w₁ extra.toInt ∧
    (∀ (steps : List (Call × Reply)) (w' : World) (t : TimePoint),
      Machine.Run (World.call alg) (Undisturbed slot) w₁ steps w' → w'.clock ≤ t →
      (AliveAfter alg slot w₁ steps w' t ↔ (sweepCount steps : ℤ) < extra.toInt)) ∧
    ∀ (slot' : Slot) (y : Expiration), w₁.store.expirationAt slot' = some y →
      y.policy = .mapEnd → (Outlives alg slot slot' w₁ ↔ 2 ≤ extra.toInt) := by
  have hwf := wellFormed_of_reachable hreach
  obtain ⟨_, _, hchange⟩ := World.call_change hwf hcall
  have hwf₁ := hchange.wellFormed hwf
  obtain ⟨x, hx, hlife⟩ := (hchange.slotStep slot).applied happlies
  have hmaps : x.lifetime = .maps extra.toInt.toNat := by
    rw [hlife, Lifetime.ofPolicy, max_eq_left hextra]
  have hextent : (extra.toInt.toNat : ℤ) = extra.toInt := Int.toNat_of_nonneg (by omega)
  refine ⟨?_, ?_, ?_⟩
  · rw [← hextent]
    exact not_survivesMapChanges hwf₁ hx hmaps
  · intro steps w' t hrun ht
    rw [aliveAfter_maps_iff hwf₁ hx hmaps hrun ht]
    omega
  · intro slot' y hy hpolicy
    have hone : y.lifetime = .maps 1 := by rw [Expiration.lifetime, hpolicy]
    rw [outlives_iff hwf₁ hx hmaps hy hone]
    omega

/-- A rank entry that should survive three map changes. -/
theorem map_count_never_survives_three : ∃ w : World,
    (World.initial 0).call (StdAlgorithm.insertionSort (α := RankPair))
      ⟨.write (.rankSet [1] [2] 7 .mapCount 3), .at 0 fun _ => 0⟩ = some (w, .flag true) ∧
    ¬ SurvivesMapChanges (StdAlgorithm.insertionSort (α := RankPair)) (.rank [1] [2]) w 3 := by
  have hcall : ∃ w, (World.initial 0).call (StdAlgorithm.insertionSort (α := RankPair))
      ⟨.write (.rankSet [1] [2] 7 .mapCount 3), .at 0 fun _ => 0⟩ = some (w, .flag true) :=
    ⟨⟨_, 0⟩, World.call_eq_some_iff.mpr ⟨le_rfl, rfl, rfl⟩⟩
  obtain ⟨w, hcall⟩ := hcall
  exact ⟨w, hcall, (map_count_never_survives ⟨[], 0, .nil _⟩ hcall (.write .mapCount 3)
    (show 1 ≤ (3 : Int32).toInt by decide)).1⟩

/-- What is saved for one map change is gone after the first. -/
theorem map_count_one_is_gone : ¬ ∀ (slot : Slot) (w₀ w₁ : World) (c : Call) (reply : Reply)
    (extra : Int32) (t₀ : TimePoint),
      Reachable (StdAlgorithm.insertionSort (α := RankPair)) w₀ →
      w₀.call (StdAlgorithm.insertionSort (α := RankPair)) c = some (w₁, reply) →
      Applies c.env (w₀.store.expirationAt slot) (c.slotAction w₀.store.toLimits reply slot)
        .mapCount extra t₀ →
      1 ≤ extra.toInt →
      SurvivesMapChanges (StdAlgorithm.insertionSort (α := RankPair)) slot w₁ extra.toInt := by
  intro h
  have hrun : ∃ w₁ w₂ : World,
      (World.initial 0).call (StdAlgorithm.insertionSort (α := RankPair))
        ⟨.write (.setArray [1] [2] [7] .mapCount 1), .at 0 fun _ => 0⟩ = some (w₁, .flag true) ∧
      Machine.Run (World.call (StdAlgorithm.insertionSort (α := RankPair)))
        (Undisturbed (.keyValue [1] [2])) w₁ [(⟨.sweepMapEnd, .at 0 fun _ => 0⟩, .done)] w₂ ∧
      w₂.clock ≤ 0 ∧ w₂.store.expirationAt (.keyValue [1] [2]) = none :=
    ⟨⟨_, 0⟩, ⟨_, 0⟩, World.call_eq_some_iff.mpr ⟨le_rfl, rfl, rfl⟩,
      run_cons trivial le_rfl rfl (.nil _), le_rfl, rfl⟩
  obtain ⟨w₁, w₂, hcall, hsteps, hclock, hgone⟩ := hrun
  have hsurvives := h (.keyValue [1] [2]) (World.initial 0) w₁ _ _ 1 0 ⟨[], 0, .nil _⟩ hcall
    (.write .mapCount 1) (by decide)
  obtain ⟨_, x, hx, _⟩ := (hsurvives _ w₂ 0 hsteps hclock).mpr (by decide)
  rw [hgone] at hx
  cases hx

end MemStore
