import MemStore.KeyValue.Independence
import MemStore.Ranking.Sequences

/-!
# Leaderboards without key-values

The rank operations read nothing of the key-value half but the limits, and change
nothing of it (`exec_beside`).  Together with the other direction
(`exec_withRanks`) this takes the manager apart: after every run, its key-values
are what the key-value calls alone have made of them, and its leaderboards what
the rank calls alone have made of them (`halves_do_not_interfere`).

What both halves see are the calls about the manager as a whole: limits, map ends
and clearing.
-/

namespace MemStore

namespace MemStoreManager

theorem SameRanks.symm {s s' : MemStoreManager} (h : SameRanks s s') : SameRanks s' s :=
  ⟨h.ranks.symm, h.counter.symm, h.limits.symm⟩

section Beside

variable {k s : MemStoreManager} (ns key : StdString) (layout : Layout) (now : TimePoint)

@[simp] theorem withRanks_ranks : (k.withRanks s).ranks = s.ranks := rfl
@[simp] theorem withRanks_rankAt : (k.withRanks s).rankAt ns key = s.rankAt ns key := rfl

theorem purgeBoard_beside : (k.withRanks s).purgeBoard ns now =
    (k.withRanks (s.purgeBoard ns now).1, (s.purgeBoard ns now).2) := by
  unfold purgeBoard
  rw [withRanks_ranks]
  split <;> rfl

theorem rankSet_beside (hlimits : k.toLimits = s.toLimits) (score : Cell) (policy : ExpirePolicy)
    (extra : Int32) : (k.withRanks s).rankSet layout ns key score policy extra now =
      (k.withRanks (s.rankSet layout ns key score policy extra now).1,
        (s.rankSet layout ns key score policy extra now).2) := by
  have hns : (k.withRanks s).maxNamespaces = s.maxNamespaces :=
    congrArg Limits.maxNamespaces hlimits
  have hkeys : (k.withRanks s).maxKeysPerNamespace = s.maxKeysPerNamespace :=
    congrArg Limits.maxKeysPerNamespace hlimits
  unfold rankSet
  rw [withRanks_ranks, hns]
  split
  · rfl
  · dsimp only
    rw [hkeys]
    split <;> rfl

theorem rankGetScore_beside : (k.withRanks s).rankGetScore ns key now =
    (k.withRanks (s.rankGetScore ns key now).1, (s.rankGetScore ns key now).2) := by
  unfold rankGetScore
  rw [withRanks_rankAt]
  split
  · rfl
  · split <;> rfl

theorem rankGetPosition_beside (order : RankOrder) :
    (k.withRanks s).rankGetPosition ns key order now =
      (k.withRanks (s.rankGetPosition ns key order now).1,
        (s.rankGetPosition ns key order now).2) := by
  unfold rankGetPosition
  rw [withRanks_rankAt, purgeBoard_beside]
  split
  · rfl
  · split <;> rfl

theorem rankGetTop_beside (alg : StdAlgorithm RankPair) (rankPos : Int32) (order : RankOrder) :
    (k.withRanks s).rankGetTop alg ns rankPos order now =
      (k.withRanks (s.rankGetTop alg ns rankPos order now).1,
        (s.rankGetTop alg ns rankPos order now).2) := by
  unfold rankGetTop
  rw [purgeBoard_beside]
  split
  · rfl
  · dsimp only
    split <;> rfl

theorem rankGetRange_beside (alg : StdAlgorithm RankPair) (startPos : Int32) (count : SizeT)
    (order : RankOrder) : (k.withRanks s).rankGetRange alg ns startPos count order now =
      (k.withRanks (s.rankGetRange alg ns startPos count order now).1,
        (s.rankGetRange alg ns startPos count order now).2) := by
  unfold rankGetRange
  rw [purgeBoard_beside]
  split
  · rfl
  · dsimp only
    split
    · rfl
    · split <;> rfl

theorem rankDelete_beside : (k.withRanks s).rankDelete ns key =
    (k.withRanks (s.rankDelete ns key).1, (s.rankDelete ns key).2) := by
  unfold rankDelete
  rw [withRanks_rankAt]
  split <;> rfl

theorem rankClear_beside : (k.withRanks s).rankClear ns =
    (k.withRanks (s.rankClear ns).1, (s.rankClear ns).2) := by
  unfold rankClear
  rw [withRanks_ranks]
  split <;> rfl

theorem rankInc_beside (hlimits : k.toLimits = s.toLimits) (delta : Cell) (policy : ExpirePolicy)
    (extra : Int32) (now₀ now₁ : TimePoint) :
    (k.withRanks s).rankInc layout ns key delta policy extra now₀ now₁ =
      (k.withRanks (s.rankInc layout ns key delta policy extra now₀ now₁).1,
        (s.rankInc layout ns key delta policy extra now₀ now₁).2) := by
  unfold rankInc
  rw [withRanks_rankAt, rankSet_beside ns key layout now₁ hlimits]
  split
  · dsimp only
    split <;> rfl
  · rcases s.rankSet layout ns key delta policy extra now₁ with ⟨t, _ | _⟩ <;> rfl

end Beside

end MemStoreManager

open MemStoreManager

variable {alg : StdAlgorithm RankPair}

/-- The operations that have to do with leaderboards only. -/
def Op.isRank : Op → Bool
  | .query (.rankGetScore ..) | .query (.rankExists ..) | .query (.rankGetPosition ..)
  | .query (.rankGetTop ..) | .query (.rankGetCount ..) | .query (.rankGetRange ..) => true
  | .write (.rankSet ..) | .write (.rankInc ..) | .rankDelete .. | .rankClear .. => true
  | _ => false

/-- A rank operation works on its half of the manager, whatever stands beside it. -/
theorem exec_beside {k s : MemStoreManager} (hlimits : k.toLimits = s.toLimits) (env : Env)
    {op : Op} (hop : op.isRank = true) :
    exec alg (k.withRanks s) env op = (exec alg s env op).map fun x => (k.withRanks x.1, x.2) := by
  cases op with
  | query q =>
      cases q with
      | rankGetScore | rankExists =>
          simp only [exec, Query.run, rankExists, rankGetScore_beside, Option.map_some]
      | rankGetPosition =>
          simp only [exec, Query.run, rankGetPosition_beside, Option.map_some]
      | rankGetTop => simp only [exec, Query.run, rankGetTop_beside, Option.map_some]
      | rankGetCount =>
          simp only [exec, Query.run, rankGetCount, purgeBoard_beside, Option.map_some]
      | rankGetRange => simp only [exec, Query.run, rankGetRange_beside, Option.map_some]
      | _ => cases hop
  | write w =>
      cases w with
      | rankSet => simp only [exec, Write.run, rankSet_beside _ _ _ _ hlimits, Option.map_some]
      | rankInc =>
          simp only [exec, Write.run, rankInc_beside _ _ _ hlimits, Option.map_some]
      | _ => cases hop
  | rankDelete => simp only [exec, rankDelete_beside, Option.map_some]
  | rankClear => simp only [exec, rankClear_beside, Option.map_some]
  | _ => cases hop

/-! ## The two halves -/

/-- The operations on the manager as a whole, which both halves see. -/
def Op.isWhole : Op → Bool
  | .setLimits .. | .sweepMapEnd | .clearAll | .flushAll => true
  | _ => false

/-- What has to do with key-values. -/
def Op.concernsKeyValues (op : Op) : Bool := op.isKeyValue || op.isWhole

/-- What has to do with leaderboards. -/
def Op.concernsRanks (op : Op) : Bool := op.isRank || op.isWhole

/-- What does not concern key-values works on leaderboards or only counts. -/
theorem Op.isRank_or_stats {op : Op} (h : op.concernsKeyValues = false) :
    op.isRank = true ∨ op = .getMemoryStats := by
  cases op with
  | getMemoryStats => exact .inr rfl
  | rankDelete | rankClear => exact .inl rfl
  | query q => cases q <;> first | exact .inl rfl | cases h
  | write w => cases w <;> first | exact .inl rfl | cases h
  | _ => cases h

theorem Op.isKeyValue_or_stats {op : Op} (h : op.concernsRanks = false) :
    op.isKeyValue = true ∨ op = .getMemoryStats := by
  cases op with
  | getMemoryStats => exact .inr rfl
  | getKeyAt | deleteKey | clearNamespace | setExpire => exact .inl rfl
  | query q => cases q <;> first | exact .inl rfl | cases h
  | write w => cases w <;> first | exact .inl rfl | cases h
  | _ => cases h

theorem Op.concernsKeyValues_of_isRank {op : Op} (h : op.isRank = true) :
    op.concernsKeyValues = false := by
  cases op with
  | rankDelete | rankClear => rfl
  | query q => cases q <;> first | rfl | cases h
  | write w => cases w <;> first | rfl | cases h
  | _ => cases h

section Halves

variable {s t s' : MemStoreManager} {env : Env} {op : Op} {reply : Reply}

/-- What does not concern key-values leaves them alone. -/
theorem sameKeyValues_of_exec (hop : op.concernsKeyValues = false)
    (h : exec alg s env op = some (s', reply)) : SameKeyValues s s' := by
  rcases op.isRank_or_stats hop with hrank | rfl
  · have hbeside : exec alg (s.withRanks s) env op =
        (exec alg s env op).map fun x => (s.withRanks x.1, x.2) := exec_beside rfl env hrank
    rw [withRanks_self, h, Option.map_some] at hbeside
    have hstore : s' = s.withRanks s' := congrArg Prod.fst (Option.some.inj hbeside)
    rw [hstore]
    exact ⟨rfl, rfl, rfl, rfl⟩
  · cases h
    exact .refl s

/-- What does not concern leaderboards leaves them alone. -/
theorem sameRanks_of_exec (hs : WellFormed s) (hop : op.concernsRanks = false)
    (h : exec alg s env op = some (s', reply)) : SameRanks s s' := by
  rcases op.isKeyValue_or_stats hop with hkeyValue | rfl
  · have hlimits : s'.toLimits = s.toLimits := by
      rw [(exec_change hs.maxKeys_pos h).toLimits]
      unfold Op.outcome
      split <;> cases op with
      | write w => cases w <;> rfl
      | setLimits => cases hop
      | _ => rfl
    obtain ⟨hranks, hcounter⟩ := exec_ranks hkeyValue h
    exact ⟨hranks, hcounter, hlimits⟩
  · cases h
    exact .refl s

/-- What concerns key-values goes by the key-values. -/
theorem MemStoreManager.SameKeyValues.exec (hst : SameKeyValues s t)
    (hop : op.concernsKeyValues = true) (h : exec alg s env op = some (s', reply)) :
    ∃ t', MemStore.exec alg t env op = some (t', reply) ∧ SameKeyValues s' t' := by
  rcases Bool.or_eq_true_iff.mp hop with hkeyValue | hwhole
  · refine ⟨s'.withRanks t, ?_, ⟨rfl, rfl, rfl, rfl⟩⟩
    rw [eq_withRanks hst, exec_withRanks s t env hkeyValue, h]
    rfl
  · cases op with
    | setLimits =>
        cases h
        exact ⟨_, rfl, hst.namespaces, hst.keyCaches, hst.used, by rw [hst.limits]⟩
    | sweepMapEnd =>
        cases h
        exact ⟨_, rfl, sameKeyValues_sweepMapEnd hst env.first⟩
    | clearAll | flushAll =>
        cases h
        exact ⟨_, rfl, rfl, rfl, rfl, hst.limits⟩
    | _ => cases hwhole

/-- What concerns leaderboards goes by the leaderboards. -/
theorem MemStoreManager.SameRanks.exec (hst : SameRanks s t) (hop : op.concernsRanks = true)
    (h : exec alg s env op = some (s', reply)) :
    ∃ t', MemStore.exec alg t env op = some (t', reply) ∧ SameRanks s' t' := by
  rcases Bool.or_eq_true_iff.mp hop with hrank | hwhole
  · have hlimits := (sameKeyValues_of_exec (op.concernsKeyValues_of_isRank hrank) h).limits
    have ht : t = t.withRanks s := by
      rw [withRanks, ← hst.ranks, ← hst.counter]
    refine ⟨t.withRanks s', ?_, ⟨rfl, rfl, hst.limits.trans hlimits.symm⟩⟩
    rw [ht, exec_beside hst.limits env hrank, h]
    rfl
  · cases op with
    | setLimits =>
        cases h
        exact ⟨_, rfl, hst.ranks, hst.counter, by rw [hst.limits]⟩
    | sweepMapEnd =>
        cases h
        obtain ⟨used, hsweep⟩ := sweepMapEnd_eq s env.first
        obtain ⟨used', hsweep'⟩ := sweepMapEnd_eq t env.first
        refine ⟨_, rfl, ?_⟩
        rw [hsweep, hsweep']
        exact ⟨by rw [hst.ranks], hst.counter, hst.limits⟩
    | clearAll | flushAll =>
        cases h
        exact ⟨_, rfl, rfl, rfl, hst.limits⟩
    | _ => cases hwhole

end Halves

/-! ## Runs -/

/-- One half of a run, which is a run of its own. -/
theorem run_half {visible : Op → Bool} {Same : MemStoreManager → MemStoreManager → Prop}
    (hrefl : ∀ s, Same s s)
    (hunseen : ∀ {s t s' : MemStoreManager} {env : Env} {op : Op} {reply : Reply}, WellFormed s →
      visible op = false → exec alg s env op = some (s', reply) → Same s t → Same s' t)
    (hseen : ∀ {s t s' : MemStoreManager} {env : Env} {op : Op} {reply : Reply}, Same s t →
      visible op = true → exec alg s env op = some (s', reply) →
        ∃ t', exec alg t env op = some (t', reply) ∧ Same s' t')
    {w w' : World} {steps : List (Call × Reply)} (hw : WellFormed w.store)
    (hrun : Machine.Run (World.call alg) Machine.anyStep w steps w') :
    ∃ u, Machine.Run (World.call alg) Machine.anyStep w
      (steps.filter fun x => visible x.1.op) u ∧ Same w'.store u.store := by
  have hseenCall : ∀ (w u : World) (c : Call) (reply : Reply) (w' : World),
      visible c.op = true → (WellFormed w.store ∧ Same w.store u.store ∧ u.clock ≤ w.clock) →
      w.call alg c = some (w', reply) → ∃ u', u.call alg c = some (u', reply) ∧
        WellFormed w'.store ∧ Same w'.store u'.store ∧ u'.clock ≤ w'.clock := by
    rintro w u c reply w' hvisible ⟨hw, hsame, hle⟩ hcall
    obtain ⟨hclock, hexec, hclock'⟩ := World.call_eq_some_iff.mp hcall
    obtain ⟨t', hexec', hsame'⟩ := hseen hsame hvisible hexec
    exact ⟨⟨t', c.env.third⟩, World.call_eq_some_iff.mpr ⟨hle.trans hclock, hexec', rfl⟩,
      World.wellFormed_call hw hcall, hsame', hclock'.ge⟩
  have hunseenCall : ∀ (w u : World) (c : Call) (reply : Reply) (w' : World),
      visible c.op = false → (WellFormed w.store ∧ Same w.store u.store ∧ u.clock ≤ w.clock) →
      w.call alg c = some (w', reply) →
        WellFormed w'.store ∧ Same w'.store u.store ∧ u.clock ≤ w'.clock := by
    rintro w u c reply w' hvisible ⟨hw, hsame, hle⟩ hcall
    obtain ⟨_, hexec, _⟩ := World.call_eq_some_iff.mp hcall
    exact ⟨World.wellFormed_call hw hcall, hunseen hw hvisible hexec hsame,
      hle.trans (World.clock_le_call hcall)⟩
  obtain ⟨u, hrun', _, hsame, _⟩ := hrun.filter (fun c => visible c.op)
    (fun w u => WellFormed w.store ∧ Same w.store u.store ∧ u.clock ≤ w.clock)
    hseenCall hunseenCall w ⟨hw, hrefl w.store, le_rfl⟩
  exact ⟨u, hrun', hsame⟩

/-- **Key-values and leaderboards do not interfere.**  In every run, leave out the
calls that do not concern key-values, or those that do not concern leaderboards:
what is left are two runs, in which every call has the reply it had in the whole
run.  The store after the whole run has the key-values of the one and the
leaderboards of the other. -/
theorem halves_do_not_interfere {steps : List (Call × Reply)} {w : World} {t : TimePoint}
    (hrun : Machine.Run (World.call alg) Machine.anyStep (World.initial t) steps w) :
    ∃ w₁ w₂, Machine.Run (World.call alg) Machine.anyStep (World.initial t)
        (steps.filter fun x => x.1.op.concernsKeyValues) w₁ ∧
      Machine.Run (World.call alg) Machine.anyStep (World.initial t)
        (steps.filter fun x => x.1.op.concernsRanks) w₂ ∧
      w.store = w₁.store.withRanks w₂.store := by
  obtain ⟨w₁, hrun₁, hkeyValues⟩ := run_half SameKeyValues.refl
    (fun _ hunseen hexec hsame => (sameKeyValues_of_exec hunseen hexec).symm.trans hsame)
    (fun hsame hseen hexec => hsame.exec hseen hexec) wellFormed_initial hrun
  obtain ⟨w₂, hrun₂, hranks⟩ := run_half SameRanks.refl
    (fun hs hunseen hexec hsame => (sameRanks_of_exec hs hunseen hexec).symm.trans hsame)
    (fun hsame hseen hexec => hsame.exec hseen hexec) wellFormed_initial hrun
  refine ⟨w₁, w₂, hrun₁, hrun₂, ?_⟩
  rw [eq_withRanks hkeyValues.symm, withRanks, withRanks, hranks.ranks, hranks.counter]

/-- A number, a rank entry that the map end removes, and another one after it. -/
private def bothHalves : List (Call × Reply) :=
  [(⟨.write (.setInt [1] [2] 5 .persistent 0), .at 0 fun _ => 0⟩, .flag true),
    (⟨.write (.rankSet [1] [2] 7 .mapEnd 0), .at 0 fun _ => 0⟩, .flag true),
    (⟨.sweepMapEnd, .at 1 fun _ => 0⟩, .done),
    (⟨.write (.rankInc [1] [3] 2 .persistent 0), .at 2 fun _ => 0⟩, .cell (some 2))]

/-- Each half on its own: the map end is in both, the other calls in one of them. -/
theorem halves_do_not_interfere_two : ∃ w w₁ w₂ : World,
    Machine.Run (World.call (.insertionSort : StdAlgorithm RankPair)) Machine.anyStep
        (World.initial 0) bothHalves w ∧
      Machine.Run (World.call (.insertionSort : StdAlgorithm RankPair)) Machine.anyStep
        (World.initial 0)
        [(⟨.write (.setInt [1] [2] 5 .persistent 0), .at 0 fun _ => 0⟩, .flag true),
          (⟨.sweepMapEnd, .at 1 fun _ => 0⟩, .done)] w₁ ∧
      Machine.Run (World.call (.insertionSort : StdAlgorithm RankPair)) Machine.anyStep
        (World.initial 0)
        [(⟨.write (.rankSet [1] [2] 7 .mapEnd 0), .at 0 fun _ => 0⟩, .flag true),
          (⟨.sweepMapEnd, .at 1 fun _ => 0⟩, .done),
          (⟨.write (.rankInc [1] [3] 2 .persistent 0), .at 2 fun _ => 0⟩, .cell (some 2))] w₂ ∧
      w.store = w₁.store.withRanks w₂.store := by
  have hrun : ∃ w, Machine.Run (World.call (.insertionSort : StdAlgorithm RankPair))
      Machine.anyStep (World.initial 0) bothHalves w :=
    ⟨⟨_, 2⟩, run_cons trivial le_rfl rfl (run_cons trivial le_rfl rfl
      (run_cons trivial (by decide) rfl (run_cons trivial (by decide) rfl (.nil _))))⟩
  obtain ⟨w, hrun⟩ := hrun
  obtain ⟨w₁, w₂, hrun₁, hrun₂, hstore⟩ := halves_do_not_interfere hrun
  exact ⟨w, w₁, w₂, hrun, hrun₁, hrun₂, hstore⟩

end MemStore
