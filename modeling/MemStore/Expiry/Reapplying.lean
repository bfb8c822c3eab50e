import MemStore.Expiry.Lifecycle
import MemStore.Reading.LiveView

/-!
# Expirations under increments

An increment of a live entry applies its policy arguments to the entry unless
they are `Persistent` and 0.  So it keeps the expiration only if those are the
arguments, or if they ask for the fields that are there already
(`AsksForSame`); any other arguments replace it, although they are documented
for keys that are newly created.

`reapply_eq_self_iff` settles this for the fields, and
`increment_keeps_expiration_iff` for the three increments.
-/

namespace MemStore

open MemStoreManager

/-! ## Policies that change nothing -/

/-- The arguments of an increment leave the fields as they are. -/
def Expiration.AsksForSame (x : Expiration) (policy : ExpirePolicy) (extra : Int32)
    (now : TimePoint) : Prop :=
  match policy with
  | .persistent => extra = 0 ∨ x.policy = .persistent
  | .mapEnd => x.policy = .mapEnd ∧ x.mapCounter = 1
  | .mapCount => x.policy = .mapCount ∧ x.mapCounter.toInt = max extra.toInt 1
  | .ttl => x.policy = .ttl ∧ x.expireTime = now + Lifetime.ttlSeconds extra * 1000000000

namespace Expiration

/-- Applying a policy changes nothing if the fields are what it makes of them. -/
theorem apply_eq_self_iff {x : Expiration} {policy : ExpirePolicy} {extra : Int32}
    {now : TimePoint} (hne : policy ≠ .persistent ∨ extra ≠ 0) :
    x.apply policy extra now = x ↔ x.AsksForSame policy extra now := by
  have hlife := lifetime_apply x policy extra now
  obtain ⟨policy', counter, deadline⟩ := x
  cases policy with
  | persistent =>
      have hextra : extra ≠ 0 := hne.resolve_left fun h => h rfl
      simp only [apply, AsksForSame, hextra, false_or, Expiration.mk.injEq, and_true]
      exact eq_comm
  | mapEnd =>
      simp only [apply, AsksForSame, Expiration.mk.injEq, and_true]
      exact and_congr eq_comm eq_comm
  | mapCount =>
      have hcounter : (if 0 < extra then extra else 1 : Int32).toInt = max extra.toInt 1 := by
        have hone := Int32.toInt_one
        simp only [Int32.lt_iff_toInt_lt, Int32.toInt_zero]
        split <;> omega
      simp only [apply, AsksForSame, Expiration.mk.injEq, and_true]
      rw [← hcounter, Int32.toInt_inj]
      exact and_congr eq_comm eq_comm
  | ttl =>
      -- the deadline is the one the lifetime says
      have hdeadline := Lifetime.until.inj hlife
      simp only [apply, AsksForSame, Expiration.mk.injEq, true_and] at hdeadline ⊢
      rw [hdeadline]
      exact and_congr eq_comm eq_comm

theorem reapply_eq_self_iff {x : Expiration} {policy : ExpirePolicy} {extra : Int32}
    {now : TimePoint} : x.reapply policy extra now = x ↔ x.AsksForSame policy extra now := by
  unfold reapply
  by_cases hne : policy ≠ .persistent ∨ extra ≠ 0
  · rw [if_pos hne]
    exact apply_eq_self_iff hne
  · obtain ⟨rfl, rfl⟩ : policy = .persistent ∧ extra = 0 := by
      rw [not_or, not_not, not_not] at hne
      exact hne
    rw [if_neg hne]
    exact iff_of_true rfl (.inl rfl)

end Expiration

/-! ## Increments of a live entry -/

variable {alg : StdAlgorithm RankPair} {s : MemStoreManager} {ns key : StdString}
  {policy : ExpirePolicy} {extra : Int32} {env : Env}

theorem exec_incInt_of_live {delta : Cell} {e : StoreEntry} (he : s.entryAt ns key = some e)
    (hlive : e.isExpired env.first = false) (htype : e.type = .int) :
    exec alg s env (.write (.incInt ns key delta policy extra)) =
      some (s.modifyEntry ns key fun e =>
          reapplyExpiration { e with cellValue := e.cellValue + delta } policy extra env.second,
        .cell (some (e.cellValue + delta))) := by
  simp [exec, Write.run, incInt, increment, he, hlive, htype]

theorem exec_incFloat_of_live {delta : Float32} {e : StoreEntry} (he : s.entryAt ns key = some e)
    (hlive : e.isExpired env.first = false) (htype : e.type = .float) :
    exec alg s env (.write (.incFloat ns key delta policy extra)) =
      some (s.modifyEntry ns key fun e =>
          reapplyExpiration { e with floatValue := e.floatValue + delta } policy extra env.second,
        .float (some (e.floatValue + delta))) := by
  simp [exec, Write.run, incFloat, increment, he, hlive, htype]

theorem exec_rankInc_of_live {delta : Cell} {e : RankEntry} (he : s.rankAt ns key = some e)
    (hlive : e.isExpired env.first = false) :
    exec alg s env (.write (.rankInc ns key delta policy extra)) =
      some (s.rankTouch ns key fun sequence e =>
          reapplyRankExpiration { e with score := e.score + delta, sequence := sequence } policy
            extra env.second,
        .cell (some (e.score + delta))) := by
  simp [exec, Write.run, rankInc, he, hlive, rankTouch]

/-- An entry stays as it is if its expiration does. -/
theorem reapplyExpiration_of_same {e : StoreEntry} {now : TimePoint}
    (h : e.toExpiration.reapply policy extra now = e.toExpiration) :
    reapplyExpiration e policy extra now = e := by
  unfold Expiration.reapply at h
  unfold reapplyExpiration
  split at h
  · next hargs => rw [if_pos hargs, applyExpiration, h]
  · next hargs => rw [if_neg hargs]

theorem reapplyRankExpiration_of_same {e : RankEntry} {now : TimePoint}
    (h : e.toExpiration.reapply policy extra now = e.toExpiration) :
    reapplyRankExpiration e policy extra now = e := by
  unfold Expiration.reapply at h
  unfold reapplyRankExpiration
  split at h
  · next hargs => rw [if_pos hargs, applyRankExpiration, h]
  · next hargs => rw [if_neg hargs]

/-- `GetTTL` looks at the expiration only. -/
theorem getTTL_congr {s' : MemStoreManager}
    (h : s'.expirationAt (.keyValue ns key) = s.expirationAt (.keyValue ns key))
    (t : TimePoint) : s'.getTTL ns key t = s.getTTL ns key t := by
  unfold getTTL
  simp only [expirationAt] at h
  cases he : s.entryAt ns key with
  | none =>
      rw [he, Option.map_none, Option.map_eq_none_iff] at h
      rw [h]
  | some e =>
      rw [he, Option.map_some, Option.map_eq_some_iff] at h
      obtain ⟨e', he', heq⟩ := h
      rw [he']
      simp only [heq]

/-- An increment of a live key-value entry changes nothing but the value if and
only if it asks for the expiration that is there. -/
theorem modifyEntry_reapply_iff {s' : MemStoreManager} {e : StoreEntry} {now : TimePoint}
    {add : StoreEntry → StoreEntry} (he : s.entryAt ns key = some e)
    (hs' : s.modifyEntry ns key (fun e => reapplyExpiration (add e) policy extra now) = s')
    (hadd : (add e).toExpiration = e.toExpiration) :
    (s' = s.modifyEntry ns key add ∧
        s'.expirationAt (.keyValue ns key) = s.expirationAt (.keyValue ns key) ∧
        ∀ t, s'.getTTL ns key t = s.getTTL ns key t) ↔
      e.toExpiration.AsksForSame policy extra now := by
  have hafter : s'.expirationAt (.keyValue ns key) =
      some (e.toExpiration.reapply policy extra now) := by
    rw [expirationAt, ← hs', entryAt_modifyEntry, if_pos ⟨rfl, rfl⟩, he, Option.map_some,
      Option.map_some, toExpiration_reapplyExpiration, hadd]
  have hbefore : s.expirationAt (.keyValue ns key) = some e.toExpiration :=
    expirationAt_of_entryAt he
  rw [← Expiration.reapply_eq_self_iff]
  constructor
  · rintro ⟨_, hsame, _⟩
    rw [hafter, hbefore] at hsame
    exact Option.some.inj hsame
  · intro hsame
    have hexpiration : s'.expirationAt (.keyValue ns key) = s.expirationAt (.keyValue ns key) := by
      rw [hafter, hbefore, hsame]
    refine ⟨?_, hexpiration, getTTL_congr hexpiration⟩
    have hkept : reapplyExpiration (add e) policy extra now = add e :=
      reapplyExpiration_of_same (by rw [hadd, hsame])
    rw [← hs', modifyEntry, modifyEntry, NestedMap.modifyAt_congr he hkept]

/-- An increment of a live rank entry, likewise. -/
theorem rankTouch_reapply_iff {s' : MemStoreManager} {e : RankEntry} {now : TimePoint}
    {add : UInt64 → RankEntry → RankEntry} (he : s.rankAt ns key = some e)
    (hs' : s.rankTouch ns key (fun sequence e =>
      reapplyRankExpiration (add sequence e) policy extra now) = s')
    (hadd : ∀ sequence, (add sequence e).toExpiration = e.toExpiration) :
    (s' = s.rankTouch ns key add ∧
        s'.expirationAt (.rank ns key) = s.expirationAt (.rank ns key)) ↔
      e.toExpiration.AsksForSame policy extra now := by
  have hafter : s'.expirationAt (.rank ns key) =
      some (e.toExpiration.reapply policy extra now) := by
    rw [expirationAt, ← hs', rankAt_rankTouch, if_pos ⟨rfl, rfl⟩, he, Option.map_some,
      Option.map_some, toExpiration_reapplyRankExpiration, hadd]
  have hbefore : s.expirationAt (.rank ns key) = some e.toExpiration :=
    expirationAt_of_rankAt he
  rw [← Expiration.reapply_eq_self_iff]
  constructor
  · rintro ⟨_, hsame⟩
    rw [hafter, hbefore] at hsame
    exact Option.some.inj hsame
  · intro hsame
    refine ⟨?_, by rw [hafter, hbefore, hsame]⟩
    have hkept : reapplyRankExpiration (add (s.rankSequenceCounter + 1) e) policy extra now =
        add (s.rankSequenceCounter + 1) e :=
      reapplyRankExpiration_of_same (by rw [hadd, hsame])
    have hranks : NestedMap.modifyAt s.ranks ns key (fun e =>
        reapplyRankExpiration (add (s.rankSequenceCounter + 1) e) policy extra now) =
          NestedMap.modifyAt s.ranks ns key (add (s.rankSequenceCounter + 1)) :=
      NestedMap.modifyAt_congr he hkept
    simp only [← hs', rankTouch, modifyRankEntry, hranks]

/-- **Increments replace the expiration of a live entry unless they ask for it.**  On
every state, for a live entry of the matching kind and every delta, `IncInt` and
`IncFloat` change the value only, and `RankInc` the score and the stamp, so that
the entry keeps its expiration and `GetTTL` its answers, if and only if the policy
arguments ask for the expiration the entry has. -/
theorem increment_keeps_expiration_iff {w w' : World} {ns key : StdString} {policy : ExpirePolicy}
    {extra : Int32} {env : Env} {reply : Reply} :
    (∀ (delta : Cell) (e : StoreEntry), w.store.entryAt ns key = some e →
      e.isExpired env.first = false → e.type = .int →
      w.call alg ⟨.write (.incInt ns key delta policy extra), env⟩ = some (w', reply) →
      ((w'.store = w.store.modifyEntry ns key (fun e =>
            { e with cellValue := e.cellValue + delta }) ∧
          w'.store.expirationAt (.keyValue ns key) = w.store.expirationAt (.keyValue ns key) ∧
          ∀ t, w'.store.getTTL ns key t = w.store.getTTL ns key t) ↔
        e.toExpiration.AsksForSame policy extra env.second)) ∧
    (∀ (delta : Float32) (e : StoreEntry), w.store.entryAt ns key = some e →
      e.isExpired env.first = false → e.type = .float →
      w.call alg ⟨.write (.incFloat ns key delta policy extra), env⟩ = some (w', reply) →
      ((w'.store = w.store.modifyEntry ns key (fun e =>
            { e with floatValue := e.floatValue + delta }) ∧
          w'.store.expirationAt (.keyValue ns key) = w.store.expirationAt (.keyValue ns key) ∧
          ∀ t, w'.store.getTTL ns key t = w.store.getTTL ns key t) ↔
        e.toExpiration.AsksForSame policy extra env.second)) ∧
    ∀ (delta : Cell) (e : RankEntry), w.store.rankAt ns key = some e →
      e.isExpired env.first = false →
      w.call alg ⟨.write (.rankInc ns key delta policy extra), env⟩ = some (w', reply) →
      ((w'.store = w.store.rankTouch ns key (fun sequence e =>
            { e with score := e.score + delta, sequence := sequence }) ∧
          w'.store.expirationAt (.rank ns key) = w.store.expirationAt (.rank ns key)) ↔
        e.toExpiration.AsksForSame policy extra env.second) := by
  refine ⟨?_, ?_, ?_⟩
  · intro delta e he hlive htype hcall
    have hexec := (World.call_eq_some_iff.mp hcall).2.1
    rw [exec_incInt_of_live he hlive htype, Option.some.injEq, Prod.mk.injEq] at hexec
    exact modifyEntry_reapply_iff he hexec.1 rfl
  · intro delta e he hlive htype hcall
    have hexec := (World.call_eq_some_iff.mp hcall).2.1
    rw [exec_incFloat_of_live he hlive htype, Option.some.injEq, Prod.mk.injEq] at hexec
    exact modifyEntry_reapply_iff he hexec.1 rfl
  · intro delta e he hlive hcall
    have hexec := (World.call_eq_some_iff.mp hcall).2.1
    rw [exec_rankInc_of_live he hlive, Option.some.injEq, Prod.mk.injEq] at hexec
    exact rankTouch_reapply_iff he hexec.1 fun _ => rfl

/-- A counter that is bumped with the default arguments keeps its day. -/
theorem increment_keeps_expiration_iff_default : ∃ w w' : World,
    RunFromStart (StdAlgorithm.insertionSort (α := RankPair)) Machine.anyStep
      [(⟨.write (.setInt [1] [2] 5 .ttl 86400), .at 0 fun _ => 0⟩, .flag true)] w ∧
    w.call (StdAlgorithm.insertionSort (α := RankPair))
      ⟨.write (.incInt [1] [2] 3 .persistent 0), .at 0 fun _ => 0⟩ =
        some (w', .cell (some 8)) ∧
    w'.store.getTTL [1] [2] 0 = w.store.getTTL [1] [2] 0 := by
  have hrun : ∃ w w' : World,
      RunFromStart (StdAlgorithm.insertionSort (α := RankPair)) Machine.anyStep
        [(⟨.write (.setInt [1] [2] 5 .ttl 86400), .at 0 fun _ => 0⟩, .flag true)] w ∧
      w.call (StdAlgorithm.insertionSort (α := RankPair))
        ⟨.write (.incInt [1] [2] 3 .persistent 0), .at 0 fun _ => 0⟩ =
          some (w', .cell (some 8)) ∧
      ∃ e : StoreEntry, w.store.entryAt [1] [2] = some e ∧ e.isExpired 0 = false ∧
        e.type = .int :=
    ⟨⟨_, 0⟩, ⟨_, 0⟩, ⟨0, run_cons trivial le_rfl rfl (.nil _)⟩,
      World.call_eq_some_iff.mpr ⟨le_rfl, rfl, rfl⟩, _, rfl, rfl, rfl⟩
  obtain ⟨w, w', hrun, hcall, e, he, hlive, htype⟩ := hrun
  have hkept := (increment_keeps_expiration_iff.1 3 e he hlive htype hcall).mpr (.inl rfl)
  exact ⟨w, w', hrun, hcall, hkept.2.2 0⟩

/-- A minute passed along with an increment takes the place of the day the key had. -/
theorem increment_shortens_lifetime : ¬ ∀ (w w' : World) (ns key : StdString) (delta : Cell)
    (e : StoreEntry) (policy : ExpirePolicy) (extra : Int32) (env : Env) (reply : Reply),
      Reachable (StdAlgorithm.insertionSort (α := RankPair)) w →
      w.store.entryAt ns key = some e → e.isExpired env.first = false → e.type = .int →
      w.call (StdAlgorithm.insertionSort (α := RankPair))
        ⟨.write (.incInt ns key delta policy extra), env⟩ = some (w', reply) →
      w'.store.expirationAt (.keyValue ns key) = w.store.expirationAt (.keyValue ns key) ∧
        ∀ t, w'.store.getTTL ns key t = w.store.getTTL ns key t := by
  intro h
  have hrun : ∃ w : World, w.clock ≤ 0 ∧ Reachable (StdAlgorithm.insertionSort (α := RankPair)) w ∧
      (∃ e : StoreEntry, w.store.entryAt [1] [2] = some e ∧ e.isExpired 0 = false ∧ e.type = .int) ∧
      w.store.getTTL [1] [2] 0 = 86400 ∧
      ∃ s' reply, exec (StdAlgorithm.insertionSort (α := RankPair)) w.store (.at 0 fun _ => 0)
        (.write (.incInt [1] [2] 3 .ttl 60)) = some (s', reply) ∧
          s'.getTTL [1] [2] 0 = 60 :=
    ⟨⟨_, 0⟩, le_rfl,
      ⟨[(⟨.write (.setInt [1] [2] 5 .ttl 86400), .at 0 fun _ => 0⟩, .flag true)], 0,
        run_cons trivial le_rfl rfl (.nil _)⟩,
      ⟨_, rfl, rfl, rfl⟩, rfl, _, _, rfl, rfl⟩
  obtain ⟨w, hclock, hreach, ⟨e, he, hlive, htype⟩, hday, s', reply, hexec, hminute⟩ := hrun
  have hsame := (h w ⟨s', 0⟩ [1] [2] 3 e .ttl 60 _ reply hreach he hlive htype
    (World.call_eq_some_iff.mpr ⟨hclock, hexec, rfl⟩)).2 0
  rw [hday, hminute] at hsame
  exact absurd hsame (by decide)

end MemStore
