import MemStore.Expiry.Lifecycle
import MemStore.KeyValue.FailedWrites
import MemStore.Reading.Presence

/-!
# Expired entries that come back

Expiry is lazy, and not every method looks for it.  `SetExpire`, `DeleteKey` and
`RankDelete` take a stored entry for a live one, so what they make of an expired
entry depends on whether an earlier read has erased it; and a setter that the
quota rejects leaves an entry under a key that had none.  These are the calls
that overlook an expiry (`Overlooks`).

`call_absent_iff` shows for one call that they are all there is: any other call
treats a dead slot as an empty one, and leaves it dead unless it writes to it.
`expired_stays_absent` follows a dead slot through a run.
-/

namespace MemStore

open MemStoreManager

/-- The call is a management operation on the slot. -/
def Op.Manages (slot : Slot) : Op → Prop
  | .setExpire ns key _ _ | .deleteKey ns key => slot = .keyValue ns key
  | .rankDelete ns key => slot = .rank ns key
  | _ => False

/-- The call takes what it finds in the slot for live: it manages an entry that
is stored, or leaves one behind although it is rejected. -/
def MemStoreManager.Overlooks (s : MemStoreManager) (op : Op) (slot : Slot) : Prop :=
  op.Manages slot ∧ (s.expirationAt slot).isSome ∨
    ∃ ns key, slot = .keyValue ns key ∧ s.LeavesGhost op ns key

/-- The call writes the slot successfully. -/
def Rewrites (slot : Slot) (w : World) (c : Call) (reply : Reply) : Prop :=
  ∃ policy extra, c.slotAction w.store.toLimits reply slot = .write policy extra ∨
    c.slotAction w.store.toLimits reply slot = .increment policy extra

/-! ## What a call asks of a slot -/

theorem Request.eq_of_atSlot_reexpire {req : Request} {slot : Slot} {policy : ExpirePolicy}
    {extra : Int32} (h : req.atSlot slot = .reexpire policy extra) :
    ∃ ns key, slot = .keyValue ns key ∧ req = .reexpire ns key policy extra := by
  cases slot with
  | keyValue ns key =>
      refine ⟨ns, key, rfl, Request.eq_of_atKey_reexpire ?_⟩
      simp only [Request.atSlot] at h
      generalize req.atKey ns key = a at h
      cases a <;> cases h
      rfl
  | rank ns key =>
      simp only [Request.atSlot] at h
      generalize req.atRankKey ns key = a at h
      cases a <;> cases h

theorem Request.eq_of_atSlot_reject {req : Request} {slot : Slot}
    (h : req.atSlot slot = .reject) :
    ∃ ns key v, slot = .keyValue ns key ∧ req = .reject ns key v := by
  cases slot with
  | keyValue ns key =>
      cases req with
      | reject ns' key' v =>
          simp only [Request.atSlot, Request.atKey] at h
          split at h
          · next heq =>
              obtain ⟨rfl, rfl⟩ := heq
              exact ⟨_, _, v, rfl, rfl⟩
          · cases h
      | write | increment | reexpire | deleteKey | clearNamespace =>
          simp only [Request.atSlot, Request.atKey] at h
          split at h <;> cases h
      | _ => cases h
  | rank ns key =>
      simp only [Request.atSlot] at h
      generalize req.atRankKey ns key = a at h
      cases a <;> cases h

/-! ## One call on a dead slot -/

section Step

variable {alg : StdAlgorithm RankPair} {w w' : World} {c : Call} {reply : Reply} {slot : Slot}

/-- A management operation succeeds if and only if it finds an entry. -/
theorem manages_reply {s s' : MemStoreManager} {env : Env} {op : Op}
    (h : exec alg s env op = some (s', reply)) (hmanages : op.Manages slot) :
    reply = .flag (s.expirationAt slot).isSome := by
  cases op with
  | setExpire ns key policy extra =>
      obtain rfl : slot = .keyValue ns key := hmanages
      cases h
      rw [expirationAt, setExpire, Option.isSome_map]
      split <;> next hentry => rw [hentry]; rfl
  | deleteKey ns key =>
      obtain rfl : slot = .keyValue ns key := hmanages
      cases h
      rw [expirationAt, deleteKey, Option.isSome_map]
      split <;> next hentry => rw [hentry]; rfl
  | rankDelete ns key =>
      obtain rfl : slot = .rank ns key := hmanages
      cases h
      rw [expirationAt, rankDelete, Option.isSome_map]
      split <;> next hentry => rw [hentry]; rfl
  | _ => exact hmanages.elim

/-- A rejected write that leaves an entry behind fills the slot with a live one. -/
theorem not_dead_of_ghost {ns key : StdString} (hw : WellFormed w.store)
    (hcall : w.call alg c = some (w', reply)) (hghost : w.store.LeavesGhost c.op ns key)
    (hwrite : ¬ Rewrites (.keyValue ns key) w c reply) :
    ¬ Dead (w'.store.expirationAt (.keyValue ns key)) w'.clock := by
  obtain ⟨_, _, hchange⟩ := World.call_change hw hcall
  obtain ⟨v, policy, extra, hrequest, hpayload, hnone, _⟩ := id hghost
  have hreject : c.op.outcome w.store.toLimits reply = .reject ns key v := by
    unfold Op.outcome
    split
    · next hsucceeded =>
        -- had it succeeded, it would have been a write
        exfalso
        apply hwrite
        refine ⟨policy, extra, .inl ?_⟩
        rw [Call.slotAction, Op.outcome, if_pos hsucceeded, hrequest]
        simp only [Request.atSlot, Request.atKey, and_self, if_true]
        rfl
    · exact refusal_of_request hrequest hpayload
  rw [hreject] at hchange
  rcases hchange.of_reject hrequest hpayload with ⟨_, hno⟩ | ⟨htouch, _⟩
  · exact absurd hghost hno
  · intro hdead
    have hstored : w'.store.expirationAt (.keyValue ns key) = some {} := by
      rw [htouch, expirationAt, entryAt_touch, if_pos ⟨rfl, rfl⟩, hnone]
      rfl
    have hexp := hdead {} hstored
    cases hexp

/-- A call that neither writes a dead slot nor overlooks its expiry leaves it dead. -/
theorem dead_of_not_overlooks (hw : WellFormed w.store)
    (hcall : w.call alg c = some (w', reply))
    (hdead : Dead (w.store.expirationAt slot) c.env.first)
    (hwrite : ¬ Rewrites slot w c reply) (hoverlooks : ¬ w.store.Overlooks c.op slot) :
    Dead (w'.store.expirationAt slot) w'.clock := by
  obtain ⟨_, hclock, hchange⟩ := World.call_change hw hcall
  rw [hclock]
  apply (hchange.slotStep slot).dead (hw.sound slot) hdead
  · intro policy extra
    exact ⟨fun h => hwrite ⟨policy, extra, .inl h⟩, fun h => hwrite ⟨policy, extra, .inr h⟩⟩
  · intro policy extra h
    obtain ⟨ns, key, rfl, hreq⟩ := Request.eq_of_atSlot_reexpire h
    have hop := outcome_eq_reexpire hreq
    by_contra hstored
    apply hoverlooks
    refine .inl ⟨?_, Option.isSome_iff_ne_none.mpr hstored⟩
    rw [hop]
    rfl
  · intro h
    obtain ⟨ns, key, v, rfl, hreq⟩ := Request.eq_of_atSlot_reject h
    obtain ⟨hpayload, policy, extra, hrequest⟩ := outcome_eq_reject hreq
    rw [hreq] at hchange
    rcases hchange.of_reject hrequest hpayload with ⟨hsame, _⟩ | ⟨_, hghost⟩
    · rw [hsame]
    · exact absurd (.inr ⟨ns, key, rfl, hghost⟩) hoverlooks

/-- On a dead slot that it does not write, a call behaves as on an empty slot if
and only if it does not overlook the expiry. -/
theorem call_absent_iff (hw : WellFormed w.store) (hcall : w.call alg c = some (w', reply))
    (hdead : Dead (w.store.expirationAt slot) c.env.first)
    (hwrite : ¬ Rewrites slot w c reply) :
    ((c.op.Manages slot → reply = .flag false) ∧
      Dead (w'.store.expirationAt slot) w'.clock) ↔ ¬ w.store.Overlooks c.op slot := by
  obtain ⟨_, hexec, _⟩ := World.call_eq_some_iff.mp hcall
  constructor
  · rintro ⟨hfalse, hdead'⟩ (⟨hmanages, hstored⟩ | ⟨ns, key, rfl, hghost⟩)
    · have hreply := manages_reply hexec hmanages
      rw [hstored, hfalse hmanages] at hreply
      cases hreply
    · exact not_dead_of_ghost hw hcall hghost hwrite hdead'
  · intro hoverlooks
    refine ⟨fun hmanages => ?_, dead_of_not_overlooks hw hcall hdead hwrite hoverlooks⟩
    rw [manages_reply hexec hmanages]
    cases hstored : (w.store.expirationAt slot).isSome with
    | false => rfl
    | true => exact absurd (.inl ⟨hmanages, hstored⟩) hoverlooks

end Step

/-! ## Runs -/

/-- The call neither writes the slot nor overlooks that it is dead. -/
def LeavesDead (slot : Slot) (w : World) (c : Call) (reply : Reply) : Prop :=
  ¬ Rewrites slot w c reply ∧ ¬ w.store.Overlooks c.op slot

variable {alg : StdAlgorithm RankPair}

/-- **Expired entries stay absent** in every continuation of a run in which no
call overlooks the expiry, until a successful write: no reply shows the entry.
The next call, unless it writes, treats the slot as empty and leaves it dead if
and only if it does not overlook the expiry either. -/
theorem expired_stays_absent {w w' w'' : World} {t : TimePoint} {slot : Slot} {x : Expiration}
    {steps : List (Call × Reply)} {c : Call} {reply : Reply} (hreach : Reachable alg w)
    (hstored : w.store.expirationAt slot = some x) (hexp : x.isExpired t = true)
    (hrun : Machine.Run (World.call alg) (LeavesDead slot) ⟨w.store, t⟩ steps w')
    (hcall : w'.call alg c = some (w'', reply)) :
    ¬ c.op.Shows w'.store c.env.first slot reply ∧
    (¬ Rewrites slot w' c reply →
      ((c.op.Manages slot → reply = .flag false) ∧
        Dead (w''.store.expirationAt slot) w''.clock ↔ ¬ w'.store.Overlooks c.op slot)) := by
  have hstep : ∀ (w : World) (c : Call) (reply : Reply) (w' : World), LeavesDead slot w c reply →
      (WellFormed w.store ∧ Dead (w.store.expirationAt slot) w.clock) →
      w.call alg c = some (w', reply) →
      WellFormed w'.store ∧ Dead (w'.store.expirationAt slot) w'.clock := by
    rintro w c reply w' ⟨hwrite, hoverlooks⟩ ⟨hw, hdead⟩ hcall
    have hclock := (World.call_eq_some_iff.mp hcall).1
    exact ⟨World.wellFormed_call hw hcall,
      dead_of_not_overlooks hw hcall (hdead.later hclock) hwrite hoverlooks⟩
  have hstart : Dead (w.store.expirationAt slot) t := by
    rw [hstored]
    exact dead_some_iff.mpr hexp
  obtain ⟨hw', hdead'⟩ := hrun.invariant
    (fun w => WellFormed w.store ∧ Dead (w.store.expirationAt slot) w.clock) hstep
    ⟨wellFormed_of_reachable hreach, hstart⟩
  obtain ⟨hclock, hexec, _⟩ := World.call_eq_some_iff.mp hcall
  exact ⟨not_shows_of_dead hexec (hdead'.later hclock),
    call_absent_iff hw' hcall (hdead'.later hclock)⟩

/-- Once a read has erased the expired entry, `SetExpire` no longer finds it. -/
theorem expired_stays_absent_erased : ∃ w w' w'' : World,
    RunFromStart (StdAlgorithm.insertionSort (α := RankPair)) Machine.anyStep
      [(⟨.write (.setInt [1] [2] 7 .ttl 1), .at 0 fun _ => 0⟩, .flag true)] w ∧
    Machine.Run (World.call (StdAlgorithm.insertionSort (α := RankPair)))
      (LeavesDead (.keyValue [1] [2])) ⟨w.store, 2000000000⟩
      [(⟨.query (.keyExists [1] [2]), .at 2000000000 fun _ => 0⟩, .flag false)] w' ∧
    w'.call (StdAlgorithm.insertionSort (α := RankPair))
      ⟨.setExpire [1] [2] .persistent 0, .at 2000000000 fun _ => 0⟩ = some (w'', .flag false) ∧
    Dead (w''.store.expirationAt (.keyValue [1] [2])) w''.clock := by
  let alg : StdAlgorithm RankPair := .insertionSort
  let later : Env := .at 2000000000 fun _ => 0
  let slot : Slot := .keyValue [1] [2]
  have hruns : ∃ w w' w'' : World,
      RunFromStart alg Machine.anyStep
        [(⟨.write (.setInt [1] [2] 7 .ttl 1), .at 0 fun _ => 0⟩, .flag true)] w ∧
      (∃ x, w.store.expirationAt slot = some x ∧ x.isExpired 2000000000 = true) ∧
      Machine.Run (World.call alg) (LeavesDead slot) ⟨w.store, 2000000000⟩
        [(⟨.query (.keyExists [1] [2]), later⟩, .flag false)] w' ∧
      w'.call alg ⟨.setExpire [1] [2] .persistent 0, later⟩ = some (w'', .flag false) ∧
      w'.store.expirationAt slot = none := by
    refine ⟨⟨_, 0⟩, ⟨_, 2000000000⟩, ⟨_, 2000000000⟩,
      ⟨0, run_cons trivial le_rfl rfl (.nil _)⟩, ⟨_, rfl, rfl⟩,
      run_cons ⟨?_, ?_⟩ le_rfl rfl (.nil _), World.call_eq_some_iff.mpr ⟨le_rfl, rfl, rfl⟩, rfl⟩
    · rintro ⟨policy, extra, h | h⟩
      · cases h
      · cases h
    · rintro (⟨h, _⟩ | ⟨ns, key, _, v, policy, extra, h, _⟩)
      · exact h
      · cases h
  obtain ⟨w, w', w'', hset, ⟨x, hstored, hexp⟩, hrun, hcall, hnone⟩ := hruns
  refine ⟨w, w', w'', hset, hrun, hcall,
    (((expired_stays_absent ⟨_, hset⟩ hstored hexp hrun hcall).2 ?_).mpr ?_).2⟩
  · rintro ⟨policy, extra, h | h⟩
    · cases h
    · cases h
  · rintro (⟨_, h⟩ | ⟨ns, key, _, v, policy, extra, h, _⟩)
    · rw [hnone] at h
      cases h
    · cases h

/-- `SetExpire` brings an expired entry back: it succeeds, and the key is found
again. -/
theorem expired_comes_back : ∃ (w w' w'' : World) (x : Expiration),
    Reachable (StdAlgorithm.insertionSort (α := RankPair)) w ∧
    w.store.expirationAt (.keyValue [1] [2]) = some x ∧ x.isExpired 2000000000 = true ∧
    w.call (StdAlgorithm.insertionSort (α := RankPair))
      ⟨.setExpire [1] [2] .persistent 0, .at 2000000000 fun _ => 0⟩ = some (w', .flag true) ∧
    w'.call (StdAlgorithm.insertionSort (α := RankPair))
      ⟨.query (.keyExists [1] [2]), .at 2000000000 fun _ => 0⟩ = some (w'', .flag true) :=
  ⟨⟨_, 0⟩, ⟨_, 2000000000⟩, ⟨_, 2000000000⟩, _,
    ⟨[(⟨.write (.setInt [1] [2] 7 .ttl 1), .at 0 fun _ => 0⟩, .flag true)], 0,
      run_cons trivial le_rfl rfl (.nil _)⟩, rfl, rfl,
    World.call_eq_some_iff.mpr ⟨by decide, rfl, rfl⟩,
    World.call_eq_some_iff.mpr ⟨le_rfl, rfl, rfl⟩⟩

end MemStore
