import MemStore.Memory.Quota

/-!
# Leaked payload

Six of the reads, and `GetKeyAt` through two of them, erase expired entries
without releasing their payload.  `leakedBytes` is the payload a call drops so.
It is exactly what the counter gains on the stored payload in that call
(`exec_ledger`), so the accounting is exact along every run in which nothing is
leaked (`accounting_exact`).
-/

namespace MemStore

open MemStoreManager

/-- The payload under a key, if its entry has expired. -/
def MemStoreManager.expiredBytesAt (s : MemStoreManager) (now : TimePoint) (ns key : StdString) :
    ℕ :=
  match s.entryAt ns key with
  | some e => if e.isExpired now then entryBytes e else 0
  | none => 0

/-- The payload `GetKeyAt` erases without releasing it.  A cache that is not
valid is rebuilt first, which purges the namespace; if the key in the slot is
then found dead, everything that has expired by the end of the call is erased. -/
def MemStoreManager.leakedByGetKeyAt (s : MemStoreManager) (ns : StdString) (index : ℕ)
    (env : Env) : ℕ :=
  let keys := (s.validCache ns).getD (s.liveKeys ns env.first)
  let purged := if (s.validCache ns).isSome then 0 else s.expiredBytes env.first ns
  match keys[index]? with
  | none => purged
  | some key =>
      if (s.liveAt env.second ns key).isSome then purged else s.expiredBytes env.third ns

/-- The payload a call erases without releasing it. -/
def MemStoreManager.leakedBytes (s : MemStoreManager) (env : Env) : Op → ℕ
  | .query q =>
      match q.erases with
      | .entry false ns key => s.expiredBytesAt env.first ns key
      | .fromNamespace _ ns => s.expiredBytes env.first ns
      | _ => 0
  | .getKeyAt ns index => s.leakedByGetKeyAt ns index env
  | _ => 0

/-! ## Single erasures -/

theorem usedBytes_eq_of_sameKeyValues {s s' : MemStoreManager} (h : SameKeyValues s s') :
    s'.usedBytes = s.usedBytes ∧ s'.payloadBytes = s.payloadBytes := by
  rw [usedBytes, h.used, payloadBytes, h.namespaces]
  exact ⟨rfl, rfl⟩

theorem ledger_findLive_true {s : MemStoreManager} (hcovers : Covers s) (ns key : StdString)
    (now : TimePoint) :
    (s.findLive true ns key now).1.usedBytes + s.payloadBytes =
      s.usedBytes + (s.findLive true ns key now).1.payloadBytes := by
  cases hentry : s.entryAt ns key with
  | none => rw [findLive_of_none hentry]
  | some e =>
      cases hexp : e.isExpired now with
      | false => rw [findLive_of_live hentry hexp]
      | true =>
          rw [findLive_of_expired hentry hexp]
          have hdeleted : Change (Env.at now fun _ => 0) s _ _ := .deleted ns key hentry
          exact hdeleted.ledger hcovers (by simp) (by simp) (by simp)

theorem ledger_findLive_false (s : MemStoreManager) (ns key : StdString) (now : TimePoint) :
    (s.findLive false ns key now).1.usedBytes = s.usedBytes ∧
      (s.findLive false ns key now).1.payloadBytes + s.expiredBytesAt now ns key =
        s.payloadBytes := by
  unfold expiredBytesAt
  cases hentry : s.entryAt ns key with
  | none =>
      rw [findLive_of_none hentry]
      exact ⟨rfl, rfl⟩
  | some e =>
      cases hexp : e.isExpired now with
      | false =>
          rw [findLive_of_live hentry hexp]
          simp [hexp]
      | true =>
          rw [findLive_of_expired hentry hexp]
          refine ⟨congrArg UInt32.toNat (eraseEntry_approxMemoryUsed s ns key), ?_⟩
          simpa [hexp] using payloadBytes_eraseEntry hentry

theorem ledger_purgeNamespace (invalidates : Bool) (s : MemStoreManager) (ns : StdString)
    (now : TimePoint) :
    (s.purgeNamespace invalidates ns now).1.usedBytes = s.usedBytes ∧
      (s.purgeNamespace invalidates ns now).1.payloadBytes + s.expiredBytes now ns =
        s.payloadBytes :=
  ⟨congrArg UInt32.toNat (purgeNamespace_approxMemoryUsed invalidates s ns now),
    payloadBytes_purgeNamespace invalidates s ns now⟩

theorem ledger_query (alg : StdAlgorithm RankPair) {s : MemStoreManager} (hcovers : Covers s)
    (q : Query) (env : Env) :
    (q.run alg s env.first).1.usedBytes + s.payloadBytes =
      s.usedBytes + (q.run alg s env.first).1.payloadBytes +
        s.leakedBytes env (.query q) := by
  rw [leakedBytes]
  rcases query_state alg s q env.first with h | ⟨hnothing, h⟩
  · rw [h]
    cases q.erases with
    | nothing => rfl
    | entry releases ns key =>
        cases releases with
        | true => exact ledger_findLive_true hcovers ns key env.first
        | false =>
            have h := ledger_findLive_false s ns key env.first
            simp only [Erases.run]
            omega
    | fromNamespace invalidates ns =>
        have h := ledger_purgeNamespace invalidates s ns env.first
        simp only [Erases.run]
        omega
  · have hsame : SameKeyValues s (q.run alg s env.first).1 := by
      rcases h with ⟨ns, h⟩ | ⟨ns, key, e, _, _, h⟩
      · rw [h]
        exact sameKeyValues_purgeBoard s ns env.first
      · rw [h]
        exact sameKeyValues_eraseRankEntry s ns key
    obtain ⟨hused, hpayload⟩ := usedBytes_eq_of_sameKeyValues hsame
    rw [hnothing, hused, hpayload]
    rfl

/-! ## `GetKeyAt` -/

/-- Of what has expired later, a purge takes what has expired already. -/
theorem expiredBytes_purgeNamespace (invalidates : Bool) (s : MemStoreManager) (ns : StdString)
    {now later : TimePoint} (hle : now ≤ later) :
    (s.purgeNamespace invalidates ns now).1.expiredBytes later ns + s.expiredBytes now ns =
      s.expiredBytes later ns := by
  have hinner : NestedMap.inner (s.purgeNamespace invalidates ns now).1.namespaces ns =
      (NestedMap.inner s.namespaces ns).eraseIf fun e => e.isExpired now := by
    rw [purgeNamespace_namespaces, NestedMap.inner_retainAt, if_pos rfl]
    rfl
  have hweigh := UnorderedMap.weigh_eraseIf
    (fun _ e => if e.isExpired later then entryBytes e else 0)
    (NestedMap.inner s.namespaces ns) fun e => e.isExpired now
  rw [expiredBytes, hinner, expiredBytes, expiredBytes, ← hweigh]
  congr 2
  funext _ e
  cases hexp : e.isExpired now with
  | false => rfl
  | true => simp [Expiration.isExpired_of_later hle hexp]

/-- Of what has expired later, a getter takes the dead entry it was asked for. -/
theorem expiredBytes_findLive (s : MemStoreManager) (ns key : StdString)
    {now later : TimePoint} (hle : now ≤ later) :
    (s.findLive false ns key now).1.expiredBytes later ns + s.expiredBytesAt now ns key =
      s.expiredBytes later ns := by
  unfold expiredBytesAt
  cases hentry : s.entryAt ns key with
  | none =>
      rw [findLive_of_none hentry]
      rfl
  | some e =>
      cases hexp : e.isExpired now with
      | false =>
          rw [findLive_of_live hentry hexp]
          simp [hexp]
      | true =>
          have hinner : NestedMap.inner (s.eraseEntry ns key).namespaces ns =
              (NestedMap.inner s.namespaces ns).erase key := by
            rw [eraseEntry_namespaces, NestedMap.inner_retainAt, if_pos rfl]
            rfl
          have hweigh := UnorderedMap.weigh_erase
            (w := fun _ e => if e.isExpired later then entryBytes e else 0) hentry
          rw [findLive_of_expired hentry hexp, if_neg Bool.false_ne_true, expiredBytes, hinner,
            expiredBytes, ← hweigh]
          simp [hexp, Expiration.isExpired_of_later hle hexp]

theorem ledger_rebuildKeyCache {s s' : MemStoreManager} {ns : StdString} {now : TimePoint}
    (h : s.rebuildKeyCache ns now = some s') :
    s'.usedBytes = s.usedBytes ∧ s'.payloadBytes + s.expiredBytes now ns = s.payloadBytes := by
  obtain ⟨_, rfl⟩ := rebuildKeyCache_eq_some h
  exact ledger_purgeNamespace false s ns now

theorem ledger_slotRead {s s' : MemStoreManager} {ns : StdString} {index : ℕ}
    {now₁ now₂ : TimePoint} {keys : List StdString} {r : Option StdString} (hle : now₁ ≤ now₂)
    (h : SlotRead s ns index now₁ now₂ keys s' r) :
    s'.usedBytes = s.usedBytes ∧ s'.payloadBytes +
      (match keys[index]? with
        | none => 0
        | some key =>
            if (s.liveAt now₁ ns key).isSome then 0 else s.expiredBytes now₂ ns) =
      s.payloadBytes := by
  cases h with
  | outside hslot => simp [hslot]
  | live hslot hlive => simp [hslot, hlive]
  | @stale key _ hslot hdead hrebuild =>
      have hfind := ledger_findLive_false s ns key now₁
      have hpurge := ledger_rebuildKeyCache hrebuild
      have hexpired := expiredBytes_findLive s ns key hle
      simp only [hslot, hdead, Option.isSome_none, Bool.false_eq_true, if_false]
      omega

theorem ledger_getKeyAt {s s' : MemStoreManager} {ns : StdString} {index : ℕ} {env : Env}
    {r : Option StdString}
    (h : s.getKeyAt env.layout ns index env.first env.second env.third = some (s', r)) :
    s'.usedBytes + s.payloadBytes =
      s.usedBytes + s'.payloadBytes + s.leakedByGetKeyAt ns index env := by
  unfold leakedByGetKeyAt
  rcases getKeyAt_cases h with ⟨hnone, rfl, _⟩ | ⟨keys, hcache, hread⟩ |
    ⟨hcache, s₁, hrebuild, hread⟩
  · -- nothing is stored under `ns`
    have hzero : ∀ now, s'.expiredBytes now ns = 0 := by
      intro now
      rw [expiredBytes, NestedMap.inner_of_find?_none hnone]
      rfl
    simp only [hzero, ite_self]
    split <;> rfl
  · have hslot := ledger_slotRead env.second_le hread
    -- with a valid cache, only a dead slot purges
    simp only [hcache, Option.getD_some, Option.isSome_some, if_true]
    omega
  · obtain ⟨hused, hpayload⟩ := ledger_rebuildKeyCache hrebuild
    have hslot := ledger_slotRead env.second_le hread
    -- the rebuilt cache has purged what had expired at the first reading, which a dead
    -- slot does not erase again
    have hexpired : s₁.expiredBytes env.third ns + s.expiredBytes env.first ns =
        s.expiredBytes env.third ns := by
      obtain ⟨_, rfl⟩ := rebuildKeyCache_eq_some hrebuild
      exact expiredBytes_purgeNamespace false
        { s with keyCaches := s.keyCaches.upsert env.layout ns {} fun cache => cache } ns
        env.first_le_third
    have hlive : ∀ key, s₁.liveAt env.second ns key = s.liveAt env.second ns key := by
      obtain ⟨_, rfl⟩ := rebuildKeyCache_eq_some hrebuild
      exact liveAt_purgeNamespace false
        { s with keyCaches := s.keyCaches.upsert env.layout ns {} fun cache => cache } ns
        env.first_le ns
    change s₁.usedBytes = s.usedBytes at hused
    change s₁.payloadBytes + s.expiredBytes env.first ns = s.payloadBytes at hpayload
    simp only [hcache, Option.getD_none, Option.isSome_none, Bool.false_eq_true, if_false]
    simp only [hlive] at hslot
    cases hkey : (s.liveKeys ns env.first)[index]? with
    | none =>
        simp only [hkey] at hslot ⊢
        omega
    | some key =>
        simp only [hkey] at hslot ⊢
        split
        · next hsome =>
            rw [if_pos hsome] at hslot
            omega
        · next hnone =>
            rw [if_neg hnone] at hslot
            omega

/-! ## All calls -/

/-- What the counter gains on the payload in a call is what the call leaks. -/
theorem exec_ledger {alg : StdAlgorithm RankPair} {s s' : MemStoreManager} {env : Env} {op : Op}
    {reply : Reply} (hs : Quota s) (h : exec alg s env op = some (s', reply))
    (hclear : op.outcome s.toLimits reply ≠ .clearAll) :
    s'.usedBytes + s.payloadBytes = s.usedBytes + s'.payloadBytes + s.leakedBytes env op := by
  have hother : op.outcome s.toLimits reply ≠ .read → s.leakedBytes env op = 0 →
      s'.usedBytes + s.payloadBytes = s.usedBytes + s'.payloadBytes + s.leakedBytes env op := by
    intro hread hzero
    rw [hzero]
    exact (exec_change hs.wellFormed.maxKeys_pos h).ledger hs.covers hread hclear
      fun ns key v policy extra hrequest =>
        Nat.lt_add_right _ (hs.add_lt (footprint_le_of_request (outcome_eq_write hrequest))).2
  cases op with
  | query q =>
      have hrun : (q.run alg s env.first).1 = s' := by rw [Option.some.inj h]
      rw [← hrun]
      exact ledger_query alg hs.covers q env
  | getKeyAt ns index =>
      obtain ⟨_, hkey, hr⟩ := Option.map_eq_some_iff.mp h
      cases hr
      exact ledger_getKeyAt hkey
  | write w =>
      refine hother ?_ rfl
      unfold Op.outcome
      split <;> cases w <;> simp [Op.request, Op.refusal]
  | _ =>
      refine hother ?_ rfl
      unfold Op.outcome
      split <;> simp [Op.request, Op.refusal]

/-! ## Runs -/

variable {alg : StdAlgorithm RankPair}

/-- A call of `SetLimits` leaves the limits as they are. -/
def LeavesLimits (w : World) (c : Call) (_ : Reply) : Prop :=
  ∀ maxKeysPerNs maxArraySize maxStringLen maxNamespaces maxMemoryMb,
    c.op = .setLimits maxKeysPerNs maxArraySize maxStringLen maxNamespaces maxMemoryMb →
      w.store.toLimits.setLimits maxKeysPerNs maxArraySize maxStringLen maxNamespaces
        maxMemoryMb = w.store.toLimits

/-- A call that leaves the limits alone and leaks nothing. -/
def LeaksNothing (w : World) (c : Call) (reply : Reply) : Prop :=
  LeavesLimits w c reply ∧ w.store.leakedBytes c.env c.op = 0

theorem LeavesLimits.keepsQuota {w : World} {c : Call} {reply : Reply}
    (h : LeavesLimits w c reply) (hs : Quota w.store) : KeepsQuota w c reply := by
  intro a b d e f hop
  rw [h a b d e f hop]
  exact ⟨hs.fits, UInt32.le_refl _⟩

/-- After exact accounting, a call leaves exact accounting if and only if it leaks nothing. -/
theorem exact_call_iff {w w' : World} {c : Call} {reply : Reply} (hs : Quota w.store)
    (hexact : w.store.usedBytes = w.store.payloadBytes)
    (hcall : w.call alg c = some (w', reply)) :
    w'.store.usedBytes = w'.store.payloadBytes ↔ w.store.leakedBytes c.env c.op = 0 := by
  obtain ⟨_, hexec, _⟩ := World.call_eq_some_iff.mp hcall
  by_cases hclear : c.op.outcome w.store.toLimits reply = .clearAll
  · have hchange := exec_change hs.wellFormed.maxKeys_pos hexec
    rw [hclear] at hchange
    have hempty : w'.store.usedBytes = w'.store.payloadBytes := by
      generalize w'.store = s' at hchange
      cases hchange
      rfl
    have hzero : w.store.leakedBytes c.env c.op = 0 := by
      rcases outcome_eq_clearAll hclear with hop | hop
      · rw [hop]
        rfl
      · rw [hop]
        rfl
    exact iff_of_true hempty hzero
  · have hledger := exec_ledger hs hexec hclear
    omega

/-- The accounting is exact in every state reached by calls that leak nothing, and
the next call keeps it exact if and only if it leaks nothing either. -/
theorem accounting_exact {steps : List (Call × Reply)} {w : World}
    (h : RunFromStart alg LeaksNothing steps w) :
    w.store.approxMemoryUsed.toNat = w.store.payloadBytes ∧
      ∀ c reply w', w.call alg c = some (w', reply) →
        (w'.store.approxMemoryUsed.toNat = w'.store.payloadBytes ↔
          w.store.leakedBytes c.env c.op = 0) := by
  obtain ⟨t, hrun⟩ := h
  have hinv : Quota w.store ∧ w.store.usedBytes = w.store.payloadBytes := by
    refine hrun.invariant (fun w => Quota w.store ∧ w.store.usedBytes = w.store.payloadBytes) ?_
      ⟨quota_initial, rfl⟩
    intro w c reply w' hguard hs hcall
    exact ⟨hs.1.call (hguard.1.keepsQuota hs.1) hcall,
      (exact_call_iff hs.1 hs.2 hcall).mpr hguard.2⟩
  exact ⟨hinv.2, fun c reply w' hcall => exact_call_iff hinv.1 hinv.2 hcall⟩

/-- A text that is asked for while it lives, and replaced after it has expired. -/
private def textReplaced : List (Call × Reply) :=
  [(⟨.write (.setString [1] [2] [65, 66] .ttl 1), .at 0 fun _ => 0⟩, .flag true),
    (⟨.query (.keyExists [1] [2]), .at 500000000 fun _ => 0⟩, .flag true),
    (⟨.write (.setString [1] [2] [67] .ttl 1), .at 2000000000 fun _ => 0⟩, .flag true)]

/-- One byte is left on the account, and asking for it once it has expired leaks it. -/
theorem accounting_exact_string : ∃ w : World,
    RunFromStart (StdAlgorithm.insertionSort (α := RankPair)) LeaksNothing textReplaced w ∧
    w.store.approxMemoryUsed = 1 ∧ w.store.approxMemoryUsed.toNat = w.store.payloadBytes ∧
    ∀ reply w', w.call (StdAlgorithm.insertionSort (α := RankPair))
        ⟨.query (.keyExists [1] [2]), .at 4000000000 fun _ => 0⟩ = some (w', reply) →
      w'.store.approxMemoryUsed.toNat ≠ w'.store.payloadBytes := by
  have hrun : ∃ w, w.store.approxMemoryUsed = 1 ∧
      w.store.leakedBytes (.at 4000000000 fun _ => 0) (.query (.keyExists [1] [2])) = 1 ∧
      RunFromStart (StdAlgorithm.insertionSort (α := RankPair)) LeaksNothing textReplaced w :=
    ⟨_, rfl, rfl, 0, run_cons ⟨(fun _ _ _ _ _ h => by cases h), rfl⟩ le_rfl rfl
      (run_cons ⟨(fun _ _ _ _ _ h => by cases h), rfl⟩ (by decide) rfl
        (run_cons ⟨(fun _ _ _ _ _ h => by cases h), rfl⟩ (by decide) rfl (.nil _)))⟩
  obtain ⟨w, hused, hleaked, hrun⟩ := hrun
  obtain ⟨hexact, hnext⟩ := accounting_exact hrun
  refine ⟨w, hrun, hused, hexact, fun reply w' hcall hexact' => ?_⟩
  have hzero := (hnext _ reply w' hcall).mp hexact'
  rw [hleaked] at hzero
  cases hzero

/-- One byte that expires and is then asked for stays on the account of the empty store. -/
theorem accounting_not_exact : ¬ ∀ steps w,
    RunFromStart (StdAlgorithm.insertionSort (α := RankPair)) LeavesLimits steps w →
      w.store.approxMemoryUsed.toNat = w.store.payloadBytes := by
  intro hexact
  have hrun : ∃ w, w.store.approxMemoryUsed = 1 ∧ w.store.payloadBytes = 0 ∧
      RunFromStart (StdAlgorithm.insertionSort (α := RankPair)) LeavesLimits
        [(⟨.write (.setString [1] [2] [65] .ttl 1), .at 0 fun _ => 0⟩, .flag true),
          (⟨.query (.keyExists [1] [2]), .at 2000000000 fun _ => 0⟩, .flag false)] w :=
    ⟨_, rfl, rfl, 0, run_cons (fun _ _ _ _ _ h => by cases h) le_rfl rfl
      (run_cons (fun _ _ _ _ _ h => by cases h) (by decide) rfl (.nil _))⟩
  obtain ⟨w, hused, hpayload, hrun⟩ := hrun
  have h := hexact _ w hrun
  rw [hused, hpayload] at h
  cases h

end MemStore
