import MemStore.Memory.Accounting

/-!
# The byte quota

With a quota that leaves room for one more payload below 2^32, and that is never
lowered, the payload stored is at most the used memory and the used memory at
most the quota (`quota_bounds`).  The invariant `Quota` also records that
entries are tidy, so that the bytes counted by their type tag are all the bytes
they hold.
-/

namespace MemStore

open MemStoreManager

/-- A full quota and the largest payload together do not wrap. -/
def Limits.QuotaFits (limits : Limits) : Prop :=
  limits.maxMemoryBytes.toNat +
    max (4 * limits.maxArraySize.toNat) limits.maxStringLength.toNat < 2 ^ 32

/-- A call of `SetLimits` sets limits that fit and does not lower the quota. -/
def KeepsQuota (w : World) (c : Call) (_ : Reply) : Prop :=
  ∀ maxKeysPerNs maxArraySize maxStringLen maxNamespaces maxMemoryMb,
    c.op = .setLimits maxKeysPerNs maxArraySize maxStringLen maxNamespaces maxMemoryMb →
      (w.store.toLimits.setLimits maxKeysPerNs maxArraySize maxStringLen maxNamespaces
        maxMemoryMb).QuotaFits ∧
      w.store.maxMemoryBytes ≤ (w.store.toLimits.setLimits maxKeysPerNs maxArraySize
        maxStringLen maxNamespaces maxMemoryMb).maxMemoryBytes

/-- The bytes of all strings and arrays in the store. -/
def MemStoreManager.storedBytes (s : MemStoreManager) : ℕ :=
  NestedMap.total (fun e => e.stringValue.length + 4 * e.arrayValue.length) s.namespaces

/-- The invariant of the runs that keep the quota. -/
structure Quota (s : MemStoreManager) : Prop where
  wellFormed : WellFormed s
  fits : s.toLimits.QuotaFits
  tidy : ∀ ns key e, s.entryAt ns key = some e → e.Tidy
  covers : Covers s
  bounded : s.usedBytes ≤ s.maxMemoryBytes.toNat

theorem quota_initial : Quota {} where
  wellFormed := wellFormed_initial
  fits := by
    unfold Limits.QuotaFits
    decide
  tidy := fun _ _ _ h => by cases h
  covers := le_rfl
  bounded := Nat.zero_le _

theorem Quota.storedBytes_eq {s : MemStoreManager} (h : Quota s) :
    s.storedBytes = s.payloadBytes :=
  NestedMap.total_congr fun ns key e he => (h.tidy ns key e he).toNat_getPayloadBytes.symm

/-- The entry a step leaves behind is tidy, if what it writes fits. -/
theorem EntryStep.tidy {env : Env} {a : KeyAction} {o o' : Option StoreEntry}
    (h : EntryStep env a o o') (ho : ∀ e, o = some e → e.Tidy)
    (hfits : ∀ v policy extra, a = .write v policy extra → v.footprint < 2 ^ 32) :
    ∀ e, o' = some e → e.Tidy := by
  intro e' he'
  cases h with
  | keep | reject => exact ho e' he'
  | purge | deleteKey | clearNamespace | clearAll => cases he'
  | ghost =>
      cases he'
      exact StoreEntry.tidy_default
  | write o v policy extra =>
      cases he'
      exact tidy_applyExpiration _ _ _ _ (v.tidy_fill _ (hfits v policy extra rfl))
  | @incDead o delta policy extra hnumber hdead =>
      cases he'
      refine tidy_applyExpiration _ _ _ _ (delta.tidy_fill _ ?_)
      rw [hnumber.footprint_eq_zero]
      decide
  | @incLive e delta policy extra hnumber hlive htype =>
      cases he'
      exact tidy_reapplyExpiration _ _ _ _ (delta.tidy_addTo _ (ho e rfl))
  | reexpire e policy extra =>
      cases he'
      exact tidy_applyExpiration _ _ _ _ (ho e rfl)
  | sweep =>
      obtain ⟨e, he, hsweep⟩ := Option.bind_eq_some_iff.mp he'
      obtain ⟨x, _, rfl⟩ := Option.map_eq_some_iff.mp hsweep
      exact ⟨(ho e he).stringValue, (ho e he).arrayValue, (ho e he).fits⟩

/-- Only a setter makes the used memory grow. -/
theorem Change.usedBytes_le {env : Env} {s s' : MemStoreManager} {req : Request}
    (h : Change env s req s') (hcovers : Covers s)
    (hwrite : ∀ ns key v policy extra, req ≠ .write ns key v policy extra) :
    s'.usedBytes ≤ s.usedBytes := by
  cases h with
  | read hreads => exact (hreads.ledger hcovers).1
  | wrote ns key v policy extra => exact absurd rfl (hwrite ns key v policy extra)
  | incAbsent ns key delta policy extra hnumber habsent hlimit =>
      have hused := usedBytes_overwrite_number hcovers env.layout ns key hnumber policy extra
        env.second
      omega
  | incExpired => exact (usedBytes_release s _).trans_le (Nat.sub_le _ _)
  | deleted ns key =>
      rw [usedBytes, eraseEntry_approxMemoryUsed]
      exact (usedBytes_release s _).trans_le (Nat.sub_le _ _)
  | cleared ns => exact (usedBytes_clearNamespace s ns).trans_le (Nat.sub_le _ _)
  | swept => exact (usedBytes_sweepMapEnd s env.first).trans_le (Nat.sub_le _ _)
  | wiped => exact Nat.zero_le _
  | _ => exact le_rfl

/-- The sum in the quota test does not wrap. -/
theorem Quota.add_lt {s : MemStoreManager} (h : Quota s) {v : Value}
    (hv : v.footprint ≤ max (4 * s.maxArraySize.toNat) s.maxStringLength.toNat) :
    v.bytes.toNat = v.footprint ∧ s.usedBytes + v.bytes.toNat < 2 ^ 32 := by
  have hfits := h.fits
  have hbounded := h.bounded
  unfold Limits.QuotaFits at hfits
  have hbytes := v.toNat_bytes (by omega)
  omega

/-- The difference in the quota test does not wrap. -/
theorem Quota.old_le {s : MemStoreManager} (h : Quota s) (ns key : StdString) :
    (getPayloadBytes ((s.entryAt ns key).getD {})).toNat ≤ s.usedBytes := by
  rw [toNat_getPayloadBytes_getD]
  cases hentry : s.entryAt ns key with
  | none => exact Nat.zero_le _
  | some e => exact (entryBytes_le_payloadBytes hentry).trans h.covers

/-- An accepted setter stays within the quota. -/
theorem Change.bounded {env : Env} {s s' : MemStoreManager} {ns key : StdString} {v : Value}
    {policy : ExpirePolicy} {extra : Int32} (h : Change env s (.write ns key v policy extra) s')
    (hs : Quota s)
    (hv : v.footprint ≤ max (4 * s.maxArraySize.toNat) s.maxStringLength.toNat) :
    s'.usedBytes ≤ s.maxMemoryBytes.toNat := by
  cases h with
  | wrote _ _ _ _ _ hlimit hquota =>
      have hlt := (hs.add_lt hv).2
      have hused := usedBytes_overwrite hs.covers env.layout ns key (Nat.lt_add_right _ hlt) policy
        extra env.first
      have hbounded := hs.bounded
      -- a number adds nothing; for a payload the test was made
      rcases hquota with hnumber | hquota
      · have hzero := hnumber.toNat_bytes
        omega
      · have hold := hs.old_le ns key
        have hadd : (s.approxMemoryUsed + v.bytes).toNat = s.usedBytes + v.bytes.toNat := by
          rw [UInt32.toNat_add]
          exact Nat.mod_eq_of_lt hlt
        have hle : ¬ s.maxMemoryBytes < s.approxMemoryUsed + v.bytes -
            getPayloadBytes ((s.entryAt ns key).getD {}) := of_decide_eq_false hquota
        rw [UInt32.lt_iff_toNat_lt, UInt32.toNat_sub_of_le, hadd] at hle
        · rw [toNat_getPayloadBytes_getD] at hle
          omega
        · rw [UInt32.le_iff_toNat_le, hadd]
          omega

/-! ## Runs -/

variable {alg : StdAlgorithm RankPair}

theorem Quota.call {w w' : World} {c : Call} {reply : Reply} (hguard : KeepsQuota w c reply)
    (h : Quota w.store) (hcall : w.call alg c = some (w', reply)) : Quota w'.store := by
  obtain ⟨_, _, hchange⟩ := World.call_change h.wellFormed hcall
  have hlimits : w'.store.toLimits.QuotaFits ∧
      w.store.maxMemoryBytes ≤ w'.store.maxMemoryBytes := by
    rw [hchange.toLimits]
    cases hrequest : c.op.outcome w.store.toLimits reply with
    | setLimits a b c d e => exact hguard a b c d e (outcome_eq_setLimits hrequest)
    | _ => exact ⟨h.fits, UInt32.le_refl _⟩
  have hfootprint : ∀ ns key v policy extra,
      c.op.outcome w.store.toLimits reply = .write ns key v policy extra →
        v.footprint ≤ max (4 * w.store.maxArraySize.toNat) w.store.maxStringLength.toNat :=
    fun ns key v policy extra hrequest => footprint_le_of_request (outcome_eq_write hrequest)
  constructor
  case wellFormed => exact hchange.wellFormed h.wellFormed
  case fits => exact hlimits.1
  case tidy =>
    intro ns key
    refine (hchange.entryStep ns key).tidy (h.tidy ns key) fun v policy extra haction => ?_
    have hfits := h.fits
    unfold Limits.QuotaFits at hfits
    have hv := hfootprint ns key v policy extra (Request.eq_of_atKey_write haction)
    omega
  case covers =>
    exact hchange.covers h.covers fun ns key v policy extra hrequest =>
      Nat.lt_add_right _ (h.add_lt (hfootprint ns key v policy extra hrequest)).2
  case bounded =>
    have hmax := UInt32.le_iff_toNat_le.mp hlimits.2
    refine le_trans ?_ hmax
    cases hrequest : c.op.outcome w.store.toLimits reply with
    | write ns key v policy extra =>
        rw [hrequest] at hchange
        exact hchange.bounded h (hfootprint ns key v policy extra hrequest)
    | _ =>
        refine (hchange.usedBytes_le h.covers fun ns key v policy extra hwrite => ?_).trans
          h.bounded
        rw [hrequest] at hwrite
        cases hwrite

theorem quota_of_run {steps : List (Call × Reply)} {w : World}
    (h : RunFromStart alg KeepsQuota steps w) : Quota w.store := by
  obtain ⟨t, hrun⟩ := h
  refine hrun.invariant (fun w => Quota w.store) ?_ quota_initial
  intro w c reply w' hguard hs hcall
  exact hs.call hguard hcall

/-- The stored payload is bounded by the used memory, and that by the quota.  So
the sum and the difference of the quota test do not wrap, whatever is to be
stored where, and no release saturates, in whatever order stored entries are
released one after another. -/
theorem quota_bounds {steps : List (Call × Reply)} {w : World}
    (h : RunFromStart alg KeepsQuota steps w) :
    w.store.storedBytes ≤ w.store.approxMemoryUsed.toNat ∧
      w.store.approxMemoryUsed ≤ w.store.maxMemoryBytes ∧
      (∀ op ns key v policy extra, Op.request w.store.toLimits op = .write ns key v policy extra →
        w.store.approxMemoryUsed.toNat + v.bytes.toNat < 2 ^ 32 ∧
          getPayloadBytes ((w.store.entryAt ns key).getD {}) ≤ w.store.approxMemoryUsed) ∧
      ∀ l : List (StdString × StdString × StoreEntry), (l.map fun x => (x.1, x.2.1)).Nodup →
        (∀ x ∈ l, w.store.entryAt x.1 x.2.1 = some x.2.2) →
        ∀ before x after, l = before ++ x :: after →
          getPayloadBytes x.2.2 ≤ (before.foldl
            (fun s x => s.release (getPayloadBytes x.2.2)) w.store).approxMemoryUsed := by
  have hquota := quota_of_run h
  refine ⟨?_, ?_, ?_, ?_⟩
  · rw [hquota.storedBytes_eq]
    exact hquota.covers
  · exact UInt32.le_iff_toNat_le.mpr hquota.bounded
  · intro op ns key v policy extra hrequest
    exact ⟨(hquota.add_lt (footprint_le_of_request hrequest)).2,
      UInt32.le_iff_toNat_le.mpr (hquota.old_le ns key)⟩
  · rintro l hnodup hstored before x after rfl
    have hsum := NestedMap.sum_le_total (w := entryBytes) hnodup hstored
    have hcovers : NestedMap.total entryBytes w.store.namespaces ≤ w.store.usedBytes :=
      hquota.covers
    -- the entry and those released before it are together within the payload
    rw [List.map_append, List.sum_append, List.map_cons, List.sum_cons] at hsum
    have hused := usedBytes_foldl (fun s (x : StdString × StdString × StoreEntry) =>
      usedBytes_release s (getPayloadBytes x.2.2)) before w.store
    rw [UInt32.le_iff_toNat_le]
    change entryBytes x.2.2 ≤ usedBytes _
    change _ = _ - (before.map fun x => entryBytes x.2.2).sum at hused
    omega

/-- A quota of 100 megabytes is set, and three bytes are stored. -/
private def underQuota : List (Call × Reply) :=
  [(⟨.setLimits 0 0 0 0 100, .at 0 fun _ => 0⟩, .done),
    (⟨.write (.setString [1] [2] [65, 66, 67] .persistent 0), .at 1 fun _ => 0⟩, .flag true)]

/-- After the quota is raised to 100 MB, three bytes are stored within it. -/
theorem quota_bounds_string : ∃ w : World,
    RunFromStart (StdAlgorithm.insertionSort (α := RankPair)) KeepsQuota underQuota w ∧
    w.store.storedBytes = 3 ∧ w.store.storedBytes ≤ w.store.approxMemoryUsed.toNat ∧
      w.store.approxMemoryUsed ≤ w.store.maxMemoryBytes := by
  have hrun : ∃ w, w.store.storedBytes = 3 ∧
      RunFromStart (StdAlgorithm.insertionSort (α := RankPair)) KeepsQuota underQuota w := by
    refine ⟨_, ?_, 0, run_cons ?_ le_rfl rfl (run_cons ?_ (by decide) rfl (.nil _))⟩
    · rfl
    · intro a b d e f hop
      cases hop
      unfold Limits.QuotaFits
      decide
    · intro a b d e f hop
      cases hop
  obtain ⟨w, hstored, hrun⟩ := hrun
  exact ⟨w, hrun, hstored, (quota_bounds hrun).1, (quota_bounds hrun).2.1⟩

end MemStore
