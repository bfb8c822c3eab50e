import MemStore.Memory.Quota
import MemStore.Memory.Capacity
import MemStore.Model.Natives

/-!
# The quota in 32-bit arithmetic

The quota is given in megabytes and kept in bytes, tested with sums and
differences of `size_t`, and reported as a `cell`.  Of these computations:

* the product `maxMemoryMb * 1024 * 1024` is exact up to 4095 megabytes
  (`toNat_megabytes`);
* the test of a setter is exact if what would be used after the write is a
  number below 2^32 (`quotaExceeded_eq`), as long as the counter covers what is
  stored, so that the difference is one of numbers;
* the conversion to a `cell` keeps the sign up to 2047 megabytes
  (`toInt_toInt32_eq_iff`).

`Ledger` is the invariant that carries the first two through a run.
-/

namespace MemStore

open MemStoreManager

/-! ## Statements -/

/-- The quota in megabytes after one more step: `SetLimits` ignores a zero. -/
def quotaMegabytesStep (mb : ℕ) (step : Call × Reply) : ℕ :=
  match step.1.op with
  | .setLimits _ _ _ _ maxMemoryMb => if 0 < maxMemoryMb then maxMemoryMb.toNat else mb
  | _ => mb

/-- The bytes of the string or array stored under a key. -/
def MemStoreManager.replacedBytes (s : MemStoreManager) (ns key : StdString) : ℕ :=
  (s.entryAt ns key).elim 0 fun e => e.stringValue.length + 4 * e.arrayValue.length

/-- If the call is a setter whose key passes the limits, the bytes in use after
it are a number below 2^32. -/
def FitsAddressSpace (s : MemStoreManager) (op : Op) : Prop :=
  ∀ ns key v policy extra, op.request s.toLimits = .write ns key v policy extra →
    s.checkNamespaceKeyLimit ns key = true →
      s.usedBytes + v.footprint < 2 ^ 32 + s.replacedBytes ns key

theorem toNat_megabytes (maxMemoryMb : SizeT) :
    (maxMemoryMb * 1024 * 1024).toNat = maxMemoryMb.toNat * 2 ^ 20 % 2 ^ 32 := by
  simp only [UInt32.toNat_mul, UInt32.toNat_ofNat]
  omega

/-- The bytes stored are counted truly, and the quota is the product modulo 2^32. -/
structure Ledger (mb : ℕ) (s : MemStoreManager) : Prop where
  wellFormed : WellFormed s
  tidy : ∀ ns key e, s.entryAt ns key = some e → e.Tidy
  covers : Covers s
  maxBytes : s.maxMemoryBytes.toNat = mb * 2 ^ 20 % 2 ^ 32

/-- The bytes a write replaces, as the source counts them. -/
theorem Ledger.replacedBytes_eq {mb : ℕ} {s : MemStoreManager} (h : Ledger mb s)
    (ns key : StdString) : (s.entryAt ns key).elim 0 entryBytes = s.replacedBytes ns key := by
  unfold replacedBytes
  cases hentry : s.entryAt ns key with
  | none => rfl
  | some e => exact (h.tidy ns key e hentry).toNat_getPayloadBytes

theorem Ledger.replacedBytes_le {mb : ℕ} {s : MemStoreManager} (h : Ledger mb s)
    (ns key : StdString) : s.replacedBytes ns key ≤ s.usedBytes := by
  rw [← h.replacedBytes_eq]
  cases hentry : s.entryAt ns key with
  | none => exact Nat.zero_le _
  | some e => exact (entryBytes_le_payloadBytes hentry).trans h.covers

/-- A payload that fits is counted truly. -/
theorem Ledger.toNat_bytes {mb : ℕ} {s : MemStoreManager} (h : Ledger mb s)
    {ns key : StdString} {v : Value}
    (hfits : s.usedBytes + v.footprint < 2 ^ 32 + s.replacedBytes ns key) :
    v.footprint < 2 ^ 32 ∧ v.bytes.toNat = v.footprint := by
  have hle := h.replacedBytes_le ns key
  have hlt : v.footprint < 2 ^ 32 := by omega
  exact ⟨hlt, v.toNat_bytes hlt⟩

theorem Change.limit_of_write {env : Env} {s s' : MemStoreManager} {ns key : StdString}
    {v : Value} {policy : ExpirePolicy} {extra : Int32}
    (h : Change env s (.write ns key v policy extra) s') :
    s.checkNamespaceKeyLimit ns key = true := by
  cases h with
  | wrote _ _ _ _ _ hlimit => exact hlimit

/-- Only `SetLimits` sets limits. -/
theorem Change.toLimits_of_ne {env : Env} {s s' : MemStoreManager} {op : Op} {reply : Reply}
    (h : Change env s (op.outcome s.toLimits reply) s')
    (hop : ∀ a b c d e, op ≠ .setLimits a b c d e) : s'.toLimits = s.toLimits := by
  rw [h.toLimits]
  cases hrequest : op.outcome s.toLimits reply with
  | setLimits a b c d e => exact absurd (outcome_eq_setLimits hrequest) (hop a b c d e)
  | _ => rfl

theorem quotaMegabytesStep_of_ne {mb : ℕ} {op : Op} {env : Env} {reply : Reply}
    (hop : ∀ a b c d e, op ≠ .setLimits a b c d e) :
    quotaMegabytesStep mb (⟨op, env⟩, reply) = mb := by
  cases op with
  | setLimits a b c d e => exact absurd rfl (hop a b c d e)
  | _ => rfl

variable {alg : StdAlgorithm RankPair}

theorem Ledger.call {mb : ℕ} {w w' : World} {c : Call} {reply : Reply}
    (hguard : FitsAddressSpace w.store c.op) (h : Ledger mb w.store)
    (hcall : w.call alg c = some (w', reply)) :
    Ledger (quotaMegabytesStep mb (c, reply)) w'.store := by
  obtain ⟨_, _, hchange⟩ := World.call_change h.wellFormed hcall
  have hfits : ∀ ns key v policy extra,
      c.op.outcome w.store.toLimits reply = .write ns key v policy extra →
        w.store.usedBytes + v.footprint < 2 ^ 32 + w.store.replacedBytes ns key := by
    intro ns key v policy extra hrequest
    have hlimit := hchange
    rw [hrequest] at hlimit
    exact hguard ns key v policy extra (outcome_eq_write hrequest) hlimit.limit_of_write
  constructor
  case wellFormed => exact hchange.wellFormed h.wellFormed
  case tidy =>
    intro ns key
    refine (hchange.entryStep ns key).tidy (h.tidy ns key) fun v policy extra haction => ?_
    exact (h.toNat_bytes (hfits ns key v policy extra
      (Request.eq_of_atKey_write haction))).1
  case covers =>
    refine hchange.covers h.covers fun ns key v policy extra hrequest => ?_
    have hv := hfits ns key v policy extra hrequest
    rw [h.replacedBytes_eq, (h.toNat_bytes hv).2]
    exact hv
  case maxBytes =>
    obtain ⟨op, env⟩ := c
    by_cases hop : ∃ a b d e mb', op = .setLimits a b d e mb'
    · obtain ⟨a, b, d, e, mb', rfl⟩ := hop
      obtain ⟨_, hexec, _⟩ := World.call_eq_some_iff.mp hcall
      simp only [exec, Option.some.injEq, Prod.mk.injEq] at hexec
      rw [← hexec.1]
      simp only [Limits.setLimits, quotaMegabytesStep]
      split
      · exact toNat_megabytes mb'
      · exact h.maxBytes
    · have hother : ∀ a b d e mb', op ≠ .setLimits a b d e mb' := by
        intro a b d e mb' heq
        exact hop ⟨a, b, d, e, mb', heq⟩
      rw [hchange.toLimits_of_ne hother, quotaMegabytesStep_of_ne hother]
      exact h.maxBytes

end MemStore
