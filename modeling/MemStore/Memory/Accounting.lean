import MemStore.Steps.Invariants

/-!
# Bytes used and bytes stored

`approxMemoryUsed` is kept up by hand, one release or addition at a time;
`payloadBytes` is what it stands for.  As long as the stored payload is covered
by the counter no release saturates, and then every change moves both by the
same amount (`Change.ledger`), with two exceptions: `ClearAll` sets both to
zero, and a read may erase payload without releasing it, so that the counter
runs ahead (`Reads.ledger`).
-/

namespace MemStore

open MemStoreManager

/-- What `getPayloadBytes` counts. -/
def entryBytes (e : StoreEntry) : ℕ := (getPayloadBytes e).toNat

/-- The sum of `getPayloadBytes` over all stored entries. -/
def MemStoreManager.payloadBytes (s : MemStoreManager) : ℕ :=
  NestedMap.total entryBytes s.namespaces

/-- The used memory, as a number. -/
def MemStoreManager.usedBytes (s : MemStoreManager) : ℕ := s.approxMemoryUsed.toNat

/-! ## Releases -/

/-- The guarded subtraction is the truncated one. -/
theorem usedBytes_release (s : MemStoreManager) (bytes : SizeT) :
    (s.release bytes).usedBytes = s.usedBytes - bytes.toNat := by
  simp only [usedBytes, release]
  split
  · next hle => exact UInt32.toNat_sub_of_le _ _ hle
  · next hlt =>
      have h := UInt32.le_iff_toNat_le.not.mp hlt
      simp only [UInt32.toNat_zero]
      omega

/-- A loop whose body releases `bytes x` for each `x` releases their sum. -/
theorem usedBytes_foldl {α : Type*} {body : MemStoreManager → α → MemStoreManager}
    {bytes : α → ℕ} (hbody : ∀ s x, (body s x).usedBytes = s.usedBytes - bytes x) (l : List α)
    (s : MemStoreManager) : (l.foldl body s).usedBytes = s.usedBytes - (l.map bytes).sum := by
  induction l generalizing s with
  | nil => rfl
  | cons x rest ih =>
      rw [List.foldl_cons, ih, hbody, List.map_cons, List.sum_cons, Nat.sub_sub]

theorem usedBytes_clearNamespace (s : MemStoreManager) (ns : StdString) :
    (s.clearNamespace ns).1.usedBytes =
      s.usedBytes - (NestedMap.inner s.namespaces ns).weigh fun _ e => entryBytes e := by
  unfold clearNamespace
  cases hfind : s.namespaces.find? ns with
  | none =>
      rw [NestedMap.inner_of_find?_none hfind]
      rfl
  | some keyMap =>
      rw [NestedMap.inner_of_find? hfind]
      exact usedBytes_foldl (fun s (pair : StdString × StoreEntry) =>
        usedBytes_release s (getPayloadBytes pair.2)) keyMap.entries s

theorem usedBytes_sweepMapEnd (s : MemStoreManager) (now : TimePoint) :
    (s.sweepMapEnd now).usedBytes =
      s.usedBytes - s.namespaces.weigh fun _ keyMap => keyMap.weigh fun _ e =>
        if (sweepEntry now e).isNone then entryBytes e else 0 := by
  have hentry : ∀ (s : MemStoreManager) (pair : StdString × StoreEntry),
      (if (sweepEntry now pair.2).isNone then s.release (getPayloadBytes pair.2)
        else s).usedBytes =
        s.usedBytes - if (sweepEntry now pair.2).isNone then entryBytes pair.2 else 0 := by
    intro s pair
    split
    · exact usedBytes_release s _
    · rfl
  -- the body of the outer loop is the loop over one namespace
  have hkeyMap : ∀ (s : MemStoreManager) (keyMap : StdString × UnorderedMap StdString StoreEntry),
      (keyMap.2.entries.foldl (fun s pair => if (sweepEntry now pair.2).isNone
        then s.release (getPayloadBytes pair.2) else s) s).usedBytes =
        s.usedBytes - keyMap.2.weigh fun _ e =>
          if (sweepEntry now e).isNone then entryBytes e else 0 :=
    fun s keyMap => usedBytes_foldl hentry keyMap.2.entries s
  exact usedBytes_foldl hkeyMap s.namespaces.entries s

/-! ## Payload after an edit -/

section Payload

variable {s : MemStoreManager} {ns key : StdString} {e : StoreEntry}

/-- The payload of what `m_Namespaces[ns][key]` refers to. -/
theorem toNat_getPayloadBytes_getD (s : MemStoreManager) (ns key : StdString) :
    (getPayloadBytes ((s.entryAt ns key).getD {})).toNat =
      (s.entryAt ns key).elim 0 entryBytes := by
  cases s.entryAt ns key <;> rfl

theorem entryBytes_le_payloadBytes (h : s.entryAt ns key = some e) :
    entryBytes e ≤ s.payloadBytes :=
  NestedMap.le_total h

theorem payloadBytes_touch (s : MemStoreManager) (layout : Layout) (ns key : StdString) :
    (s.touch layout ns key).payloadBytes = s.payloadBytes := by
  have h := NestedMap.total_upsertAt entryBytes layout layout s.namespaces ns key {} fun e => e
  have hold : entryBytes ((NestedMap.at? s.namespaces ns key).getD {}) =
      (NestedMap.at? s.namespaces ns key).elim 0 entryBytes := toNat_getPayloadBytes_getD s ns key
  rw [hold] at h
  exact Nat.add_right_cancel h

theorem payloadBytes_overwrite (s : MemStoreManager) (layout : Layout) (ns key : StdString)
    (v : Value) (policy : ExpirePolicy) (extra : Int32) (now : TimePoint) :
    (s.overwrite layout ns key v.fill v.bytes policy extra now).payloadBytes +
        (s.entryAt ns key).elim 0 entryBytes = s.payloadBytes + v.bytes.toNat := by
  have h := NestedMap.total_upsertAt entryBytes layout layout s.namespaces ns key {} fun e =>
    applyExpiration (v.fill e) policy extra now
  have hnew : entryBytes (applyExpiration
      (v.fill ((NestedMap.at? s.namespaces ns key).getD {})) policy extra now) =
        v.bytes.toNat := by
    rw [entryBytes, getPayloadBytes_applyExpiration, Value.getPayloadBytes_fill]
  rw [hnew] at h
  exact h

theorem payloadBytes_modifyEntry (h : s.entryAt ns key = some e) (f : StoreEntry → StoreEntry) :
    (s.modifyEntry ns key f).payloadBytes + entryBytes e =
      s.payloadBytes + entryBytes (f e) :=
  NestedMap.total_modifyAt h

theorem payloadBytes_eraseEntry (h : s.entryAt ns key = some e) :
    (s.eraseEntry ns key).payloadBytes + entryBytes e = s.payloadBytes := by
  rw [payloadBytes, eraseEntry_namespaces]
  exact NestedMap.total_retainAt_erase h

/-- The payload of the entries of a namespace that have expired. -/
def MemStoreManager.expiredBytes (s : MemStoreManager) (now : TimePoint) (ns : StdString) : ℕ :=
  (NestedMap.inner s.namespaces ns).weigh fun _ e => if e.isExpired now then entryBytes e else 0

theorem payloadBytes_purgeNamespace (invalidates : Bool) (s : MemStoreManager) (ns : StdString)
    (now : TimePoint) :
    (s.purgeNamespace invalidates ns now).1.payloadBytes + s.expiredBytes now ns =
      s.payloadBytes := by
  rw [payloadBytes, purgeNamespace_namespaces]
  exact NestedMap.total_retainAt_eraseIf ..

theorem payloadBytes_clearNamespace (s : MemStoreManager) (ns : StdString) :
    (s.clearNamespace ns).1.payloadBytes +
        (NestedMap.inner s.namespaces ns).weigh (fun _ e => entryBytes e) = s.payloadBytes := by
  cases hfind : s.namespaces.find? ns with
  | none =>
      rw [clearNamespace_of_none hfind, NestedMap.inner_of_find?_none hfind]
      rfl
  | some keyMap =>
      obtain ⟨used, hclear⟩ := clearNamespace_of_some hfind
      rw [hclear]
      exact NestedMap.inner_of_find? hfind ▸ NestedMap.total_erase entryBytes s.namespaces ns

theorem payloadBytes_sweepMapEnd (s : MemStoreManager) (now : TimePoint) :
    (s.sweepMapEnd now).payloadBytes +
        (s.namespaces.weigh fun _ keyMap => keyMap.weigh fun _ e =>
          if (sweepEntry now e).isNone then entryBytes e else 0) = s.payloadBytes := by
  obtain ⟨used, hsweep⟩ := sweepMapEnd_eq s now
  rw [hsweep]
  refine NestedMap.total_retainAll_add (fun _ e e' he => ?_) s.namespaces
  obtain ⟨x, _, rfl⟩ := Option.map_eq_some_iff.mp he
  rfl

end Payload

/-! ## One change -/

/-- The counter covers the stored payload. -/
def Covers (s : MemStoreManager) : Prop := s.payloadBytes ≤ s.usedBytes

/-- A release of a stored entry does not saturate. -/
theorem usedBytes_release_entry {s : MemStoreManager} {ns key : StdString} {e : StoreEntry}
    (hcovers : Covers s) (h : s.entryAt ns key = some e) :
    (s.release (getPayloadBytes e)).usedBytes + entryBytes e = s.usedBytes := by
  have hle := (entryBytes_le_payloadBytes h).trans hcovers
  rw [usedBytes_release]
  exact Nat.sub_add_cancel hle

/-- An overwrite exchanges the old payload for the new one. -/
theorem usedBytes_overwrite {s : MemStoreManager} (hcovers : Covers s) (layout : Layout)
    (ns key : StdString) {v : Value}
    (hfits : s.usedBytes + v.bytes.toNat < 2 ^ 32 + (s.entryAt ns key).elim 0 entryBytes)
    (policy : ExpirePolicy) (extra : Int32) (now : TimePoint) :
    (s.overwrite layout ns key v.fill v.bytes policy extra now).usedBytes +
        (s.entryAt ns key).elim 0 entryBytes = s.usedBytes + v.bytes.toNat := by
  have hold : (s.entryAt ns key).elim 0 entryBytes ≤ s.usedBytes := by
    cases hentry : s.entryAt ns key with
    | none => exact Nat.zero_le _
    | some e => exact (entryBytes_le_payloadBytes hentry).trans hcovers
  have hrelease := usedBytes_release s (getPayloadBytes ((s.entryAt ns key).getD {}))
  rw [toNat_getPayloadBytes_getD] at hrelease
  -- the addition does not wrap, since the new payload fits in the place of the old one
  have hadd : (s.overwrite layout ns key v.fill v.bytes policy extra now).usedBytes =
      ((s.release (getPayloadBytes ((s.entryAt ns key).getD {}))).usedBytes + v.bytes.toNat) %
        2 ^ 32 := UInt32.toNat_add _ _
  rw [hadd, hrelease, Nat.mod_eq_of_lt (by omega)]
  omega

/-- Writing a number only gives the old payload back. -/
theorem usedBytes_overwrite_number {s : MemStoreManager} (hcovers : Covers s) (layout : Layout)
    (ns key : StdString) {v : Value} (hnumber : v.IsNumber) (policy : ExpirePolicy)
    (extra : Int32) (now : TimePoint) :
    (s.overwrite layout ns key v.fill v.bytes policy extra now).usedBytes +
        (s.entryAt ns key).elim 0 entryBytes = s.usedBytes := by
  have hzero := hnumber.toNat_bytes
  have hlt : s.usedBytes < 2 ^ 32 := s.approxMemoryUsed.toNat_lt
  have hused := usedBytes_overwrite hcovers layout ns key (v := v) (by omega) policy extra now
  omega

/-- Apart from reads and `ClearAll`, the counter moves with the payload. -/
theorem Change.ledger {env : Env} {s s' : MemStoreManager} {req : Request}
    (h : Change env s req s') (hcovers : Covers s) (hread : req ≠ .read)
    (hclear : req ≠ .clearAll)
    (hfits : ∀ ns key v policy extra, req = .write ns key v policy extra →
      s.usedBytes + v.bytes.toNat < 2 ^ 32 + (s.entryAt ns key).elim 0 entryBytes) :
    s'.usedBytes + s.payloadBytes = s.usedBytes + s'.payloadBytes := by
  cases h with
  | read => exact absurd rfl hread
  | wiped => exact absurd rfl hclear
  | touched ns key v hlimit hquota =>
      rw [payloadBytes_touch]
      rfl
  | wrote ns key v policy extra hlimit hquota =>
      have hused := usedBytes_overwrite hcovers env.layout ns key
        (hfits ns key v policy extra rfl) policy extra env.first
      have hpayload := payloadBytes_overwrite s env.layout ns key v policy extra env.first
      omega
  | incAbsent ns key delta policy extra hnumber habsent hlimit =>
      have hzero := hnumber.toNat_bytes
      have hused := usedBytes_overwrite_number hcovers env.layout ns key hnumber policy extra
        env.second
      have hpayload := payloadBytes_overwrite s env.layout ns key delta policy extra env.second
      omega
  | @incExpired ns key delta policy extra e hnumber hentry hexp =>
      rw [← hnumber.overwrite_of_entryAt hentry env.layout]
      have hzero := hnumber.toNat_bytes
      have hused := usedBytes_overwrite_number hcovers env.layout ns key hnumber policy extra
        env.second
      have hpayload := payloadBytes_overwrite s env.layout ns key delta policy extra env.second
      omega
  | @incLive ns key delta policy extra e hnumber hentry hlive htype =>
      have hpayload := payloadBytes_modifyEntry hentry fun e =>
        reapplyExpiration (delta.addTo e) policy extra env.second
      -- an increment in place changes neither type nor payload
      have hsame : entryBytes (reapplyExpiration (delta.addTo e) policy extra env.second) =
          entryBytes e := by
        rw [entryBytes, getPayloadBytes_reapplyExpiration, Value.getPayloadBytes_addTo, entryBytes]
      change s.usedBytes + s.payloadBytes = s.usedBytes + _
      omega
  | @reexpired ns key policy extra e hentry =>
      have hpayload := payloadBytes_modifyEntry hentry fun e =>
        applyExpiration e policy extra env.first
      have hsame : entryBytes (applyExpiration e policy extra env.first) = entryBytes e := rfl
      change s.usedBytes + s.payloadBytes = s.usedBytes + _
      omega
  | @deleted ns key e hentry =>
      have hused := usedBytes_release_entry hcovers hentry
      have hentry' : (s.release (getPayloadBytes e)).entryAt ns key = some e := hentry
      have hpayload := payloadBytes_eraseEntry hentry'
      have hsame : ((s.release (getPayloadBytes e)).eraseEntry ns key).usedBytes =
          (s.release (getPayloadBytes e)).usedBytes := by
        rw [usedBytes, eraseEntry_approxMemoryUsed, usedBytes]
      have hrelease : (s.release (getPayloadBytes e)).payloadBytes = s.payloadBytes := rfl
      omega
  | cleared ns =>
      have hused := usedBytes_clearNamespace s ns
      have hpayload := payloadBytes_clearNamespace s ns
      have hle : s.payloadBytes ≤ s.usedBytes := hcovers
      omega
  | swept =>
      have hused := usedBytes_sweepMapEnd s env.first
      have hpayload := payloadBytes_sweepMapEnd s env.first
      have hle : s.payloadBytes ≤ s.usedBytes := hcovers
      omega
  | _ => rfl

/-- A read effect lets the payload drop at least as far as the counter. -/
theorem ReadEffect.ledger {latest : TimePoint} {s s' : MemStoreManager}
    (h : ReadEffect latest s s') (hcovers : Covers s) :
    s'.usedBytes ≤ s.usedBytes ∧
      s.usedBytes + s'.payloadBytes ≤ s'.usedBytes + s.payloadBytes := by
  cases h with
  | recache | eraseRank => exact ⟨le_rfl, le_rfl⟩
  | @erase ns key e releases hentry hexp =>
      have hpayload := payloadBytes_eraseEntry (s := if releases then
        s.release (getPayloadBytes e) else s) (e := e) (by cases releases <;> exact hentry)
      have hrelease := usedBytes_release_entry hcovers hentry
      rw [usedBytes, eraseEntry_approxMemoryUsed, ← usedBytes]
      -- only some of the getters give the payload back
      cases releases with
      | false =>
          change _ = s.payloadBytes at hpayload
          change s.usedBytes ≤ s.usedBytes ∧ s.usedBytes + _ ≤ s.usedBytes + s.payloadBytes
          exact ⟨le_rfl, by omega⟩
      | true =>
          change _ = s.payloadBytes at hpayload
          change (s.release (getPayloadBytes e)).usedBytes ≤ s.usedBytes ∧
            s.usedBytes + _ ≤ (s.release (getPayloadBytes e)).usedBytes + s.payloadBytes
          exact ⟨by omega, by omega⟩
  | @purge invalidates ns now hle =>
      have hpayload := payloadBytes_purgeNamespace invalidates s ns now
      rw [usedBytes, purgeNamespace_approxMemoryUsed, ← usedBytes]
      exact ⟨le_rfl, by omega⟩
  | @purgeRank ns now hle =>
      have hsame := sameKeyValues_purgeBoard s ns now
      rw [usedBytes, hsame.used, ← usedBytes, payloadBytes, hsame.namespaces, ← payloadBytes]
      exact ⟨le_rfl, le_rfl⟩

theorem Reads.ledger {latest : TimePoint} {s s' : MemStoreManager} (h : Reads latest s s')
    (hcovers : Covers s) :
    s'.usedBytes ≤ s.usedBytes ∧
      s.usedBytes + s'.payloadBytes ≤ s'.usedBytes + s.payloadBytes := by
  induction h with
  | refl => exact ⟨le_rfl, le_rfl⟩
  | tail _ heffect ih =>
      unfold Covers at hcovers
      have hstep := heffect.ledger (by unfold Covers; omega)
      omega

/-- The counter keeps covering the payload. -/
theorem Change.covers {env : Env} {s s' : MemStoreManager} {req : Request}
    (h : Change env s req s') (hcovers : Covers s)
    (hfits : ∀ ns key v policy extra, req = .write ns key v policy extra →
      s.usedBytes + v.bytes.toNat < 2 ^ 32 + (s.entryAt ns key).elim 0 entryBytes) :
    Covers s' := by
  by_cases hread : req = .read
  · subst hread
    cases h with
    | read hreads =>
        have hledger := hreads.ledger hcovers
        unfold Covers at hcovers ⊢
        omega
  · by_cases hclear : req = .clearAll
    · subst hclear
      cases h
      exact le_rfl
    · have hledger := h.ledger hcovers hread hclear hfits
      unfold Covers at hcovers ⊢
      omega

end MemStore
