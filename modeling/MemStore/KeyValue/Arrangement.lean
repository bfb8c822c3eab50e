import MemStore.Containers.Contents
import MemStore.KeyValue.Independence
import MemStore.Memory.Accounting
import MemStore.Memory.Capacity
import MemStore.Reading.LiveView

/-!
# Key-values in another arrangement

A hash map promises nothing about the order in which its entries stand, and an
insertion may rearrange them.  Two managers have the `SameEntries` if they differ
in that only.

* Each building block of the key-value methods takes the same entries to the same
  entries, also when what it inserts is arranged differently.
* So does each method, with the same reply (`SameEntries.exec`); only the keys that
  `GetActiveKeys` lists may come in another order.

`GetKeyAt` is left out.  It counts by the order of its key cache, and may purge a
namespace for one index and not for another.
-/

namespace MemStore

open MemStoreManager

/-! ## The relation -/

/-- The same key-values and limits, in any arrangement. -/
structure SameEntries (s s' : MemStoreManager) : Prop where
  entry : ∀ ns key, s'.entryAt ns key = s.entryAt ns key
  used : s'.approxMemoryUsed = s.approxMemoryUsed
  limits : s'.toLimits = s.toLimits

/-- Two results of a method that no caller can tell apart. -/
def SameResult {α : Type} (r r' : MemStoreManager × α) : Prop :=
  r'.2 = r.2 ∧ SameEntries r.1 r'.1

/-- Replies that differ in the order of the keys that are listed, if at all. -/
inductive SameReply : Reply → Reply → Prop
  | same (reply : Reply) : SameReply reply reply
  | keys {keys keys' : List StdString} (hperm : keys'.Perm keys) :
      SameReply (.keys keys) (.keys keys')

theorem SameEntries.of_sameKeyValues {s t s' t' : MemStoreManager} (h : SameEntries s s')
    (ht : SameKeyValues s t) (ht' : SameKeyValues s' t') : SameEntries t t' where
  entry := by
    intro ns key
    rw [ht'.entryAt, ht.entryAt, h.entry]
  used := by rw [ht'.used, ht.used, h.used]
  limits := by rw [ht'.limits, ht.limits, h.limits]

/-! ## Building blocks -/

namespace SameEntries

variable {s s' : MemStoreManager} (h : SameEntries s s') (ns key : StdString)
include h

theorem liveAt (now : TimePoint) : s'.liveAt now ns key = s.liveAt now ns key := by
  rw [MemStoreManager.liveAt, MemStoreManager.liveAt, h.entry]

theorem release (bytes : SizeT) : SameEntries (s.release bytes) (s'.release bytes) where
  entry := h.entry
  used := by simp only [MemStoreManager.release, h.used]
  limits := h.limits

theorem invalidateKeyCache :
    SameEntries (s.invalidateKeyCache ns) (s'.invalidateKeyCache ns) :=
  ⟨h.entry, h.used, h.limits⟩

theorem eraseEntry : SameEntries (s.eraseEntry ns key) (s'.eraseEntry ns key) where
  entry := by
    intro ns' key'
    rw [entryAt_eraseEntry, entryAt_eraseEntry, h.entry]
  used := by simp only [eraseEntry_approxMemoryUsed, h.used]
  limits := by simp only [eraseEntry_toLimits, h.limits]

theorem touch (layout layout' : Layout) :
    SameEntries (s.touch layout ns key) (s'.touch layout' ns key) where
  entry := by
    intro ns' key'
    rw [entryAt_touch, entryAt_touch, h.entry, h.entry]
  used := h.used
  limits := h.limits

theorem modifyEntry (f : StoreEntry → StoreEntry) :
    SameEntries (s.modifyEntry ns key f) (s'.modifyEntry ns key f) where
  entry := by
    intro ns' key'
    rw [entryAt_modifyEntry, entryAt_modifyEntry, h.entry, h.entry]
  used := h.used
  limits := h.limits

theorem overwrite (layout layout' : Layout) (fill : StoreEntry → StoreEntry) (newBytes : SizeT)
    (policy : ExpirePolicy) (extra : Int32) (now : TimePoint) :
    SameEntries (s.overwrite layout ns key fill newBytes policy extra now)
      (s'.overwrite layout' ns key fill newBytes policy extra now) where
  entry := by
    intro ns' key'
    rw [entryAt_overwrite, entryAt_overwrite, h.entry, h.entry]
  used := by
    have hused := (h.release (getPayloadBytes ((s.entryAt ns key).getD {}))).used
    simp only [MemStoreManager.overwrite, invalidateKeyCache_approxMemoryUsed, h.entry, hused]
  limits := h.limits

theorem purgeNamespace (invalidates : Bool) (now : TimePoint) :
    SameEntries (s.purgeNamespace invalidates ns now).1
      (s'.purgeNamespace invalidates ns now).1 where
  entry := by
    intro ns' key'
    rw [entryAt_purgeNamespace, entryAt_purgeNamespace, h.entry]
  used := by simp only [purgeNamespace_approxMemoryUsed, h.used]
  limits := by
    rw [(sameRanks_purgeNamespace ..).limits, (sameRanks_purgeNamespace ..).limits, h.limits]

theorem findLive (releases : Bool) (now : TimePoint) :
    SameEntries (s.findLive releases ns key now).1 (s'.findLive releases ns key now).1 := by
  have hentry' := h.entry ns key
  cases hentry : s.entryAt ns key with
  | none =>
      rw [hentry] at hentry'
      rw [findLive_of_none hentry, findLive_of_none hentry']
      exact h
  | some e =>
      rw [hentry] at hentry'
      cases hexp : e.isExpired now with
      | false =>
          rw [findLive_of_live hentry hexp, findLive_of_live hentry' hexp]
          exact h
      | true =>
          rw [findLive_of_expired hentry hexp, findLive_of_expired hentry' hexp]
          cases releases with
          | false => exact h.eraseEntry ns key
          | true => exact (h.release (getPayloadBytes e)).eraseEntry ns key

/-! ## Limits -/

theorem quotaExceeded (newBytes oldBytes : SizeT) :
    s'.quotaExceeded newBytes oldBytes = s.quotaExceeded newBytes oldBytes := by
  have hmax : s'.maxMemoryBytes = s.maxMemoryBytes := congrArg Limits.maxMemoryBytes h.limits
  rw [MemStoreManager.quotaExceeded, MemStoreManager.quotaExceeded, hmax, h.used]

variable (hwf : WellFormed s) (hwf' : WellFormed s')
include hwf hwf'

/-- The same namespaces are stored, since none is stored empty. -/
theorem isSome_namespace :
    (s'.namespaces.find? ns).isSome = (s.namespaces.find? ns).isSome :=
  hwf.namespaces.isSome_find?_congr hwf'.namespaces
    (fun ns key => congrArg Option.isSome (h.entry ns key)) ns

/-- What has room depends on numbers of entries, and these on the contents only. -/
theorem checkNamespaceKeyLimit :
    s'.checkNamespaceKeyLimit ns key = s.checkNamespaceKeyLimit ns key := by
  have hkeys : (NestedMap.inner s'.namespaces ns).size = (NestedMap.inner s.namespaces ns).size :=
    UnorderedMap.size_congr fun key => congrArg Option.isSome (h.entry ns key)
  have hnamespaces : s'.namespaces.size = s.namespaces.size :=
    UnorderedMap.size_congr fun ns => h.isSome_namespace ns hwf hwf'
  have hentry : NestedMap.at? s'.namespaces ns key = NestedMap.at? s.namespaces ns key :=
    h.entry ns key
  rw [checkNamespaceKeyLimit_eq, checkNamespaceKeyLimit_eq, Bool.eq_iff_iff,
    limitTest_iff hwf.namespaces, limitTest_iff hwf'.namespaces, HasRoom, HasRoom, heldKeys_true,
    heldKeys_true, heldNamespaces_true hwf.namespaces, heldNamespaces_true hwf'.namespaces, hkeys,
    hnamespaces, hentry, h.limits]

/-! ## Methods that write -/

theorem storeScalar (layout layout' : Layout) (fill : StoreEntry → StoreEntry)
    (policy : ExpirePolicy) (extra : Int32) (now : TimePoint) :
    SameResult (s.storeScalar layout ns key fill policy extra now)
      (s'.storeScalar layout' ns key fill policy extra now) := by
  rw [MemStoreManager.storeScalar, MemStoreManager.storeScalar,
    h.checkNamespaceKeyLimit ns key hwf hwf']
  split
  · exact ⟨rfl, h.overwrite ns key layout layout' fill 0 policy extra now⟩
  · exact ⟨rfl, h⟩

theorem storePayload (layout layout' : Layout) (fill : StoreEntry → StoreEntry)
    (newBytes : SizeT) (policy : ExpirePolicy) (extra : Int32) (now : TimePoint) :
    SameResult (s.storePayload layout ns key fill newBytes policy extra now)
      (s'.storePayload layout' ns key fill newBytes policy extra now) := by
  rw [MemStoreManager.storePayload, MemStoreManager.storePayload,
    h.checkNamespaceKeyLimit ns key hwf hwf', h.entry, h.quotaExceeded]
  split
  · split
    · exact ⟨rfl, h.touch ns key layout layout'⟩
    · exact ⟨rfl, h.overwrite ns key layout layout' fill newBytes policy extra now⟩
  · exact ⟨rfl, h⟩

omit hwf hwf' in
theorem increment {α : Type} (type : EntryType) (fill add : StoreEntry → StoreEntry)
    (value : StoreEntry → α) (delta : α) {setter setter' : MemStoreManager × Bool}
    (hsetter : SameResult setter setter') (policy : ExpirePolicy) (extra : Int32)
    (now₀ now₁ : TimePoint) :
    SameResult (s.increment ns key type fill add value delta setter policy extra now₀ now₁)
      (s'.increment ns key type fill add value delta setter' policy extra now₀ now₁) := by
  rw [MemStoreManager.increment, MemStoreManager.increment, h.entry]
  cases s.entryAt ns key with
  | none => exact ⟨by simp only [hsetter.1], hsetter.2⟩
  | some e =>
      dsimp only
      split
      · exact ⟨rfl, ((h.release (getPayloadBytes e)).modifyEntry ns key _).invalidateKeyCache ns⟩
      · split
        · exact ⟨rfl, h⟩
        · exact ⟨rfl, h.modifyEntry ns key _⟩

omit hwf hwf' in
theorem deleteKey : SameResult (s.deleteKey ns key) (s'.deleteKey ns key) := by
  rw [MemStoreManager.deleteKey, MemStoreManager.deleteKey, h.entry]
  cases s.entryAt ns key with
  | none => exact ⟨rfl, h⟩
  | some e => exact ⟨rfl, (h.release (getPayloadBytes e)).eraseEntry ns key⟩

omit hwf hwf' in
theorem setExpire (policy : ExpirePolicy) (extra : Int32) (now : TimePoint) :
    SameResult (s.setExpire ns key policy extra now) (s'.setExpire ns key policy extra now) := by
  rw [MemStoreManager.setExpire, MemStoreManager.setExpire, h.entry]
  cases s.entryAt ns key with
  | none => exact ⟨rfl, h⟩
  | some e => exact ⟨rfl, h.modifyEntry ns key _⟩

/-- The loop releases the same bytes, in another order. -/
theorem clearNamespace : SameResult (s.clearNamespace ns) (s'.clearNamespace ns) := by
  have hweigh : ((NestedMap.inner s'.namespaces ns).weigh fun _ e => entryBytes e) =
      (NestedMap.inner s.namespaces ns).weigh fun _ e => entryBytes e :=
    UnorderedMap.weigh_of_find?_eq (h.entry ns) _
  have hreply : (s'.clearNamespace ns).2 = (s.clearNamespace ns).2 := by
    have hreply : ∀ s : MemStoreManager,
        (s.clearNamespace ns).2 = (s.namespaces.find? ns).isSome := by
      intro s
      rw [MemStoreManager.clearNamespace]
      cases s.namespaces.find? ns <;> rfl
    rw [hreply, hreply, h.isSome_namespace ns hwf hwf']
  refine ⟨hreply, ?_, ?_, ?_⟩
  · intro ns' key'
    rw [entryAt_clearNamespace, entryAt_clearNamespace, h.entry]
  · apply UInt32.toNat_inj.mp
    calc (s'.clearNamespace ns).1.usedBytes
        = s'.usedBytes - (NestedMap.inner s'.namespaces ns).weigh fun _ e => entryBytes e :=
          usedBytes_clearNamespace s' ns
      _ = s.usedBytes - (NestedMap.inner s.namespaces ns).weigh fun _ e => entryBytes e := by
          rw [hweigh, usedBytes, h.used, usedBytes]
      _ = (s.clearNamespace ns).1.usedBytes := (usedBytes_clearNamespace s ns).symm
  · rw [(sameRanks_clearNamespace s' ns).limits, (sameRanks_clearNamespace s ns).limits, h.limits]

theorem sweepMapEnd (now : TimePoint) :
    SameEntries (s.sweepMapEnd now) (s'.sweepMapEnd now) where
  entry := by
    intro ns key
    rw [entryAt_sweepMapEnd, entryAt_sweepMapEnd, h.entry]
  used := by
    let bytes : StoreEntry → ℕ := fun e =>
      if (sweepEntry now e).isNone then entryBytes e else 0
    have htotal : NestedMap.total bytes s'.namespaces = NestedMap.total bytes s.namespaces :=
      NestedMap.total_of_at?_eq (fun ns => h.isSome_namespace ns hwf hwf') h.entry bytes
    apply UInt32.toNat_inj.mp
    calc (s'.sweepMapEnd now).usedBytes
        = s'.usedBytes - NestedMap.total bytes s'.namespaces := usedBytes_sweepMapEnd s' now
      _ = s.usedBytes - NestedMap.total bytes s.namespaces := by
          rw [htotal, usedBytes, h.used, usedBytes]
      _ = (s.sweepMapEnd now).usedBytes := (usedBytes_sweepMapEnd s now).symm
  limits := by rw [sweepMapEnd_toLimits, sweepMapEnd_toLimits, h.limits]

/-! ## Methods that read -/

omit hwf hwf' in
theorem erases (now : TimePoint) (erases : Erases) :
    SameEntries (erases.run s now) (erases.run s' now) := by
  cases erases with
  | nothing => exact h
  | entry releases ns key => exact h.findLive ns key releases now
  | fromNamespace invalidates ns => exact h.purgeNamespace ns invalidates now

omit hwf hwf' in
/-- A reader sees the same entries. -/
theorem entryAt_liveView (now : TimePoint) :
    (s'.liveView now).entryAt ns key = (s.liveView now).entryAt ns key := by
  rw [MemStore.entryAt_liveView, MemStore.entryAt_liveView, h.liveAt]

omit hwf hwf' in
theorem answer (alg : StdAlgorithm RankPair) (now : TimePoint) {q : Query}
    (hq : (Op.query q).isKeyValue = true) :
    SameReply (q.answer alg (s.liveView now) now) (q.answer alg (s'.liveView now) now) := by
  have hkeys : ∀ ns key, (((s'.liveView now).namespaces ns).find? key).isSome =
      (((s.liveView now).namespaces ns).find? key).isSome :=
    fun ns key => congrArg Option.isSome (h.entryAt_liveView ns key now)
  cases q with
  | getInt | getFloat | getString | getArray | getArraySize | getKeyType | keyExists =>
      simp only [Query.answer, h.entryAt_liveView]
      exact .same _
  | getTTL ns key =>
      simp only [Query.answer, LiveView.ttl, h.entryAt_liveView]
      exact .same _
  | getNamespaceCount ns =>
      simp only [Query.answer, UnorderedMap.size_congr (hkeys ns)]
      exact .same _
  | getActiveKeys ns => exact .keys (UnorderedMap.keys_perm (hkeys ns))
  | _ => cases hq

omit hwf hwf' in
theorem query (alg : StdAlgorithm RankPair) (now : TimePoint) {q : Query}
    (hq : (Op.query q).isKeyValue = true) :
    SameReply (q.run alg s now).2 (q.run alg s' now).2 ∧
      SameEntries (q.run alg s now).1 (q.run alg s' now).1 := by
  have hstate : ∀ s : MemStoreManager, (q.run alg s now).1 = q.erases.run s now := by
    intro s
    rcases query_state alg s q now with hstate | ⟨hnothing, _⟩
    · exact hstate
    · cases q with
      | getTTL => rfl
      | rankGetScore | rankExists | rankGetPosition | rankGetTop | rankGetCount | rankGetRange =>
          cases hq
      | _ => cases hnothing
  rw [query_reply, query_reply, hstate, hstate]
  exact ⟨h.answer alg now hq, h.erases now q.erases⟩

end SameEntries

/-! ## Calls -/

/-- What a method returns, as the reply of a call. -/
theorem SameResult.reply {α : Type} {r r' : MemStoreManager × α} (h : SameResult r r')
    (reply : α → Reply) :
    SameReply (reply r.2) (reply r'.2) ∧ SameEntries r.1 r'.1 := by
  rw [h.1]
  exact ⟨.same _, h.2⟩

section Calls

variable {alg : StdAlgorithm RankPair} {s s' t : MemStoreManager} {env env' : Env}

theorem SameEntries.write (h : SameEntries s s') (hwf : WellFormed s) (hwf' : WellFormed s')
    {w : Write} (hw : (Op.write w).isKeyValue = true) (hfirst : env'.first = env.first)
    (hsecond : env'.second = env.second) :
    SameReply (w.run s env).2 (w.run s' env').2 ∧
      SameEntries (w.run s env).1 (w.run s' env').1 := by
  have hlength : s'.maxStringLength = s.maxStringLength := congrArg Limits.maxStringLength h.limits
  have hsize : s'.maxArraySize = s.maxArraySize := congrArg Limits.maxArraySize h.limits
  cases w with
  | setInt ns key val policy extra =>
      rw [Write.run, Write.run, hfirst]
      exact (h.storeScalar ns key hwf hwf' env.layout env'.layout _ policy extra _).reply .flag
  | setFloat ns key val policy extra =>
      rw [Write.run, Write.run, hfirst]
      exact (h.storeScalar ns key hwf hwf' env.layout env'.layout _ policy extra _).reply .flag
  | setString ns key val policy extra =>
      simp only [Write.run, hfirst, setString_eq, hlength]
      exact (h.storePayload ns key hwf hwf' env.layout env'.layout _ _ policy extra _).reply .flag
  | setArray ns key data policy extra =>
      simp only [Write.run, hfirst, setArray_eq, hsize]
      exact (h.storePayload ns key hwf hwf' env.layout env'.layout _ _ policy extra _).reply .flag
  | incInt ns key delta policy extra =>
      rw [Write.run, Write.run, hfirst, hsecond]
      have hsetter := h.storeScalar ns key hwf hwf' env.layout env'.layout
        (Value.int delta).fill policy extra env.second
      exact (h.increment ns key _ _ _ _ _ hsetter policy extra _ _).reply .cell
  | incFloat ns key delta policy extra =>
      rw [Write.run, Write.run, hfirst, hsecond]
      have hsetter := h.storeScalar ns key hwf hwf' env.layout env'.layout
        (Value.float delta).fill policy extra env.second
      exact (h.increment ns key _ _ _ _ _ hsetter policy extra _ _).reply .float
  | _ => cases hw

/-- The key-value operations do not see how entries are arranged. -/
theorem SameEntries.exec {op : Op} {reply : Reply} (h : SameEntries s s') (hwf : WellFormed s)
    (hwf' : WellFormed s') (hop : op.isKeyValue = true)
    (hindex : ∀ ns index, op ≠ .getKeyAt ns index) (hfirst : env'.first = env.first)
    (hsecond : env'.second = env.second) (hexec : MemStore.exec alg s env op = some (t, reply)) :
    ∃ t' reply', MemStore.exec alg s' env' op = some (t', reply') ∧ SameReply reply reply' ∧
      SameEntries t t' := by
  cases op with
  | query q =>
      have hrun : q.run alg s env.first = (t, reply) := Option.some.inj hexec
      have hsame := h.query alg env.first hop
      rw [hrun] at hsame
      refine ⟨_, _, ?_, hsame⟩
      rw [MemStore.exec, hfirst]
  | write w =>
      have hrun : w.run s env = (t, reply) := Option.some.inj hexec
      have hsame := h.write hwf hwf' hop hfirst hsecond
      rw [hrun] at hsame
      exact ⟨_, _, rfl, hsame⟩
  | getKeyAt ns index => exact absurd rfl (hindex ns index)
  | deleteKey ns key =>
      cases hexec
      exact ⟨_, _, rfl, (h.deleteKey ns key).reply .flag⟩
  | clearNamespace ns =>
      cases hexec
      exact ⟨_, _, rfl, (h.clearNamespace ns hwf hwf').reply .flag⟩
  | setExpire ns key policy extra =>
      cases hexec
      refine ⟨_, _, rfl, ?_⟩
      rw [hfirst]
      exact (h.setExpire ns key policy extra env.first).reply .flag
  | setLimits =>
      cases hexec
      exact ⟨_, _, rfl, .same _, h.entry, h.used, by rw [h.limits]⟩
  | _ => cases hop

end Calls

end MemStore
