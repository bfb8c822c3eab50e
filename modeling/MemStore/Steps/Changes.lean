import MemStore.Expiry.Lifetime
import MemStore.KeyValue.KeyCache
import MemStore.Ranking.Edits
import MemStore.Steps.Requests
import Mathlib.Logic.Relation

/-!
# What a call can do

`exec_change` says once what a call does to the manager: `Change` lists the
new manager for each `Request`, with the conditions under which it arises.
Facts about runs are proved from it, one case for each constructor, and no
later proof unfolds a method.

Reads are a chain of `ReadEffect`s.  There are five of them, and all but the
first erase entries that have expired by the end of the call.
-/

namespace MemStore

open MemStoreManager

/-- One thing a read may do, up to the clock reading `latest`. -/
inductive ReadEffect (latest : TimePoint) (s : MemStoreManager) : MemStoreManager → Prop
  | recache (keyCaches : UnorderedMap StdString KeyCache) :
      ReadEffect latest s { s with keyCaches := keyCaches }
  | erase {ns key : StdString} {e : StoreEntry} (releases : Bool)
      (hentry : s.entryAt ns key = some e) (hexp : e.isExpired latest = true) :
      ReadEffect latest s
        ((if releases then s.release (getPayloadBytes e) else s).eraseEntry ns key)
  | purge (invalidates : Bool) (ns : StdString) {now : TimePoint} (hle : now ≤ latest) :
      ReadEffect latest s (s.purgeNamespace invalidates ns now).1
  | eraseRank {ns key : StdString} {e : RankEntry} (hentry : s.rankAt ns key = some e)
      (hexp : e.isExpired latest = true) : ReadEffect latest s (s.eraseRankEntry ns key)
  | purgeRank (ns : StdString) {now : TimePoint} (hle : now ≤ latest) :
      ReadEffect latest s (s.purgeBoard ns now).1

/-- What a read may do. -/
abbrev Reads (latest : TimePoint) : MemStoreManager → MemStoreManager → Prop :=
  Relation.ReflTransGen (ReadEffect latest)

/-- What a call that came to the given request does. -/
inductive Change (env : Env) (s : MemStoreManager) : Request → MemStoreManager → Prop
  | same : Change env s .pass s
  | read {s' : MemStoreManager} (hreads : Reads env.third s s') : Change env s .read s'
  | setLimits (maxKeysPerNs maxArraySize maxStringLen maxNamespaces maxMemoryMb : SizeT) :
      Change env s
        (.setLimits maxKeysPerNs maxArraySize maxStringLen maxNamespaces maxMemoryMb)
        { s with
          toLimits := s.toLimits.setLimits maxKeysPerNs maxArraySize maxStringLen maxNamespaces
            maxMemoryMb }
  | refused (ns key : StdString) (v : Value)
      (hlimit : s.checkNamespaceKeyLimit ns key = false) : Change env s (.reject ns key v) s
  | touched (ns key : StdString) (v : Value) (hlimit : s.checkNamespaceKeyLimit ns key = true)
      (hquota : s.quotaExceeded v.bytes (getPayloadBytes ((s.entryAt ns key).getD {})) = true) :
      Change env s (.reject ns key v) (s.touch env.layout ns key)
  | wrote (ns key : StdString) (v : Value) (policy : ExpirePolicy) (extra : Int32)
      (hlimit : s.checkNamespaceKeyLimit ns key = true)
      (hquota : v.IsNumber ∨
        s.quotaExceeded v.bytes (getPayloadBytes ((s.entryAt ns key).getD {})) = false) :
      Change env s (.write ns key v policy extra)
        (s.overwrite env.layout ns key v.fill v.bytes policy extra env.first)
  | incAbsent (ns key : StdString) (delta : Value) (policy : ExpirePolicy) (extra : Int32)
      (hnumber : delta.IsNumber) (habsent : s.entryAt ns key = none)
      (hlimit : s.checkNamespaceKeyLimit ns key = true) :
      Change env s (.increment ns key delta policy extra)
        (s.overwrite env.layout ns key delta.fill delta.bytes policy extra env.second)
  | incExpired (ns key : StdString) (delta : Value) (policy : ExpirePolicy) (extra : Int32)
      {e : StoreEntry} (hnumber : delta.IsNumber) (hentry : s.entryAt ns key = some e)
      (hexp : e.isExpired env.first = true) :
      Change env s (.increment ns key delta policy extra)
        (((s.release (getPayloadBytes e)).modifyEntry ns key fun e =>
          applyExpiration (delta.fill e) policy extra env.second).invalidateKeyCache ns)
  | incLive (ns key : StdString) (delta : Value) (policy : ExpirePolicy) (extra : Int32)
      {e : StoreEntry} (hnumber : delta.IsNumber) (hentry : s.entryAt ns key = some e)
      (hlive : e.isExpired env.first = false) (htype : e.type = delta.type) :
      Change env s (.increment ns key delta policy extra)
        (s.modifyEntry ns key fun e =>
          reapplyExpiration (delta.addTo e) policy extra env.second)
  | reexpired (ns key : StdString) (policy : ExpirePolicy) (extra : Int32) {e : StoreEntry}
      (hentry : s.entryAt ns key = some e) :
      Change env s (.reexpire ns key policy extra)
        (s.modifyEntry ns key fun e => applyExpiration e policy extra env.first)
  | deleted (ns key : StdString) {e : StoreEntry} (hentry : s.entryAt ns key = some e) :
      Change env s (.deleteKey ns key)
        ((s.release (getPayloadBytes e)).eraseEntry ns key)
  | cleared (ns : StdString) : Change env s (.clearNamespace ns) (s.clearNamespace ns).1
  | rankWrote (ns key : StdString) (score : Cell) (policy : ExpirePolicy) (extra : Int32)
      (hlimit : s.checkRankLimit ns key = true) :
      Change env s (.rankWrite ns key score policy extra)
        (s.rankStore env.layout ns key score policy extra env.first)
  | rankIncAbsent (ns key : StdString) (delta : Cell) (policy : ExpirePolicy) (extra : Int32)
      (habsent : s.rankAt ns key = none) (hlimit : s.checkRankLimit ns key = true) :
      Change env s (.rankIncrement ns key delta policy extra)
        (s.rankStore env.layout ns key delta policy extra env.second)
  | rankIncExpired (ns key : StdString) (delta : Cell) (policy : ExpirePolicy) (extra : Int32)
      {e : RankEntry} (hentry : s.rankAt ns key = some e) (hexp : e.isExpired env.first = true) :
      Change env s (.rankIncrement ns key delta policy extra)
        (s.rankTouch ns key fun sequence e =>
          applyRankExpiration { e with score := delta, sequence := sequence } policy extra
            env.second)
  | rankIncLive (ns key : StdString) (delta : Cell) (policy : ExpirePolicy) (extra : Int32)
      {e : RankEntry} (hentry : s.rankAt ns key = some e)
      (hlive : e.isExpired env.first = false) :
      Change env s (.rankIncrement ns key delta policy extra)
        (s.rankTouch ns key fun sequence e =>
          reapplyRankExpiration { e with score := e.score + delta, sequence := sequence } policy
            extra env.second)
  | rankDeleted (ns key : StdString) {e : RankEntry} (hentry : s.rankAt ns key = some e) :
      Change env s (.rankDelete ns key) (s.eraseRankEntry ns key)
  | rankCleared (ns : StdString) :
      Change env s (.rankClear ns) { s with ranks := s.ranks.erase ns }
  | swept : Change env s .sweep (s.sweepMapEnd env.first)
  | wiped : Change env s .clearAll s.clearAll

/-! ## The reads -/

theorem reads_findLive (releases : Bool) (s : MemStoreManager) (ns key : StdString)
    {now latest : TimePoint} (hle : now ≤ latest) :
    Reads latest s (s.findLive releases ns key now).1 := by
  cases hentry : s.entryAt ns key with
  | none => rw [findLive_of_none hentry]
  | some e =>
      cases hexp : e.isExpired now with
      | false => rw [findLive_of_live hentry hexp]
      | true =>
          rw [findLive_of_expired hentry hexp]
          exact .single (.erase releases hentry (Expiration.isExpired_of_later hle hexp))

/-- What a read operation may erase among the key-values: the expired entry
under one key, with or without releasing its payload, or all expired entries of
a namespace, with or without invalidating the key cache. -/
inductive Erases
  | nothing
  | entry (releases : Bool) (ns key : StdString)
  | fromNamespace (invalidates : Bool) (ns : StdString)

def Query.erases : Query → Erases
  | .getInt ns key _ | .getFloat ns key _ => .entry false ns key
  | .getString ns key _ | .getArray ns key _ | .getArraySize ns key => .entry true ns key
  | .getKeyType ns key | .keyExists ns key => .entry false ns key
  | .getNamespaceCount ns => .fromNamespace true ns
  | .getActiveKeys ns => .fromNamespace false ns
  | .getTTL .. | .rankGetScore .. | .rankExists .. | .rankGetPosition .. | .rankGetTop ..
  | .rankGetCount .. | .rankGetRange .. => .nothing

/-- The manager after erasing. -/
def Erases.run (s : MemStoreManager) (now : TimePoint) : Erases → MemStoreManager
  | .nothing => s
  | .entry releases ns key => (s.findLive releases ns key now).1
  | .fromNamespace invalidates ns => (s.purgeNamespace invalidates ns now).1

/-- A read operation does what it erases among the key-values, and something to
the leaderboards. -/
theorem query_state (alg : StdAlgorithm RankPair) (s : MemStoreManager) (q : Query)
    (now : TimePoint) :
    (q.run alg s now).1 = q.erases.run s now ∨
      q.erases = .nothing ∧ ((∃ ns, (q.run alg s now).1 = (s.purgeBoard ns now).1) ∨
        ∃ ns key e, s.rankAt ns key = some e ∧ e.isExpired now = true ∧
          (q.run alg s now).1 = s.eraseRankEntry ns key) := by
  cases q with
  | getInt | getFloat | getString | getArray | getNamespaceCount | getActiveKeys | getTTL =>
      exact .inl rfl
  | getArraySize ns key =>
      refine .inl ?_
      simp only [Query.run, getArraySize, Query.erases, Erases.run]
      split <;> next hfind => rw [hfind]
  | getKeyType ns key =>
      refine .inl ?_
      simp only [Query.run, getKeyType, Query.erases, Erases.run]
      split <;> next hfind => rw [hfind]
  | keyExists ns key =>
      refine .inl ?_
      simp only [Query.run, keyExists, Query.erases, Erases.run]
      split <;> next hfind => rw [hfind]
  | rankGetScore ns key | rankExists ns key =>
      simp only [Query.run, rankExists, rankGetScore]
      split
      · exact .inl rfl
      · next e hentry =>
          split
          · next hexp => exact .inr ⟨rfl, .inr ⟨ns, key, e, hentry, hexp, rfl⟩⟩
          · exact .inl rfl
  | rankGetPosition ns key order =>
      simp only [Query.run, rankGetPosition]
      split
      · exact .inl rfl
      · next e hentry =>
          split
          · next hexp => exact .inr ⟨rfl, .inr ⟨ns, key, e, hentry, hexp, rfl⟩⟩
          · exact .inr ⟨rfl, .inl ⟨ns, rfl⟩⟩
  | rankGetTop ns rankPos order =>
      simp only [Query.run, rankGetTop]
      split
      · exact .inl rfl
      · split <;> exact .inr ⟨rfl, .inl ⟨ns, rfl⟩⟩
  | rankGetCount ns => exact .inr ⟨rfl, .inl ⟨ns, rfl⟩⟩
  | rankGetRange ns startPos count order =>
      simp only [Query.run, rankGetRange]
      split
      · exact .inl rfl
      · split
        · exact .inr ⟨rfl, .inl ⟨ns, rfl⟩⟩
        · split <;> exact .inr ⟨rfl, .inl ⟨ns, rfl⟩⟩

/-- Every read operation is a chain of read effects. -/
theorem reads_query (alg : StdAlgorithm RankPair) (s : MemStoreManager) (q : Query)
    {now latest : TimePoint} (hle : now ≤ latest) : Reads latest s (q.run alg s now).1 := by
  rcases query_state alg s q now with h | ⟨_, ⟨ns, h⟩ | ⟨ns, key, e, hentry, hexp, h⟩⟩
  · rw [h]
    cases q.erases with
    | nothing => exact .refl
    | entry releases ns key => exact reads_findLive releases s ns key hle
    | fromNamespace invalidates ns => exact .single (.purge invalidates ns hle)
  · rw [h]
    exact .single (.purgeRank ns hle)
  · rw [h]
    exact .single (.eraseRank hentry (Expiration.isExpired_of_later hle hexp))

theorem reads_rebuildKeyCache {s s' : MemStoreManager} {ns : StdString} {now latest : TimePoint}
    (hle : now ≤ latest) (h : s.rebuildKeyCache ns now = some s') : Reads latest s s' := by
  obtain ⟨_, rfl⟩ := rebuildKeyCache_eq_some h
  exact .tail (.single (.purge false ns hle)) (.recache _)

theorem reads_slotRead {s s' : MemStoreManager} {ns : StdString} {index : ℕ}
    {now₁ now₂ : TimePoint} {keys : List StdString} {r : Option StdString} (hle : now₁ ≤ now₂)
    (h : SlotRead s ns index now₁ now₂ keys s' r) : Reads now₂ s s' := by
  cases h with
  | outside | live => exact .refl
  | stale hslot hdead hrebuild =>
      exact (reads_findLive false s ns _ hle).trans (reads_rebuildKeyCache le_rfl hrebuild)

theorem reads_getKeyAt {s s' : MemStoreManager} {layout : Layout} {ns : StdString} {index : ℕ}
    {now₀ now₁ now₂ : TimePoint} {r : Option StdString} (hle₀ : now₀ ≤ now₁)
    (hle₁ : now₁ ≤ now₂) (h : s.getKeyAt layout ns index now₀ now₁ now₂ = some (s', r)) :
    Reads now₂ s s' := by
  rcases getKeyAt_cases h with ⟨_, rfl, _⟩ | ⟨keys, _, hread⟩ | ⟨_, s₁, hrebuild, hread⟩
  · exact .refl
  · exact reads_slotRead hle₁ hread
  · exact .head (.recache (s.keyCaches.upsert layout ns {} fun cache => cache))
      ((reads_rebuildKeyCache (hle₀.trans hle₁) hrebuild).trans (reads_slotRead hle₁ hread))

/-! ## The writes -/

section Writes

variable (env : Env) (s : MemStoreManager) (ns key : StdString) (policy : ExpirePolicy)
  (extra : Int32)

theorem setString_eq (layout : Layout) (val : StdString) (now : TimePoint) :
    s.setString layout ns key val policy extra now =
      s.storePayload layout ns key
        (Value.string (val.take s.maxStringLength.toNat)).fill
        (Value.string (val.take s.maxStringLength.toNat)).bytes policy extra now := by
  unfold setString
  dsimp only
  split
  · rfl
  · next hle =>
      rw [List.take_of_length_le (Nat.not_lt.mp hle)]
      rfl

theorem setArray_eq (layout : Layout) (data : List Cell) (now : TimePoint) :
    s.setArray layout ns key data policy extra now =
      s.storePayload layout ns key
        (Value.array (data.take s.maxArraySize.toNat)).fill
        (Value.array (data.take s.maxArraySize.toNat)).bytes policy extra now := by
  have htake : data.take (min data.length s.maxArraySize.toNat) =
      data.take s.maxArraySize.toNat := by
    rw [Nat.min_comm, ← List.take_take, List.take_length]
  have hlength : (data.take s.maxArraySize.toNat).length =
      min data.length s.maxArraySize.toNat := by
    rw [List.length_take, Nat.min_comm]
  unfold setArray
  dsimp only
  rw [htake, ← hlength]
  rfl

theorem incInt_eq (layout : Layout) (delta : Cell) (now₀ now₁ : TimePoint) :
    s.incInt layout ns key delta policy extra now₀ now₁ =
      s.increment ns key (Value.int delta).type (Value.int delta).fill (Value.int delta).addTo
        (fun e => e.cellValue) delta
        (s.storeScalar layout ns key (Value.int delta).fill policy extra now₁) policy extra
        now₀ now₁ := rfl

theorem incFloat_eq (layout : Layout) (delta : Float32) (now₀ now₁ : TimePoint) :
    s.incFloat layout ns key delta policy extra now₀ now₁ =
      s.increment ns key (Value.float delta).type (Value.float delta).fill
        (Value.float delta).addTo (fun e => e.floatValue) delta
        (s.storeScalar layout ns key (Value.float delta).fill policy extra now₁) policy extra
        now₀ now₁ := rfl

/-- The setters without a payload. -/
theorem change_storeScalar {v : Value} (hnumber : v.IsNumber) :
    Change env s
      (if (s.storeScalar env.layout ns key v.fill policy extra env.first).2
        then .write ns key v policy extra else .pass)
      (s.storeScalar env.layout ns key v.fill policy extra env.first).1 := by
  unfold storeScalar
  cases hlimit : s.checkNamespaceKeyLimit ns key with
  | false => exact .same
  | true =>
      have h : Change env s _ _ := .wrote ns key v policy extra hlimit (.inl hnumber)
      rwa [hnumber.bytes_eq_zero] at h

/-- The setters with a payload. -/
theorem change_storePayload (v : Value) :
    Change env s
      (if (s.storePayload env.layout ns key v.fill v.bytes policy extra env.first).2
        then .write ns key v policy extra else .reject ns key v)
      (s.storePayload env.layout ns key v.fill v.bytes policy extra env.first).1 := by
  unfold storePayload
  cases hlimit : s.checkNamespaceKeyLimit ns key with
  | false => exact .refused ns key v hlimit
  | true =>
      cases hquota : s.quotaExceeded v.bytes (getPayloadBytes ((s.entryAt ns key).getD {})) with
      | true => exact .touched ns key v hlimit hquota
      | false => exact .wrote ns key v policy extra hlimit (.inr hquota)

/-- The increments of a key-value entry. -/
theorem change_increment {α : Type} (value : StoreEntry → α) (d : α) {delta : Value}
    (hnumber : delta.IsNumber) :
    Change env s
      (if (s.increment ns key delta.type delta.fill delta.addTo value d
          (s.storeScalar env.layout ns key delta.fill policy extra env.second) policy extra
          env.first env.second).2.isSome
        then .increment ns key delta policy extra else .pass)
      (s.increment ns key delta.type delta.fill delta.addTo value d
        (s.storeScalar env.layout ns key delta.fill policy extra env.second) policy extra
        env.first env.second).1 := by
  unfold increment
  cases hentry : s.entryAt ns key with
  | none =>
      unfold storeScalar
      cases hlimit : s.checkNamespaceKeyLimit ns key with
      | false => exact .same
      | true =>
          have h : Change env s _ _ :=
            .incAbsent ns key delta policy extra hnumber hentry hlimit
          rwa [hnumber.bytes_eq_zero] at h
  | some e =>
      -- an expired entry is overwritten whatever its type is; only a live one of another
      -- type stops the increment
      cases hexp : e.isExpired env.first with
      | true =>
          simp only [hexp, if_true]
          exact .incExpired ns key delta policy extra hnumber hentry hexp
      | false =>
          by_cases htype : e.type = delta.type
          · simp only [hexp, Bool.false_eq_true, if_false, htype, ne_eq, not_true_eq_false]
            exact .incLive ns key delta policy extra hnumber hentry hexp htype
          · simp only [hexp, Bool.false_eq_true, if_false, htype, ne_eq, not_false_eq_true,
              if_true]
            exact .same

theorem change_rankInc (hpos : 0 < s.maxKeysPerNamespace) (delta : Cell) :
    Change env s
      (if (s.rankInc env.layout ns key delta policy extra env.first env.second).2.isSome
        then .rankIncrement ns key delta policy extra else .pass)
      (s.rankInc env.layout ns key delta policy extra env.first env.second).1 := by
  unfold rankInc
  cases hentry : s.rankAt ns key with
  | none =>
      simp only [rankSet_eq hpos]
      cases hlimit : s.checkRankLimit ns key with
      | false => exact .same
      | true => exact .rankIncAbsent ns key delta policy extra hentry hlimit
  | some e =>
      cases hexp : e.isExpired env.first with
      | true =>
          simp only [hexp, if_true]
          exact .rankIncExpired ns key delta policy extra hentry hexp
      | false =>
          simp only [hexp, Bool.false_eq_true, if_false]
          exact .rankIncLive ns key delta policy extra hentry hexp

theorem change_write (hpos : 0 < s.maxKeysPerNamespace) (w : Write) :
    Change env s ((Op.write w).outcome s.toLimits (w.run s env).2) (w.run s env).1 := by
  cases w with
  | setInt ns key val policy extra =>
      have h := change_storeScalar env s ns key policy extra (.int val)
      exact h
  | setFloat ns key val policy extra =>
      have h := change_storeScalar env s ns key policy extra (.float val)
      exact h
  | setString ns key val policy extra =>
      have h := change_storePayload env s ns key policy extra
        (.string (val.take s.maxStringLength.toNat))
      rw [← setString_eq] at h
      exact h
  | setArray ns key data policy extra =>
      have h := change_storePayload env s ns key policy extra
        (.array (data.take s.maxArraySize.toNat))
      rw [← setArray_eq] at h
      exact h
  | incInt ns key delta policy extra =>
      have h := change_increment env s ns key policy extra (fun e => e.cellValue) delta
        (.int delta)
      rw [← incInt_eq] at h
      exact h
  | incFloat ns key delta policy extra =>
      have h := change_increment env s ns key policy extra (fun e => e.floatValue) delta
        (.float delta)
      rw [← incFloat_eq] at h
      exact h
  | rankSet ns key score policy extra =>
      simp only [Write.run, rankSet_eq hpos]
      cases hlimit : s.checkRankLimit ns key with
      | false => exact .same
      | true => exact .rankWrote ns key score policy extra hlimit
  | rankInc ns key delta policy extra => exact change_rankInc env s ns key policy extra hpos delta

end Writes

/-- Every call is a change. -/
theorem exec_change {alg : StdAlgorithm RankPair} {s s' : MemStoreManager} {env : Env} {op : Op}
    {reply : Reply} (hpos : 0 < s.maxKeysPerNamespace)
    (h : exec alg s env op = some (s', reply)) :
    Change env s (op.outcome s.toLimits reply) s' := by
  cases op with
  | query q =>
      obtain ⟨rfl, rfl⟩ : (q.run alg s env.first).1 = s' ∧ (q.run alg s env.first).2 = reply := by
        rw [Option.some.inj h]
        exact ⟨rfl, rfl⟩
      have hrequest : (Op.query q).outcome s.toLimits (q.run alg s env.first).2 = .read :=
        ite_self _
      rw [hrequest]
      exact .read (reads_query alg s q env.first_le_third)
  | write w =>
      obtain ⟨rfl, rfl⟩ : (w.run s env).1 = s' ∧ (w.run s env).2 = reply := by
        rw [Option.some.inj h]
        exact ⟨rfl, rfl⟩
      exact change_write env s hpos w
  | getKeyAt ns index =>
      obtain ⟨_, hkey, hr⟩ := Option.map_eq_some_iff.mp h
      cases hr
      exact .read (reads_getKeyAt env.first_le env.second_le hkey)
  | deleteKey ns key =>
      cases h
      unfold deleteKey
      split
      · exact .same
      · next hentry => exact .deleted ns key hentry
  | clearNamespace ns =>
      cases h
      cases hfind : s.namespaces.find? ns with
      | none =>
          simp only [clearNamespace, hfind]
          exact .same
      | some keyMap =>
          -- the flag tells whether the namespace was stored
          have hflag : (s.clearNamespace ns).2 = true := by simp [clearNamespace, hfind]
          rw [hflag]
          exact .cleared ns
  | setExpire ns key policy extra =>
      cases h
      unfold setExpire
      split
      · exact .same
      · next hentry => exact .reexpired ns key policy extra hentry
  | rankDelete ns key =>
      cases h
      unfold rankDelete
      split
      · exact .same
      · next hentry => exact .rankDeleted ns key hentry
  | rankClear ns =>
      cases h
      unfold rankClear
      split
      · exact .same
      · exact .rankCleared ns
  | getMemoryStats =>
      cases h
      exact .same
  | setLimits a b c d e =>
      cases h
      exact .setLimits a b c d e
  | sweepMapEnd =>
      cases h
      exact .swept
  | clearAll =>
      cases h
      exact .wiped
  | flushAll =>
      cases h
      exact .wiped

/-! ## What is entered -/

/-- Nothing is stored of what a request is about. -/
def MemStoreManager.Lacks (s : MemStoreManager) : Request → Prop
  | .deleteKey ns key | .reexpire ns key _ _ => s.entryAt ns key = none
  | .clearNamespace ns => ∀ key, s.entryAt ns key = none
  | .rankDelete ns key => s.rankAt ns key = none
  | .rankClear ns => ∀ key, s.rankAt ns key = none
  | _ => False

/-- A call is entered as what it came to, unless there was nothing to do and it did
nothing. -/
theorem exec_entered {alg : StdAlgorithm RankPair} {s s' : MemStoreManager} {env : Env} {op : Op}
    {reply : Reply} (limits : Limits) (h : exec alg s env op = some (s', reply)) :
    op.entered limits reply = op.outcome limits reply ∨
      s' = s ∧ s.Lacks (op.entered limits reply) := by
  cases op with
  | write w => exact .inl rfl
  | query q => exact .inl (ite_self _).symm
  | getKeyAt ns index => exact .inl (ite_self _).symm
  | deleteKey ns key =>
      cases h
      unfold deleteKey
      split
      · next hentry => exact .inr ⟨rfl, hentry⟩
      · exact .inl rfl
  | clearNamespace ns =>
      cases h
      cases hfind : s.namespaces.find? ns with
      | none =>
          rw [clearNamespace_of_none hfind]
          exact .inr ⟨rfl, NestedMap.at?_of_find?_none hfind⟩
      | some keyMap =>
          obtain ⟨used, hclear⟩ := clearNamespace_of_some hfind
          rw [hclear]
          exact .inl rfl
  | setExpire ns key policy extra =>
      cases h
      unfold setExpire
      split
      · next hentry => exact .inr ⟨rfl, hentry⟩
      · exact .inl rfl
  | rankDelete ns key =>
      cases h
      unfold rankDelete
      split
      · next hentry => exact .inr ⟨rfl, hentry⟩
      · exact .inl rfl
  | rankClear ns =>
      cases h
      unfold rankClear
      split
      · next hfind => exact .inr ⟨rfl, NestedMap.at?_of_find?_none hfind⟩
      · exact .inl rfl
  | getMemoryStats | setLimits | sweepMapEnd | clearAll | flushAll =>
      cases h
      exact .inl rfl

end MemStore
