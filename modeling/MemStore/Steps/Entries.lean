import MemStore.Expiry.Slots
import MemStore.Steps.Changes

/-!
# One entry in a step

`Change.entryStep` and `Change.rankStep` say what a call does to the entry
under one key, whatever it does elsewhere: `EntryStep` and `RankStep` list the
cases, which depend on what the request asks of that key (`Request.atKey`,
`Request.atRankKey`) and on the entry that is there.

Both follow `SlotStep` once the values are forgotten; `Change.slotStep` is the
common statement, about a slot of either kind.
-/

namespace MemStore

open MemStoreManager

/-! ## Key-value entries -/

/-- What a request asks of the entry under one key. -/
inductive KeyAction
  | pass
  | reject
  | write (v : Value) (policy : ExpirePolicy) (extra : Int32)
  | increment (delta : Value) (policy : ExpirePolicy) (extra : Int32)
  | reexpire (policy : ExpirePolicy) (extra : Int32)
  | deleteKey
  | clearNamespace
  | clearAll
  | sweep

/-- The part of a request that concerns one key. -/
def Request.atKey (ns' key' : StdString) : Request → KeyAction
  | .reject ns key _ => if ns' = ns ∧ key' = key then .reject else .pass
  | .write ns key v policy extra =>
      if ns' = ns ∧ key' = key then .write v policy extra else .pass
  | .increment ns key delta policy extra =>
      if ns' = ns ∧ key' = key then .increment delta policy extra else .pass
  | .reexpire ns key policy extra =>
      if ns' = ns ∧ key' = key then .reexpire policy extra else .pass
  | .deleteKey ns key => if ns' = ns ∧ key' = key then .deleteKey else .pass
  | .clearNamespace ns => if ns' = ns then .clearNamespace else .pass
  | .sweep => .sweep
  | .clearAll => .clearAll
  | .pass | .read | .setLimits .. | .rankWrite .. | .rankIncrement .. | .rankDelete ..
  | .rankClear .. => .pass

theorem Request.eq_of_atKey_reexpire {req : Request} {ns key : StdString}
    {policy : ExpirePolicy} {extra : Int32}
    (h : req.atKey ns key = .reexpire policy extra) : req = .reexpire ns key policy extra := by
  cases req with
  | reexpire ns' key' policy' extra' =>
      simp only [Request.atKey] at h
      split at h
      · next heq =>
          obtain ⟨rfl, rfl⟩ := heq
          cases h
          rfl
      · cases h
  | reject | write | increment | deleteKey | clearNamespace =>
      simp only [Request.atKey] at h
      split at h <;> cases h
  | _ => cases h

theorem Request.eq_of_atKey_write {req : Request} {ns key : StdString} {v : Value}
    {policy : ExpirePolicy} {extra : Int32}
    (h : req.atKey ns key = .write v policy extra) : req = .write ns key v policy extra := by
  cases req with
  | write ns' key' v' policy' extra' =>
      simp only [Request.atKey] at h
      split at h
      · next heq =>
          obtain ⟨rfl, rfl⟩ := heq
          cases h
          rfl
      · cases h
  | reject | reexpire | increment | deleteKey | clearNamespace =>
      simp only [Request.atKey] at h
      split at h <;> cases h
  | _ => cases h

/-- What a call does to one key-value entry. -/
inductive EntryStep (env : Env) : KeyAction → Option StoreEntry → Option StoreEntry → Prop
  | keep (o : Option StoreEntry) : EntryStep env .pass o o
  | purge {e : StoreEntry} (hexp : e.isExpired env.third = true) :
      EntryStep env .pass (some e) none
  | reject (o : Option StoreEntry) : EntryStep env .reject o o
  | ghost : EntryStep env .reject none (some {})
  | write (o : Option StoreEntry) (v : Value) (policy : ExpirePolicy) (extra : Int32) :
      EntryStep env (.write v policy extra) o
        (some (applyExpiration (v.fill (o.getD {})) policy extra env.first))
  | incDead {o : Option StoreEntry} {delta : Value} (policy : ExpirePolicy) (extra : Int32)
      (hnumber : delta.IsNumber) (hdead : ∀ e, o = some e → e.isExpired env.first = true) :
      EntryStep env (.increment delta policy extra) o
        (some (applyExpiration (delta.fill (o.getD {})) policy extra env.second))
  | incLive {e : StoreEntry} {delta : Value} (policy : ExpirePolicy) (extra : Int32)
      (hnumber : delta.IsNumber) (hlive : e.isExpired env.first = false)
      (htype : e.type = delta.type) :
      EntryStep env (.increment delta policy extra) (some e)
        (some (reapplyExpiration (delta.addTo e) policy extra env.second))
  | reexpire (e : StoreEntry) (policy : ExpirePolicy) (extra : Int32) :
      EntryStep env (.reexpire policy extra) (some e)
        (some (applyExpiration e policy extra env.first))
  | deleteKey (o : Option StoreEntry) : EntryStep env .deleteKey o none
  | clearNamespace (o : Option StoreEntry) : EntryStep env .clearNamespace o none
  | clearAll (o : Option StoreEntry) : EntryStep env .clearAll o none
  | sweep (o : Option StoreEntry) :
      EntryStep env .sweep o (o.bind fun e => sweepEntry env.first e)

/-- Leaving an entry alone or erasing a dead one, twice. -/
private theorem same_or_dropped_trans {ε : Type} {dead : ε → Prop} {o o' o'' : Option ε}
    (h : o' = o ∨ ∃ e, o = some e ∧ dead e ∧ o' = none)
    (h' : o'' = o' ∨ ∃ e, o' = some e ∧ dead e ∧ o'' = none) :
    o'' = o ∨ ∃ e, o = some e ∧ dead e ∧ o'' = none := by
  rcases h with rfl | ⟨e, hentry, hdead, rfl⟩
  · exact h'
  · rcases h' with hsame | ⟨e', hentry', _⟩
    · exact .inr ⟨e, hentry, hdead, hsame⟩
    · cases hentry'

/-- A purge at `now` leaves an entry alone or erases one that is expired from then on. -/
private theorem filter_same_or_dropped {ε : Type} {toExpiration : ε → Expiration}
    {now latest : TimePoint} (hle : now ≤ latest) (o : Option ε) :
    (o.filter fun e => !(toExpiration e).isExpired now) = o ∨
      ∃ e, o = some e ∧ (toExpiration e).isExpired latest = true ∧
        (o.filter fun e => !(toExpiration e).isExpired now) = none := by
  cases o with
  | none => exact .inl rfl
  | some e =>
      cases hexp : (toExpiration e).isExpired now with
      | false => exact .inl (by simp [Option.filter, hexp])
      | true =>
          exact .inr ⟨e, rfl, Expiration.isExpired_of_later hle hexp,
            by simp [Option.filter, hexp]⟩

/-- A read effect leaves an entry alone or erases an expired one. -/
theorem ReadEffect.entryAt {latest : TimePoint} {s s' : MemStoreManager}
    (h : ReadEffect latest s s') (ns' key' : StdString) :
    s'.entryAt ns' key' = s.entryAt ns' key' ∨
      ∃ e, s.entryAt ns' key' = some e ∧ e.isExpired latest = true ∧
        s'.entryAt ns' key' = none := by
  cases h with
  | recache | eraseRank => exact .inl rfl
  | @purgeRank ns now hle =>
      exact .inl ((sameKeyValues_purgeBoard s ns now).entryAt ns' key')
  | @erase ns key e releases hentry hexp =>
      have hsame : (if releases then s.release (getPayloadBytes e) else s).entryAt ns' key' =
          s.entryAt ns' key' := by
        split <;> rfl
      rw [entryAt_eraseEntry, hsame]
      split
      · next heq =>
          obtain ⟨rfl, rfl⟩ := heq
          exact .inr ⟨e, hentry, hexp, rfl⟩
      · exact .inl rfl
  | @purge invalidates ns now hle =>
      rw [entryAt_purgeNamespace]
      split
      · exact filter_same_or_dropped hle _
      · exact .inl rfl

theorem Reads.entryAt {latest : TimePoint} {s s' : MemStoreManager} (h : Reads latest s s')
    (ns' key' : StdString) :
    s'.entryAt ns' key' = s.entryAt ns' key' ∨
      ∃ e, s.entryAt ns' key' = some e ∧ e.isExpired latest = true ∧
        s'.entryAt ns' key' = none := by
  induction h with
  | refl => exact .inl rfl
  | tail _ heffect ih => exact same_or_dropped_trans ih (heffect.entryAt ns' key')

theorem entryAt_clearNamespace (s : MemStoreManager) (ns ns' key' : StdString) :
    (s.clearNamespace ns).1.entryAt ns' key' =
      if ns' = ns then none else s.entryAt ns' key' := by
  cases hfind : s.namespaces.find? ns with
  | none =>
      rw [clearNamespace_of_none hfind]
      split
      · next heq =>
          subst heq
          rw [MemStoreManager.entryAt, NestedMap.at?, NestedMap.inner_of_find?_none hfind]
          rfl
      · rfl
  | some keyMap =>
      obtain ⟨used, hclear⟩ := clearNamespace_of_some hfind
      rw [hclear]
      exact NestedMap.at?_erase ..

theorem entryAt_sweepMapEnd (s : MemStoreManager) (now : TimePoint) (ns key : StdString) :
    (s.sweepMapEnd now).entryAt ns key =
      (s.entryAt ns key).bind fun e => sweepEntry now e := by
  obtain ⟨used, hsweep⟩ := sweepMapEnd_eq s now
  rw [hsweep]
  exact NestedMap.at?_retainAll ..

/-- A step on the entry the condition singles out, and none on the others. -/
private theorem entryStep_ite {env : Env} {p : Prop} [Decidable p] {a : KeyAction}
    {o o' : Option StoreEntry} (h : p → EntryStep env a o o') :
    EntryStep env (if p then a else .pass) o (if p then o' else o) := by
  split
  · next hp => exact h hp
  · exact .keep o

/-- What a call does to the entry under one key. -/
theorem Change.entryStep {env : Env} {s s' : MemStoreManager} {req : Request}
    (h : Change env s req s') (ns' key' : StdString) :
    EntryStep env (req.atKey ns' key') (s.entryAt ns' key') (s'.entryAt ns' key') := by
  cases h with
  | read hreads =>
      rcases hreads.entryAt ns' key' with hsame | ⟨e, hentry, hexp, hnone⟩
      · rw [hsame]
        exact .keep _
      · rw [hentry, hnone]
        exact .purge hexp
  | same | setLimits | rankWrote | rankIncAbsent | rankIncExpired | rankIncLive | rankDeleted
  | rankCleared => exact .keep _
  | refused ns key v hlimit =>
      rw [Request.atKey]
      split
      · exact .reject _
      · exact .keep _
  | touched ns key v hlimit hquota =>
      rw [entryAt_touch]
      refine entryStep_ite fun heq => ?_
      obtain ⟨rfl, rfl⟩ := heq
      -- the reference inserts an entry if there is none
      cases s.entryAt ns' key' with
      | none => exact .ghost
      | some e => exact .reject _
  | wrote ns key v policy extra hlimit hquota =>
      rw [entryAt_overwrite]
      refine entryStep_ite fun heq => ?_
      obtain ⟨rfl, rfl⟩ := heq
      exact .write _ v policy extra
  | incAbsent ns key delta policy extra hnumber habsent hlimit =>
      rw [entryAt_overwrite]
      refine entryStep_ite fun heq => ?_
      obtain ⟨rfl, rfl⟩ := heq
      rw [habsent]
      exact .incDead policy extra hnumber fun e he => by cases he
  | @incExpired ns key delta policy extra e hnumber hentry hexp =>
      rw [← hnumber.overwrite_of_entryAt hentry env.layout, entryAt_overwrite]
      refine entryStep_ite fun heq => ?_
      obtain ⟨rfl, rfl⟩ := heq
      rw [hentry]
      exact .incDead policy extra hnumber fun e' he' => by rwa [← Option.some.inj he']
  | @incLive ns key delta policy extra e hnumber hentry hlive htype =>
      rw [entryAt_modifyEntry]
      refine entryStep_ite fun heq => ?_
      obtain ⟨rfl, rfl⟩ := heq
      rw [hentry]
      exact .incLive policy extra hnumber hlive htype
  | @reexpired ns key policy extra e hentry =>
      rw [entryAt_modifyEntry]
      refine entryStep_ite fun heq => ?_
      obtain ⟨rfl, rfl⟩ := heq
      rw [hentry]
      exact .reexpire e policy extra
  | @deleted ns key e hentry =>
      rw [entryAt_eraseEntry]
      exact entryStep_ite fun _ => .deleteKey _
  | cleared ns =>
      rw [entryAt_clearNamespace]
      exact entryStep_ite fun _ => .clearNamespace _
  | swept =>
      rw [entryAt_sweepMapEnd]
      exact .sweep _
  | wiped => exact .clearAll _

/-- What is not stored can be deleted or given an expiration, but that asks for no
write. -/
theorem MemStoreManager.Lacks.atKey {s : MemStoreManager} {req : Request} (h : s.Lacks req)
    (ns' key' : StdString) :
    req.atKey ns' key' = .pass ∨ s.entryAt ns' key' = none ∧
      ∀ v policy extra, req.atKey ns' key' ≠ .write v policy extra ∧
        req.atKey ns' key' ≠ .increment v policy extra := by
  cases req with
  | deleteKey ns key | reexpire ns key policy extra =>
      rw [Request.atKey]
      split
      · next heq =>
          obtain ⟨rfl, rfl⟩ := heq
          exact .inr ⟨h, by simp⟩
      · exact .inl rfl
  | clearNamespace ns =>
      rw [Request.atKey]
      split
      · next heq =>
          obtain rfl := heq
          exact .inr ⟨h key', by simp⟩
      · exact .inl rfl
  | rankDelete | rankClear => exact .inl rfl
  | _ => exact h.elim

/-! ## Rank entries -/

/-- What a request asks of one rank entry. -/
inductive RankAction
  | pass
  | write (score : Cell) (policy : ExpirePolicy) (extra : Int32)
  | increment (delta : Cell) (policy : ExpirePolicy) (extra : Int32)
  | delete
  | clear
  | clearAll
  | sweep

/-- The part of a request that concerns one rank entry. -/
def Request.atRankKey (ns' key' : StdString) : Request → RankAction
  | .rankWrite ns key score policy extra =>
      if ns' = ns ∧ key' = key then .write score policy extra else .pass
  | .rankIncrement ns key delta policy extra =>
      if ns' = ns ∧ key' = key then .increment delta policy extra else .pass
  | .rankDelete ns key => if ns' = ns ∧ key' = key then .delete else .pass
  | .rankClear ns => if ns' = ns then .clear else .pass
  | .sweep => .sweep
  | .clearAll => .clearAll
  | .pass | .read | .setLimits .. | .reject .. | .write .. | .increment .. | .reexpire ..
  | .deleteKey .. | .clearNamespace .. => .pass

theorem Request.eq_of_atRankKey_write {req : Request} {ns key : StdString} {score : Cell}
    {policy : ExpirePolicy} {extra : Int32}
    (h : req.atRankKey ns key = .write score policy extra) :
    req = .rankWrite ns key score policy extra := by
  cases req with
  | rankWrite ns' key' score' policy' extra' =>
      simp only [Request.atRankKey] at h
      split at h
      · next heq =>
          obtain ⟨rfl, rfl⟩ := heq
          cases h
          rfl
      · cases h
  | rankIncrement | rankDelete | rankClear =>
      simp only [Request.atRankKey] at h
      split at h <;> cases h
  | _ => cases h

theorem Request.eq_of_atRankKey_increment {req : Request} {ns key : StdString} {delta : Cell}
    {policy : ExpirePolicy} {extra : Int32}
    (h : req.atRankKey ns key = .increment delta policy extra) :
    req = .rankIncrement ns key delta policy extra := by
  cases req with
  | rankIncrement ns' key' delta' policy' extra' =>
      simp only [Request.atRankKey] at h
      split at h
      · next heq =>
          obtain ⟨rfl, rfl⟩ := heq
          cases h
          rfl
      · cases h
  | rankWrite | rankDelete | rankClear =>
      simp only [Request.atRankKey] at h
      split at h <;> cases h
  | _ => cases h

/-- What a call does to one rank entry; `sequence` is the next sequence number. -/
inductive RankStep (env : Env) (sequence : UInt64) :
    RankAction → Option RankEntry → Option RankEntry → Prop
  | keep (o : Option RankEntry) : RankStep env sequence .pass o o
  | purge {e : RankEntry} (hexp : e.isExpired env.third = true) :
      RankStep env sequence .pass (some e) none
  | write (o : Option RankEntry) (score : Cell) (policy : ExpirePolicy) (extra : Int32) :
      RankStep env sequence (.write score policy extra) o
        (some (applyRankExpiration { o.getD {} with score := score, sequence := sequence } policy
          extra env.first))
  | incDead {o : Option RankEntry} (delta : Cell) (policy : ExpirePolicy) (extra : Int32)
      (hdead : ∀ e, o = some e → e.isExpired env.first = true) :
      RankStep env sequence (.increment delta policy extra) o
        (some (applyRankExpiration { o.getD {} with score := delta, sequence := sequence } policy
          extra env.second))
  | incLive {e : RankEntry} (delta : Cell) (policy : ExpirePolicy) (extra : Int32)
      (hlive : e.isExpired env.first = false) :
      RankStep env sequence (.increment delta policy extra) (some e)
        (some (reapplyRankExpiration { e with score := e.score + delta, sequence := sequence }
          policy extra env.second))
  | delete (o : Option RankEntry) : RankStep env sequence .delete o none
  | clear (o : Option RankEntry) : RankStep env sequence .clear o none
  | clearAll (o : Option RankEntry) : RankStep env sequence .clearAll o none
  | sweep (o : Option RankEntry) :
      RankStep env sequence .sweep o (o.bind fun e => sweepRankEntry env.first e)

theorem ReadEffect.rankAt {latest : TimePoint} {s s' : MemStoreManager}
    (h : ReadEffect latest s s') (ns' key' : StdString) :
    s'.rankAt ns' key' = s.rankAt ns' key' ∨
      ∃ e, s.rankAt ns' key' = some e ∧ e.isExpired latest = true ∧
        s'.rankAt ns' key' = none := by
  cases h with
  | recache => exact .inl rfl
  | @erase ns key e releases hentry hexp =>
      refine .inl (SameRanks.rankAt ?_ ns' key')
      cases releases <;> exact ⟨by simp, by simp, by simp⟩
  | @purge invalidates ns now hle =>
      exact .inl ((sameRanks_purgeNamespace invalidates s ns now).rankAt ns' key')
  | @eraseRank ns key e hentry hexp =>
      rw [rankAt_eraseRankEntry]
      split
      · next heq =>
          obtain ⟨rfl, rfl⟩ := heq
          exact .inr ⟨e, hentry, hexp, rfl⟩
      · exact .inl rfl
  | @purgeRank ns now hle =>
      rw [rankAt_purgeBoard]
      split
      · exact filter_same_or_dropped hle _
      · exact .inl rfl

theorem Reads.rankAt {latest : TimePoint} {s s' : MemStoreManager} (h : Reads latest s s')
    (ns' key' : StdString) :
    s'.rankAt ns' key' = s.rankAt ns' key' ∨
      ∃ e, s.rankAt ns' key' = some e ∧ e.isExpired latest = true ∧
        s'.rankAt ns' key' = none := by
  induction h with
  | refl => exact .inl rfl
  | tail _ heffect ih => exact same_or_dropped_trans ih (heffect.rankAt ns' key')

theorem rankAt_sweepMapEnd (s : MemStoreManager) (now : TimePoint) (ns key : StdString) :
    (s.sweepMapEnd now).rankAt ns key =
      (s.rankAt ns key).bind fun e => sweepRankEntry now e := by
  obtain ⟨used, hsweep⟩ := sweepMapEnd_eq s now
  rw [hsweep]
  exact NestedMap.at?_retainAll ..

/-- What an action makes of a rank entry, at up to two readings of the clock. -/
def RankAction.result (now₀ now₁ : TimePoint) (sequence : UInt64) :
    RankAction → Option RankEntry → Option RankEntry
  | .pass, o => o
  | .write score policy extra, o =>
      some (applyRankExpiration { o.getD {} with score := score, sequence := sequence } policy
        extra now₀)
  | .increment delta policy extra, none =>
      some (applyRankExpiration { score := delta, sequence := sequence } policy extra now₁)
  | .increment delta policy extra, some e =>
      if e.isExpired now₀ then
        some (applyRankExpiration { e with score := delta, sequence := sequence } policy extra
          now₁)
      else
        some (reapplyRankExpiration { e with score := e.score + delta, sequence := sequence }
          policy extra now₁)
  | .delete, _ | .clear, _ | .clearAll, _ => none
  | .sweep, o => o.bind fun e => sweepRankEntry now₀ e

theorem RankAction.rankStep_result (env : Env) (sequence : UInt64) (a : RankAction)
    (o : Option RankEntry) :
    RankStep env sequence a o (a.result env.first env.second sequence o) := by
  cases a with
  | pass => exact .keep o
  | write score policy extra => exact .write o score policy extra
  | increment delta policy extra =>
      cases o with
      | none => exact .incDead delta policy extra fun e he => by cases he
      | some e =>
          rw [RankAction.result]
          split
          · next hexp =>
              exact .incDead delta policy extra fun e' he' => by rwa [← Option.some.inj he']
          · next hlive => exact .incLive delta policy extra (Bool.eq_false_iff.mpr hlive)
  | delete => exact .delete o
  | clear => exact .clear o
  | clearAll => exact .clearAll o
  | sweep => exact .sweep o

private theorem result_ite {now₀ now₁ : TimePoint} {sequence : UInt64} {p : Prop} [Decidable p]
    {a : RankAction} {o o' : Option RankEntry} (h : p → o' = a.result now₀ now₁ sequence o) :
    (if p then o' else o) = (if p then a else .pass).result now₀ now₁ sequence o := by
  split
  · next hp => exact h hp
  · rfl

/-- Unless a call only reads, what it does to a rank entry depends on the entry,
the counter and the clock alone. -/
theorem Change.rankAt_eq {env : Env} {s s' : MemStoreManager} {req : Request}
    (h : Change env s req s') (hread : req ≠ .read) (ns' key' : StdString) :
    s'.rankAt ns' key' = (req.atRankKey ns' key').result env.first env.second
      (s.rankSequenceCounter + 1) (s.rankAt ns' key') := by
  cases h with
  | read => exact absurd rfl hread
  | same | setLimits | refused | touched | wrote | incAbsent | incExpired | incLive
  | reexpired => rfl
  | @deleted ns key e hentry =>
      have hsame : SameRanks s ((s.release (getPayloadBytes e)).eraseEntry ns key) :=
        ⟨by simp, by simp, by simp⟩
      exact hsame.rankAt ns' key'
  | cleared ns => exact (sameRanks_clearNamespace s ns).rankAt ns' key'
  | rankWrote ns key score policy extra hlimit =>
      rw [rankAt_rankStore]
      refine result_ite fun heq => ?_
      obtain ⟨rfl, rfl⟩ := heq
      rfl
  | rankIncAbsent ns key delta policy extra habsent hlimit =>
      rw [rankAt_rankStore]
      refine result_ite fun heq => ?_
      obtain ⟨rfl, rfl⟩ := heq
      rw [habsent]
      rfl
  | @rankIncExpired ns key delta policy extra e hentry hexp =>
      rw [rankAt_rankTouch]
      refine result_ite fun heq => ?_
      obtain ⟨rfl, rfl⟩ := heq
      rw [hentry, RankAction.result, if_pos hexp]
      rfl
  | @rankIncLive ns key delta policy extra e hentry hlive =>
      rw [rankAt_rankTouch]
      refine result_ite fun heq => ?_
      obtain ⟨rfl, rfl⟩ := heq
      rw [hentry, RankAction.result, if_neg (Bool.eq_false_iff.mp hlive)]
      rfl
  | rankDeleted ns key hentry =>
      rw [rankAt_eraseRankEntry]
      exact result_ite fun _ => rfl
  | rankCleared ns =>
      have herase : MemStoreManager.rankAt { s with ranks := s.ranks.erase ns } ns' key' =
          if ns' = ns then none else s.rankAt ns' key' := NestedMap.at?_erase ..
      rw [herase]
      exact result_ite fun _ => rfl
  | swept =>
      rw [rankAt_sweepMapEnd]
      rfl
  | wiped => rfl

/-- What a call does to the rank entry under one key. -/
theorem Change.rankStep {env : Env} {s s' : MemStoreManager} {req : Request}
    (h : Change env s req s') (ns' key' : StdString) :
    RankStep env (s.rankSequenceCounter + 1) (req.atRankKey ns' key') (s.rankAt ns' key')
      (s'.rankAt ns' key') := by
  by_cases hread : req = .read
  · subst hread
    cases h with
    | read hreads =>
        rcases hreads.rankAt ns' key' with hsame | ⟨e, hentry, hexp, hnone⟩
        · rw [hsame]
          exact .keep _
        · rw [hentry, hnone]
          exact .purge hexp
  · rw [h.rankAt_eq hread]
    exact RankAction.rankStep_result ..

/-- To delete what is not stored changes nothing. -/
theorem MemStoreManager.Lacks.rankStep {s : MemStoreManager} {req : Request} (h : s.Lacks req)
    (env : Env) (sequence : UInt64) (ns' key' : StdString) :
    RankStep env sequence (req.atRankKey ns' key') (s.rankAt ns' key') (s.rankAt ns' key') := by
  cases req with
  | rankDelete ns key =>
      rw [Request.atRankKey]
      split
      · next heq =>
          obtain ⟨rfl, rfl⟩ := heq
          have hnone : s.rankAt ns' key' = none := h
          rw [hnone]
          exact .delete _
      · exact .keep _
  | rankClear ns =>
      rw [Request.atRankKey]
      split
      · next heq =>
          obtain rfl := heq
          have hnone : s.rankAt ns' key' = none := h key'
          rw [hnone]
          exact .clear _
      · exact .keep _
  | deleteKey | clearNamespace | reexpire => exact .keep _
  | _ => exact h.elim

/-- A step that asks nothing of a key leaves its live entry as it is. -/
theorem Change.liveRankAt_of_pass {env : Env} {s s' : MemStoreManager} {req : Request}
    {ns key : StdString} {now : TimePoint} (h : Change env s req s') (hle : env.third ≤ now)
    (hpass : req.atRankKey ns key = .pass) :
    s'.liveRankAt now ns key = s.liveRankAt now ns key := by
  have hstep := h.rankStep ns key
  rw [hpass] at hstep
  unfold liveRankAt
  generalize s.rankAt ns key = o at hstep ⊢
  generalize s'.rankAt ns key = o' at hstep ⊢
  cases hstep with
  | keep => rfl
  | purge hexp => simp [Option.filter, Expiration.isExpired_of_later hle hexp]

/-! ## Slots of either kind -/

/-- The place of one entry. -/
inductive Slot
  | keyValue (ns key : StdString)
  | rank (ns key : StdString)

/-- The expiration of the entry in a slot. -/
def MemStoreManager.expirationAt (s : MemStoreManager) : Slot → Option Expiration
  | .keyValue ns key => (s.entryAt ns key).map fun e => e.toExpiration
  | .rank ns key => (s.rankAt ns key).map fun e => e.toExpiration

theorem MemStoreManager.expirationAt_of_entryAt {s : MemStoreManager} {ns key : StdString}
    {e : StoreEntry} (h : s.entryAt ns key = some e) :
    s.expirationAt (.keyValue ns key) = some e.toExpiration := by
  rw [expirationAt, h, Option.map_some]

theorem MemStoreManager.expirationAt_of_rankAt {s : MemStoreManager} {ns key : StdString}
    {e : RankEntry} (h : s.rankAt ns key = some e) :
    s.expirationAt (.rank ns key) = some e.toExpiration := by
  rw [expirationAt, h, Option.map_some]

def KeyAction.slot : KeyAction → SlotAction
  | .pass => .pass
  | .reject => .reject
  | .write _ policy extra => .write policy extra
  | .increment _ policy extra => .increment policy extra
  | .reexpire policy extra => .reexpire policy extra
  | .deleteKey | .clearNamespace | .clearAll => .remove
  | .sweep => .sweep

def RankAction.slot : RankAction → SlotAction
  | .pass => .pass
  | .write _ policy extra => .write policy extra
  | .increment _ policy extra => .increment policy extra
  | .delete | .clear | .clearAll => .remove
  | .sweep => .sweep

/-- What a request asks of a slot. -/
def Request.atSlot (req : Request) : Slot → SlotAction
  | .keyValue ns key => (req.atKey ns key).slot
  | .rank ns key => (req.atRankKey ns key).slot

private theorem toExpiration_getD (o : Option StoreEntry) :
    (o.getD {}).toExpiration = (o.map fun e => e.toExpiration).getD {} := by
  cases o <;> rfl

private theorem toExpiration_getD_rank (o : Option RankEntry) :
    (o.getD {}).toExpiration = (o.map fun e => e.toExpiration).getD {} := by
  cases o <;> rfl

theorem toExpiration_reapplyExpiration (e : StoreEntry) (policy : ExpirePolicy) (extra : Int32)
    (now : TimePoint) : (reapplyExpiration e policy extra now).toExpiration =
      e.toExpiration.reapply policy extra now := by
  unfold reapplyExpiration Expiration.reapply
  split <;> rfl

theorem toExpiration_reapplyRankExpiration (e : RankEntry) (policy : ExpirePolicy)
    (extra : Int32) (now : TimePoint) :
    (reapplyRankExpiration e policy extra now).toExpiration =
      e.toExpiration.reapply policy extra now := by
  unfold reapplyRankExpiration Expiration.reapply
  split <;> rfl

@[simp] theorem score_reapplyRankExpiration (e : RankEntry) (policy : ExpirePolicy)
    (extra : Int32) (now : TimePoint) : (reapplyRankExpiration e policy extra now).score =
      e.score := by
  unfold reapplyRankExpiration
  split <;> rfl

@[simp] theorem sequence_reapplyRankExpiration (e : RankEntry) (policy : ExpirePolicy)
    (extra : Int32) (now : TimePoint) : (reapplyRankExpiration e policy extra now).sequence =
      e.sequence := by
  unfold reapplyRankExpiration
  split <;> rfl

private theorem dead_map {ε : Type} {toExpiration : ε → Expiration} {o : Option ε}
    {now : TimePoint} (h : ∀ e, o = some e → (toExpiration e).isExpired now = true) :
    Dead (o.map toExpiration) now := by
  intro x hx
  obtain ⟨e, he, rfl⟩ := Option.map_eq_some_iff.mp hx
  exact h e he

theorem EntryStep.slotStep {env : Env} {a : KeyAction} {o o' : Option StoreEntry}
    (h : EntryStep env a o o') :
    SlotStep env a.slot (o.map fun e => e.toExpiration) (o'.map fun e => e.toExpiration) := by
  cases h with
  | keep => exact .keep _
  | purge hexp => exact .purge hexp
  | reject => exact .reject _
  | ghost => exact .ghost
  | write o v policy extra =>
      have h : SlotStep env _ _ _ := .write (o.map fun e => e.toExpiration) policy extra
      rwa [← toExpiration_getD, ← Value.toExpiration_fill v] at h
  | @incDead o delta policy extra hnumber hdead =>
      have h : SlotStep env _ _ _ := .incDead policy extra (dead_map hdead)
      rwa [← toExpiration_getD, ← Value.toExpiration_fill delta] at h
  | incLive policy extra hnumber hlive htype =>
      rw [Option.map_some, Option.map_some, toExpiration_reapplyExpiration,
        Value.toExpiration_addTo]
      exact .incLive policy extra hlive
  | reexpire e policy extra => exact .reexpire e.toExpiration policy extra
  | deleteKey | clearNamespace | clearAll => exact .remove _
  | sweep =>
      cases o with
      | none => exact .sweep none
      | some e =>
          have hsweep : (sweepEntry env.first e).map (fun e => e.toExpiration) =
              e.toExpiration.sweep env.first := by
            rw [sweepEntry, Option.map_map]
            exact Option.map_id'
          have h : SlotStep env _ _ _ := .sweep (some e.toExpiration)
          rwa [Option.bind_some, ← hsweep] at h

theorem RankStep.slotStep {env : Env} {sequence : UInt64} {a : RankAction}
    {o o' : Option RankEntry} (h : RankStep env sequence a o o') :
    SlotStep env a.slot (o.map fun e => e.toExpiration) (o'.map fun e => e.toExpiration) := by
  cases h with
  | keep => exact .keep _
  | purge hexp => exact .purge hexp
  | write o score policy extra =>
      have h : SlotStep env _ _ _ := .write (o.map fun e => e.toExpiration) policy extra
      rwa [← toExpiration_getD_rank] at h
  | @incDead o delta policy extra hdead =>
      have h : SlotStep env _ _ _ := .incDead policy extra (dead_map hdead)
      rwa [← toExpiration_getD_rank] at h
  | incLive delta policy extra hlive =>
      rw [Option.map_some, Option.map_some, toExpiration_reapplyRankExpiration]
      exact .incLive policy extra hlive
  | delete | clear | clearAll => exact .remove _
  | sweep =>
      cases o with
      | none => exact .sweep none
      | some e =>
          have hsweep : (sweepRankEntry env.first e).map (fun e => e.toExpiration) =
              e.toExpiration.sweep env.first := by
            rw [sweepRankEntry, Option.map_map]
            exact Option.map_id'
          have h : SlotStep env _ _ _ := .sweep (some e.toExpiration)
          rwa [Option.bind_some, ← hsweep] at h

/-- What a call does to one slot. -/
theorem Change.slotStep {env : Env} {s s' : MemStoreManager} {req : Request}
    (h : Change env s req s') (slot : Slot) :
    SlotStep env (req.atSlot slot) (s.expirationAt slot) (s'.expirationAt slot) := by
  cases slot with
  | keyValue ns key => exact (h.entryStep ns key).slotStep
  | rank ns key => exact (h.rankStep ns key).slotStep

end MemStore
