import MemStore.KeyValue.Independence
import MemStore.Ranking.Leaderboard

/-!
# Managers that cannot be told apart

The replies about leaderboards show how ties are broken, but not the stamps by
which they are.  Two managers are `Alike` if they differ in the stamps of their
rank entries only, and break the same ties the same way.

* `Alike.step`: a call that erases the same entries in both, or stamps the same
  one, leads to managers that are alike again.  A tie that comes up later is one
  with an entry that has been written again, and then its stamp is the latest one
  in both managers.
* `Alike.call`: whatever is called, the replies are the same.  The boards need
  not be arranged the same way for that (`SameCall`).
* `Alike.run` puts the calls of a run together.
-/

namespace MemStore

open MemStoreManager

/-! ## The relation -/

/-- A rank entry without its stamp. -/
def RankEntry.unstamped (e : RankEntry) : RankEntry := { e with sequence := 0 }

theorem score_congr {e e' : RankEntry} (h : e'.unstamped = e.unstamped) : e'.score = e.score := by
  have hscore : e'.unstamped.score = e.unstamped.score := by rw [h]
  exact hscore

theorem isExpired_congr {e e' : RankEntry} (h : e'.unstamped = e.unstamped) (now : TimePoint) :
    e'.isExpired now = e.isExpired now := by
  have hexp : e'.unstamped.isExpired now = e.unstamped.isExpired now := by rw [h]
  exact hexp

/-- Two managers that differ in their stamps only, and not in how these break the ties. -/
structure Alike (s s' : MemStoreManager) : Prop where
  keyValues : SameKeyValues s s'
  entry : ∀ ns key,
    (s'.rankAt ns key).map RankEntry.unstamped = (s.rankAt ns key).map RankEntry.unstamped
  tie : ∀ ns key e e' key' f f', s.rankAt ns key = some e → s'.rankAt ns key = some e' →
    s.rankAt ns key' = some f → s'.rankAt ns key' = some f' → e.score = f.score →
      (e'.sequence < f'.sequence ↔ e.sequence < f.sequence)

section Relation

variable {s s' : MemStoreManager} {ns key : StdString}

/-- The entry of the other manager. -/
theorem Alike.exists_rankAt (h : Alike s s') {e : RankEntry} (he : s.rankAt ns key = some e) :
    ∃ e', s'.rankAt ns key = some e' ∧ e'.unstamped = e.unstamped := by
  have hentry := h.entry ns key
  rw [he, Option.map_some] at hentry
  exact Option.map_eq_some_iff.mp hentry

theorem Alike.rankAt_eq_none (h : Alike s s') (hnone : s.rankAt ns key = none) :
    s'.rankAt ns key = none := by
  have hentry := h.entry ns key
  rw [hnone, Option.map_none] at hentry
  exact Option.map_eq_none_iff.mp hentry

theorem Alike.isSome_rankAt (h : Alike s s') (ns key : StdString) :
    (s'.rankAt ns key).isSome = (s.rankAt ns key).isSome := by
  have hentry := congrArg Option.isSome (h.entry ns key)
  rwa [Option.isSome_map, Option.isSome_map] at hentry

theorem Alike.symm (h : Alike s s') : Alike s' s where
  keyValues := h.keyValues.symm
  entry := fun ns key => (h.entry ns key).symm
  tie := by
    intro ns key e' e key' f' f he' he hf' hf hscore
    refine (h.tie ns key e e' key' f f' he he' hf hf' ?_).symm
    obtain ⟨e₁, he₁, hesame⟩ := h.exists_rankAt he
    obtain ⟨f₁, hf₁, hfsame⟩ := h.exists_rankAt hf
    cases he'.symm.trans he₁
    cases hf'.symm.trans hf₁
    exact (score_congr hesame).symm.trans (hscore.trans (score_congr hfsame))

theorem unstamped_filter (o : Option RankEntry) (now : TimePoint) :
    (o.filter fun e => !e.isExpired now).map RankEntry.unstamped =
      (o.map RankEntry.unstamped).filter fun e => !e.isExpired now := by
  rw [Option.filter_map]
  rfl

theorem Alike.liveEntry (h : Alike s s') (now : TimePoint) (ns key : StdString) :
    (s'.liveRankAt now ns key).map RankEntry.unstamped =
      (s.liveRankAt now ns key).map RankEntry.unstamped := by
  rw [liveRankAt, liveRankAt, unstamped_filter, unstamped_filter, h.entry]

/-- The boards of both managers are the same to a reader. -/
theorem Alike.sameBoard (h : Alike s s') (now : TimePoint) (ns : StdString) :
    SameBoard (s.liveView now) (s'.liveView now) ns where
  score := by
    intro key
    have hentry := congrArg (Option.map RankEntry.score) (h.liveEntry now ns key)
    rw [Option.map_map, Option.map_map] at hentry
    rw [rankAt_liveView, rankAt_liveView]
    exact hentry
  tie := by
    intro key e e' key' f f' he he' hf hf'
    rw [rankAt_liveView] at he he' hf hf'
    exact h.tie ns key e e' key' f f' (liveRankAt_eq_some_iff.mp he).1
      (liveRankAt_eq_some_iff.mp he').1 (liveRankAt_eq_some_iff.mp hf).1
      (liveRankAt_eq_some_iff.mp hf').1

/-- An entry has score and stamp from before, or is one of the stamped ones. -/
def Stamps (stamped : StdString → StdString → Prop) (sequence : UInt64)
    (s t : MemStoreManager) : Prop :=
  ∀ ns key e', t.rankAt ns key = some e' →
    (¬ stamped ns key ∧ ∃ e, s.rankAt ns key = some e ∧ e'.score = e.score ∧
      e'.sequence = e.sequence) ∨ stamped ns key ∧ e'.sequence = sequence

/-- Erasing the same entries and stamping the same ones, with a new stamp, keeps
managers alike. -/
theorem Alike.step {t t' : MemStoreManager} {stamped : StdString → StdString → Prop}
    {sequence : UInt64} (h : Alike s s') (hkeyValues : SameKeyValues t t')
    (hentry : ∀ ns key,
      (t'.rankAt ns key).map RankEntry.unstamped = (t.rankAt ns key).map RankEntry.unstamped)
    (hstamps : Stamps stamped sequence s t) (hstamps' : Stamps stamped sequence s' t')
    (hfresh : ∀ {ns key}, stamped ns key → ∀ {ns key e},
      s.rankAt ns key = some e ∨ s'.rankAt ns key = some e → e.sequence < sequence) :
    Alike t t' where
  keyValues := hkeyValues
  entry := hentry
  tie := by
    intro ns key e e' key' f f' he he' hf hf' hscore
    rcases hstamps ns key e he with ⟨hnot, e₀, he₀, hescore, heseq⟩ | ⟨hstamped, heseq⟩
    · rcases hstamps' ns key e' he' with ⟨_, e₀', he₀', _, heseq'⟩ | ⟨hstamped, _⟩
      · rcases hstamps ns key' f hf with ⟨hnot', f₀, hf₀, hfscore, hfseq⟩ | ⟨hstamped, hfseq⟩
        · rcases hstamps' ns key' f' hf' with ⟨_, f₀', hf₀', _, hfseq'⟩ | ⟨hstamped, _⟩
          · -- both keys have their scores and stamps from before
            rw [heseq, heseq', hfseq, hfseq']
            rw [hescore, hfscore] at hscore
            exact h.tie ns key e₀ e₀' key' f₀ f₀' he₀ he₀' hf₀ hf₀' hscore
          · exact absurd hstamped hnot'
        · rcases hstamps' ns key' f' hf' with ⟨hnot', _⟩ | ⟨_, hfseq'⟩
          · exact absurd hstamped hnot'
          · rw [heseq, heseq', hfseq, hfseq']
            exact iff_of_true (hfresh hstamped (.inr he₀')) (hfresh hstamped (.inl he₀))
      · exact absurd hstamped hnot
    · rcases hstamps' ns key e' he' with ⟨hnot, _⟩ | ⟨_, heseq'⟩
      · exact absurd hstamped hnot
      · -- no stamp is later than the new one
        rw [heseq, heseq']
        have hlate : ∀ {s t : MemStoreManager} {f : RankEntry}, Stamps stamped sequence s t →
            t.rankAt ns key' = some f →
            (∀ {ns key e}, s.rankAt ns key = some e → e.sequence < sequence) →
            ¬ sequence < f.sequence := by
          intro s t f hstamps hf hold
          rcases hstamps ns key' f hf with ⟨_, f₀, hf₀, _, hfseq⟩ | ⟨_, hfseq⟩
          · rw [hfseq]
            exact UInt64.lt_asymm (hold hf₀)
          · rw [hfseq]
            exact UInt64.lt_irrefl _
        exact iff_of_false
          (hlate hstamps' hf' fun he => hfresh hstamped (.inr he))
          (hlate hstamps hf fun he => hfresh hstamped (.inl he))

end Relation

/-! ## Calls that do more than read -/

/-- What an action makes of an entry does not depend on the stamps, but for the stamp. -/
private theorem result_unstamped (a : RankAction) (now₀ now₁ : TimePoint) (sequence : UInt64)
    (o : Option RankEntry) :
    (a.result now₀ now₁ sequence o).map RankEntry.unstamped =
      (a.result now₀ now₁ 0 (o.map RankEntry.unstamped)).map RankEntry.unstamped := by
  cases a with
  | pass | write => cases o <;> rfl
  | increment delta policy extra =>
      cases o with
      | none => rfl
      | some e =>
          rw [Option.map_some, RankAction.result, RankAction.result,
            show e.unstamped.isExpired now₀ = e.isExpired now₀ from rfl]
          split
          · rfl
          · unfold reapplyRankExpiration
            split <;> rfl
  | delete | clear | clearAll => rfl
  | sweep =>
      cases o with
      | none => rfl
      | some e =>
          rw [Option.map_some, RankAction.result, RankAction.result, Option.bind_some,
            Option.bind_some, sweepRankEntry, sweepRankEntry, Option.map_map, Option.map_map]
          rfl

theorem RankAction.result_congr (a : RankAction) (now₀ now₁ : TimePoint)
    (sequence sequence' : UInt64) {o o' : Option RankEntry}
    (h : o'.map RankEntry.unstamped = o.map RankEntry.unstamped) :
    (a.result now₀ now₁ sequence' o').map RankEntry.unstamped =
      (a.result now₀ now₁ sequence o).map RankEntry.unstamped := by
  rw [result_unstamped, h, ← result_unstamped]

theorem Change.stamps {env : Env} {s t : MemStoreManager} {req : Request}
    (h : Change env s req t) :
    Stamps (fun ns key => (req.atRankKey ns key).stamps) (s.rankSequenceCounter + 1) s t :=
  fun ns key _ he' => (h.rankStep ns key).origin he'

section Calls

variable {s s' t t' : MemStoreManager} {n : ℕ}

/-- A call that comes to the same request in both managers. -/
theorem Alike.change {env env' : Env} {req : Request} (h : Alike s s') (hs : Sequenced n s)
    (hs' : Sequenced n s') (hn : req.countRankWrites n < 2 ^ 64) (hread : req ≠ .read)
    (hfirst : env'.first = env.first) (hsecond : env'.second = env.second)
    (hchange : Change env s req t) (hchange' : Change env' s' req t')
    (hkeyValues : SameKeyValues t t') : Alike t t' := by
  have hstamps' := hchange'.stamps
  rw [hs.counter_eq hs'] at hstamps'
  refine h.step hkeyValues (fun ns key => ?_) hchange.stamps hstamps' ?_
  · rw [hchange.rankAt_eq hread, hchange'.rankAt_eq hread, hfirst, hsecond]
    exact RankAction.result_congr _ _ _ _ _ (h.entry ns key)
  · intro ns key hstamped ns' key' e he
    rw [Request.countRankWrites_of_stamps n hstamped] at hn
    rcases he with he | he
    · exact hs.lt_next hn he
    · have hlt := hs'.lt_next hn he
      rwa [hs.counter_eq hs'] at hlt

/-- The key-value operations do not see the difference. -/
theorem Alike.exec_keyValue {alg : StdAlgorithm RankPair} {env : Env} {op : Op} {reply : Reply}
    (h : Alike s s') (hop : op.isKeyValue = true)
    (hexec : exec alg s env op = some (t, reply)) :
    ∃ t', exec alg s' env op = some (t', reply) ∧ Alike t t' := by
  have hranks : ∀ ns key, t.rankAt ns key = s.rankAt ns key := by
    intro ns key
    rw [rankAt, (exec_ranks hop hexec).1, rankAt]
  refine ⟨t.withRanks s', ?_, ⟨rfl, rfl, rfl, rfl⟩, ?_, ?_⟩
  · rw [eq_withRanks h.keyValues, exec_withRanks s _ env hop, hexec]
    rfl
  · intro ns key
    rw [hranks]
    exact h.entry ns key
  · intro ns key e e' key' f f' he he' hf hf'
    rw [hranks] at he hf
    exact h.tie ns key e e' key' f f' he he' hf hf'

end Calls

/-! ## Reading a leaderboard -/

/-- Whether a read operation erases an entry that has expired. -/
def Query.purges (s : MemStoreManager) (now : TimePoint) (ns' key' : StdString) : Query → Bool
  | .rankGetScore ns key | .rankExists ns key => ns' = ns ∧ key' = key
  | .rankGetPosition ns key _ => ns' = ns ∧ (key' = key ∨ (s.liveRankAt now ns key).isSome)
  | .rankGetTop ns rankPos _ => ns' = ns ∧ ¬ rankPos < 1
  | .rankGetCount ns => ns' = ns
  | .rankGetRange ns startPos count _ => ns' = ns ∧ ¬ (startPos < 1 ∨ count = 0)
  | _ => false

section Queries

variable {alg : StdAlgorithm RankPair} (s : MemStoreManager) (now : TimePoint)
  (ns key ns' key' : StdString)

private theorem rankAt_rankGetScore : (s.rankGetScore ns key now).1.rankAt ns' key' =
    if ns' = ns ∧ key' = key then (s.rankAt ns' key').filter fun e => !e.isExpired now
    else s.rankAt ns' key' := by
  unfold rankGetScore
  cases hentry : s.rankAt ns key with
  | none =>
      dsimp only
      split
      · next heq => rw [heq.1, heq.2, hentry, Option.filter_none]
      · rfl
  | some e =>
      dsimp only
      split
      · next hexp =>
          rw [rankAt_eraseRankEntry]
          split
          · next heq =>
              rw [heq.1, heq.2, hentry]
              simp [Option.filter, hexp]
          · rfl
      · next hlive =>
          split
          · next heq =>
              rw [heq.1, heq.2, hentry]
              simp [Option.filter, hlive]
          · rfl

/-- `RankGetPosition` loops over the board only if the key is live. -/
private theorem rankGetPosition_state (order : RankOrder) :
    (s.rankGetPosition ns key order now).1 =
      if (s.liveRankAt now ns key).isSome then (s.purgeBoard ns now).1
      else (s.rankGetScore ns key now).1 := by
  rw [rankGetPosition, rankGetScore, liveRankAt]
  cases s.rankAt ns key with
  | none => rfl
  | some e => cases hexp : e.isExpired now <;> simp [Option.filter, hexp]

/-- What a read operation on leaderboards makes of an entry. -/
theorem rankAt_query {q : Query} (hq : (Op.query q).isKeyValue = false) :
    (q.run alg s now).1.rankAt ns' key' =
      if q.purges s now ns' key' then (s.rankAt ns' key').filter fun e => !e.isExpired now
      else s.rankAt ns' key' := by
  cases q with
  | rankGetScore ns key | rankExists ns key =>
      simp only [Query.purges, decide_eq_true_eq]
      exact rankAt_rankGetScore s now ns key ns' key'
  | rankGetPosition ns key order =>
      simp only [Query.run, rankGetPosition_state, Query.purges, decide_eq_true_eq]
      split
      · next hlive =>
          simp only [hlive, or_true, and_true]
          exact rankAt_purgeBoard ..
      · next hdead =>
          simp only [hdead, Bool.false_eq_true, or_false]
          exact rankAt_rankGetScore s now ns key ns' key'
  | rankGetCount ns =>
      simp only [Query.purges, decide_eq_true_eq]
      exact rankAt_purgeBoard ..
  | rankGetTop ns rankPos order =>
      simp only [Query.run, rankGetTop, Query.purges, decide_eq_true_eq]
      split
      · next hlow => simp only [hlow, not_true_eq_false, and_false, if_false]
      · next hpos =>
          simp only [apply_ite Prod.fst, ite_self, hpos, not_false_eq_true, and_true]
          exact rankAt_purgeBoard ..
  | rankGetRange ns startPos count order =>
      simp only [Query.run, rankGetRange, Query.purges, decide_eq_true_eq]
      split
      · next hnothing => simp only [hnothing, not_true_eq_false, and_false, if_false]
      · next hsome =>
          simp only [apply_ite Prod.fst, ite_self, hsome, not_false_eq_true, and_true]
          exact rankAt_purgeBoard ..
  | _ => cases hq

/-- A read operation on leaderboards leaves the key-values alone. -/
theorem sameKeyValues_query {q : Query} (hq : (Op.query q).isKeyValue = false) :
    SameKeyValues s (q.run alg s now).1 := by
  have hnothing : q.erases = .nothing := by
    cases q with
    | rankGetScore | rankExists | rankGetPosition | rankGetTop | rankGetCount | rankGetRange => rfl
    | _ => cases hq
  rcases query_state alg s q now with h | ⟨_, ⟨ns, h⟩ | ⟨ns, key, e, _, _, h⟩⟩
  · rw [h, hnothing]
    exact SameKeyValues.refl s
  · rw [h]
    exact sameKeyValues_purgeBoard s ns now
  · rw [h]
    exact sameKeyValues_eraseRankEntry s ns key

end Queries

/-- Boards that are the same give the same replies. -/
theorem SameBoard.answer {alg : StdAlgorithm RankPair} {view view' : LiveView} {now : TimePoint}
    {q : Query} (hq : (Op.query q).isKeyValue = false) (hsame : ∀ ns, SameBoard view view' ns)
    (h : ∀ ns, Stamped (view.ranks ns)) (h' : ∀ ns, Stamped (view'.ranks ns)) :
    q.answer alg view' now = q.answer alg view now := by
  have hleaderboard : ∀ ns (order : RankOrder),
      view'.leaderboard ns order = view.leaderboard ns order := fun ns order =>
    (hsame ns).leaderboard (h ns) (h' ns)
  cases q with
  | rankGetScore ns key => exact congrArg Reply.cell ((hsame ns).score key)
  | rankExists ns key => exact congrArg Reply.flag ((hsame ns).isSome_rankAt key)
  | rankGetPosition ns key order => exact congrArg Reply.count ((hsame ns).position key)
  | rankGetTop ns rankPos order =>
      exact congrArg Reply.top
        (top_of_leaderboard (h ns) (h' ns) (hleaderboard ns order) alg rankPos)
  | rankGetCount ns =>
      exact congrArg Reply.count (UnorderedMap.size_congr (hsame ns).isSome_rankAt)
  | rankGetRange ns startPos count order =>
      exact congrArg Reply.range
        (range_of_leaderboard (h ns) (h' ns) (hleaderboard ns order) alg startPos count)
  | _ => cases hq

theorem Alike.query {alg : StdAlgorithm RankPair} {s s' : MemStoreManager} {n : ℕ} {q : Query}
    (h : Alike s s') (hs : Sequenced n s) (hs' : Sequenced n s') (now : TimePoint)
    (hq : (Op.query q).isKeyValue = false) :
    (q.run alg s' now).2 = (q.run alg s now).2 ∧
      Alike (q.run alg s now).1 (q.run alg s' now).1 := by
  have hpurges : ∀ ns key, q.purges s' now ns key = q.purges s now ns key := by
    intro ns key
    cases q with
    | rankGetPosition =>
        simp only [Query.purges, ← rankAt_liveView, (h.sameBoard now _).isSome_rankAt]
    | _ => rfl
  have hstamps : ∀ s : MemStoreManager,
      Stamps (fun _ _ => False) (s.rankSequenceCounter + 1) s (q.run alg s now).1 := by
    intro s ns key e he
    refine .inl ⟨id, e, ?_, rfl, rfl⟩
    rw [rankAt_query s now ns key hq] at he
    split at he
    · exact (Option.filter_eq_some_iff.mp he).1
    · exact he
  constructor
  · rw [query_reply, query_reply]
    exact SameBoard.answer hq (h.sameBoard now) (stamped_of_sequenced hs now)
      (stamped_of_sequenced hs' now)
  · have hkeyValues : SameKeyValues (q.run alg s now).1 (q.run alg s' now).1 :=
      (sameKeyValues_query s now hq).symm.trans
        (h.keyValues.trans (sameKeyValues_query s' now hq))
    have hstamps' := hstamps s'
    rw [hs.counter_eq hs'] at hstamps'
    refine h.step hkeyValues (fun ns key => ?_) (hstamps s) hstamps' fun hstamped => hstamped.elim
    rw [rankAt_query s now ns key hq, rankAt_query s' now ns key hq, hpurges]
    split
    · rw [unstamped_filter, unstamped_filter, h.entry]
    · exact h.entry ns key

/-! ## The other operations on leaderboards -/

section Others

variable {alg : StdAlgorithm RankPair} {s s' t : MemStoreManager} {env env' : Env} {op : Op}
  {reply : Reply}

private theorem none_or_some {α β : Type} {o : Option α} {o' : Option β}
    (h : o'.isSome = o.isSome) :
    (o = none ∧ o' = none) ∨ ∃ x x', o = some x ∧ o' = some x' := by
  cases o <;> cases o' <;> simp at h ⊢

/-- The same boards are stored. -/
theorem Alike.isSome_board (h : Alike s s') (hwf : WellFormed s) (hwf' : WellFormed s')
    (ns : StdString) : (s'.ranks.find? ns).isSome = (s.ranks.find? ns).isSome :=
  hwf.ranks.isSome_find?_congr hwf'.ranks h.isSome_rankAt ns

/-- The limits are met in both managers or in neither. -/
theorem Alike.checkRankLimit (h : Alike s s') (hwf : WellFormed s) (hwf' : WellFormed s')
    (ns key : StdString) : s'.checkRankLimit ns key = s.checkRankLimit ns key := by
  have hboard := h.isSome_board hwf hwf' ns
  have hkey : ((NestedMap.inner s'.ranks ns).find? key).isSome =
      ((NestedMap.inner s.ranks ns).find? key).isSome := h.isSome_rankAt ns key
  have hsize : (NestedMap.inner s'.ranks ns).size = (NestedMap.inner s.ranks ns).size :=
    UnorderedMap.size_congr (h.isSome_rankAt ns)
  have hboards : s'.ranks.size = s.ranks.size :=
    UnorderedMap.size_congr (h.isSome_board hwf hwf')
  rw [MemStoreManager.checkRankLimit, MemStoreManager.checkRankLimit, hboards, h.keyValues.limits]
  rcases none_or_some hboard with ⟨hfind, hfind'⟩ | ⟨board, board', hfind, hfind'⟩
  · rw [hfind, hfind']
  · rw [NestedMap.inner_of_find? hfind, NestedMap.inner_of_find? hfind'] at hkey hsize
    rw [hfind, hfind']
    dsimp only
    rw [hsize]
    rcases none_or_some hkey with ⟨hentry, hentry'⟩ | ⟨e, e', hentry, hentry'⟩ <;>
      rw [hentry, hentry']

/-- `RankSet` succeeds in both managers or in neither. -/
private theorem Alike.rankSet (h : Alike s s') (hwf : WellFormed s) (hwf' : WellFormed s')
    (layout layout' : Layout) (ns key : StdString) (score : Cell) (policy : ExpirePolicy)
    (extra : Int32) (now : TimePoint) :
    (s'.rankSet layout' ns key score policy extra now).2 =
        (s.rankSet layout ns key score policy extra now).2 ∧
      SameKeyValues (s.rankSet layout ns key score policy extra now).1
        (s'.rankSet layout' ns key score policy extra now).1 := by
  rw [rankSet_eq hwf.maxKeys_pos, rankSet_eq hwf'.maxKeys_pos, h.checkRankLimit hwf hwf']
  have hsame := h.keyValues
  split
  · exact ⟨rfl, hsame.namespaces, hsame.keyCaches, hsame.used, hsame.limits⟩
  · exact ⟨rfl, hsame⟩

private theorem Alike.rankInc (h : Alike s s') (hwf : WellFormed s) (hwf' : WellFormed s')
    (layout layout' : Layout) (ns key : StdString) (delta : Cell) (policy : ExpirePolicy)
    (extra : Int32) (now₀ now₁ : TimePoint) :
    (s'.rankInc layout' ns key delta policy extra now₀ now₁).2 =
        (s.rankInc layout ns key delta policy extra now₀ now₁).2 ∧
      SameKeyValues (s.rankInc layout ns key delta policy extra now₀ now₁).1
        (s'.rankInc layout' ns key delta policy extra now₀ now₁).1 := by
  have hsame := h.keyValues
  cases hentry : s.rankAt ns key with
  | none =>
      have hdead : ∀ e, s.rankAt ns key = some e → e.isExpired now₀ = true := by
        intro e he
        cases hentry.symm.trans he
      have hdead' : ∀ e, s'.rankAt ns key = some e → e.isExpired now₀ = true := by
        intro e he
        cases (h.rankAt_eq_none hentry).symm.trans he
      obtain ⟨hreply, hstore⟩ := h.rankSet hwf hwf' layout layout' ns key delta policy extra now₁
      rw [rankInc_of_dead hdead, rankInc_of_dead hdead', hreply]
      exact ⟨rfl, hstore⟩
  | some e =>
      obtain ⟨e', hentry', hunstamped⟩ := h.exists_rankAt hentry
      rw [MemStoreManager.rankInc, MemStoreManager.rankInc, hentry, hentry']
      dsimp only
      rw [isExpired_congr hunstamped, score_congr hunstamped]
      split <;> exact ⟨rfl, hsame.namespaces, hsame.keyCaches, hsame.used, hsame.limits⟩

/-- The calls that neither are about key-values nor only read get the same reply,
and do the same to the key-values. -/
theorem Alike.exec_other (h : Alike s s') (hwf : WellFormed s) (hwf' : WellFormed s')
    (hop : op.isKeyValue = false) (hquery : ∀ q, op ≠ .query q)
    (hfirst : env'.first = env.first) (hsecond : env'.second = env.second)
    (hexec : exec alg s env op = some (t, reply)) :
    ∃ t', exec alg s' env' op = some (t', reply) ∧ SameKeyValues t t' := by
  have hsame := h.keyValues
  cases op with
  | query q => exact absurd rfl (hquery q)
  | write w =>
      cases w with
      | rankSet ns key score policy extra =>
          cases hexec
          obtain ⟨hreply, hstore⟩ := h.rankSet hwf hwf' env.layout env'.layout ns key score policy
            extra env.first
          refine ⟨_, ?_, hstore⟩
          simp only [exec, Write.run, hfirst, hreply]
      | rankInc ns key delta policy extra =>
          cases hexec
          obtain ⟨hreply, hstore⟩ := h.rankInc hwf hwf' env.layout env'.layout ns key delta policy
            extra env.first env.second
          refine ⟨_, ?_, hstore⟩
          simp only [exec, Write.run, hfirst, hsecond, hreply]
      | _ => cases hop
  | rankDelete ns key =>
      cases hexec
      rw [exec, rankDelete, rankDelete]
      cases hentry : s.rankAt ns key with
      | none =>
          rw [h.rankAt_eq_none hentry]
          exact ⟨_, rfl, hsame⟩
      | some e =>
          obtain ⟨e', hentry', _⟩ := h.exists_rankAt hentry
          rw [hentry']
          exact ⟨_, rfl, hsame.namespaces, hsame.keyCaches, hsame.used, hsame.limits⟩
  | rankClear ns =>
      cases hexec
      rw [exec, rankClear, rankClear]
      rcases none_or_some (h.isSome_board hwf hwf' ns) with ⟨hfind, hfind'⟩ | ⟨_, _, hfind, hfind'⟩
      · rw [hfind, hfind']
        exact ⟨_, rfl, hsame⟩
      · rw [hfind, hfind']
        exact ⟨_, rfl, hsame.namespaces, hsame.keyCaches, hsame.used, hsame.limits⟩
  | getMemoryStats =>
      cases hexec
      have hboards : s'.ranks.size = s.ranks.size :=
        UnorderedMap.size_congr (h.isSome_board hwf hwf')
      refine ⟨s', ?_, hsame⟩
      rw [exec, getMemoryStats, getMemoryStats, hboards, hsame.namespaces, hsame.used,
        hsame.limits]
  | sweepMapEnd =>
      cases hexec
      rw [exec, hfirst]
      exact ⟨_, rfl, sameKeyValues_sweepMapEnd hsame env.first⟩
  | clearAll | flushAll =>
      cases hexec
      exact ⟨_, rfl, rfl, rfl, rfl, hsame.limits⟩
  | _ => cases hop

end Others

/-! ## Calls and runs -/

/-- The same operation at the same clock readings.  The boards may be arranged
differently after an insertion. -/
structure SameCall (c c' : Call) : Prop where
  op : c'.op = c.op
  first : c'.env.first = c.env.first
  second : c'.env.second = c.env.second
  third : c'.env.third = c.env.third
  layout : c.op.isKeyValue = true → c'.env.layout = c.env.layout

/-- The same call with the same reply. -/
def SameStep (step step' : Call × Reply) : Prop := SameCall step.1 step'.1 ∧ step'.2 = step.2

theorem SameStep.symm {step step' : Call × Reply} (h : SameStep step step') :
    SameStep step' step := by
  obtain ⟨⟨hop, hfirst, hsecond, hthird, hlayout⟩, hreply⟩ := h
  refine ⟨⟨hop.symm, hfirst.symm, hsecond.symm, hthird.symm, fun hkeyValue => ?_⟩, hreply.symm⟩
  rw [hop] at hkeyValue
  exact (hlayout hkeyValue).symm

/-- A successful rank write. -/
def isRankWrite (step : Call × Reply) : Bool :=
  match step.1.op with
  | .write (.rankSet ..) | .write (.rankInc ..) => step.2.succeeded
  | _ => false

theorem countRankWrites_le (n : ℕ) (step : Call × Reply) :
    countRankWrites n step ≤ n + if isRankWrite step then 1 else 0 := by
  obtain ⟨⟨op, env⟩, reply⟩ := step
  cases op with
  | clearAll | flushAll => exact Nat.zero_le _
  | write w =>
      cases w with
      | rankSet | rankInc =>
          by_cases hok : reply.succeeded = true <;> simp [countRankWrites, isRankWrite, hok]
      | _ => exact Nat.le_add_right n _
  | _ => exact Nat.le_add_right n _

theorem countP_isRankWrite_congr {steps steps' : List (Call × Reply)}
    (h : List.Forall₂ SameStep steps steps') :
    steps'.countP isRankWrite = steps.countP isRankWrite := by
  induction h with
  | nil => rfl
  | @cons step step' rest rest' hstep _ ih =>
      have hsame : isRankWrite step' = isRankWrite step := by
        rw [isRankWrite, isRankWrite, hstep.1.op, hstep.2]
      rw [List.countP_cons, List.countP_cons, ih, hsame]

section Runs

variable {alg : StdAlgorithm RankPair}

/-- Every call leads alike managers to alike managers, with the same reply. -/
theorem Alike.call {w w' v : World} {c c' : Call} {reply : Reply} {n : ℕ}
    (h : Alike w.store w'.store) (hclock : w'.clock = w.clock) (hwf : WellFormed w.store)
    (hwf' : WellFormed w'.store) (hs : Sequenced n w.store) (hs' : Sequenced n w'.store)
    (hn : countRankWrites n (c, reply) < 2 ^ 64) (hsame : SameCall c c')
    (hcall : w.call alg c = some (v, reply)) :
    ∃ v', w'.call alg c' = some (v', reply) ∧ v'.clock = v.clock ∧ Alike v.store v'.store := by
  obtain ⟨hle, hexec, hthird⟩ := World.call_eq_some_iff.mp hcall
  obtain ⟨t', hexec', halike⟩ : ∃ t', exec alg w'.store c'.env c'.op = some (t', reply) ∧
      Alike v.store t' := by
    rw [← countRankWrites_outcome w.store.toLimits n c hexec] at hn
    obtain ⟨op, env⟩ := c
    obtain ⟨op', env'⟩ := c'
    obtain ⟨rfl, hfirst, hsecond, hthird, hlayout⟩ := hsame
    dsimp only at hn hexec hfirst hsecond hthird hlayout ⊢
    cases hop : op'.isKeyValue with
    | true =>
        have henv : env' = env := by
          have hlayout := hlayout hop
          cases env
          cases env'
          cases hfirst
          cases hsecond
          cases hthird
          cases hlayout
          rfl
        rw [henv]
        exact h.exec_keyValue hop hexec
    | false =>
        by_cases hquery : ∃ q, op' = .query q
        · obtain ⟨q, rfl⟩ := hquery
          have hquery : (q.run alg w'.store env.first).2 = (q.run alg w.store env.first).2 ∧
              Alike (q.run alg w.store env.first).1 (q.run alg w'.store env.first).1 :=
            h.query hs hs' env.first hop
          rw [Option.some.inj hexec] at hquery
          refine ⟨_, ?_, hquery.2⟩
          rw [exec, hfirst]
          exact congrArg some (Prod.ext rfl hquery.1)
        · obtain ⟨t', hexec', hkeyValues⟩ := h.exec_other hwf hwf' hop
            (fun q hq => hquery ⟨q, hq⟩) hfirst hsecond hexec
          have hchange := exec_change hwf.maxKeys_pos hexec
          have hchange' := exec_change hwf'.maxKeys_pos hexec'
          rw [h.keyValues.limits] at hchange'
          refine ⟨t', hexec', h.change hs hs' hn (fun hread => ?_) hfirst hsecond hchange hchange'
            hkeyValues⟩
          rcases outcome_eq_read hread with hq | ⟨ns, index, rfl⟩
          · exact hquery hq
          · cases hop
  refine ⟨⟨t', c'.env.third⟩, World.call_eq_some_iff.mpr ⟨?_, hexec', rfl⟩, ?_, halike⟩
  · rw [hclock, hsame.first]
    exact hle
  · rw [hthird, hsame.third]

/-- What can be called with what replies is the same for alike managers. -/
theorem Alike.run {w w' v : World} {steps steps' : List (Call × Reply)} {n : ℕ}
    (h : Alike w.store w'.store) (hclock : w'.clock = w.clock) (hwf : WellFormed w.store)
    (hwf' : WellFormed w'.store) (hs : Sequenced n w.store) (hs' : Sequenced n w'.store)
    (hn : n + steps.countP isRankWrite < 2 ^ 64) (hsame : List.Forall₂ SameStep steps steps')
    (hrun : Machine.Run (World.call alg) Machine.anyStep w steps v) :
    ∃ v', Machine.Run (World.call alg) Machine.anyStep w' steps' v' := by
  induction hrun generalizing w' steps' n with
  | nil w =>
      cases hsame
      exact ⟨w', .nil w'⟩
  | @cons w u v c reply rest hguard hcall hrest ih =>
      cases hsame with
      | @cons _ step' _ rest' hstep hsame =>
          obtain ⟨c', reply'⟩ := step'
          obtain ⟨hcall', hreply⟩ := hstep
          dsimp only at hcall' hreply
          subst hreply
          have hle := countRankWrites_le n (c, reply')
          rw [List.countP_cons] at hn
          have hcount : countRankWrites n (c', reply') = countRankWrites n (c, reply') := by
            simp only [countRankWrites, hcall'.op]
          obtain ⟨u', hstep', hclock', halike⟩ :=
            h.call hclock hwf hwf' hs hs' (by omega) hcall' hcall
          have hnext := World.sequenced_call hwf (fun _ => hs) hcall (by omega)
          have hnext' := World.sequenced_call hwf' (fun _ => hs') hstep' (by omega)
          rw [hcount] at hnext'
          obtain ⟨v', hrun'⟩ := ih halike hclock' (World.wellFormed_call hwf hcall)
            (World.wellFormed_call hwf' hstep') hnext hnext' (by omega) hsame
          exact ⟨v', .cons trivial hstep' hrun'⟩

end Runs

end MemStore
