import MemStore.KeyValue.Arrangement
import MemStore.Ranking.Bisimulation
import MemStore.Ranking.Independence

/-!
# The arrangement of the hash maps does not show

How a hash map lists its entries depends on its implementation.  Most methods loop
over whole maps: they count, release bytes, collect keys, select positions.  The
order in which they do so has no effect on what plugins get to see: the same calls
at the same times have the same replies in every arrangement of the maps
(`arrangement_does_not_show`).

The exceptions are the methods that hand out keys one after another.
`GetActiveKeys` may list them in another order, and `GetKeyAt`, which goes by such
a list, is left out.

The two halves of the manager are followed separately.  The key-values have the
`SameEntries`; for the leaderboards, the other manager with the key-values of the
first is `Alike` to it.
-/

namespace MemStore

open MemStoreManager

/-! ## The relation -/

/-- The same contents, in any arrangement. -/
structure SameContents (s s' : MemStoreManager) : Prop where
  entries : SameEntries s s'
  ranks : Alike s (s.withRanks s')

/-- The same operation at the same clock readings, with any arrangement. -/
structure Rearranged (c c' : Call) : Prop where
  op : c'.op = c.op
  first : c'.env.first = c.env.first
  second : c'.env.second = c.env.second
  third : c'.env.third = c.env.third

/-- All calls but those of `GetKeyAt`. -/
def NoIndexing (_ : World) (c : Call) (_ : Reply) : Prop :=
  ∀ ns index, c.op ≠ .getKeyAt ns index

theorem SameReply.succeeded {reply reply' : Reply} (h : SameReply reply reply') :
    reply'.succeeded = reply.succeeded := by
  cases h <;> rfl

theorem Alike.refl (s : MemStoreManager) : Alike s s where
  keyValues := .refl s
  entry := fun _ _ => rfl
  tie := by
    intro ns key e e' key' f f' he he' hf hf' _
    cases he.symm.trans he'
    cases hf.symm.trans hf'
    rfl

theorem SameContents.refl (s : MemStoreManager) : SameContents s s :=
  ⟨⟨fun _ _ => rfl, rfl, rfl⟩, .refl s⟩

section Halves

variable {s s' t t' : MemStoreManager}

theorem WellFormed.withRanks (h : WellFormed s) (h' : WellFormed s') :
    WellFormed (s.withRanks s') where
  maxKeys_pos := h.maxKeys_pos
  sound := by
    intro slot x hx
    cases slot with
    | keyValue ns key => exact h.sound (.keyValue ns key) x hx
    | rank ns key => exact h'.sound (.rank ns key) x hx
  namespaces := h.namespaces
  ranks := h'.ranks

/-- Calls that leave the leaderboards alone in both managers. -/
theorem Alike.of_ranks (h : Alike s (s.withRanks s')) (ht : t.ranks = s.ranks)
    (ht' : t'.ranks = s'.ranks) : Alike t (t.withRanks t') := by
  have hrank : ∀ ns key, t.rankAt ns key = s.rankAt ns key := by
    intro ns key
    rw [rankAt, ht, rankAt]
  have hrank' : ∀ ns key, (t.withRanks t').rankAt ns key = (s.withRanks s').rankAt ns key := by
    intro ns key
    rw [withRanks_rankAt, withRanks_rankAt, rankAt, ht', rankAt]
  refine ⟨⟨rfl, rfl, rfl, rfl⟩, ?_, ?_⟩
  · intro ns key
    rw [hrank, hrank']
    exact h.entry ns key
  · intro ns key e e' key' f f'
    rw [hrank ns key, hrank' ns key, hrank ns key', hrank' ns key']
    exact h.tie ns key e e' key' f f'

/-- What a manager is alike to has its key-values. -/
theorem Alike.eq_withRanks (h : Alike s t) (ht : SameRanks t t') : t = s.withRanks t' := by
  calc t = s.withRanks t := MemStoreManager.eq_withRanks h.keyValues
    _ = s.withRanks t' := by rw [withRanks, withRanks, ht.ranks, ht.counter]

end Halves

/-! ## Calls -/

section Calls

variable {alg : StdAlgorithm RankPair} {s s' t : MemStoreManager} {c c' : Call} {reply : Reply}
  {n : ℕ}

/-- What is not about key-values leads to boards that are alike again. -/
theorem SameContents.exec_ranks (h : SameContents s s') (hwf : WellFormed s)
    (hwf' : WellFormed s') (hs : Sequenced n s) (hs' : Sequenced n s')
    (hn : countRankWrites n (c, reply) < 2 ^ 64) (hsame : Rearranged c c')
    (hop : c.op.isKeyValue = false) (hconcerns : c.op.concernsRanks = true)
    (hexec : exec alg s c.env c.op = some (t, reply)) :
    ∃ t', exec alg s' c'.env c'.op = some (t', reply) ∧ Alike t (t.withRanks t') := by
  have hcall : World.call alg ⟨s, c.env.first⟩ c = some (⟨t, c.env.third⟩, reply) :=
    World.call_eq_some_iff.mpr ⟨le_rfl, hexec, rfl⟩
  have hs' : Sequenced n (s.withRanks s') := ⟨hs'.counter, hs'.bounded, hs'.distinct⟩
  have hsame' : SameCall c c' :=
    ⟨hsame.op, hsame.first, hsame.second, hsame.third, fun hkeyValue =>
      absurd (hop.symm.trans hkeyValue) (by decide)⟩
  let w : World := ⟨s, c.env.first⟩
  let w' : World := ⟨s.withRanks s', c.env.first⟩
  have halike : Alike w.store w'.store := h.ranks
  obtain ⟨v, hcall', _, halike⟩ :=
    halike.call rfl hwf (hwf.withRanks hwf') hs hs' hn hsame' hcall
  obtain ⟨_, hexec', _⟩ := World.call_eq_some_iff.mp hcall'
  have hconcerns' : c'.op.concernsRanks = true := by rw [hsame.op, hconcerns]
  have hranks : SameRanks (s.withRanks s') s' := ⟨rfl, rfl, h.entries.limits⟩
  obtain ⟨t', hexec'', hranks'⟩ := hranks.exec hconcerns' hexec'
  rw [halike.eq_withRanks hranks'] at halike
  exact ⟨t', hexec'', halike⟩

/-- The calls that are neither about key-values nor about leaderboards alone. -/
theorem SameContents.exec_whole (h : SameContents s s') (hwf : WellFormed s)
    (hwf' : WellFormed s') {t' : MemStoreManager} {reply' : Reply} (hsame : Rearranged c c')
    (hop : c.op.isKeyValue = false) (hrank : c.op.isRank = false)
    (hexec : exec alg s c.env c.op = some (t, reply))
    (hexec' : exec alg s' c'.env c'.op = some (t', reply')) : SameEntries t t' := by
  obtain ⟨op, env⟩ := c
  obtain ⟨op', env'⟩ := c'
  obtain ⟨rfl, hfirst, _, _⟩ := hsame
  dsimp only at hop hrank hexec hexec' hfirst
  cases op' with
  | getMemoryStats =>
      cases hexec
      cases hexec'
      exact h.entries
  | sweepMapEnd =>
      cases hexec
      cases hexec'
      rw [hfirst]
      exact h.entries.sweepMapEnd hwf hwf' env.first
  | clearAll | flushAll =>
      cases hexec
      cases hexec'
      exact ⟨fun _ _ => rfl, rfl, h.entries.limits⟩
  | query q =>
      cases q with
      | rankGetScore | rankExists | rankGetPosition | rankGetTop | rankGetCount | rankGetRange =>
          cases hrank
      | _ => cases hop
  | write w =>
      cases w with
      | rankSet | rankInc => cases hrank
      | _ => cases hop
  | rankDelete | rankClear => cases hrank
  | _ => cases hop

/-- Every call but `GetKeyAt` leads to the same contents, with the same reply. -/
theorem SameContents.exec (h : SameContents s s') (hwf : WellFormed s) (hwf' : WellFormed s')
    (hs : Sequenced n s) (hs' : Sequenced n s') (hn : countRankWrites n (c, reply) < 2 ^ 64)
    (hindex : ∀ ns index, c.op ≠ .getKeyAt ns index) (hsame : Rearranged c c')
    (hexec : MemStore.exec alg s c.env c.op = some (t, reply)) :
    ∃ t' reply', MemStore.exec alg s' c'.env c'.op = some (t', reply') ∧
      SameReply reply reply' ∧ SameContents t t' := by
  cases hop : c.op.isKeyValue with
  | true =>
      obtain ⟨t', reply', hexec', hreply, hentries⟩ :=
        h.entries.exec hwf hwf' hop hindex hsame.first hsame.second hexec
      have hranks := (MemStore.exec_ranks hop hexec).1
      have hranks' := (MemStore.exec_ranks hop hexec').1
      refine ⟨t', reply', ?_, hreply, hentries, h.ranks.of_ranks hranks hranks'⟩
      rw [hsame.op]
      exact hexec'
  | false =>
      cases hconcerns : c.op.concernsRanks with
      | true =>
          obtain ⟨t', hexec', halike⟩ := h.exec_ranks hwf hwf' hs hs' hn hsame hop hconcerns hexec
          refine ⟨t', reply, hexec', .same reply, ?_, halike⟩
          cases hrank : c.op.isRank with
          | true =>
              have hunseen := Op.concernsKeyValues_of_isRank hrank
              have hunseen' : c'.op.concernsKeyValues = false := by rw [hsame.op, hunseen]
              exact .of_sameKeyValues h.entries (sameKeyValues_of_exec hunseen hexec)
                (sameKeyValues_of_exec hunseen' hexec')
          | false => exact h.exec_whole hwf hwf' hsame hop hrank hexec hexec'
      | false =>
          -- what is left are the statistics
          rcases Op.isKeyValue_or_stats hconcerns with hkeyValue | hstats
          · exact absurd (hop.symm.trans hkeyValue) (by decide)
          · have hnamespaces : s'.namespaces.size = s.namespaces.size :=
              UnorderedMap.size_congr fun ns => h.entries.isSome_namespace ns hwf hwf'
            have hboards : s'.ranks.size = s.ranks.size :=
              UnorderedMap.size_congr (h.ranks.isSome_board hwf (hwf.withRanks hwf'))
            have hsize : s'.maxMemoryBytes = s.maxMemoryBytes :=
              congrArg Limits.maxMemoryBytes h.entries.limits
            rw [hstats] at hexec
            cases hexec
            refine ⟨s', _, ?_, .same _, h⟩
            rw [hsame.op, hstats, MemStore.exec, getMemoryStats, getMemoryStats, hnamespaces,
              hboards, hsize, h.entries.used]

end Calls

/-! ## Runs -/

section Runs

variable {alg : StdAlgorithm RankPair}

/-- A run from the same contents, with other arrangements. -/
theorem SameContents.run {w w' v : World} {steps : List (Call × Reply)} {calls' : List Call}
    {n : ℕ} (h : SameContents w.store w'.store) (hclock : w'.clock = w.clock)
    (hwf : WellFormed w.store) (hwf' : WellFormed w'.store) (hs : Sequenced n w.store)
    (hs' : Sequenced n w'.store) (hn : n + steps.countP isRankWrite < 2 ^ 64)
    (hcalls : List.Forall₂ (fun step c' => Rearranged step.1 c') steps calls')
    (hrun : Machine.Run (World.call alg) NoIndexing w steps v) :
    ∃ steps' v', Machine.Run (World.call alg) NoIndexing w' steps' v' ∧
      steps'.map Prod.fst = calls' ∧
      List.Forall₂ (fun step step' => SameReply step.2 step'.2) steps steps' ∧
      SameContents v.store v'.store := by
  induction hrun generalizing w' calls' n with
  | nil w =>
      cases hcalls
      exact ⟨[], w', .nil w', rfl, .nil, h⟩
  | @cons w u v c reply rest hindex hcall hrest ih =>
      cases hcalls with
      | @cons _ c' _ calls' hsame hcalls =>
          have hle := countRankWrites_le n (c, reply)
          rw [List.countP_cons] at hn
          have hn' : countRankWrites n (c, reply) < 2 ^ 64 := by omega
          obtain ⟨hfirst, hexec, hthird⟩ := World.call_eq_some_iff.mp hcall
          obtain ⟨t', reply', hexec', hreply, hcontents⟩ :=
            h.exec hwf hwf' hs hs' hn' hindex hsame hexec
          have hcall' : w'.call alg c' = some (⟨t', c'.env.third⟩, reply') := by
            refine World.call_eq_some_iff.mpr ⟨?_, hexec', rfl⟩
            rw [hclock, hsame.first]
            exact hfirst
          have hcount : countRankWrites n (c', reply') = countRankWrites n (c, reply) := by
            simp only [countRankWrites, hsame.op, hreply.succeeded]
          have hnext := World.sequenced_call hwf (fun _ => hs) hcall hn'
          have hnext' := World.sequenced_call hwf' (fun _ => hs') hcall' (by rw [hcount]; exact hn')
          rw [hcount] at hnext'
          obtain ⟨steps', v', hrun', hcalls', hreplies, hlast⟩ :=
            ih hcontents (hsame.third.trans hthird.symm) (World.wellFormed_call hwf hcall)
              (World.wellFormed_call hwf' hcall') hnext hnext' (by omega) hcalls
          have hindex' : NoIndexing w' c' reply' := by
            intro ns index
            rw [hsame.op]
            exact hindex ns index
          exact ⟨(c', reply') :: steps', v', .cons hindex' hcall' hrun',
            congrArg (c' :: ·) hcalls', .cons hreply hreplies, hlast⟩

/-- **The arrangement of the hash maps does not show.**  In a run without `GetKeyAt`
and with fewer than 2^64 rank writes, let every insertion arrange the maps in any
other way.  Then the same calls can be made at the same times, and all of them have
the same replies, except that `GetActiveKeys` may list its keys in another order.
In the end the managers have the same contents: the same entries under the same
keys, and the same bytes in use. -/
theorem arrangement_does_not_show {steps : List (Call × Reply)} {calls' : List Call} {w : World}
    {t : TimePoint}
    (hrun : Machine.Run (World.call alg) NoIndexing (World.initial t) steps w)
    (hwrites : steps.countP isRankWrite < 2 ^ 64)
    (hcalls : List.Forall₂ (fun step c' => Rearranged step.1 c') steps calls') :
    ∃ steps' w', Machine.Run (World.call alg) NoIndexing (World.initial t) steps' w' ∧
      steps'.map Prod.fst = calls' ∧
      List.Forall₂ (fun step step' => SameReply step.2 step'.2) steps steps' ∧
      SameContents w.store w'.store := by
  apply (SameContents.refl _).run rfl wellFormed_initial wellFormed_initial sequenced_initial
    sequenced_initial _ hcalls hrun
  omega

/-- Two keys are stored and listed. -/
private def listing (layout : Layout) : List Call :=
  [⟨.write (.setInt [1] [2] 5 .persistent 0), .at 0 layout⟩,
    ⟨.write (.setInt [1] [3] 7 .persistent 0), .at 0 layout⟩,
    ⟨.query (.getActiveKeys [1]), .at 0 layout⟩]

/-- The buckets of the two keys change places. -/
theorem arrangement_does_not_show_reversed : ∃ (steps' : List (Call × Reply)) (w' : World),
    Machine.Run (World.call (.insertionSort : StdAlgorithm RankPair)) NoIndexing
      (World.initial 0) steps' w' ∧
    steps'.map Prod.fst = (listing fun name => if name = [2] then 1 else 0) ∧
    List.Forall₂ (fun step step' => SameReply step.2 step'.2)
      ((listing fun name => if name = [3] then 1 else 0).zip
        [.flag true, .flag true, .keys [[2], [3]]]) steps' := by
  have hrun : ∃ w, Machine.Run (World.call (.insertionSort : StdAlgorithm RankPair)) NoIndexing
      (World.initial 0) ((listing fun name => if name = [3] then 1 else 0).zip
        [.flag true, .flag true, .keys [[2], [3]]]) w :=
    ⟨_, run_cons nofun le_rfl rfl (run_cons nofun le_rfl rfl
      (run_cons nofun le_rfl rfl (.nil _)))⟩
  obtain ⟨w, hrun⟩ := hrun
  have hcalls : List.Forall₂ (fun step c' => Rearranged step.1 c')
      ((listing fun name => if name = [3] then 1 else 0).zip
        [Reply.flag true, .flag true, .keys [[2], [3]]])
      (listing fun name => if name = [2] then 1 else 0) :=
    .cons ⟨rfl, rfl, rfl, rfl⟩ (.cons ⟨rfl, rfl, rfl, rfl⟩ (.cons ⟨rfl, rfl, rfl, rfl⟩ .nil))
  obtain ⟨steps', w', hrun', hcalls', hreplies, _⟩ :=
    arrangement_does_not_show hrun (by decide) hcalls
  exact ⟨steps', w', hrun', hcalls', hreplies⟩

end Runs

end MemStore
