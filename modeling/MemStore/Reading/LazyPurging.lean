import MemStore.Reading.LiveView
import MemStore.Steps.Invariants

/-!
# Reads do not disturb reads

Every read operation may erase what it finds expired, each in its own way.  The
erasures do not change the live view (`query_liveView`), and the replies
depend on the live view only, so a reader cannot tell which reads came before:
`reads_invisible` compares each reply in a run of reads with the one the same
call would have got on the manager at the beginning.
-/

namespace MemStore

open MemStoreManager

variable {alg : StdAlgorithm RankPair}

/-- The call is a read operation. -/
def OnlyReads (_ : World) (c : Call) (_ : Reply) : Prop := ∃ q, c.op = .query q

/-- A read operation leaves everything that is live from then on in view. -/
theorem query_liveView (alg : StdAlgorithm RankPair) (s : MemStoreManager) (q : Query)
    {now later : TimePoint} (hle : now ≤ later) :
    (q.run alg s now).1.liveView later = s.liveView later :=
  (reads_query alg s q le_rfl).liveView hle

/-- A read in a run answers from the view, and keeps it. -/
theorem call_query {w w' : World} {q : Query} {env : Env} {reply : Reply}
    (h : w.call alg ⟨.query q, env⟩ = some (w', reply)) :
    w.clock ≤ env.first ∧ reply = q.answer alg (w.store.liveView env.first) env.first ∧
      ∀ later, w'.clock ≤ later → w'.store.liveView later = w.store.liveView later := by
  obtain ⟨hclock, hexec, hclock'⟩ := World.call_eq_some_iff.mp h
  have hrun : q.run alg w.store env.first = (w'.store, reply) := Option.some.inj hexec
  refine ⟨hclock, ?_, ?_⟩
  · rw [← query_reply, hrun]
  · intro later hlater
    rw [hclock'] at hlater
    have hview := query_liveView alg w.store q (env.first_le_third.trans hlater)
    rwa [hrun] at hview

/-- The replies in a run of reads, from any manager with the same view. -/
theorem replies_of_reads {w w' : World} {steps : List (Call × Reply)}
    (hrun : Machine.Run (World.call alg) OnlyReads w steps w') (s : MemStoreManager)
    (hview : ∀ now, w.clock ≤ now → w.store.liveView now = s.liveView now) :
    ∀ step ∈ steps, ∃ q, step.1.op = .query q ∧ step.2 = (q.run alg s step.1.env.first).2 := by
  induction hrun with
  | nil w =>
      intro step hstep
      cases hstep
  | @cons w w₁ w' c reply steps hquery hcall _ ih =>
      obtain ⟨op, env⟩ := c
      obtain ⟨q, rfl⟩ : ∃ q, op = .query q := hquery
      obtain ⟨hclock, hreply, hview₁⟩ := call_query hcall
      intro step hstep
      rcases List.mem_cons.mp hstep with rfl | hrest
      · refine ⟨q, rfl, ?_⟩
        rw [query_reply, ← hview env.first hclock]
        exact hreply
      · -- the rest of the run starts from a manager that shows the same as `s`
        refine ih (fun now hnow => ?_) step hrest
        rw [hview₁ now hnow]
        exact hview now ((World.clock_le_call hcall).trans hnow)

/-- **Lazy purging is invisible to readers.**  In a run of reads, each reply is
the one the same call at the same clock reading gets on the manager at the
beginning.  Two reads at one clock reading commute: either order gives both the
same replies and leaves managers that no later read can tell apart. -/
theorem reads_invisible {w w' : World} {steps : List (Call × Reply)}
    (hrun : Machine.Run (World.call alg) OnlyReads w steps w') :
    (∀ step ∈ steps, ∃ q, step.1.op = .query q ∧
      step.2 = (q.run alg w.store step.1.env.first).2) ∧
    ∀ (q q' : Query) (now : TimePoint),
      (q'.run alg (q.run alg w.store now).1 now).2 = (q'.run alg w.store now).2 ∧
      (q.run alg (q'.run alg w.store now).1 now).2 = (q.run alg w.store now).2 ∧
      ∀ (q'' : Query) (later : TimePoint), now ≤ later →
        (q''.run alg (q'.run alg (q.run alg w.store now).1 now).1 later).2 =
          (q''.run alg (q.run alg (q'.run alg w.store now).1 now).1 later).2 := by
  refine ⟨replies_of_reads hrun w.store fun _ _ => rfl, fun q q' now => ⟨?_, ?_, ?_⟩⟩
  · rw [query_reply, query_liveView alg _ q le_rfl, ← query_reply]
  · rw [query_reply, query_liveView alg _ q' le_rfl, ← query_reply]
  · intro q'' later hle
    rw [query_reply, query_liveView alg _ q' hle, query_liveView alg _ q hle, query_reply,
      query_liveView alg _ q hle, query_liveView alg _ q' hle]

/-- A key is looked up two seconds after the start, and its namespace is counted. -/
private def lookups : List (Call × Reply) :=
  [(⟨.query (.keyExists [1] [2]), .at 2000000000 fun _ => 0⟩, .flag false),
    (⟨.query (.getNamespaceCount [1]), .at 2000000000 fun _ => 0⟩, .count 0)]

/-- A key that has expired is not found, and its namespace is empty, whether or
not an earlier read erased it. -/
theorem reads_invisible_expired : ∃ w w' : World,
    Machine.Run (World.call (StdAlgorithm.insertionSort (α := RankPair))) Machine.anyStep
      (World.initial 0)
      [(⟨.write (.setInt [1] [2] 7 .ttl 1), .at 0 fun _ => 0⟩, .flag true)] w ∧
    Machine.Run (World.call (StdAlgorithm.insertionSort (α := RankPair))) OnlyReads w lookups w' ∧
    (w.store.entryAt [1] [2]).isSome ∧ w'.store.entryAt [1] [2] = none ∧
    ∀ step ∈ lookups, ∃ q, step.1.op = .query q ∧ step.2 =
      (q.run (StdAlgorithm.insertionSort (α := RankPair)) w.store step.1.env.first).2 := by
  have hrun : ∃ w w',
      Machine.Run (World.call (StdAlgorithm.insertionSort (α := RankPair))) Machine.anyStep
        (World.initial 0)
        [(⟨.write (.setInt [1] [2] 7 .ttl 1), .at 0 fun _ => 0⟩, .flag true)] w ∧
      (w.store.entryAt [1] [2]).isSome ∧ w'.store.entryAt [1] [2] = none ∧
      Machine.Run (World.call (StdAlgorithm.insertionSort (α := RankPair))) OnlyReads w lookups
        w' :=
    ⟨⟨_, 0⟩, ⟨_, 2000000000⟩, run_cons trivial le_rfl rfl (.nil _), rfl, rfl,
      run_cons ⟨_, rfl⟩ (by decide) rfl (run_cons ⟨_, rfl⟩ le_rfl rfl (.nil _))⟩
  obtain ⟨w, w', hset, hstored, herased, hrun⟩ := hrun
  exact ⟨w, w', hset, hrun, hstored, herased, (reads_invisible hrun).1⟩

end MemStore
