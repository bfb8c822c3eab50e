import MemStore.Steps.Invariants

/-!
# Sequence numbers

Every successful `RankSet` and `RankInc` stamps the entry it writes with the
next value of a 64-bit counter, which only `ClearAll` and `FlushAll` reset.  As
long as fewer than 2^64 rank writes have been made since then, the counter is
their number and no two entries carry the same stamp (`Sequenced`), which makes
the stamp a tie-breaker.

* `RankStep.origin` says where score and stamp of an entry come from in one step,
  and `Change.rankSequenceCounter` what happens to the counter.
* `sequenced_of_run` follows the counter through a run, next to the number of
  rank writes (`rankWrites`).
-/

namespace MemStore

open MemStoreManager

/-! ## Counting rank writes -/

/-- The number of successful rank writes since everything was last cleared,
after one more step. -/
def countRankWrites (n : ℕ) (step : Call × Reply) : ℕ :=
  match step.1.op with
  | .clearAll | .flushAll => 0
  | .write (.rankSet ..) | .write (.rankInc ..) => if step.2.succeeded then n + 1 else n
  | _ => n

/-- The number of successful rank writes of a run since everything was last cleared. -/
def rankWrites (steps : List (Call × Reply)) : ℕ := steps.foldl countRankWrites 0

/-- The same, read off the request of a call. -/
def Request.countRankWrites (n : ℕ) : Request → ℕ
  | .clearAll => 0
  | .rankWrite .. | .rankIncrement .. => n + 1
  | _ => n

theorem countRankWrites_entered (limits : Limits) (n : ℕ) (c : Call) (reply : Reply) :
    (c.op.entered limits reply).countRankWrites n = countRankWrites n (c, reply) := by
  obtain ⟨op, env⟩ := c
  cases op with
  | write w =>
      simp only [Op.entered, Op.outcome, countRankWrites]
      split <;> cases w <;> rfl
  | _ => rfl

theorem countRankWrites_outcome (limits : Limits) (n : ℕ) (c : Call) {reply : Reply}
    {s s' : MemStoreManager} {alg : StdAlgorithm RankPair}
    (h : exec alg s c.env c.op = some (s', reply)) :
    (c.op.outcome limits reply).countRankWrites n = countRankWrites n (c, reply) := by
  obtain ⟨op, env⟩ := c
  cases op with
  | clearAll | flushAll =>
      cases h
      rfl
  | write w =>
      -- a write is entered as what it comes to
      exact countRankWrites_entered limits n ⟨.write w, env⟩ reply
  | _ =>
      simp only [Op.outcome, countRankWrites]
      split <;> rfl

/-- A rank write, or an increment, of the entry in question. -/
def RankAction.stamps : RankAction → Prop
  | .write .. | .increment .. => True
  | _ => False

/-! ## One step -/

/-- An entry has score and stamp from before, or it has just been written. -/
theorem RankStep.origin {env : Env} {sequence : UInt64} {a : RankAction}
    {o o' : Option RankEntry} (h : RankStep env sequence a o o') {e' : RankEntry}
    (he' : o' = some e') :
    (¬ a.stamps ∧ ∃ e, o = some e ∧ e'.score = e.score ∧ e'.sequence = e.sequence) ∨
      a.stamps ∧ e'.sequence = sequence := by
  cases h with
  | keep => exact .inl ⟨id, e', he', rfl, rfl⟩
  | purge | delete | clear | clearAll => cases he'
  | write | incDead =>
      cases he'
      exact .inr ⟨trivial, rfl⟩
  | incLive delta policy extra hlive =>
      cases he'
      exact .inr ⟨trivial, sequence_reapplyRankExpiration ..⟩
  | sweep =>
      obtain ⟨e, he, hsweep⟩ := Option.bind_eq_some_iff.mp he'
      obtain ⟨x, _, rfl⟩ := Option.map_eq_some_iff.mp hsweep
      exact .inl ⟨id, e, he, rfl, rfl⟩

/-- A request stamps one entry at most. -/
theorem Request.eq_of_stamps {req : Request} {ns key ns' key' : StdString}
    (h : (req.atRankKey ns key).stamps) (h' : (req.atRankKey ns' key').stamps) :
    ns' = ns ∧ key' = key := by
  have hother : ∀ {a : RankAction} {p : Prop} [Decidable p],
      (if p then a else RankAction.pass).stamps → p := by
    intro a p _ hstamps
    by_contra hp
    rw [if_neg hp] at hstamps
    exact hstamps
  cases req with
  | rankWrite | rankIncrement =>
      obtain ⟨rfl, rfl⟩ := hother h
      exact hother h'
  | rankDelete | rankClear =>
      exfalso
      simp only [Request.atRankKey] at h
      split at h <;> exact h
  | _ => exact h.elim

/-- What stamps an entry counts as a rank write. -/
theorem Request.countRankWrites_of_stamps {req : Request} {ns key : StdString} (n : ℕ)
    (h : (req.atRankKey ns key).stamps) : req.countRankWrites n = n + 1 := by
  cases req with
  | rankWrite | rankIncrement => rfl
  | rankDelete | rankClear =>
      exfalso
      simp only [Request.atRankKey] at h
      split at h <;> exact h
  | _ => exact h.elim

theorem Request.not_stamps {req : Request} {n : ℕ} (h : req.countRankWrites n = n)
    (ns key : StdString) : ¬ (req.atRankKey ns key).stamps := by
  intro hstamps
  rw [Request.countRankWrites_of_stamps n hstamps] at h
  exact absurd h (Nat.succ_ne_self n)

theorem ReadEffect.rankSequenceCounter {latest : TimePoint} {s s' : MemStoreManager}
    (h : ReadEffect latest s s') : s'.rankSequenceCounter = s.rankSequenceCounter := by
  cases h with
  | recache | eraseRank => rfl
  | @erase ns key e releases hentry hexp =>
      rw [eraseEntry_rankSequenceCounter]
      split <;> rfl
  | purge invalidates ns hle => exact (sameRanks_purgeNamespace invalidates s ns _).counter
  | purgeRank ns hle => exact purgeBoard_rankSequenceCounter s ns _

theorem sweepMapEnd_rankSequenceCounter (s : MemStoreManager) (now : TimePoint) :
    (s.sweepMapEnd now).rankSequenceCounter = s.rankSequenceCounter := by
  obtain ⟨used, hsweep⟩ := sweepMapEnd_eq s now
  rw [hsweep]

/-- The counter after a call. -/
def Request.counter (counter : UInt64) : Request → UInt64
  | .clearAll => 0
  | .rankWrite .. | .rankIncrement .. => counter + 1
  | _ => counter

theorem Change.rankSequenceCounter {env : Env} {s s' : MemStoreManager} {req : Request}
    (h : Change env s req s') :
    s'.rankSequenceCounter = req.counter s.rankSequenceCounter := by
  cases h with
  | read hreads =>
      induction hreads with
      | refl => rfl
      | tail _ heffect ih => exact heffect.rankSequenceCounter.trans ih
  | deleted => exact eraseEntry_rankSequenceCounter ..
  | cleared ns => exact (sameRanks_clearNamespace s ns).counter
  | swept => exact sweepMapEnd_rankSequenceCounter s env.first
  | _ => rfl

/-! ## Runs -/

/-- After `n` rank writes, the counter is at `n` and the stamps are distinct
numbers up to `n`. -/
structure Sequenced (n : ℕ) (s : MemStoreManager) : Prop where
  counter : s.rankSequenceCounter.toNat = n
  bounded : ∀ ns key e, s.rankAt ns key = some e → e.sequence.toNat ≤ n
  distinct : ∀ ns key e ns' key' e', s.rankAt ns key = some e → s.rankAt ns' key' = some e' →
    e.sequence = e'.sequence → ns' = ns ∧ key' = key

theorem sequenced_initial : Sequenced 0 {} where
  counter := rfl
  bounded := by
    intro ns key e he
    cases he
  distinct := by
    intro ns key e ns' key' e' he
    cases he

theorem Sequenced.counter_eq {s s' : MemStoreManager} {n : ℕ} (hs : Sequenced n s)
    (hs' : Sequenced n s') : s'.rankSequenceCounter = s.rankSequenceCounter :=
  UInt64.toNat_inj.mp (hs'.counter.trans hs.counter.symm)

theorem Sequenced.toNat_next {s : MemStoreManager} {n : ℕ} (hs : Sequenced n s)
    (hn : n + 1 < 2 ^ 64) : (s.rankSequenceCounter + 1).toNat = n + 1 := by
  have hone : (1 : UInt64).toNat = 1 := rfl
  rw [UInt64.toNat_add, hs.counter, hone]
  omega

/-- The next stamp is later than all others. -/
theorem Sequenced.lt_next {s : MemStoreManager} {n : ℕ} (hs : Sequenced n s)
    (hn : n + 1 < 2 ^ 64) {ns key : StdString} {e : RankEntry} (he : s.rankAt ns key = some e) :
    e.sequence < s.rankSequenceCounter + 1 := by
  rw [UInt64.lt_iff_toNat_lt, hs.toNat_next hn]
  exact Nat.lt_succ_of_le (hs.bounded ns key e he)

/-- A step that stamps at most the entries of one key, with a new number. -/
theorem Sequenced.stamp {s s' : MemStoreManager} {n : ℕ} (hs : Sequenced n s)
    (hn : n + 1 < 2 ^ 64) (hcounter : s'.rankSequenceCounter = s.rankSequenceCounter + 1)
    {stamped : StdString → StdString → Prop}
    (hone : ∀ {ns key ns' key'}, stamped ns key → stamped ns' key' → ns' = ns ∧ key' = key)
    (hstep : ∀ {ns key e'}, s'.rankAt ns key = some e' →
      (∃ e, s.rankAt ns key = some e ∧ e'.sequence = e.sequence) ∨
        stamped ns key ∧ e'.sequence = s.rankSequenceCounter + 1) : Sequenced (n + 1) s' := by
  have hnext := hs.toNat_next hn
  have hfresh : ∀ {ns key e}, s.rankAt ns key = some e →
      e.sequence ≠ s.rankSequenceCounter + 1 := fun he => UInt64.ne_of_lt (hs.lt_next hn he)
  refine ⟨by rw [hcounter, hnext], ?_, ?_⟩
  · intro ns key e' he'
    rcases hstep he' with ⟨e, he, hsame⟩ | ⟨_, hnew⟩
    · rw [hsame]
      exact (hs.bounded ns key e he).trans (Nat.le_succ n)
    · rw [hnew, hnext]
  · intro ns key e' ns' key' f' he' hf' heq
    rcases hstep he' with ⟨e, he, hsame⟩ | ⟨hhere, hnew⟩
    · rcases hstep hf' with ⟨f, hf, hsame'⟩ | ⟨_, hnew'⟩
      · exact hs.distinct ns key e ns' key' f he hf (by rw [← hsame, heq, hsame'])
      · exact absurd (hsame.symm.trans (heq.trans hnew')) (hfresh he)
    · rcases hstep hf' with ⟨f, hf, hsame'⟩ | ⟨hthere, _⟩
      · exact absurd (hsame'.symm.trans (heq.symm.trans hnew)) (hfresh hf)
      · exact hone hhere hthere

/-- A step that stamps nothing. -/
theorem Sequenced.keep {s s' : MemStoreManager} {n : ℕ} (hs : Sequenced n s)
    (hcounter : s'.rankSequenceCounter = s.rankSequenceCounter)
    (hstep : ∀ {ns key e'}, s'.rankAt ns key = some e' →
      ∃ e, s.rankAt ns key = some e ∧ e'.sequence = e.sequence) : Sequenced n s' := by
  refine ⟨by rw [hcounter, hs.counter], ?_, ?_⟩
  · intro ns key e' he'
    obtain ⟨e, he, hsame⟩ := hstep he'
    rw [hsame]
    exact hs.bounded ns key e he
  · intro ns key e' ns' key' f' he' hf' heq
    obtain ⟨e, he, hsame⟩ := hstep he'
    obtain ⟨f, hf, hsame'⟩ := hstep hf'
    exact hs.distinct ns key e ns' key' f he hf (by rw [← hsame, heq, hsame'])

/-- Once everything has been cleared, it does not matter how many rank writes
there were before. -/
theorem Change.sequenced {env : Env} {s s' : MemStoreManager} {req : Request} {n : ℕ}
    (h : Change env s req s') (hs : n < 2 ^ 64 → Sequenced n s)
    (hn : req.countRankWrites n < 2 ^ 64) : Sequenced (req.countRankWrites n) s' := by
  have hcounter := h.rankSequenceCounter
  have hstamp : ∀ {ns key e'}, s'.rankAt ns key = some e' →
      (∃ e, s.rankAt ns key = some e ∧ e'.sequence = e.sequence) ∨
        (req.atRankKey ns key).stamps ∧ e'.sequence = s.rankSequenceCounter + 1 := by
    intro ns key e' he'
    rcases (h.rankStep ns key).origin he' with ⟨_, e, he, _, hsame⟩ | hnew
    · exact .inl ⟨e, he, hsame⟩
    · exact .inr hnew
  -- unless the call counts as a rank write, it stamps nothing
  have hkeep : req.countRankWrites n = n → ∀ {ns key e'}, s'.rankAt ns key = some e' →
      ∃ e, s.rankAt ns key = some e ∧ e'.sequence = e.sequence := by
    intro hsame ns key e' he'
    rcases hstamp he' with hold | ⟨hnew, _⟩
    · exact hold
    · exact absurd hnew (Request.not_stamps hsame ns key)
  cases req with
  | rankWrite | rankIncrement =>
      exact (hs (Nat.lt_of_succ_lt hn)).stamp hn hcounter Request.eq_of_stamps hstamp
  | clearAll =>
      have hnone : ∀ ns key, s'.rankAt ns key = none := by
        intro ns key
        have hclear := h.rankStep ns key
        generalize s'.rankAt ns key = o' at hclear
        cases hclear
        rfl
      refine ⟨congrArg UInt64.toNat hcounter, ?_, ?_⟩
      · intro ns key e' he'
        rw [hnone] at he'
        cases he'
      · intro ns key e' ns' key' f' he'
        rw [hnone] at he'
        cases he'
  | _ => exact (hs hn).keep hcounter (hkeep rfl)

variable {alg : StdAlgorithm RankPair}

theorem World.sequenced_call {w w' : World} {c : Call} {reply : Reply} {n : ℕ}
    (hw : WellFormed w.store) (hs : n < 2 ^ 64 → Sequenced n w.store)
    (h : w.call alg c = some (w', reply)) (hn : countRankWrites n (c, reply) < 2 ^ 64) :
    Sequenced (countRankWrites n (c, reply)) w'.store := by
  obtain ⟨_, hexec, _⟩ := World.call_eq_some_iff.mp h
  rw [← countRankWrites_outcome w.store.toLimits n c hexec] at hn ⊢
  exact (World.call_change hw h).2.2.sequenced hs hn

theorem sequenced_of_run {steps : List (Call × Reply)} {w : World}
    (hrun : RunFromStart alg Machine.anyStep steps w) (hn : rankWrites steps < 2 ^ 64) :
    Sequenced (rankWrites steps) w.store := by
  obtain ⟨t, hrun⟩ := hrun
  have hstep : ∀ (n : ℕ) (w : World) (c : Call) (reply : Reply) (w' : World),
      Machine.anyStep w c reply →
      (WellFormed w.store ∧ (n < 2 ^ 64 → Sequenced n w.store)) →
      w.call alg c = some (w', reply) →
      WellFormed w'.store ∧ (countRankWrites n (c, reply) < 2 ^ 64 →
        Sequenced (countRankWrites n (c, reply)) w'.store) :=
    fun n w c reply w' _ hw hcall =>
      ⟨World.wellFormed_call hw.1 hcall, World.sequenced_call hw.1 hw.2 hcall⟩
  exact (hrun.simulates countRankWrites
    (fun n w => WellFormed w.store ∧ (n < 2 ^ 64 → Sequenced n w.store)) hstep 0
    ⟨wellFormed_initial, fun _ => sequenced_initial⟩).2 hn

end MemStore
