import MemStore.Ranking.Leaderboard
import MemStore.Reading.LazyPurging

/-!
# Submitting a score again

Ties are meant to be won by whoever scored first.  The stamp that breaks them is
renewed by every rank write, so a key that submits its score again
(`Resubmits`) falls behind the keys that have reached the score since
(`HasLaterTie`).

* `sameAnswers_iff`: unless there is such a key, submitting again changes no
  answer about any board, and if there is one, it does.
* `Change.inOrder`: a key that keeps its score stays ahead of a key that reaches
  the score later, in every step that is not such a submission.
* `first_come_first_ranked` puts both together, the second one for runs.
-/

namespace MemStore

open MemStoreManager

/-! ## One rank entry in a step -/

/-- Where a live entry comes from that has not been stamped. -/
theorem RankStep.kept {env : Env} {sequence : UInt64} {a : RankAction}
    {o o' : Option RankEntry} (h : RankStep env sequence a o o') (ha : ¬ a.stamps)
    (hsound : ∀ e, o = some e → e.Sound) {e' : RankEntry} (he' : o' = some e')
    (hlive : e'.isExpired env.third = false) :
    ∃ e, o = some e ∧ e'.score = e.score ∧ e'.sequence = e.sequence ∧
      e.isExpired env.first = false := by
  cases h with
  | keep =>
      exact ⟨e', he', rfl, rfl, Expiration.live_of_earlier env.first_le_third hlive⟩
  | purge | delete | clear | clearAll => cases he'
  | write | incDead | incLive => exact absurd trivial ha
  | sweep =>
      obtain ⟨e, he, hsweep⟩ := Option.bind_eq_some_iff.mp he'
      obtain ⟨x, hx, rfl⟩ := Option.map_eq_some_iff.mp hsweep
      refine ⟨e, he, rfl, rfl, ?_⟩
      -- what the sweep keeps was alive before it
      have hlife := (Expiration.lifetime_of_sweep (hsound e he) hx).1
      have halive := Expiration.alive_of_not_isExpired
        (Expiration.live_of_earlier env.first_le_third hlive)
      rw [hlife] at halive
      rw [Expiration.isExpired_eq_not_alive, Lifetime.alive_of_afterSweeps halive]
      rfl

/-- A live entry that is stamped and keeps its score has been given it again. -/
theorem RankStep.stamped_same_score {env : Env} {sequence : UInt64} {a : RankAction}
    {o o' : Option RankEntry} (h : RankStep env sequence a o o') (ha : a.stamps)
    {e e' : RankEntry} (he : o = some e) (he' : o' = some e')
    (hlive : e.isExpired env.first = false) (hscore : e'.score = e.score) :
    ∃ policy extra, a = .write e.score policy extra ∨ a = .increment 0 policy extra := by
  cases h with
  | keep | purge | delete | clear | clearAll | sweep => exact ha.elim
  | write o score policy extra =>
      cases he'
      exact ⟨policy, extra, .inl (congrArg (fun s => RankAction.write s policy extra) hscore)⟩
  | incDead _ _ _ hdead =>
      rw [hdead e he] at hlive
      cases hlive
  | incLive delta policy extra =>
      cases he
      cases he'
      rw [score_reapplyRankExpiration] at hscore
      have hzero : delta = 0 := by
        have hadd : e.score + delta = e.score := hscore
        exact Int32.add_eq_left.mp hadd
      exact ⟨policy, extra, .inr (by rw [hzero])⟩

/-! ## Calls that submit a score again -/

/-- The call submits the score that a live key has already. -/
def Resubmits (s : MemStoreManager) (c : Call) (ns key : StdString) : Prop :=
  ∃ e, s.liveRankAt c.env.first ns key = some e ∧ ∃ policy extra,
    c.op = .write (.rankSet ns key e.score policy extra) ∨
      c.op = .write (.rankInc ns key 0 policy extra)

/-- Another live key has the same score and a later stamp. -/
def HasLaterTie (s : MemStoreManager) (now : TimePoint) (ns key : StdString) : Prop :=
  ∃ e key' f, s.liveRankAt now ns key = some e ∧ s.liveRankAt now ns key' = some f ∧
    f.score = e.score ∧ e.sequence < f.sequence

/-- The answers about all boards are the same, in one order and at one clock reading. -/
def SameAnswers (alg : StdAlgorithm RankPair) (s s' : MemStoreManager) (order : RankOrder)
    (now : TimePoint) : Prop :=
  (∀ ns key, (s'.rankGetPosition ns key order now).2 = (s.rankGetPosition ns key order now).2) ∧
  (∀ ns i, (s'.rankGetTop alg ns i order now).2 = (s.rankGetTop alg ns i order now).2) ∧
  ∀ ns startPos count, (s'.rankGetRange alg ns startPos count order now).2 =
    (s.rankGetRange alg ns startPos count order now).2

variable {alg : StdAlgorithm RankPair} {s s' : MemStoreManager} {ns key : StdString}

/-- What such a call comes to. -/
theorem Resubmits.outcome {c : Call} {reply : Reply} (h : Resubmits s c ns key)
    (hpos : 0 < s.maxKeysPerNamespace) (hexec : exec alg s c.env c.op = some (s', reply)) :
    ∃ e, s.liveRankAt c.env.first ns key = some e ∧ ∃ policy extra,
      c.op.outcome s.toLimits reply = .rankWrite ns key e.score policy extra ∨
        c.op.outcome s.toLimits reply = .rankIncrement ns key 0 policy extra := by
  obtain ⟨op, env⟩ := c
  obtain ⟨e, hlive, policy, extra, hop⟩ := h
  have hentry : s.rankAt ns key = some e := (liveRankAt_eq_some_iff.mp hlive).1
  refine ⟨e, hlive, policy, extra, ?_⟩
  rcases hop with rfl | rfl
  · -- the key is stored, and so passes the limits
    simp only [exec, Write.run, rankSet_eq hpos, checkRankLimit_of_rankAt hentry, if_true] at hexec
    cases hexec
    exact .inl rfl
  · have hexp := (liveRankAt_eq_some_iff.mp hlive).2
    simp only [exec, Write.run, rankInc, hentry] at hexec
    simp only [hexp] at hexec
    cases hexec
    exact .inr rfl

/-- The entry after such a call: it has the score from before and the next stamp. -/
theorem Change.resubmitted {t : TimePoint} {layout : Layout} {req : Request}
    (h : Change (.at t layout) s req s') {e : RankEntry}
    (he : s.liveRankAt t ns key = some e) {policy : ExpirePolicy} {extra : Int32}
    (hreq : req = .rankWrite ns key e.score policy extra ∨
      req = .rankIncrement ns key 0 policy extra) :
    ∃ e', s'.liveRankAt t ns key = some e' ∧ e'.score = e.score ∧
      e'.sequence = s.rankSequenceCounter + 1 := by
  obtain ⟨hentry, hlive⟩ := liveRankAt_eq_some_iff.mp he
  have hstep := h.rankStep ns key
  rw [hentry] at hstep
  generalize hentry' : s'.rankAt ns key = o' at hstep
  rcases hreq with rfl | rfl
  · rw [Request.atRankKey, if_pos ⟨rfl, rfl⟩] at hstep
    cases hstep
    exact ⟨_, liveRankAt_eq_some_iff.mpr ⟨hentry', Expiration.isExpired_apply ..⟩, rfl, rfl⟩
  · rw [Request.atRankKey, if_pos ⟨rfl, rfl⟩] at hstep
    cases hstep with
    | incDead _ _ _ hdead =>
        have hexp : e.isExpired t = true := hdead e rfl
        rw [hlive] at hexp
        cases hexp
    | incLive =>
        refine ⟨_, liveRankAt_eq_some_iff.mpr ⟨hentry', ?_⟩, ?_, ?_⟩
        · rw [toExpiration_reapplyRankExpiration]
          exact Expiration.live_reapply hlive policy extra
        · rw [score_reapplyRankExpiration]
          exact Int32.add_zero e.score
        · rw [sequence_reapplyRankExpiration]

/-- A live entry has been given a stamp above all the others, and nothing else is
different at the clock reading. -/
structure Restamped (s s' : MemStoreManager) (now : TimePoint) (ns key : StdString)
    (e e' : RankEntry) : Prop where
  before : s.liveRankAt now ns key = some e
  after : s'.liveRankAt now ns key = some e'
  score : e'.score = e.score
  newest : ∀ {ns₁ key₁ f}, s.liveRankAt now ns₁ key₁ = some f → f.sequence < e'.sequence
  others : ∀ {ns₁ key₁}, ¬ (ns₁ = ns ∧ key₁ = key) →
    s'.liveRankAt now ns₁ key₁ = s.liveRankAt now ns₁ key₁

theorem Change.restamped {n : ℕ} {t : TimePoint} {layout : Layout} {req : Request}
    (h : Change (.at t layout) s req s') (hs : Sequenced n s) (hs' : Sequenced (n + 1) s')
    {e : RankEntry} (he : s.liveRankAt t ns key = some e) {policy : ExpirePolicy}
    {extra : Int32}
    (hreq : req = .rankWrite ns key e.score policy extra ∨
      req = .rankIncrement ns key 0 policy extra) : ∃ e', Restamped s s' t ns key e e' := by
  obtain ⟨e', he', hscore, hsequence⟩ := h.resubmitted he hreq
  refine ⟨e', he, he', hscore, ?_, ?_⟩
  · -- the new stamp is one more than the old counter, which bounds the old stamps
    intro ns₁ key₁ f hf
    have hle := hs.bounded ns₁ key₁ f (liveRankAt_eq_some_iff.mp hf).1
    have hcounter := hs'.counter
    rw [h.rankSequenceCounter] at hcounter
    have hnext : (s.rankSequenceCounter + 1).toNat = n + 1 := by
      rcases hreq with rfl | rfl <;> exact hcounter
    rw [UInt64.lt_iff_toNat_lt, hsequence, hnext]
    omega
  · intro ns₁ key₁ hne
    refine h.liveRankAt_of_pass (le_refl t) ?_
    rcases hreq with rfl | rfl <;> exact if_neg hne

namespace Restamped

variable {now : TimePoint} {e e' : RankEntry} (h : Restamped s s' now ns key e e')

include h

/-- A tied key that stood behind the restamped one stands in front of it afterwards. -/
theorem overtaken {key' : StdString} {f : RankEntry} (hf : s.liveRankAt now ns key' = some f)
    (htie : f.score = e.score) (hlater : e.sequence < f.sequence) (order : RankOrder) :
    (s.liveView now).position ns key order < (s.liveView now).position ns key' order ∧
      (s'.liveView now).position ns key' order < (s'.liveView now).position ns key order := by
  have hne : ¬ (ns = ns ∧ key' = key) := by
    rintro ⟨_, rfl⟩
    cases hf.symm.trans h.before
    exact UInt64.lt_irrefl _ hlater
  constructor
  · apply position_lt_of_comp ((rankAt_liveView ..).trans h.before) ((rankAt_liveView ..).trans hf)
    rw [comp_eq_true_iff, htie]
    exact .inr ⟨rfl, UInt64.lt_iff_toNat_lt.mp hlater⟩
  · apply position_lt_of_comp ((rankAt_liveView ..).trans ((h.others hne).trans hf))
      ((rankAt_liveView ..).trans h.after)
    rw [comp_eq_true_iff, htie, h.score]
    exact .inr ⟨rfl, UInt64.lt_iff_toNat_lt.mp (h.newest hf)⟩

/-- Without such a key no board changes. -/
theorem sameBoard {n : ℕ} (hs : Sequenced n s) (hfirst : ¬ HasLaterTie s now ns key)
    (ns₁ : StdString) : SameBoard (s.liveView now) (s'.liveView now) ns₁ := by
  by_cases hns : ns₁ = ns
  · subst hns
    refine .of_restamped ((rankAt_liveView ..).trans h.before) ((rankAt_liveView ..).trans h.after)
      ?_ h.score ?_
    · intro key₁ hne
      rw [rankAt_liveView, rankAt_liveView, h.others fun hboth => hne hboth.2]
    · intro key₁ f hne hf htie
      rw [rankAt_liveView] at hf
      refine ⟨?_, h.newest hf⟩
      have hnot : ¬ e.sequence < f.sequence := fun hlater =>
        hfirst ⟨e, key₁, f, h.before, hf, htie, hlater⟩
      have hdistinct : f.sequence ≠ e.sequence := fun heq =>
        hne (hs.distinct ns₁ key e ns₁ key₁ f (liveRankAt_eq_some_iff.mp h.before).1
          (liveRankAt_eq_some_iff.mp hf).1 heq.symm).2
      exact UInt64.lt_of_le_of_ne (UInt64.not_lt.mp hnot) hdistinct
  · refine .of_rankAt fun key₁ => ?_
    rw [rankAt_liveView, rankAt_liveView, h.others fun hboth => hns hboth.1]

end Restamped

/-- The same boards give the same answers. -/
theorem SameAnswers.of_sameBoard {n n' : ℕ} {now : TimePoint} (hs : Sequenced n s)
    (hs' : Sequenced n' s')
    (hboard : ∀ ns₁, SameBoard (s.liveView now) (s'.liveView now) ns₁) (order : RankOrder) :
    SameAnswers alg s s' order now := by
  have hstamped := stamped_of_sequenced hs now
  have hstamped' := stamped_of_sequenced hs' now
  refine ⟨fun ns₁ key₁ => ?_, fun ns₁ i => ?_, fun ns₁ startPos count => ?_⟩
  · rw [rankGetPosition_view, rankGetPosition_view]
    exact (hboard ns₁).position key₁
  · rw [rankGetTop_view, rankGetTop_view]
    exact top_of_leaderboard (hstamped ns₁) (hstamped' ns₁)
      ((hboard ns₁).leaderboard (hstamped ns₁) (hstamped' ns₁)) alg i
  · rw [rankGetRange_view, rankGetRange_view]
    exact range_of_leaderboard (hstamped ns₁) (hstamped' ns₁)
      ((hboard ns₁).leaderboard (hstamped ns₁) (hstamped' ns₁)) alg startPos count

/-- Submitting a score again is invisible if and only if nobody has reached the
score since. -/
theorem sameAnswers_iff {n : ℕ} {t : TimePoint} {layout : Layout} {req : Request}
    (h : Change (.at t layout) s req s') (hs : Sequenced n s) (hs' : Sequenced (n + 1) s')
    {e : RankEntry} (he : s.liveRankAt t ns key = some e) {policy : ExpirePolicy}
    {extra : Int32}
    (hreq : req = .rankWrite ns key e.score policy extra ∨
      req = .rankIncrement ns key 0 policy extra) (order : RankOrder) :
    SameAnswers alg s s' order t ↔ ¬ HasLaterTie s t ns key := by
  obtain ⟨e', hstamp⟩ := h.restamped hs hs' he hreq
  constructor
  · rintro hsame ⟨e₀, key', f, he₀, hf, hfscore, hlater⟩
    cases he.symm.trans he₀
    obtain ⟨hbefore, hafter⟩ := hstamp.overtaken hf hfscore hlater order
    have hkey := hsame.1 ns key
    have hkey' := hsame.1 ns key'
    rw [rankGetPosition_view, rankGetPosition_view] at hkey hkey'
    omega
  · intro hfirst
    exact .of_sameBoard hs hs' (hstamp.sameBoard hs hfirst) order

/-! ## Keeping a score through a run -/

/-- The key has the score at the beginning of the call. -/
def Holds (ns key : StdString) (score : Cell) (w : World) (c : Call) : Prop :=
  (w.store.liveRankAt c.env.first ns key).map (fun e => e.score) = some score

/-- The call does not submit the score of a key again that somebody has reached since. -/
def KeepsTies (w : World) (c : Call) : Prop :=
  ∀ ns key, Resubmits w.store c ns key → ¬ HasLaterTie w.store c.env.first ns key

/-- As far as both keys have the score at a clock reading, the first one has the
smaller stamp. -/
def InOrder (s : MemStoreManager) (now : TimePoint) (ns key key' : StdString) (score : Cell) :
    Prop :=
  ∀ e f, s.liveRankAt now ns key = some e → s.liveRankAt now ns key' = some f →
    e.score = score → f.score = score → e.sequence < f.sequence

theorem InOrder.later {now later : TimePoint} {key' : StdString} {score : Cell}
    (h : InOrder s now ns key key' score) (hle : now ≤ later) :
    InOrder s later ns key key' score :=
  fun e f he hf => h e f (liveRankAt_of_later hle he) (liveRankAt_of_later hle hf)

/-- A key that has a score keeps the order with the keys that reach it later. -/
theorem Change.inOrder {n : ℕ} {env : Env} {req : Request} {key' : StdString} {score : Cell}
    (h : Change env s req s') (hwf : WellFormed s)
    (hs : n < 2 ^ 64 → Sequenced n s ∧ InOrder s env.first ns key key' score)
    (hn : req.countRankWrites n < 2 ^ 64)
    (hholds : (s.liveRankAt env.first ns key).map (fun e => e.score) = some score)
    (hkeeps : ∀ policy extra, req = .rankWrite ns key score policy extra ∨
      req = .rankIncrement ns key 0 policy extra → ¬ HasLaterTie s env.first ns key) :
    InOrder s' env.third ns key key' score := by
  obtain ⟨e, he, hscore⟩ := Option.map_eq_some_iff.mp hholds
  intro e' f' he' hf' hscore' hfscore'
  obtain ⟨hentry', hlive'⟩ := liveRankAt_eq_some_iff.mp he'
  obtain ⟨hfentry', hflive'⟩ := liveRankAt_eq_some_iff.mp hf'
  have hstep := h.rankStep ns key
  have hfstep := h.rankStep ns key'
  -- nothing is left after everything has been cleared
  have hlt : n < 2 ^ 64 := by
    cases req with
    | rankWrite | rankIncrement => exact Nat.lt_of_succ_lt hn
    | clearAll =>
        rw [hentry'] at hstep
        cases hstep
    | _ => exact hn
  obtain ⟨hs, horder⟩ := hs hlt
  have hsound : ∀ key₁ e, s.rankAt ns key₁ = some e → e.Sound := by
    intro key₁ e he
    exact hwf.sound (.rank ns key₁) _ (expirationAt_of_rankAt he)
  -- each of the two entries is from before or has just been stamped
  rcases hfstep.origin hfentry' with ⟨hfkept, _⟩ | ⟨hfstamped, hfnew⟩
  · obtain ⟨f, hf, hfscore, hfsequence, hflive⟩ :=
      hfstep.kept hfkept (hsound key') hfentry' hflive'
    have hf : s.liveRankAt env.first ns key' = some f :=
      liveRankAt_eq_some_iff.mpr ⟨hf, hflive⟩
    have hlt := horder e f he hf hscore (hfscore.symm.trans hfscore')
    rcases hstep.origin hentry' with ⟨_, e₀, he₀, _, hesequence⟩ | ⟨hstamped, _⟩
    · cases (liveRankAt_eq_some_iff.mp he).1.symm.trans he₀
      rw [hesequence, hfsequence]
      exact hlt
    · -- the key was stamped and has its score still: it was submitted again
      obtain ⟨hentry, hlive⟩ := liveRankAt_eq_some_iff.mp he
      obtain ⟨policy, extra, hagain⟩ := hstep.stamped_same_score hstamped hentry hentry' hlive
        (hscore'.trans hscore.symm)
      rw [hscore] at hagain
      have hlater : HasLaterTie s env.first ns key :=
        ⟨e, key', f, he, hf, by rw [← hfscore, hfscore', hscore], hlt⟩
      exact absurd hlater (hkeeps policy extra
        (hagain.imp Request.eq_of_atRankKey_write Request.eq_of_atRankKey_increment))
  · rcases hstep.origin hentry' with ⟨_, e₀, he₀, _, hesequence⟩ | ⟨hstamped, _⟩
    · rw [Request.countRankWrites_of_stamps n hfstamped] at hn
      rw [hesequence, hfnew]
      exact hs.lt_next hn he₀
    · -- a call stamps one key only, and no key is ahead of itself
      obtain ⟨_, rfl⟩ := Request.eq_of_stamps hstamped hfstamped
      exact absurd (horder e e he he hscore hscore) (UInt64.lt_irrefl _)

/-- What `inOrder` needs of the calls of a run. -/
theorem KeepsTies.request {w : World} {c : Call} {reply : Reply} {score : Cell}
    (h : KeepsTies w c) (hholds : Holds ns key score w c) (policy : ExpirePolicy)
    (extra : Int32)
    (hreq : c.op.outcome w.store.toLimits reply = .rankWrite ns key score policy extra ∨
      c.op.outcome w.store.toLimits reply = .rankIncrement ns key 0 policy extra) :
    ¬ HasLaterTie w.store c.env.first ns key := by
  obtain ⟨e, he, rfl⟩ := Option.map_eq_some_iff.mp hholds
  exact h ns key ⟨e, he, policy, extra,
    hreq.imp outcome_eq_rankWrite outcome_eq_rankIncrement⟩

/-- The order through a run. -/
theorem inOrder_of_run {n : ℕ} {w w' : World} {steps : List (Call × Reply)} {key' : StdString}
    {score : Cell}
    (hrun : Machine.Run (World.call alg) (fun w c _ => Holds ns key score w c ∧ KeepsTies w c) w
      steps w')
    (hwf : WellFormed w.store) (hs : n < 2 ^ 64 → Sequenced n w.store)
    (horder : InOrder w.store w.clock ns key key' score)
    (hn : steps.foldl countRankWrites n < 2 ^ 64) :
    InOrder w'.store w'.clock ns key key' score := by
  have hstep : ∀ (n : ℕ) (w : World) (c : Call) (reply : Reply) (w' : World),
      Holds ns key score w c ∧ KeepsTies w c →
      (WellFormed w.store ∧ (n < 2 ^ 64 → Sequenced n w.store ∧
        InOrder w.store w.clock ns key key' score)) →
      w.call alg c = some (w', reply) →
      WellFormed w'.store ∧ (countRankWrites n (c, reply) < 2 ^ 64 →
        Sequenced (countRankWrites n (c, reply)) w'.store ∧
          InOrder w'.store w'.clock ns key key' score) := by
    rintro n w c reply w' ⟨hholds, hkeeps⟩ ⟨hw, hs⟩ hcall
    obtain ⟨hclock, hclock', hchange⟩ := World.call_change hw hcall
    obtain ⟨_, hexec, _⟩ := World.call_eq_some_iff.mp hcall
    refine ⟨World.wellFormed_call hw hcall, fun hlt => ?_⟩
    rw [← countRankWrites_outcome w.store.toLimits n c hexec] at hlt ⊢
    refine ⟨hchange.sequenced (fun hn => (hs hn).1) hlt, ?_⟩
    rw [hclock']
    exact hchange.inOrder hw (fun hn => ⟨(hs hn).1, (hs hn).2.later hclock⟩) hlt hholds
      (hkeeps.request hholds)
  exact ((hrun.simulates countRankWrites _ hstep n
    ⟨hwf, fun hlt => ⟨hs hlt, horder⟩⟩).2 hn).2

/-! ## Who comes first -/

/-- **Ties are won by whoever was first, up to repeated submissions.**  In runs with
fewer than 2^64 rank writes since everything was last cleared:

* a call that submits the score of a live key again changes no answer about any
  board, in either order, if and only if no other live key has reached the score since;
* if no call of a run submits a score again that somebody has reached since, a key
  that has had its score from some moment on is ahead of every key that did not
  have the score at that moment and has it in the end. -/
theorem first_come_first_ranked :
    (∀ (steps : List (Call × Reply)) (w w' : World) (op : Op) (t : TimePoint) (layout : Layout)
        (reply : Reply) (ns key : StdString) (order : RankOrder),
      RunFromStart alg Machine.anyStep steps w → rankWrites steps + 1 < 2 ^ 64 →
      Resubmits w.store ⟨op, .at t layout⟩ ns key →
      w.call alg ⟨op, .at t layout⟩ = some (w', reply) →
      (SameAnswers alg w.store w'.store order t ↔ ¬ HasLaterTie w.store t ns key)) ∧
    ∀ (before steps : List (Call × Reply)) (w w' : World) (ns key key' : StdString)
        (score : Cell) (start now : TimePoint) (order : RankOrder),
      RunFromStart alg Machine.anyStep before w → w.clock ≤ start →
      (w.store.rankGetScore ns key' start).2 ≠ some score →
      Machine.Run (World.call alg) (fun w c _ => Holds ns key score w c ∧ KeepsTies w c)
        ⟨w.store, start⟩ steps w' →
      rankWrites (before ++ steps) < 2 ^ 64 → w'.clock ≤ now →
      (w'.store.rankGetScore ns key now).2 = some score →
      (w'.store.rankGetScore ns key' now).2 = some score →
      (w'.store.rankGetPosition ns key order now).2 <
        (w'.store.rankGetPosition ns key' order now).2 := by
  constructor
  · intro steps w w' op t layout reply ns key order hrun hwrites hres hcall
    have hwf := wellFormed_of_reachable ⟨steps, hrun⟩
    have hs := sequenced_of_run hrun (Nat.lt_of_succ_lt hwrites)
    obtain ⟨_, _, hchange⟩ := World.call_change hwf hcall
    obtain ⟨e, he, policy, extra, hreq⟩ :=
      hres.outcome hwf.maxKeys_pos (World.call_eq_some_iff.mp hcall).2.1
    have hs' : Sequenced (rankWrites steps + 1) w'.store := by
      have hcount : (op.outcome w.store.toLimits reply).countRankWrites (rankWrites steps) =
          rankWrites steps + 1 := by
        rcases hreq with hreq | hreq <;> rw [hreq] <;> rfl
      have hnext := hchange.sequenced (fun _ => hs) (by rw [hcount]; exact hwrites)
      rwa [hcount] at hnext
    exact sameAnswers_iff hchange hs hs' he hreq order
  · intro before steps w w' ns key key' score start now order hrun hstart hnot hsteps hwrites hnow
      hkey hkey'
    have hwf := wellFormed_of_reachable ⟨before, hrun⟩
    rw [rankWrites, List.foldl_append] at hwrites
    rw [rankGetScore_view, Option.map_eq_some_iff] at hkey hkey'
    obtain ⟨e, he, hscore⟩ := hkey
    obtain ⟨f, hf, hfscore⟩ := hkey'
    have horder : InOrder w.store start ns key key' score := by
      intro e f _ hf _ hfscore
      refine absurd ?_ hnot
      rw [rankGetScore_view, rankAt_liveView, hf, Option.map_some, hfscore]
    have hs : rankWrites before < 2 ^ 64 → Sequenced (rankWrites before) w.store :=
      fun hn => sequenced_of_run hrun hn
    have hend := inOrder_of_run hsteps hwf hs horder hwrites
    rw [rankGetPosition_view, rankGetPosition_view]
    rw [rankAt_liveView] at he hf
    have hlt := (hend.later hnow) e f he hf hscore hfscore
    apply position_lt_of_comp ((rankAt_liveView ..).trans he) ((rankAt_liveView ..).trans hf)
    rw [comp_eq_true_iff, hscore, hfscore]
    exact .inr ⟨rfl, UInt64.lt_iff_toNat_lt.mp hlt⟩

/-- A key submits 5 on a board. -/
private def five (key : StdString) : Call :=
  ⟨.write (.rankSet [1] key 5 .persistent 0), .at 0 fun _ => 0⟩

private theorem eq_of_resubmits_five {s : MemStoreManager} {ns key key' : StdString}
    (h : Resubmits s (five key) ns key') :
    ns = [1] ∧ key' = key ∧ (s.liveRankAt 0 [1] key).isSome := by
  obtain ⟨e, he, policy, extra, hop | hop⟩ := h
  · rw [five, Op.write.injEq, Write.rankSet.injEq] at hop
    obtain ⟨rfl, rfl, _⟩ := hop
    exact ⟨rfl, rfl, Option.isSome_iff_exists.mpr ⟨e, he⟩⟩
  · cases hop

/-- Of two keys with one score the second one may submit it again, which changes nothing,
and stays behind the first one.  If the first one does, that changes the ranking. -/
theorem first_come_first_ranked_tie : ∃ w w₁ w₂ : World,
    RunFromStart (StdAlgorithm.insertionSort (α := RankPair)) Machine.anyStep
      [(five [2], .flag true), (five [3], .flag true)] w ∧
    w.call (StdAlgorithm.insertionSort (α := RankPair)) (five [3]) = some (w₁, .flag true) ∧
    SameAnswers (StdAlgorithm.insertionSort (α := RankPair)) w.store w₁.store .desc 0 ∧
    (w₁.store.rankGetPosition [1] [2] .desc 0).2 < (w₁.store.rankGetPosition [1] [3] .desc 0).2 ∧
    w.call (StdAlgorithm.insertionSort (α := RankPair)) (five [2]) = some (w₂, .flag true) ∧
    ¬ SameAnswers (StdAlgorithm.insertionSort (α := RankPair)) w.store w₂.store .desc 0 := by
  let alg : StdAlgorithm RankPair := .insertionSort
  have hworlds : ∃ w₀ w w₁ w₂ : World,
      RunFromStart alg Machine.anyStep [(five [2], .flag true)] w₀ ∧ w₀.clock ≤ 0 ∧
      w₀.store.liveRankAt 0 [1] [3] = none ∧ Holds [1] [2] 5 w₀ (five [3]) ∧
      World.call alg ⟨w₀.store, 0⟩ (five [3]) = some (w, .flag true) ∧
      w₀.call alg (five [3]) = some (w, .flag true) ∧
      (∃ e, w.store.liveRankAt 0 [1] [3] = some e ∧ e.score = 5 ∧ e.sequence.toNat = 2) ∧
      Holds [1] [2] 5 w (five [3]) ∧ Resubmits w.store (five [2]) [1] [2] ∧
      HasLaterTie w.store 0 [1] [2] ∧
      w.call alg (five [3]) = some (w₁, .flag true) ∧ w₁.clock ≤ 0 ∧
      (w₁.store.rankGetScore [1] [2] 0).2 = some 5 ∧ (w₁.store.rankGetScore [1] [3] 0).2 = some 5 ∧
      w.call alg (five [2]) = some (w₂, .flag true) :=
    ⟨⟨_, 0⟩, ⟨_, 0⟩, ⟨_, 0⟩, ⟨_, 0⟩, ⟨0, run_cons trivial le_rfl rfl (.nil _)⟩, le_rfl, rfl, rfl,
      World.call_eq_some_iff.mpr ⟨le_rfl, rfl, rfl⟩, World.call_eq_some_iff.mpr ⟨le_rfl, rfl, rfl⟩,
      ⟨_, rfl, rfl, rfl⟩, rfl, ⟨_, rfl, .persistent, 0, .inl rfl⟩,
      ⟨_, [3], _, rfl, rfl, rfl, by decide⟩, World.call_eq_some_iff.mpr ⟨le_rfl, rfl, rfl⟩, le_rfl,
      rfl, rfl, World.call_eq_some_iff.mpr ⟨le_rfl, rfl, rfl⟩⟩
  obtain ⟨w₀, w, w₁, w₂, hrun₀, hclock₀, habsent, hholds₀, hcall, hcall₀, ⟨e, he, hscore, hseq⟩,
    hholds, hagain, htie, hcall₁, hclock₁, hkey, hkey', hcall₂⟩ := hworlds
  have hrun : RunFromStart alg Machine.anyStep
      [(five [2], .flag true), (five [3], .flag true)] w := by
    obtain ⟨t, hrun⟩ := hrun₀
    exact ⟨t, hrun.append (.single trivial hcall₀)⟩
  -- nobody has been stamped after the second key
  have hlast : ¬ HasLaterTie w.store 0 [1] [3] := by
    rintro ⟨e', key', f, he', hf, _, hlater⟩
    rw [he] at he'
    cases he'
    have hbound := (sequenced_of_run hrun (by decide)).bounded [1] key' f
      (liveRankAt_eq_some_iff.mp hf).1
    rw [UInt64.lt_iff_toNat_lt, hseq] at hlater
    exact absurd hlater (Nat.not_lt.mpr hbound)
  have hresubmits : Resubmits w.store (five [3]) [1] [3] :=
    ⟨e, he, .persistent, 0, .inl (by rw [hscore]; rfl)⟩
  have hsame := (first_come_first_ranked.1 _ w w₁ _ 0 (fun _ => 0) _ [1] [3] .desc hrun (by decide)
    hresubmits hcall₁).mpr hlast
  have hdemoted := first_come_first_ranked.1 _ w w₂ _ 0 (fun _ => 0) _ [1] [2] .desc hrun
    (by decide) hagain hcall₂
  have hsteps : Machine.Run (World.call alg) (fun w c _ => Holds [1] [2] 5 w c ∧ KeepsTies w c)
      ⟨w₀.store, 0⟩ [(five [3], .flag true), (five [3], .flag true)] w₁ := by
    refine .cons ⟨hholds₀, fun ns key h => ?_⟩ hcall (.single ⟨hholds, fun ns key h => ?_⟩ hcall₁)
    · have hlive := (eq_of_resubmits_five h).2.2
      rw [habsent] at hlive
      cases hlive
    · obtain ⟨rfl, rfl, _⟩ := eq_of_resubmits_five h
      exact hlast
  have hfirst := first_come_first_ranked.2 _ _ w₀ w₁ [1] [2] [3] 5 0 0 .desc hrun₀ hclock₀
    (by rw [rankGetScore_view, rankAt_liveView, habsent]; nofun) hsteps (by decide) hclock₁ hkey
    hkey'
  exact ⟨w, w₁, w₂, hrun, hcall₁, hsame, hfirst, hcall₂, fun h => hdemoted.mp h htie⟩

/-- A player who was first and whose score is saved again loses the first place. -/
theorem resubmission_demotes : ¬ ∀ (steps : List (Call × Reply)) (w w' : World) (op : Op)
    (t : TimePoint) (layout : Layout) (reply : Reply) (ns key : StdString) (order : RankOrder),
      RunFromStart (StdAlgorithm.insertionSort (α := RankPair)) Machine.anyStep steps w →
      Resubmits w.store ⟨op, .at t layout⟩ ns key →
      w.call (StdAlgorithm.insertionSort (α := RankPair)) ⟨op, .at t layout⟩ = some (w', reply) →
      SameAnswers (StdAlgorithm.insertionSort (α := RankPair)) w.store w'.store order t := by
  intro h
  have hrun : ∃ w, w.clock ≤ 0 ∧
      RunFromStart (StdAlgorithm.insertionSort (α := RankPair)) Machine.anyStep
        [(⟨.write (.rankSet [1] [2] 5 .persistent 0), .at 0 fun _ => 0⟩, .flag true),
          (⟨.write (.rankSet [1] [3] 5 .persistent 0), .at 0 fun _ => 0⟩, .flag true)] w ∧
      Resubmits w.store ⟨.write (.rankSet [1] [2] 5 .persistent 0), .at 0 fun _ => 0⟩ [1] [2] ∧
      (w.store.rankGetPosition [1] [2] .desc 0).2 = 1 ∧
      ∃ s', exec (StdAlgorithm.insertionSort (α := RankPair)) w.store (.at 0 fun _ => 0)
          (.write (.rankSet [1] [2] 5 .persistent 0)) = some (s', .flag true) ∧
        (s'.rankGetPosition [1] [2] .desc 0).2 = 2 :=
    ⟨⟨_, 0⟩, le_rfl, ⟨0, run_cons trivial le_rfl rfl (run_cons trivial le_rfl rfl (.nil _))⟩,
      ⟨_, rfl, .persistent, 0, .inl rfl⟩, rfl, _, rfl, rfl⟩
  obtain ⟨w, hclock, hrun, hres, hfirst, s', hexec, hsecond⟩ := hrun
  have hsame := h _ w ⟨s', 0⟩ _ 0 _ _ [1] [2] .desc hrun hres
    (World.call_eq_some_iff.mpr ⟨hclock, hexec, rfl⟩)
  have hposition := hsame.1 [1] [2]
  rw [hfirst, hsecond] at hposition
  exact absurd hposition (by decide)

end MemStore
