import MemStore.Ranking.Bisimulation

/-!
# Independent rank writes commute

Two rank writes of different keys stamp their keys in the order in which they
are made, so the stores they lead to differ.  If the scores differ afterwards,
the stamps are never compared: the two stores are alike in the sense of `Alike`.

* `RankWritten` says what one successful rank write does, `rankWritten_of_call`
  that it does so.
* `BothWritten.alike`: two of them, in either order, lead to alike stores.
* `independent_writes_commute`: so no continuation tells them apart.
-/

namespace MemStore

open MemStoreManager

/-! ## One rank write -/

/-- A `RankSet` or `RankInc` of the key. -/
def Write.ranks (ns key : StdString) : Write → Prop
  | .rankSet ns' key' _ _ _ | .rankInc ns' key' _ _ _ => ns' = ns ∧ key' = key
  | _ => False

/-- What it does to the entry. -/
def Write.rankAction : Write → RankAction
  | .rankSet _ _ score policy extra => .write score policy extra
  | .rankInc _ _ delta policy extra => .increment delta policy extra
  | _ => .pass

theorem Write.stamps_rankAction {ns key : StdString} {write : Write} (h : write.ranks ns key) :
    write.rankAction.stamps := by
  cases write with
  | rankSet | rankInc => trivial
  | _ => exact h.elim

/-- The key has been written at clock reading `t`, and nothing else has happened. -/
structure RankWritten (t : TimePoint) (ns key : StdString) (a : RankAction) (w w' : World) :
    Prop where
  clock : w'.clock = t
  keyValues : SameKeyValues w.store w'.store
  wellFormed : WellFormed w'.store
  sequenced : ∀ n, Sequenced n w.store → n + 1 < 2 ^ 64 → Sequenced (n + 1) w'.store
  rankAt : ∀ ns' key', w'.store.rankAt ns' key' =
    if ns' = ns ∧ key' = key then
      a.result t t (w.store.rankSequenceCounter + 1) (w.store.rankAt ns key)
    else w.store.rankAt ns' key'

variable {alg : StdAlgorithm RankPair} {w u w' : World} {t : TimePoint} {ns : StdString}

theorem Change.sameKeyValues {env : Env} {s s' : MemStoreManager} {req : Request}
    (h : Change env s req s') (hwrite : req.countRankWrites 0 = 1) : SameKeyValues s s' := by
  cases h with
  | rankWrote | rankIncAbsent | rankIncExpired | rankIncLive => exact ⟨rfl, rfl, rfl, rfl⟩
  | _ => cases hwrite

theorem rankWritten_of_call {layout : Layout} {key : StdString} {write : Write} {reply : Reply}
    (hw : WellFormed w.store) (hwrite : write.ranks ns key)
    (hcall : w.call alg ⟨.write write, .at t layout⟩ = some (w', reply))
    (hok : reply.succeeded = true) : RankWritten t ns key write.rankAction w w' := by
  obtain ⟨_, hclock, hchange⟩ := World.call_change hw hcall
  have hrequest : (Op.write write).outcome w.store.toLimits reply =
      (Op.write write).request w.store.toLimits := if_pos hok
  rw [hrequest] at hchange
  have hread : (Op.write write).request w.store.toLimits ≠ .read := by
    cases write <;> simp [Op.request]
  have hcount : ∀ n, ((Op.write write).request w.store.toLimits).countRankWrites n = n + 1 := by
    intro n
    cases write with
    | rankSet | rankInc => rfl
    | _ => exact hwrite.elim
  refine ⟨hclock, ?_, World.wellFormed_call hw hcall, ?_, ?_⟩
  · exact hchange.sameKeyValues (hcount 0)
  · intro n hs hn
    rw [← hcount n] at hn ⊢
    exact hchange.sequenced (fun _ => hs) hn
  · intro ns' key'
    rw [hchange.rankAt_eq hread]
    cases write with
    | rankSet | rankInc =>
        obtain ⟨rfl, rfl⟩ := hwrite
        simp only [Op.request, Request.atRankKey, Write.rankAction]
        split
        · next heq =>
            rw [heq.1, heq.2]
            rfl
        · rfl
    | _ => exact hwrite.elim

/-! ## Two rank writes -/

/-- Two keys have been written at clock reading `t`, in some order, with stamps
above `n`. -/
structure BothWritten (n : ℕ) (t : TimePoint) (ns key₁ key₂ : StdString) (a₁ a₂ : RankAction)
    (w w' : World) : Prop where
  clock : w'.clock = t
  keyValues : SameKeyValues w.store w'.store
  wellFormed : WellFormed w'.store
  sequenced : Sequenced (n + 2) w'.store
  first : ∃ sequence : UInt64, n < sequence.toNat ∧
    w'.store.rankAt ns key₁ = a₁.result t t sequence (w.store.rankAt ns key₁)
  second : ∃ sequence : UInt64, n < sequence.toNat ∧
    w'.store.rankAt ns key₂ = a₂.result t t sequence (w.store.rankAt ns key₂)
  others : ∀ ns' key', ¬ (ns' = ns ∧ (key' = key₁ ∨ key' = key₂)) →
    w'.store.rankAt ns' key' = w.store.rankAt ns' key'

section BothWritten

variable {n : ℕ} {key₁ key₂ : StdString} {a₁ a₂ : RankAction} {v v' : World}

theorem RankWritten.both (h₁ : RankWritten t ns key₁ a₁ w u) (h₂ : RankWritten t ns key₂ a₂ u v)
    (hne : key₁ ≠ key₂) (hs : Sequenced n w.store) (hn : n + 2 < 2 ^ 64) :
    BothWritten n t ns key₁ key₂ a₁ a₂ w v := by
  have hs' := h₁.sequenced n hs (by omega)
  have hlow := hs.toNat_next (by omega)
  have hhigh := hs'.toNat_next hn
  refine ⟨h₂.clock, h₁.keyValues.trans h₂.keyValues, h₂.wellFormed,
    h₂.sequenced (n + 1) hs' hn, ⟨w.store.rankSequenceCounter + 1, by omega, ?_⟩,
    ⟨u.store.rankSequenceCounter + 1, by omega, ?_⟩, ?_⟩
  · -- the second write leaves the first key alone
    rw [h₂.rankAt, if_neg (fun heq => hne heq.2), h₁.rankAt, if_pos ⟨rfl, rfl⟩]
  · rw [h₂.rankAt, if_pos ⟨rfl, rfl⟩, h₁.rankAt, if_neg (fun heq => hne heq.2.symm)]
  · intro ns' key' hother
    rw [h₂.rankAt, if_neg (fun heq => hother ⟨heq.1, .inr heq.2⟩), h₁.rankAt,
      if_neg (fun heq => hother ⟨heq.1, .inl heq.2⟩)]

theorem BothWritten.symm (h : BothWritten n t ns key₁ key₂ a₁ a₂ w v) :
    BothWritten n t ns key₂ key₁ a₂ a₁ w v :=
  ⟨h.clock, h.keyValues, h.wellFormed, h.sequenced, h.second, h.first,
    fun ns' key' hother => h.others ns' key' fun heq => hother ⟨heq.1, heq.2.symm⟩⟩

/-- A key that has been written has a new stamp. -/
theorem BothWritten.lt_sequence (h : BothWritten n t ns key₁ key₂ a₁ a₂ w v) (h₁ : a₁.stamps)
    (h₂ : a₂.stamps) {key : StdString} (hkey : key = key₁ ∨ key = key₂) {e : RankEntry}
    (he : v.store.rankAt ns key = some e) : n < e.sequence.toNat := by
  have hstamp : ∀ {a : RankAction} {sequence : UInt64} {o : Option RankEntry}, a.stamps →
      a.result t t sequence o = some e → e.sequence = sequence := by
    intro a sequence o ha he
    rcases (a.rankStep_result (.at t fun _ => 0) sequence o).origin he with ⟨hnot, _⟩ | ⟨_, hnew⟩
    · exact absurd ha hnot
    · exact hnew
  rcases hkey with rfl | rfl
  · obtain ⟨sequence, hlt, hentry⟩ := h.first
    rw [hstamp h₁ (hentry.symm.trans he)]
    exact hlt
  · obtain ⟨sequence, hlt, hentry⟩ := h.second
    rw [hstamp h₂ (hentry.symm.trans he)]
    exact hlt

/-- A key that has not been written has an old stamp, the same one in both stores. -/
theorem BothWritten.le_sequence (h : BothWritten n t ns key₁ key₂ a₁ a₂ w v)
    (h' : BothWritten n t ns key₁ key₂ a₁ a₂ w v') (hs : Sequenced n w.store)
    {ns' key : StdString} (hother : ¬ (ns' = ns ∧ (key = key₁ ∨ key = key₂))) {e e' : RankEntry}
    (he : v.store.rankAt ns' key = some e) (he' : v'.store.rankAt ns' key = some e') :
    e' = e ∧ e.sequence.toNat ≤ n := by
  rw [h.others ns' key hother] at he
  rw [h'.others ns' key hother, he] at he'
  exact ⟨(Option.some.inj he').symm, hs.bounded ns' key e he⟩

/-- Of the two keys only one can be tied with itself. -/
theorem eq_of_tied {v : World} {key key' : StdString}
    (hscores : ∀ e f, v.store.rankAt ns key₁ = some e → v.store.rankAt ns key₂ = some f →
      e.score ≠ f.score)
    (hkey : key = key₁ ∨ key = key₂) (hkey' : key' = key₁ ∨ key' = key₂) {e f : RankEntry}
    (he : v.store.rankAt ns key = some e) (hf : v.store.rankAt ns key' = some f)
    (htie : e.score = f.score) : key = key' := by
  rcases hkey with rfl | rfl
  · rcases hkey' with rfl | rfl
    · rfl
    · exact absurd htie (hscores e f he hf)
  · rcases hkey' with rfl | rfl
    · exact absurd htie.symm (hscores f e hf he)
    · rfl

/-- The order of the two writes shows in the stamps of the two keys only, which
are not tied. -/
theorem BothWritten.alike (h : BothWritten n t ns key₁ key₂ a₁ a₂ w v)
    (h' : BothWritten n t ns key₁ key₂ a₁ a₂ w v') (h₁ : a₁.stamps) (h₂ : a₂.stamps)
    (hs : Sequenced n w.store)
    (hscores : ∀ e f, v.store.rankAt ns key₁ = some e → v.store.rankAt ns key₂ = some f →
      e.score ≠ f.score) : Alike v.store v'.store where
  keyValues := h.keyValues.symm.trans h'.keyValues
  entry := by
    intro ns' key'
    by_cases hwritten : ns' = ns ∧ (key' = key₁ ∨ key' = key₂)
    · obtain ⟨rfl, rfl | rfl⟩ := hwritten
      · obtain ⟨_, _, hentry⟩ := h.first
        obtain ⟨_, _, hentry'⟩ := h'.first
        rw [hentry, hentry']
        exact RankAction.result_congr _ _ _ _ _ rfl
      · obtain ⟨_, _, hentry⟩ := h.second
        obtain ⟨_, _, hentry'⟩ := h'.second
        rw [hentry, hentry']
        exact RankAction.result_congr _ _ _ _ _ rfl
    · rw [h.others ns' key' hwritten, h'.others ns' key' hwritten]
  tie := by
    intro ns' key e e' key' f f' he he' hf hf' hscore
    rw [UInt64.lt_iff_toNat_lt, UInt64.lt_iff_toNat_lt]
    by_cases hkey : ns' = ns ∧ (key = key₁ ∨ key = key₂)
    · by_cases hkey' : ns' = ns ∧ (key' = key₁ ∨ key' = key₂)
      · obtain ⟨rfl, hkey⟩ := hkey
        have hsame : key = key' := eq_of_tied hscores hkey hkey'.2 he hf hscore
        subst hsame
        cases he.symm.trans hf
        cases he'.symm.trans hf'
        exact iff_of_false (Nat.lt_irrefl _) (Nat.lt_irrefl _)
      · obtain ⟨rfl, hle⟩ := h.le_sequence h' hs hkey' hf hf'
        obtain ⟨rfl, hkey⟩ := hkey
        have hlt := h.lt_sequence h₁ h₂ hkey he
        have hlt' := h'.lt_sequence h₁ h₂ hkey he'
        exact iff_of_false (by omega) (by omega)
    · obtain ⟨rfl, hle⟩ := h.le_sequence h' hs hkey he he'
      by_cases hkey' : ns' = ns ∧ (key' = key₁ ∨ key' = key₂)
      · obtain ⟨rfl, hkey'⟩ := hkey'
        have hlt := h.lt_sequence h₁ h₂ hkey' hf
        have hlt' := h'.lt_sequence h₁ h₂ hkey' hf'
        exact iff_of_true (by omega) (by omega)
      · obtain ⟨rfl, _⟩ := h.le_sequence h' hs hkey' hf hf'
        rfl

end BothWritten

/-! ## Continuations -/

/-- Two writes in a row at one clock reading, both of which succeed. -/
def WriteBoth (alg : StdAlgorithm RankPair) (t : TimePoint) (first second : Write)
    (w w' : World) : Prop :=
  ∃ (u : World) (layout layout' : Layout) (reply reply' : Reply),
    w.call alg ⟨.write first, .at t layout⟩ = some (u, reply) ∧ reply.succeeded = true ∧
      u.call alg ⟨.write second, .at t layout'⟩ = some (w', reply') ∧ reply'.succeeded = true

theorem rankWrites_le (steps : List (Call × Reply)) :
    rankWrites steps ≤ steps.countP isRankWrite := by
  have hfrom : ∀ n, steps.foldl countRankWrites n ≤ n + steps.countP isRankWrite := by
    induction steps with
    | nil => exact fun n => le_rfl
    | cons step rest ih =>
        intro n
        have hstep := countRankWrites_le n step
        have hrest := ih (countRankWrites n step)
        rw [List.foldl_cons, List.countP_cons]
        omega
  have hzero := hfrom 0
  rwa [Nat.zero_add] at hzero

/-- **Independent rank writes commute.**  From a store that some run leads to, two
successful rank writes of different keys are made at one clock reading, in
either order.  If the scores of the keys differ then, what can be called
afterwards, with which replies, is the same for both orders, in all
continuations with fewer than 2^64 rank writes in total. -/
theorem independent_writes_commute {before steps steps' : List (Call × Reply)}
    {w w₁₂ w₂₁ : World} {t : TimePoint} {ns key₁ key₂ : StdString} {write₁ write₂ : Write}
    (hrun : RunFromStart alg Machine.anyStep before w) (hwrite₁ : write₁.ranks ns key₁)
    (hwrite₂ : write₂.ranks ns key₂) (hne : key₁ ≠ key₂)
    (h₁₂ : WriteBoth alg t write₁ write₂ w w₁₂) (h₂₁ : WriteBoth alg t write₂ write₁ w w₂₁)
    (hscores : ∀ e f, w₁₂.store.rankAt ns key₁ = some e → w₁₂.store.rankAt ns key₂ = some f →
      e.score ≠ f.score)
    (hsteps : List.Forall₂ SameStep steps steps')
    (hwrites : before.countP isRankWrite + 2 + steps.countP isRankWrite < 2 ^ 64) :
    (∃ v, Machine.Run (World.call alg) Machine.anyStep w₁₂ steps v) ↔
      ∃ v, Machine.Run (World.call alg) Machine.anyStep w₂₁ steps' v := by
  have hle := rankWrites_le before
  have hwf := wellFormed_of_reachable ⟨before, hrun⟩
  have hs := sequenced_of_run hrun (by omega)
  have hboth : ∀ {v : World} {first second : Write} {key key' : StdString},
      first.ranks ns key → second.ranks ns key' → key ≠ key' → WriteBoth alg t first second w v →
      BothWritten (rankWrites before) t ns key key' first.rankAction second.rankAction w v := by
    rintro v first second key key' hfirst hsecond hne
      ⟨u, layout, layout', reply, reply', hcall, hok, hcall', hok'⟩
    have hwritten := rankWritten_of_call hwf hfirst hcall hok
    exact hwritten.both (rankWritten_of_call hwritten.wellFormed hsecond hcall' hok') hne hs
      (by omega)
  have hb := hboth hwrite₁ hwrite₂ hne h₁₂
  have hb' := (hboth hwrite₂ hwrite₁ hne.symm h₂₁).symm
  have halike := hb.alike hb' (Write.stamps_rankAction hwrite₁) (Write.stamps_rankAction hwrite₂)
    hs hscores
  have hclock : w₂₁.clock = w₁₂.clock := hb'.clock.trans hb.clock.symm
  constructor
  · rintro ⟨v, hv⟩
    exact halike.run hclock hb.wellFormed hb'.wellFormed hb.sequenced hb'.sequenced (by omega)
      hsteps hv
  · rintro ⟨v, hv⟩
    have hback : List.Forall₂ SameStep steps' steps :=
      (hsteps.imp fun step step' hstep => hstep.symm).flip
    rw [← countP_isRankWrite_congr hsteps] at hwrites
    exact halike.symm.run hclock.symm hb'.wellFormed hb.wellFormed hb'.sequenced hb.sequenced
      (by omega) hback hv

/-- Setting one key and incrementing another: the higher score is the first one
whichever comes first. -/
theorem independent_writes_commute_pair : ∃ w v : World,
    WriteBoth .insertionSort 0 (.rankInc [1] [3] 7 .persistent 0)
      (.rankSet [1] [2] 5 .persistent 0) (.initial 0) w ∧
    Machine.Run (World.call .insertionSort) Machine.anyStep w
      [(⟨.query (.rankGetPosition [1] [2] .desc), .at 0 fun _ => 0⟩, .count 2)] v := by
  have hset : ∃ w v : World, WriteBoth .insertionSort 0 (.rankSet [1] [2] 5 .persistent 0)
      (.rankInc [1] [3] 7 .persistent 0) (.initial 0) w ∧
      (w.store.rankAt [1] [2]).map (fun e => e.score) = some 5 ∧
      (w.store.rankAt [1] [3]).map (fun e => e.score) = some 7 ∧
      Machine.Run (World.call .insertionSort) Machine.anyStep w
        [(⟨.query (.rankGetPosition [1] [2] .desc), .at 0 fun _ => 0⟩, .count 2)] v :=
    ⟨⟨_, 0⟩, ⟨_, 0⟩, ⟨⟨_, 0⟩, fun _ => 0, fun _ => 0, .flag true, .cell (some 7),
      World.call_eq_some_iff.mpr ⟨le_rfl, rfl, rfl⟩, rfl,
      World.call_eq_some_iff.mpr ⟨le_rfl, rfl, rfl⟩, rfl⟩, rfl, rfl,
      run_cons trivial le_rfl rfl (.nil _)⟩
  have hinc : ∃ w : World, WriteBoth .insertionSort 0 (.rankInc [1] [3] 7 .persistent 0)
      (.rankSet [1] [2] 5 .persistent 0) (.initial 0) w :=
    ⟨⟨_, 0⟩, ⟨_, 0⟩, fun _ => 0, fun _ => 0, .cell (some 7), .flag true,
      World.call_eq_some_iff.mpr ⟨le_rfl, rfl, rfl⟩, rfl,
      World.call_eq_some_iff.mpr ⟨le_rfl, rfl, rfl⟩, rfl⟩
  obtain ⟨w, v, hset, hfive, hseven, hrun⟩ := hset
  obtain ⟨w', hinc⟩ := hinc
  have hsame : ∀ step : Call × Reply, List.Forall₂ SameStep [step] [step] := fun step =>
    .cons ⟨⟨rfl, rfl, rfl, rfl, fun _ => rfl⟩, rfl⟩ .nil
  have hscores : ∀ e f, w.store.rankAt [1] [2] = some e → w.store.rankAt [1] [3] = some f →
      e.score ≠ f.score := by
    intro e f he hf hscore
    rw [he, Option.map_some, hscore] at hfive
    rw [hf, Option.map_some, hfive] at hseven
    exact absurd hseven (by decide)
  have hwrite₁ : (Write.rankSet [1] [2] 5 .persistent 0).ranks [1] [2] := ⟨rfl, rfl⟩
  have hwrite₂ : (Write.rankInc [1] [3] 7 .persistent 0).ranks [1] [3] := ⟨rfl, rfl⟩
  obtain ⟨v', hrun'⟩ := (independent_writes_commute ⟨0, .nil _⟩ hwrite₁ hwrite₂ (by decide) hset
    hinc hscores (hsame _) (by decide)).mp ⟨v, hrun⟩
  exact ⟨w', v', hinc, hrun'⟩

end MemStore
