import MemStore.KeyValue.Counters
import MemStore.Natives.RoundTrips

/-!
# Counters that plugins share

One plugin stores an integer, any plugins increment it, and one reads it: the
result is what has been stored plus all increments (`counter_total`).
-/

namespace MemStore

open MemStoreManager
open Machine (Run)

variable {host : AmxHost} {alg : StdAlgorithm RankPair} {t₀ : TimePoint} {w w₁ w₂ : World}
  {env env' : Env} {mem mem' : AmxMemory} {ns key ns' key' : Cell} {rest : List Cell}
  {nsText keyText : StdString} {policy : ExpirePolicy} {r : NativeResult}
  {steps : List (Call × Reply)}

theorem keeps_of_setInt {value : Cell} (hwf : WellFormed w.store)
    (hnames : getNamespaceAndKey host mem ns key = .ok (nsText, keyText))
    (hpolicy : policyParam rest[0]? = .ok policy)
    (hset : w.native host alg ⟨.setInt, ns :: key :: value :: rest, mem, env⟩ = some (w₁, r))
    (hret : r.ret = 1) :
    Keeps nsText keyText (.int value, .ofPolicy policy (rest[1]?.getD 0) env.first) w₁ := by
  obtain ⟨_, hrun, hclock⟩ := World.native_eq_some_iff.mp hset
  have hsetter : setter host w.store mem ns key rest (fun ns key policy extra =>
      w.store.setInt env.layout ns key value policy extra env.first) = some (w₁.store, r) := hrun
  have hstore := setter_succeeded hnames hpolicy hsetter hret
  have hexec : (Write.setInt nsText keyText value policy (rest[1]?.getD 0)).run w.store env =
      (w₁.store, .flag true) := by
    rw [Write.run, hstore]
  exact keeps_of_exec hwf hclock hexec rfl

/-- `mem_get_int` finds a live integer. -/
theorem amxxMemGetInt_of_live {s : MemStoreManager} {dest v : Cell}
    (hnames : getNamespaceAndKey host mem ns key = .ok (nsText, keyText)) {e : StoreEntry}
    (hlive : s.liveAt env.first nsText keyText = some e) (hvalue : e.value? = some (.int v)) :
    amxxMemGetInt host s env mem (ns :: key :: dest :: rest) =
      some (s, ⟨1, setReference host mem dest v, none⟩) := by
  obtain ⟨htype, rfl⟩ := StoreEntry.value?_eq_int_iff.mp hvalue
  have hget : s.getInt nsText keyText (rest[0]?.getD 0) env.first =
      (s, ⟨true, e.cellValue, false, true⟩) := readAs_of_live _ _ false hlive htype
  rw [amxxMemGetInt, hnames]
  change some (reportRead nsText keyText .int env.second
    (s.getInt nsText keyText _ env.first) _ _) = _
  rw [hget]
  rfl

/-- **No increment is lost.**  `mem_set_int` has returned 1 in some session.  After it
come any calls that do not write to the key, increments of the key that do not ask
for another expiration, and map ends, in any order.  As long as the lifetime asked
for lasts, `mem_get_int` returns 1 and hands over what has been stored plus the sum
of the increments that have succeeded, as a 32-bit integer. -/
theorem counter_total {value dest : Cell} (rest' : List Cell)
    (hsession : Session host alg (World.initial t₀) w)
    (hnames : getNamespaceAndKey host mem ns key = .ok (nsText, keyText))
    (hpolicy : policyParam rest[0]? = .ok policy)
    (hset : w.native host alg ⟨.setInt, ns :: key :: value :: rest, mem, env⟩ = some (w₁, r))
    (hret : r.ret = 1) (hrun : Run (World.call alg) (OnlyCounts nsText keyText) w₁ steps w₂)
    (hnames' : getNamespaceAndKey host mem' ns' key' = .ok (nsText, keyText))
    (hclock : w₂.clock ≤ env'.first)
    (halive : ((Lifetime.ofPolicy policy (rest[1]?.getD 0) env.first).afterSweeps
      (sweepCount steps)).alive env'.first = true) :
    ∃ w₃ mem'', w₂.native host alg ⟨.getInt, ns' :: key' :: dest :: rest', mem', env'⟩ =
        some (w₃, ⟨1, mem'', none⟩) ∧
      (host.hasAddr dest = true → mem'' dest =
        Int32.ofInt (value.toInt + (steps.map (added nsText keyText)).sum)) := by
  have hcounts := (keeps_of_setInt ((session_run hsession).wellFormed wellFormed_initial) hnames
    hpolicy hset hret).counts
  obtain ⟨e, hlive, hvalue⟩ := count_of_run hrun hcounts hclock halive
  refine ⟨_, _, World.native_of_run hclock (amxxMemGetInt_of_live hnames' hlive hvalue),
    fun haddr => ?_⟩
  rw [setReference, if_pos haddr, AmxMemory.set_same]

/-- Two increments, with a map end in between. -/
private def countedTwice : List (Call × Reply) :=
  [(⟨.write (.incInt [110] [107] 3 .persistent 0), .at 0 fun _ => 0⟩, .cell (some 10)),
    (⟨.sweepMapEnd, .at 0 fun _ => 0⟩, .done),
    (⟨.write (.incInt [110] [107] 2 .persistent 0), .at 0 fun _ => 0⟩, .cell (some 12))]

/-- A counter that starts at 7 is then read as 12. -/
theorem counter_total_twice : ∃ (w₁ w₂ w₃ : World) (mem'' : AmxMemory),
    (World.initial 0).native .signedChars .insertionSort
        ⟨.setInt, [100, 200, 7], threeTexts, .at 0 fun _ => 0⟩ =
          some (w₁, ⟨1, threeTexts, none⟩) ∧
      Run (World.call (.insertionSort : StdAlgorithm RankPair)) (OnlyCounts [110] [107]) w₁
        countedTwice w₂ ∧
      w₂.native .signedChars .insertionSort
        ⟨.getInt, [100, 200, 400], threeTexts, .at 5 fun _ => 0⟩ = some (w₃, ⟨1, mem'', none⟩) ∧
      mem'' 400 = 12 := by
  have hset : ∃ w₁, (World.initial 0).native .signedChars .insertionSort
      ⟨.setInt, [100, 200, 7], threeTexts, .at 0 fun _ => 0⟩ = some (w₁, ⟨1, threeTexts, none⟩) ∧
      ∃ w₂, w₂.clock = 0 ∧ Run (World.call (.insertionSort : StdAlgorithm RankPair))
        (OnlyCounts [110] [107]) w₁ countedTwice w₂ :=
    ⟨⟨_, 0⟩, World.native_of_run le_rfl rfl, ⟨_, 0⟩, rfl,
      run_cons (.inr (.inr ⟨3, rfl⟩)) le_rfl rfl (run_cons (.inl (.inr rfl)) le_rfl rfl
        (run_cons (.inr (.inr ⟨2, rfl⟩)) le_rfl rfl (.nil _)))⟩
  obtain ⟨w₁, hset, w₂, hclock, hrun⟩ := hset
  have hnames : getNamespaceAndKey .signedChars threeTexts 100 200 = .ok ([110], [107]) := rfl
  have hlater : w₂.clock ≤ (Env.at 5 fun _ => 0).first := by
    rw [hclock]
    decide
  obtain ⟨w₃, mem'', hget, htotal⟩ :=
    counter_total [] (.nil _) hnames rfl hset rfl hrun hnames hlater rfl
  exact ⟨w₁, w₂, w₃, mem'', hset, hrun, hget, (htotal rfl).trans (by decide)⟩

end MemStore
