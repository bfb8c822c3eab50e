import MemStore.Natives.Iteration
import MemStore.Ranking.Positions
import MemStore.Reading.Presence

/-!
# Names handed out to plugins

`mem_get_key_at` and `mem_rank_get_top` write names into memory.  As far as there
is room for a name, other natives find what it stands for when they are called
with it: the key is one of the namespace (`getKeyAt_hands_out`), and the place on
the board is the one that was asked for (`rankGetTop_hands_out`).
-/

namespace MemStore

open MemStoreManager
open Machine (Run)

variable {host : AmxHost} {alg : StdAlgorithm RankPair}

section Names

variable {mem mem' : AmxMemory} {nsParam dest maxlen : Cell} {ns key : StdString}

/-- There is room for a name in a buffer and in the host. -/
def FitsBuffer (host : AmxHost) (maxlen : Cell) (name : StdString) : Prop :=
  name.length ≤ maxlen.toInt.toNat ∧ name.length ≤ host.maxText

/-- A name in memory is read as it was written. -/
theorem getAmxString_of_fitsBuffer (hpos : 0 < maxlen) (hname : IsName key)
    (hroom : FitsBuffer host maxlen key) (hagree : ∀ a, InCells dest (maxlen.toInt.toNat + 1) a →
      mem' a = host.setAmxString mem dest (cStr key) maxlen a) :
    host.getAmxString mem' dest = some key := by
  have htake : key.take maxlen.toInt.toNat = key := List.take_of_length_le hroom.1
  rw [cStr_of_notMem hname.2] at hagree
  rw [host.getAmxString_of_agree hpos hname.2 (by rw [htake]; exact hroom.2) hagree, htake]

/-- Names that stand in memory are accepted. -/
theorem getNamespaceAndKey_of_texts (hns : getNamespace host mem nsParam = .ok ns)
    (hname : IsName key) (hkey : host.getAmxString mem dest = some key) :
    getNamespaceAndKey host mem nsParam dest = .ok (ns, key) := by
  have hcheck : nonemptyText host mem .emptyKey dest = .ok key := by
    rw [nonemptyText, hkey]
    cases key with
    | nil => exact absurd rfl hname.1
    | cons => rfl
  have hcheck' : nonemptyText host mem .emptyNamespace nsParam = .ok ns := hns
  rw [getNamespaceAndKey, hcheck', hcheck]
  rfl

end Names

/-! ## Keys by index -/

section Keys

variable {t₀ : TimePoint} {w w' : World} {env : Env} {mem : AmxMemory}
  {nsParam index dest maxlen : Cell} {rest : List Cell} {ns : StdString} {r : NativeResult}

theorem getKeyAt_succeeded (hns : getNamespace host mem nsParam = .ok ns)
    (h : w.native host alg ⟨.getKeyAt, nsParam :: index :: dest :: maxlen :: rest, mem, env⟩ =
      some (w', r)) (hret : r.ret = 1) :
    0 < maxlen ∧ ∃ key, w.store.getKeyAt env.layout ns index.toInt.toNat env.first env.second
        env.third = some (w'.store, some key) ∧
      r = ⟨1, host.setAmxString mem dest (cStr key) maxlen, none⟩ := by
  have hrun : amxxMemGetKeyAt host w.store env mem (nsParam :: index :: dest :: maxlen :: rest) =
      some (w'.store, r) := (World.native_eq_some_iff.mp h).2.1
  generalize w'.store = s' at hrun ⊢
  rw [amxxMemGetKeyAt, hns] at hrun
  change guarded 0 w.store mem (if _ then _ else _) = _ at hrun
  split at hrun
  · cases hrun
    exact absurd (show (0 : Cell) = 1 from hret) (by decide)
  · next hparams =>
      obtain ⟨⟨s₁, o⟩, hkey, heq⟩ := Option.map_eq_some_iff.mp
        (show Option.map _ _ = some (s', r) from hrun)
      cases o with
      | none =>
          cases heq
          exact absurd (show (0 : Cell) = 1 from hret) (by decide)
      | some key =>
          cases heq
          exact ⟨Int32.not_le.mp fun hle => hparams (.inr hle), key, hkey, rfl⟩

/-- **A key that is handed out names an entry.**  When `mem_get_key_at` returns 1 in
some session, what it has found is a key of the namespace that was live at a
reading of the clock during the call.  If there is room for the key, it stands in
the buffer as it is, and every native that is called with it works on this key. -/
theorem getKeyAt_hands_out (hsession : Session host alg (World.initial t₀) w)
    (hns : getNamespace host mem nsParam = .ok ns)
    (h : w.native host alg ⟨.getKeyAt, nsParam :: index :: dest :: maxlen :: rest, mem, env⟩ =
      some (w', r)) (hret : r.ret = 1) :
    ∃ key now, IsName key ∧ env.first ≤ now ∧ (w.store.liveAt now ns key).isSome ∧
      (FitsBuffer host maxlen key → host.getAmxString r.mem dest = some key ∧
        ∀ nsParam', getNamespace host r.mem nsParam' = .ok ns →
          getNamespaceAndKey host r.mem nsParam' dest = .ok (ns, key)) := by
  obtain ⟨hpos, key, hkey, hr⟩ := getKeyAt_succeeded hns h hret
  obtain ⟨now, hnow, hlive⟩ := getKeyAt_live env.first_le env.second_le hkey
  obtain ⟨e, he⟩ := Option.isSome_iff_exists.mp hlive
  have hname : IsName key :=
    ((pluginData_of_session hsession).entries ns key e (liveAt_eq_some_iff.mp he).1).key
  refine ⟨key, now, hname, hnow, hlive, fun hroom => ?_⟩
  have htext : host.getAmxString r.mem dest = some key := by
    rw [hr]
    exact getAmxString_of_fitsBuffer hpos hname hroom fun _ _ => rfl
  exact ⟨htext, fun nsParam' hns' => getNamespaceAndKey_of_texts hns' hname htext⟩

/-- The key stored by `mem_set_int` is handed out at address 400. -/
theorem getKeyAt_hands_out_first : ∃ (w w' : World) (key : StdString) (r : NativeResult),
    (World.initial 0).native .signedChars .insertionSort
        ⟨.setInt, [100, 200, 7], threeTexts, .at 0 fun _ => 0⟩ =
          some (w, ⟨1, threeTexts, none⟩) ∧
      w.native .signedChars .insertionSort
        ⟨.getKeyAt, [100, 0, 400, 31], threeTexts, .at 0 fun _ => 0⟩ = some (w', r) ∧
      AmxHost.signedChars.getAmxString r.mem 400 = some key ∧
      getNamespaceAndKey .signedChars r.mem 100 400 = .ok ([110], key) := by
  let s := (({} : MemStoreManager).setInt (fun _ => 0) [110] [107] 7 .persistent 0 0).1
  let mem := AmxHost.signedChars.setAmxString threeTexts 400 [107] 31
  have hset : (World.initial 0).native .signedChars .insertionSort
      ⟨.setInt, [100, 200, 7], threeTexts, .at 0 fun _ => 0⟩ =
        some (⟨s, 0⟩, ⟨1, threeTexts, none⟩) := rfl
  have hget : ∃ s', World.native .signedChars .insertionSort ⟨s, 0⟩
      ⟨.getKeyAt, [100, 0, 400, 31], threeTexts, .at 0 fun _ => 0⟩ =
        some (⟨s', 0⟩, ⟨1, mem, none⟩) := ⟨_, rfl⟩
  obtain ⟨s', hget⟩ := hget
  have hns : getNamespace .signedChars threeTexts 100 = .ok [110] := rfl
  obtain ⟨key, _, _, _, hlive, hfound⟩ :=
    getKeyAt_hands_out (.native hset (.nil _)) hns hget rfl
  obtain ⟨e, he⟩ := Option.isSome_iff_exists.mp hlive
  -- there is no other key
  have hmem : (key, e) ∈ (NestedMap.inner s.namespaces [110]).entries :=
    UnorderedMap.find?_eq_some_iff.mp (liveAt_eq_some_iff.mp he).1
  cases List.mem_singleton.mp hmem
  obtain ⟨htext, hnames⟩ := hfound ⟨by decide, by decide⟩
  exact ⟨_, _, _, _, hset, hget, htext, hnames 100 rfl⟩

end Keys

/-! ## Places on a board -/

section Places

variable {t t₀ : TimePoint} {w w' : World} {layout : Layout} {mem : AmxMemory}
  {nsParam rankPos dest maxlen : Cell} {rest : List Cell} {ns : StdString} {r : NativeResult}
  {order : RankOrder}

theorem rankGetTop_succeeded (hns : getNamespace host mem nsParam = .ok ns)
    (horder : orderParam rest[1]? = .ok order)
    (h : w.native host alg ⟨.rankGetTop, nsParam :: rankPos :: dest :: maxlen :: rest, mem,
      .at t layout⟩ = some (w', r)) (hret : r.ret = 1) :
    0 < maxlen ∧ w'.store = (w.store.rankGetTop alg ns rankPos order t).1 ∧ ∃ key score,
      (w.store.rankGetTop alg ns rankPos order t).2 = some (key, score) ∧
      r = ⟨1, setOptional host (host.setAmxString mem dest (cStr key) maxlen) rest[0]? score,
        none⟩ := by
  have hrun : amxxMemRankGetTop host alg w.store (.at t layout) mem
      (nsParam :: rankPos :: dest :: maxlen :: rest) = some (w'.store, r) :=
    (World.native_eq_some_iff.mp h).2.1
  generalize w'.store = s' at hrun ⊢
  rw [amxxMemRankGetTop, hns] at hrun
  change guarded 0 w.store mem (if _ then _ else orderParam rest[1]? >>= _) = _ at hrun
  split at hrun
  · cases hrun
    exact absurd (show (0 : Cell) = 1 from hret) (by decide)
  · next hparams =>
      rw [horder] at hrun
      obtain ⟨hstore, hr⟩ := Prod.mk.inj (Option.some.inj
        (show some _ = some (s', r) from hrun))
      refine ⟨Int32.not_le.mp fun hle => hparams (.inl hle), hstore.symm, ?_⟩
      dsimp only [Env.at] at hr
      cases htop : (w.store.rankGetTop alg ns rankPos order t).2 with
      | none =>
          rw [htop] at hr
          cases hr
          exact absurd (show (0 : Cell) = 1 from hret) (by decide)
      | some pair =>
          rw [htop] at hr
          exact ⟨pair.1, pair.2, rfl, hr.symm⟩

/-- `mem_rank_get_pos` for names that stand in memory. -/
theorem amxxMemRankGetPos_eq {s : MemStoreManager} {env : Env} {key : StdString}
    {nsParam' keyParam : Cell} {rest' : List Cell}
    (hnames : getNamespaceAndKey host mem nsParam' keyParam = .ok (ns, key))
    (horder : orderParam rest'[0]? = .ok order) :
    amxxMemRankGetPos host s env mem (nsParam' :: keyParam :: rest') =
      some ((s.rankGetPosition ns key order env.first).1,
        ⟨Int32.ofNat (s.rankGetPosition ns key order env.first).2, mem, none⟩) := by
  rw [amxxMemRankGetPos, hnames]
  change guarded 0 s mem (orderParam rest'[0]? >>= _) = _
  rw [horder]
  rfl

theorem Int32.ofNat_eq_of_toInt {n : ℕ} {i : Int32} (h : (n : ℤ) = i.toInt) :
    Int32.ofNat n = i := by
  rw [← Int32.ofInt_toInt i, ← h]
  rfl

/-- **Places on a board are told apart by name.**  In a run of calls by plugins with
fewer than 2^64 rank writes, `mem_rank_get_top` returns 1 for a place.  The name it
hands out is that of a live entry, with the score it hands out.  If there is room
for the name, and the score is not written into the buffer, `mem_rank_get_pos` of
what stands in the buffer is that place, at the same time and for the same order. -/
theorem rankGetTop_hands_out {steps : List (Call × Reply)}
    (hrun : RunFromStart alg FromPlugin steps w) (hwrites : rankWrites steps < 2 ^ 64)
    (hns : getNamespace host mem nsParam = .ok ns) (horder : orderParam rest[1]? = .ok order)
    (h : w.native host alg ⟨.rankGetTop, nsParam :: rankPos :: dest :: maxlen :: rest, mem,
      .at t layout⟩ = some (w', r)) (hret : r.ret = 1) :
    ∃ key score, IsName key ∧
      (∃ e, w.store.liveRankAt t ns key = some e ∧ e.score = score) ∧
      (∀ a, IsPassed rest[0]? a → host.hasAddr a = true → r.mem a = score) ∧
      (FitsBuffer host maxlen key →
        (∀ a, IsPassed rest[0]? a → ¬ InCells dest (maxlen.toInt.toNat + 1) a) →
        host.getAmxString r.mem dest = some key ∧
        ∀ nsParam' rest' layout', getNamespace host r.mem nsParam' = .ok ns →
          orderParam rest'[0]? = .ok order →
          ∃ w'', w'.native host alg
            ⟨.rankGetPos, nsParam' :: dest :: rest', r.mem, .at t layout'⟩ =
              some (w'', ⟨rankPos, r.mem, none⟩)) := by
  obtain ⟨hpos, hstore, key, score, htop, rfl⟩ := rankGetTop_succeeded hns horder h hret
  have hclock' : w'.clock = t := (World.native_eq_some_iff.mp h).2.2
  have hstamped := stamped_of_sequenced (sequenced_of_run
    ⟨hrun.choose, hrun.choose_spec.weaken fun _ _ _ _ => trivial⟩ hwrites) t ns
  rw [rankGetTop_view] at htop
  obtain ⟨_, hposition, e, he, hscore⟩ := (top_eq_some_iff hstamped alg).mp htop
  have hlive : w.store.liveRankAt t ns key = some e := (rankAt_liveView ..).symm.trans he
  have hname : IsName key := by
    have hdata : PluginData w.store :=
      PluginRun.pluginData ⟨steps, w.clock, le_rfl, hrun.choose_spec⟩ wellFormed_initial
        pluginData_initial
    exact (hdata.ranks ns key e (liveRankAt_eq_some_iff.mp hlive).1).2
  refine ⟨key, score, hname, ⟨e, hlive, hscore⟩, fun a hpassed haddr => ?_,
    fun hroom hapart => ?_⟩
  · obtain ⟨ha, hne⟩ := hpassed
    change setOptional host _ rest[0]? score a = score
    rw [ha, setOptional, if_pos hne, setReference, if_pos haddr, AmxMemory.set_same]
  · have htext : host.getAmxString
        (setOptional host (host.setAmxString mem dest (cStr key) maxlen) rest[0]? score) dest =
          some key :=
      getAmxString_of_fitsBuffer hpos hname hroom fun a hin =>
        agreeOutside_setOptional host _ rest[0]? score a fun hpassed => hapart a hpassed hin
    refine ⟨htext, fun nsParam' rest' layout' hns' horder' => ?_⟩
    have hnames := getNamespaceAndKey_of_texts hns' hname htext
    -- reading the board has changed nothing that can be seen
    have hreads : Reads t w.store ((Query.rankGetTop ns rankPos order).run alg w.store t).1 :=
      reads_query alg w.store (.rankGetTop ns rankPos order) le_rfl
    have hview : w'.store.liveView t = w.store.liveView t := by
      rw [hstore]
      exact hreads.liveView le_rfl
    have hanswer : Int32.ofNat (w'.store.rankGetPosition ns key order t).2 = rankPos := by
      rw [rankGetPosition_view, hview]
      exact Int32.ofNat_eq_of_toInt hposition
    have hpos : amxxMemRankGetPos host w'.store (.at t layout')
        (setOptional host (host.setAmxString mem dest (cStr key) maxlen) rest[0]? score)
        (nsParam' :: dest :: rest') = some ((w'.store.rankGetPosition ns key order t).1,
          ⟨rankPos, setOptional host (host.setAmxString mem dest (cStr key) maxlen) rest[0]? score,
            none⟩) := by
      rw [amxxMemRankGetPos_eq hnames horder', show (Env.at t layout').first = t from rfl, hanswer]
    exact ⟨⟨(w'.store.rankGetPosition ns key order t).1, t⟩,
      World.native_of_run (show w'.clock ≤ t from hclock'.le) hpos⟩

/-- The first place of a board is handed out at address 400, and found again. -/
theorem rankGetTop_hands_out_first : ∃ (key : StdString) (w₁ w : World) (mem : AmxMemory),
    RunFromStart (StdAlgorithm.insertionSort (α := RankPair)) FromPlugin
        [(⟨.write (.rankSet [110] [107] 5 .persistent 0), .at 0 fun _ => 0⟩, .flag true)] w₁ ∧
      w₁.native .signedChars .insertionSort
        ⟨.rankGetTop, [100, 1, 400, 31], threeTexts, .at 0 fun _ => 0⟩ =
          some (w, ⟨1, mem, none⟩) ∧
      AmxHost.signedChars.getAmxString mem 400 = some key ∧
      ∃ w', w.native .signedChars .insertionSort
        ⟨.rankGetPos, [100, 400], mem, .at 0 fun _ => 0⟩ = some (w', ⟨1, mem, none⟩) := by
  let s := (({} : MemStoreManager).rankSet (fun _ => 0) [110] [107] 5 .persistent 0 0).1
  let mem := AmxHost.signedChars.setAmxString threeTexts 400 [107] 31
  have hrun : RunFromStart (StdAlgorithm.insertionSort (α := RankPair)) FromPlugin
      [(⟨.write (.rankSet [110] [107] 5 .persistent 0), .at 0 fun _ => 0⟩, .flag true)] ⟨s, 0⟩ :=
    ⟨0, run_cons ⟨⟨by decide, by decide⟩, by decide, by decide⟩ le_rfl rfl (.nil _)⟩
  have htop : World.native .signedChars .insertionSort ⟨s, 0⟩
      ⟨.rankGetTop, [100, 1, 400, 31], threeTexts, .at 0 fun _ => 0⟩ =
        some (⟨s, 0⟩, ⟨1, mem, none⟩) := rfl
  have hns : getNamespace .signedChars threeTexts 100 = .ok [110] := rfl
  have hns' : getNamespace .signedChars mem 100 = .ok [110] := rfl
  obtain ⟨key, _, _, ⟨e, he, _⟩, _, hfound⟩ :=
    rankGetTop_hands_out hrun (by decide) hns rfl htop rfl
  -- there is no other key
  have hmem : (key, e) ∈ (NestedMap.inner s.ranks [110]).entries :=
    UnorderedMap.find?_eq_some_iff.mp (liveRankAt_eq_some_iff.mp he).1
  cases List.mem_singleton.mp hmem
  obtain ⟨htext, hplace⟩ := hfound ⟨by decide, by decide⟩ (by rintro a ⟨ha, _⟩; cases ha)
  exact ⟨_, _, _, mem, hrun, htop, htext, hplace 100 [] (fun _ => 0) hns' rfl⟩

end Places

end MemStore
