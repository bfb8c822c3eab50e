import MemStore.Natives.Steps

/-!
# Every native is a step

The natives of the table, one after another: those of a common shape by the
lemma about the shape, the others by their own.
-/

namespace MemStore

open MemStoreManager (findLive)

variable {host : AmxHost} {alg : StdAlgorithm RankPair} {s s' : MemStoreManager} {env : Env}
  {mem : AmxMemory} {params : List Cell} {r : NativeResult}

/-! ## Setters and typed getters -/

theorem pos_of_not_le {x : Cell} (h : decide (x ≤ 0) = false) : 0 < x := by
  rw [← Int32.not_le]
  exact of_decide_eq_false h

theorem setArray_step (h : amxxMemSetArray host s env mem params = some (s', r)) :
    NativeStep alg s env mem .setArray params s' r := by
  unfold amxxMemSetArray at h
  split at h
  · next ns key values size rest =>
      refine .of_check (checks_getNamespaceAndKey host mem ns key) h fun names hnames h => ?_
      refine .of_check (checks_rejectIf _ rfl) h fun _ hsize h => ?_
      refine .of_check (checks_rejectIf _ rfl) h fun _ _ h => ?_
      refine .of_check (checks_policyParam rest[0]?) h fun policy _ h => ?_
      cases h
      refine .of_answers ⟨.write (.setArray ..), _, ⟨hnames.1, hnames.2, ?_⟩, rfl⟩ (.refl _ _)
      -- at least one cell is passed
      have hpos := pos_of_not_le hsize
      rw [Int32.lt_iff_toInt_lt, Int32.toInt_zero] at hpos
      intro hnil
      have hlength := congrArg List.length hnil
      rw [AmxMemory.cells, List.length_map, List.length_range, List.length_nil] at hlength
      omega
  · cases h

theorem getInt_step (h : amxxMemGetInt host s env mem params = some (s', r)) :
    NativeStep alg s env mem .getInt params s' r := by
  unfold amxxMemGetInt at h
  split at h
  · next ns key value rest =>
      refine .of_check (checks_getNamespaceAndKey host mem ns key) h fun names hnames h => ?_
      have hwrites : ∀ value', AgreeOutside (Native.MayWrite .getInt (ns :: key :: value :: rest))
          mem (setReference host mem value value') := fun value' =>
        (agreeOutside_setReference host mem value value').mono fun a ha => congrArg some ha.symm
      exact reportRead_step (q := .getInt names.1 names.2 (rest[0]?.getD 0)) rfl hnames
        ⟨rfl, rfl, rfl⟩ rfl (hwrites _) (hwrites _) (Option.some.inj h)
  · cases h

theorem getFloat_step (h : amxxMemGetFloat host s env mem params = some (s', r)) :
    NativeStep alg s env mem .getFloat params s' r := by
  unfold amxxMemGetFloat at h
  split at h
  · next ns key value rest =>
      refine .of_check (checks_getNamespaceAndKey host mem ns key) h fun names hnames h => ?_
      have hwrites : ∀ value', AgreeOutside
          (Native.MayWrite .getFloat (ns :: key :: value :: rest)) mem
          (setReference host mem value value') := fun value' =>
        (agreeOutside_setReference host mem value value').mono fun a ha => congrArg some ha.symm
      exact reportRead_step (q := .getFloat names.1 names.2 (rest[0]?.elim 0 host.ctof)) rfl
        hnames ⟨rfl, rfl, rfl⟩ rfl (hwrites _) (hwrites _) (Option.some.inj h)
  · cases h

/-- Texts that come from a plugin are C strings. -/
theorem zero_notMem_textOrEmpty (host : AmxHost) (mem : AmxMemory) (param : Cell) :
    0 ∉ textOrEmpty host mem param := by
  unfold textOrEmpty
  cases htext : host.getAmxString mem param with
  | none => exact List.not_mem_nil
  | some text => exact host.zero_notMem_of_getAmxString htext

theorem getString_step (h : amxxMemGetString host s env mem params = some (s', r)) :
    NativeStep alg s env mem .getString params s' r := by
  unfold amxxMemGetString at h
  split at h
  · next ns key dest maxlen rest =>
      refine .of_check (checks_getNamespaceAndKey host mem ns key) h fun names hnames h => ?_
      refine .of_check (checks_rejectIf _ rfl) h fun _ hlen h => ?_
      have hpos := pos_of_not_le hlen
      have hdefault : 0 ∉ rest[0]?.elim [] fun param =>
          if param ≠ 0 then textOrEmpty host mem param else [] := by
        cases rest[0]? with
        | none => exact List.not_mem_nil
        | some param =>
            dsimp only [Option.elim_some]
            split
            · exact zero_notMem_textOrEmpty host mem param
            · exact List.not_mem_nil
      exact reportRead_step (q := .getString names.1 names.2 _) rfl
        ⟨hnames.1, hnames.2, hdefault⟩ ⟨rfl, rfl, rfl⟩ rfl
        (agreeOutside_setAmxString host mem dest _ hpos)
        (agreeOutside_setAmxString host mem dest _ hpos) (Option.some.inj h)
  · cases h

theorem toUInt32_pos {x : Cell} (h : 0 < x) : 0 < x.toUInt32 := by
  rw [Int32.lt_iff_toInt_lt, Int32.toInt_zero] at h
  have hsame := toNat_toUInt32 (i := x) (by omega)
  rw [UInt32.lt_iff_toNat_lt, hsame, UInt32.toNat_zero]
  omega

/-- A buffer gets no more cells than it has. -/
theorem length_dest_le (s : MemStoreManager) (ns key : StdString) {maxlen : Cell}
    (hpos : 0 < maxlen) (now : TimePoint) :
    (s.getArray ns key maxlen.toUInt32 now).2.val.dest.length ≤ maxlen.toInt.toNat := by
  rw [Int32.lt_iff_toInt_lt, Int32.toInt_zero] at hpos
  unfold MemStoreManager.getArray MemStoreManager.readAs
  dsimp only
  split
  · exact Nat.zero_le _
  · split
    · rw [List.length_take, toNat_toUInt32 (by omega)]
      exact Nat.min_le_left _ _
    · exact Nat.zero_le _

theorem getArray_step (h : amxxMemGetArray host s env mem params = some (s', r)) :
    NativeStep alg s env mem .getArray params s' r := by
  unfold amxxMemGetArray at h
  split at h
  · next ns key dest maxlen rest =>
      refine .of_check (checks_getNamespaceAndKey host mem ns key) h fun names hnames h => ?_
      refine .of_check (checks_rejectIf _ rfl) h fun _ hlen h => ?_
      refine .of_check (checks_rejectIf _ rfl) h fun _ _ h => ?_
      have hpos := pos_of_not_le hlen
      have hcells := length_dest_le s names.1 names.2 hpos env.first
      have hwrites : ∀ value, AgreeOutside
          (Native.MayWrite .getArray (ns :: key :: dest :: maxlen :: rest)) mem
          (setOptional host (mem.setCells dest
            (s.getArray names.1 names.2 maxlen.toUInt32 env.first).2.val.dest) rest[0]? value) :=
        fun value => ((agreeOutside_setCells mem dest hcells).mono fun a ha => .inl ha).trans
          ((agreeOutside_setOptional host _ rest[0]? value).mono fun a ha => .inr ha)
      exact reportRead_step (q := .getArray names.1 names.2 maxlen.toUInt32) rfl
        ⟨hnames.1, hnames.2, toUInt32_pos hpos⟩ ⟨rfl, rfl, rfl⟩ rfl (hwrites _) (hwrites _)
        (Option.some.inj h)
  · cases h

/-! ## Other key-value natives -/

theorem setExpire_step (h : amxxMemSetExpire host s env mem params = some (s', r)) :
    NativeStep alg s env mem .setExpire params s' r := by
  unfold amxxMemSetExpire at h
  split at h
  · next ns key policy rest =>
      refine .of_check (checks_getNamespaceAndKey host mem ns key) h fun names hnames h => ?_
      refine .of_check (checks_policyParam (some policy)) h fun policy _ h => ?_
      cases h
      exact .of_answers ⟨.setExpire .., _, hnames, rfl⟩ (.refl _ _)
  · cases h

theorem getKeyAt_step (h : amxxMemGetKeyAt host s env mem params = some (s', r)) :
    NativeStep alg s env mem .getKeyAt params s' r := by
  unfold amxxMemGetKeyAt at h
  split at h
  · next ns index dest maxlen rest =>
      refine .of_check (checks_getNamespace host mem ns) h fun ns' hns h => ?_
      by_cases hbounds : index < 0 ∨ maxlen ≤ 0
      · rw [if_pos hbounds] at h
        cases h
        exact .declined
      · rw [if_neg hbounds] at h
        obtain ⟨x, hget, hreply⟩ := Option.map_eq_some_iff.mp h
        have hanswers : Answers alg s env x.1 := by
          refine ⟨.getKeyAt ns' index.toInt.toNat, .keyAt x.2, hns, ?_⟩
          rw [exec, hget]
          rfl
        have hpos : 0 < maxlen := by
          rw [← Int32.not_le]
          exact fun hle => hbounds (.inr hle)
        obtain ⟨s₁, _ | key⟩ := x
        · cases hreply
          exact .of_answers hanswers (.refl _ _)
        · cases hreply
          exact .of_answers hanswers (agreeOutside_setAmxString host mem dest key hpos)
  · cases h

/-! ## Leaderboards -/

theorem rankGetScore_step (h : amxxMemRankGetScore host s env mem params = some (s', r)) :
    NativeStep alg s env mem .rankGetScore params s' r := by
  unfold amxxMemRankGetScore at h
  split at h
  · next ns key score rest =>
      refine .of_check (checks_getNamespaceAndKey host mem ns key) h fun names hnames h => ?_
      have hanswers : Answers alg s env (s.rankGetScore names.1 names.2 env.first).1 :=
        ⟨.query (.rankGetScore ..), _, hnames, rfl⟩
      have hreply := Option.some.inj h
      generalize s.rankGetScore names.1 names.2 env.first = x at hanswers hreply
      obtain ⟨s₁, _ | value⟩ := x
      · cases hreply
        exact .of_answers hanswers (.refl _ _)
      · cases hreply
        exact .of_answers hanswers ((agreeOutside_setReference host mem score value).mono
          fun a ha => congrArg some ha.symm)
  · cases h

theorem rankGetPos_step (h : amxxMemRankGetPos host s env mem params = some (s', r)) :
    NativeStep alg s env mem .rankGetPos params s' r := by
  unfold amxxMemRankGetPos at h
  split at h
  · next ns key rest =>
      refine .of_check (checks_getNamespaceAndKey host mem ns key) h fun names hnames h => ?_
      refine .of_check (checks_orderParam rest[0]?) h fun order _ h => ?_
      cases h
      exact .of_answers ⟨.query (.rankGetPosition ..), _, hnames, rfl⟩ (.refl _ _)
  · cases h

theorem rankGetTop_step (h : amxxMemRankGetTop host alg s env mem params = some (s', r)) :
    NativeStep alg s env mem .rankGetTop params s' r := by
  unfold amxxMemRankGetTop at h
  split at h
  · next ns rankPos dest maxlen rest =>
      refine .of_check (checks_getNamespace host mem ns) h fun ns' hns h => ?_
      by_cases hbounds : maxlen ≤ 0 ∨ rankPos < 1
      · rw [if_pos hbounds] at h
        cases h
        exact .declined
      · rw [if_neg hbounds] at h
        refine .of_check (checks_orderParam rest[1]?) h fun order _ h => ?_
        have hanswers : Answers alg s env (s.rankGetTop alg ns' rankPos order env.first).1 :=
          ⟨.query (.rankGetTop ..), _, hns, rfl⟩
        have hreply := Option.some.inj h
        have hpos : 0 < maxlen := by
          rw [← Int32.not_le]
          exact fun hle => hbounds (.inl hle)
        generalize s.rankGetTop alg ns' rankPos order env.first = x at hanswers hreply
        obtain ⟨s₁, _ | ⟨key, score⟩⟩ := x
        · cases hreply
          exact .of_answers hanswers (.refl _ _)
        · cases hreply
          refine .of_answers hanswers
            (((agreeOutside_setAmxString host mem dest key hpos).mono fun a ha => .inl ha).trans
              ((agreeOutside_setOptional host _ rest[0]? score).mono fun a ha => .inr ha))
  · cases h

/-! ## The slice of a leaderboard -/

/-- Without an array of keys the loop writes the scores only. -/
theorem agreeOutside_writeRows (lib : AmxLibrary) (keys scores maxKeyLen : Cell) {n i : ℕ}
    {results : List (StdString × Cell)} (hle : i + results.length ≤ n) (mem : AmxMemory) :
    AgreeOutside (fun a => keys ≠ 0 ∨ scores ≠ 0 ∧ InCells scores n a) mem
      (writeRows lib keys scores maxKeyLen i results mem) := by
  induction results generalizing i mem with
  | nil => exact .refl _ _
  | cons pair rest ih =>
      rw [List.length_cons] at hle
      by_cases hkeys : keys = 0
      · have hscore : AgreeOutside (fun a => keys ≠ 0 ∨ scores ≠ 0 ∧ InCells scores n a) mem
            (if scores ≠ 0 then mem.set (cellAddr scores i) pair.2 else mem) := by
          split
          · next hscores =>
              refine (agreeOutside_set mem (cellAddr scores i) pair.2).mono fun a ha => ?_
              exact .inr ⟨hscores, i, by omega, ha⟩
          · exact .refl _ _
        have hround : writeRows lib keys scores maxKeyLen i (pair :: rest) mem =
            writeRows lib keys scores maxKeyLen (i + 1) rest
              (if scores ≠ 0 then mem.set (cellAddr scores i) pair.2 else mem) := by
          rw [writeRows, if_neg (not_not_intro hkeys)]
        rw [hround]
        exact hscore.trans (ih (by omega) _)
      · exact fun a ha => absurd (.inl hkeys) ha

/-- No more entries are returned than asked for. -/
theorem length_rankGetRange_le {ns : StdString} {startPos : Int32} {count : SizeT}
    {order : RankOrder} {now : TimePoint} {results : List (StdString × Cell)}
    (h : (s.rankGetRange alg ns startPos count order now).2 = some results) :
    results.length ≤ count.toNat := by
  unfold MemStoreManager.rankGetRange at h
  split at h
  · cases h
    exact Nat.zero_le _
  · dsimp only at h
    split at h
    · cases h
      exact Nat.zero_le _
    · generalize UInt32.ofNat (startPos - 1).toInt.toNat = startIndex at h
      split at h
      · cases h
      · cases h
        -- a sum that wraps around is even smaller
        have hsum : (startIndex + count).toNat ≤ startIndex.toNat + count.toNat := by
          rw [UInt32.toNat_add]
          exact Nat.mod_le _ _
        rw [List.length_map, List.length_drop, List.length_take]
        omega

/-- The order is invalid for both functions that look at it, or for none. -/
theorem orderParam_eq (param : Option Cell) :
    (∃ order, orderParam param = .ok order ∧ param.elim (some .desc) rankOrderOf = some order) ∨
      (∃ e, orderParam param = .error e ∧ e.isMismatch = false ∧
        param.elim (some .desc) rankOrderOf = none) := by
  cases param with
  | none => exact .inl ⟨.desc, rfl, rfl⟩
  | some value =>
      rw [orderParam]
      cases horder : rankOrderOf value with
      | none => exact .inr ⟨_, rfl, rfl, horder⟩
      | some order => exact .inl ⟨order, rfl, horder⟩

theorem rankGetRange_step (h : amxxMemRankGetRangeParams host alg s env mem params = some (s', r)) :
    NativeStep alg s env mem .rankGetRange params s' r := by
  unfold amxxMemRankGetRangeParams at h
  split at h
  · next ns startPos count keys scores maxItems maxKeyLen rest =>
      refine .of_check (checks_getNamespace host mem ns) h fun ns' hns h => ?_
      obtain ⟨written, hcall, hreply⟩ := Option.map_eq_some_iff.mp h
      unfold RangeParams.error at hreply
      unfold amxxMemRankGetRange at hcall hreply
      rw [if_neg hns.1] at hcall hreply
      by_cases hstart : startPos < 1 ∨ count ≤ 0
      · rw [if_pos hstart] at hcall hreply
        rw [if_pos (hstart.elim .inl fun hle => .inr (.inl hle))] at hreply
        cases hcall
        cases hreply
        exact .declined
      rw [if_neg hstart] at hcall hreply
      by_cases hitems : maxItems ≤ 0 ∨ maxKeyLen ≤ 0
      · rw [if_pos hitems] at hcall hreply
        rw [if_pos (.inr (.inr hitems))] at hreply
        cases hcall
        cases hreply
        exact .declined
      rw [if_neg hitems] at hcall hreply
      have hchecks : ¬ (startPos < 1 ∨ count ≤ 0 ∨ maxItems ≤ 0 ∨ maxKeyLen ≤ 0) := by
        rw [← or_assoc]
        exact fun h => h.elim hstart hitems
      rw [if_neg hchecks] at hreply
      dsimp only at hcall hreply
      rcases orderParam_eq rest[0]? with ⟨order, hok, horder⟩ | ⟨e, herror, he, horder⟩
      · rw [horder] at hcall hreply
        rw [hok] at hreply
        obtain ⟨results, hresults, hwritten⟩ := Option.map_eq_some_iff.mp hcall
        have hpos : 1 ≤ maxItems.toInt := by
          have hlt : 0 < maxItems := by
            rw [← Int32.not_le]
            exact fun hle => hitems (.inl hle)
          rwa [Int32.lt_iff_toInt_lt, Int32.toInt_zero] at hlt
        have hcount : 1 ≤ count.toInt := by
          have hlt : 0 < count := by
            rw [← Int32.not_le]
            exact fun hle => hstart (.inr hle)
          rwa [Int32.lt_iff_toInt_lt, Int32.toInt_zero] at hlt
        have hlength := length_rankGetRange_le hresults
        rw [toNat_fetchCount hcount hpos] at hlength
        cases hwritten
        cases hreply
        refine .of_answers ⟨.query (.rankGetRange ..), _, hns, rfl⟩ ?_
        exact agreeOutside_writeRows host.toAmxLibrary keys scores maxKeyLen
          (by rw [Nat.zero_add]; exact hlength.trans (Nat.min_le_right _ _)) mem
      · rw [horder] at hcall hreply
        rw [herror] at hreply
        cases hcall
        cases hreply
        exact .rejected he
  · cases h

/-! ## Limits and statistics -/

/-- A size that has a fallback is positive. -/
theorem positiveOr_pos {fallback : SizeT} (h : 0 < fallback) (value : Cell) :
    0 < positiveOr fallback value := by
  unfold positiveOr
  split
  · next hpos => exact toUInt32_pos hpos
  · exact h

theorem setLimits_step (h : amxxMemSetLimitsParams alg s env mem params = some (s', r)) :
    NativeStep alg s env mem .setLimits params s' r := by
  unfold amxxMemSetLimitsParams at h
  split at h
  · next maxKeys maxArray maxStr rest =>
      cases h
      exact .of_answers ⟨amxxMemSetLimits maxKeys maxArray maxStr rest[0]? rest[1]?, _,
        ⟨positiveOr_pos (by decide) _, positiveOr_pos (by decide) _, positiveOr_pos (by decide) _⟩,
        rfl⟩ (.refl _ _)
  · cases h

theorem getMemoryStats_step (h : amxxMemGetMemoryStatsParams host s mem params = some (s', r)) :
    NativeStep alg s env mem .getMemoryStats params s' r := by
  have hwrite : ∀ i < 4, ∀ value mem, AgreeOutside (Native.MayWrite .getMemoryStats params) mem
      (setOptional host mem params[i]? value) := fun i hi value mem =>
    (agreeOutside_setOptional host mem params[i]? value).mono fun a ha => ⟨i, hi, ha⟩
  cases h
  refine .of_answers ⟨.getMemoryStats, _, trivial, rfl⟩ ?_
  exact (((hwrite 0 (by decide) _ _).trans (hwrite 1 (by decide) _ _)).trans
    (hwrite 2 (by decide) _ _)).trans (hwrite 3 (by decide) _ _)

/-! ## The table -/

/-- What a call of a native comes to. -/
theorem Native.step {n : Native} (h : n.run host alg s env mem params = some (s', r)) :
    NativeStep alg s env mem n params s' r := by
  cases n with
  | getInt => exact getInt_step h
  | getFloat => exact getFloat_step h
  | getString => exact getString_step h
  | setArray => exact setArray_step h
  | getArray => exact getArray_step h
  | setExpire => exact setExpire_step h
  | getKeyAt => exact getKeyAt_step h
  | rankGetScore => exact rankGetScore_step h
  | rankGetPos => exact rankGetPos_step h
  | rankGetTop => exact rankGetTop_step h
  | rankGetRange => exact rankGetRange_step h
  | setLimits => exact setLimits_step h
  | getMemoryStats => exact getMemoryStats_step h
  | flushAll =>
      cases h
      exact .of_answers ⟨.flushAll, _, trivial, rfl⟩ (.refl _ _)
  | setInt =>
      rw [Native.run] at h
      unfold amxxMemSetInt at h
      split at h
      · exact setter_step rfl h fun _ _ _ _ hns hkey => ⟨.write (.setInt ..), _, ⟨hns, hkey⟩, rfl⟩
      · cases h
  | setFloat =>
      rw [Native.run] at h
      unfold amxxMemSetFloat at h
      split at h
      · exact setter_step rfl h fun _ _ _ _ hns hkey =>
          ⟨.write (.setFloat ..), _, ⟨hns, hkey⟩, rfl⟩
      · cases h
  | setString =>
      rw [Native.run] at h
      unfold amxxMemSetString at h
      split at h
      · exact setter_step rfl h fun _ _ _ _ hns hkey =>
          ⟨.write (.setString ..), _, ⟨hns, hkey, zero_notMem_textOrEmpty host mem _⟩, rfl⟩
      · cases h
  | rankSet =>
      rw [Native.run] at h
      unfold amxxMemRankSet at h
      split at h
      · exact setter_step rfl h fun _ _ _ _ hns hkey => ⟨.write (.rankSet ..), _, ⟨hns, hkey⟩, rfl⟩
      · cases h
  | incInt =>
      rw [Native.run] at h
      unfold amxxMemIncInt at h
      split at h
      · exact incrementer_step rfl h (fun _ ha => ha) fun _ _ _ _ hns hkey =>
          ⟨.write (.incInt ..), _, ⟨hns, hkey⟩, rfl⟩
      · cases h
  | incFloat =>
      rw [Native.run] at h
      unfold amxxMemIncFloat at h
      split at h
      · exact incrementer_step rfl h (fun _ ha => ha) fun _ _ _ _ hns hkey =>
          ⟨.write (.incFloat ..), _, ⟨hns, hkey⟩, rfl⟩
      · cases h
  | rankInc =>
      rw [Native.run] at h
      unfold amxxMemRankInc at h
      split at h
      · exact incrementer_step rfl h (fun _ ha => ha) fun _ _ _ _ hns hkey =>
          ⟨.write (.rankInc ..), _, ⟨hns, hkey⟩, rfl⟩
      · cases h
  | getArraySize =>
      rw [Native.run] at h
      unfold amxxMemGetArraySize at h
      split at h
      · exact onKey_step h fun _ _ hns hkey => ⟨.query (.getArraySize ..), _, ⟨hns, hkey⟩, rfl⟩
      · cases h
  | getKeyType =>
      rw [Native.run] at h
      unfold amxxMemGetKeyType at h
      split at h
      · exact onKey_step h fun _ _ hns hkey => ⟨.query (.getKeyType ..), _, ⟨hns, hkey⟩, rfl⟩
      · cases h
  | keyExists =>
      rw [Native.run] at h
      unfold amxxMemKeyExists at h
      split at h
      · exact onKey_step h fun _ _ hns hkey => ⟨.query (.keyExists ..), _, ⟨hns, hkey⟩, rfl⟩
      · cases h
  | deleteKey =>
      rw [Native.run] at h
      unfold amxxMemDeleteKey at h
      split at h
      · exact onKey_step h fun _ _ hns hkey => ⟨.deleteKey .., _, ⟨hns, hkey⟩, rfl⟩
      · cases h
  | getTtl =>
      rw [Native.run] at h
      unfold amxxMemGetTtl at h
      split at h
      · exact onKey_step h fun ns key hns hkey => ⟨.query (.getTTL ns key), _, ⟨hns, hkey⟩, rfl⟩
      · cases h
  | rankDelete =>
      rw [Native.run] at h
      unfold amxxMemRankDelete at h
      split at h
      · exact onKey_step h fun _ _ hns hkey => ⟨.rankDelete .., _, ⟨hns, hkey⟩, rfl⟩
      · cases h
  | rankExists =>
      rw [Native.run] at h
      unfold amxxMemRankExists at h
      split at h
      · exact onKey_step h fun _ _ hns hkey => ⟨.query (.rankExists ..), _, ⟨hns, hkey⟩, rfl⟩
      · cases h
  | clearNamespace =>
      rw [Native.run] at h
      unfold amxxMemClearNamespace at h
      split at h
      · exact onNamespace_step rfl h fun _ hns => ⟨.clearNamespace .., _, hns, rfl⟩
      · cases h
  | getNamespaceCount =>
      rw [Native.run] at h
      unfold amxxMemGetNamespaceCount at h
      split at h
      · exact onNamespace_step rfl h fun _ hns => ⟨.query (.getNamespaceCount ..), _, hns, rfl⟩
      · cases h
  | rankGetCount =>
      rw [Native.run] at h
      unfold amxxMemRankGetCount at h
      split at h
      · exact onNamespace_step rfl h fun _ hns => ⟨.query (.rankGetCount ..), _, hns, rfl⟩
      · cases h
  | rankClear =>
      rw [Native.run] at h
      unfold amxxMemRankClear at h
      split at h
      · exact onNamespace_step rfl h fun _ hns => ⟨.rankClear .., _, hns, rfl⟩
      · cases h

end MemStore
