import MemStore.KeyValue.Keeping
import MemStore.Natives.Effects

/-!
# From plugin memory to plugin memory

What one plugin stores with a native, another one gets back with another native,
in its own memory: texts (`string_round_trip`) and arrays (`array_round_trip`), cut
down to the limit in force and to the room there is for the answer.  In between
anything may happen that is not about the key, and map ends may.
-/

namespace MemStore

open MemStoreManager
open Machine (Run)

variable {host : AmxHost} {alg : StdAlgorithm RankPair}

/-! ## Storing -/

section Storing

variable {s s' : MemStoreManager} {env : Env} {mem : AmxMemory} {ns key : Cell}
  {rest : List Cell} {nsText keyText : StdString} {policy : ExpirePolicy} {r : NativeResult}

theorem eq_true_of_boolCell {b : Bool} (h : boolCell b = 1) : b = true := by
  cases b with
  | true => rfl
  | false => exact absurd h (by decide)

/-- A setter that returns 1 has stored what it was given. -/
theorem setter_succeeded (hnames : getNamespaceAndKey host mem ns key = .ok (nsText, keyText))
    (hpolicy : policyParam rest[0]? = .ok policy)
    {store : StdString → StdString → ExpirePolicy → Int32 → MemStoreManager × Bool}
    (h : setter host s mem ns key rest store = some (s', r)) (hret : r.ret = 1) :
    store nsText keyText policy (rest[1]?.getD 0) = (s', true) := by
  rw [setter, hnames] at h
  change guarded 0 s mem (policyParam rest[0]? >>= _) = _ at h
  rw [hpolicy] at h
  cases h
  exact Prod.ext rfl (eq_true_of_boolCell hret)

theorem setArray_succeeded {values size : Cell}
    (hnames : getNamespaceAndKey host mem ns key = .ok (nsText, keyText))
    (hpolicy : policyParam rest[0]? = .ok policy)
    (h : amxxMemSetArray host s env mem (ns :: key :: values :: size :: rest) = some (s', r))
    (hret : r.ret = 1) : s.setArray env.layout nsText keyText (mem.cells values size.toInt.toNat)
      policy (rest[1]?.getD 0) env.first = (s', true) := by
  rw [amxxMemSetArray, hnames] at h
  change guarded 0 s mem (rejectIf _ _ >>= _) = _ at h
  unfold rejectIf at h
  split at h
  · cases h
    exact absurd (show (0 : Cell) = 1 from hret) (by decide)
  · change guarded 0 s mem ((if _ then _ else _) >>= _) = _ at h
    split at h
    · cases h
      exact absurd (show (0 : Cell) = 1 from hret) (by decide)
    · change guarded 0 s mem (policyParam rest[0]? >>= _) = _ at h
      rw [hpolicy] at h
      cases h
      exact Prod.ext rfl (eq_true_of_boolCell hret)

/-- What a successful setter with a payload leaves behind. -/
theorem keeps_of_exec {wr : Write} {v : Value} {extra : Int32} {w : World} (hwf : WellFormed s)
    (hclock : w.clock = env.third) (hexec : wr.run s env = (w.store, .flag true))
    (hrequest : (Op.write wr).request s.toLimits = .write nsText keyText v policy extra) :
    Keeps nsText keyText (v, .ofPolicy policy extra env.first) w := by
  obtain ⟨s', clock⟩ := w
  cases hclock
  have hcall : exec .insertionSort s env (.write wr) = some (s', .flag true) := congrArg some hexec
  have hchange := exec_change hwf.maxKeys_pos hcall
  rw [Op.outcome, if_pos (show (Reply.flag true).succeeded = true from rfl), hrequest] at hchange
  exact keeps_of_write hwf hchange

end Storing

/-! ## Getting back -/

/-- The default of `mem_get_string`. -/
def defaultText (host : AmxHost) (mem : AmxMemory) (param : Option Cell) : StdString :=
  param.elim [] fun param => if param ≠ 0 then textOrEmpty host mem param else []

theorem zero_notMem_defaultText (mem : AmxMemory) (param : Option Cell) :
    0 ∉ defaultText host mem param := by
  cases param with
  | none => exact List.not_mem_nil
  | some param =>
      rw [defaultText, Option.elim_some]
      split
      · exact zero_notMem_textOrEmpty host mem param
      · exact List.not_mem_nil

theorem cStr_of_notMem {text : StdString} (h : 0 ∉ text) : cStr text = text := by
  refine List.takeWhile_eq_self_iff.mpr fun c hc => decide_eq_true ?_
  rintro rfl
  exact h hc

section Getting

variable {s : MemStoreManager} {env : Env} {mem : AmxMemory} {ns key dest maxlen : Cell}
  {rest : List Cell} {nsText keyText : StdString}

/-- `mem_get_string` behind its checks. -/
theorem amxxMemGetString_eq (hnames : getNamespaceAndKey host mem ns key = .ok (nsText, keyText))
    (hmaxlen : 0 < maxlen) :
    amxxMemGetString host s env mem (ns :: key :: dest :: maxlen :: rest) =
      let r := s.getString nsText keyText (defaultText host mem rest[0]?) env.first
      some (reportRead nsText keyText .string env.second r
        (host.setAmxString mem dest (cStr (defaultText host mem rest[0]?)) maxlen)
        (host.setAmxString mem dest (cStr r.2.val) maxlen)) := by
  have hcheck : rejectIf (maxlen ≤ 0) .stringMaxlen = .ok () :=
    if_neg (by rw [decide_eq_true_eq]; exact Int32.not_le.mpr hmaxlen)
  rw [amxxMemGetString, hnames]
  change guarded 0 s mem (rejectIf _ _ >>= _) = _
  rw [hcheck]
  rfl

/-- `mem_get_array` behind its checks. -/
theorem amxxMemGetArray_eq (hnames : getNamespaceAndKey host mem ns key = .ok (nsText, keyText))
    (hmaxlen : 0 < maxlen) (haddr : host.hasAddr dest = true) :
    amxxMemGetArray host s env mem (ns :: key :: dest :: maxlen :: rest) =
      let r := s.getArray nsText keyText maxlen.toUInt32 env.first
      let mem := setOptional host (mem.setCells dest r.2.val.dest) rest[0]?
        (Int32.ofNat r.2.val.copied)
      some (reportRead nsText keyText .array env.second r mem mem) := by
  have hcheck : rejectIf (maxlen ≤ 0) .destinationMaxlen = .ok () :=
    if_neg (by rw [decide_eq_true_eq]; exact Int32.not_le.mpr hmaxlen)
  have hcheck' : rejectIf (!host.hasAddr dest) .destinationPointer = .ok () := by
    rw [haddr]
    rfl
  rw [amxxMemGetArray, hnames]
  change guarded 0 s mem (rejectIf _ _ >>= _) = _
  rw [hcheck]
  change guarded 0 s mem (rejectIf _ _ >>= _) = _
  rw [hcheck']
  rfl

/-- A typed getter of the manager finds a live entry of its type. -/
theorem readAs_of_live {α : Type} {type : EntryType} (value : StoreEntry → α) (d : α)
    (releases : Bool) {e : StoreEntry} (hlive : s.liveAt env.first nsText keyText = some e)
    (htype : e.type = type) : ((s.findLive releases nsText keyText env.first).1,
      readAs type value d (s.findLive releases nsText keyText env.first).2) =
        (s, ⟨true, value e, false, true⟩) := by
  obtain ⟨hentry, halive⟩ := liveAt_eq_some_iff.mp hlive
  rw [findLive_of_live hentry halive, readAs, if_pos htype]

/-- It finds nothing. -/
theorem readAs_of_dead {α : Type} (type : EntryType) (value : StoreEntry → α) (d : α)
    (releases : Bool) (hdead : s.liveAt env.first nsText keyText = none) :
    ((s.findLive releases nsText keyText env.first).1,
      readAs type value d (s.findLive releases nsText keyText env.first).2) =
        ((s.findLive releases nsText keyText env.first).1, ⟨false, d, false, false⟩) := by
  rw [findLive_result, hdead]
  rfl

theorem amxxMemGetString_of_live
    (hnames : getNamespaceAndKey host mem ns key = .ok (nsText, keyText)) (hmaxlen : 0 < maxlen)
    {e : StoreEntry} {text : StdString} (hlive : s.liveAt env.first nsText keyText = some e)
    (hvalue : e.value? = some (.string text)) :
    amxxMemGetString host s env mem (ns :: key :: dest :: maxlen :: rest) =
      some (s, ⟨1, host.setAmxString mem dest (cStr text) maxlen, none⟩) := by
  obtain ⟨htype, rfl⟩ := StoreEntry.value?_eq_string_iff.mp hvalue
  rw [amxxMemGetString_eq hnames hmaxlen, getString, readAs_of_live _ _ true hlive htype]
  rfl

theorem amxxMemGetString_of_dead
    (hnames : getNamespaceAndKey host mem ns key = .ok (nsText, keyText)) (hmaxlen : 0 < maxlen)
    (hdead : s.liveAt env.first nsText keyText = none) :
    amxxMemGetString host s env mem (ns :: key :: dest :: maxlen :: rest) =
      some ((s.findLive true nsText keyText env.first).1,
        ⟨0, host.setAmxString mem dest (cStr (defaultText host mem rest[0]?)) maxlen, none⟩) := by
  rw [amxxMemGetString_eq hnames hmaxlen, getString, readAs_of_dead .string _ _ true hdead]
  rfl

/-- The memory with an array and, if it is asked for, its size. -/
def setArrayAnswer (host : AmxHost) (mem : AmxMemory) (dest : Cell) (sizeRef : Option Cell)
    (cells : List Cell) : AmxMemory :=
  setOptional host (mem.setCells dest cells) sizeRef (Int32.ofNat cells.length)

theorem amxxMemGetArray_of_live
    (hnames : getNamespaceAndKey host mem ns key = .ok (nsText, keyText)) (hmaxlen : 0 < maxlen)
    (haddr : host.hasAddr dest = true) {e : StoreEntry} {cells : List Cell}
    (hlive : s.liveAt env.first nsText keyText = some e) (hvalue : e.value? = some (.array cells)) :
    amxxMemGetArray host s env mem (ns :: key :: dest :: maxlen :: rest) =
      some (s, ⟨1, setArrayAnswer host mem dest rest[0]? (cells.take maxlen.toUInt32.toNat),
        none⟩) := by
  obtain ⟨htype, rfl⟩ := StoreEntry.value?_eq_array_iff.mp hvalue
  rw [amxxMemGetArray_eq hnames hmaxlen haddr, getArray, readAs_of_live _ _ true hlive htype,
    setArrayAnswer, List.length_take]
  rfl

theorem amxxMemGetArray_of_dead
    (hnames : getNamespaceAndKey host mem ns key = .ok (nsText, keyText)) (hmaxlen : 0 < maxlen)
    (haddr : host.hasAddr dest = true) (hdead : s.liveAt env.first nsText keyText = none) :
    amxxMemGetArray host s env mem (ns :: key :: dest :: maxlen :: rest) =
      some ((s.findLive true nsText keyText env.first).1,
        ⟨0, setArrayAnswer host mem dest rest[0]? [], none⟩) := by
  rw [amxxMemGetArray_eq hnames hmaxlen haddr, getArray, readAs_of_dead .array _ _ true hdead]
  rfl

end Getting

theorem World.native_of_run {w : World} {c : NativeCall} {s' : MemStoreManager} {r : NativeResult}
    (hclock : w.clock ≤ c.env.first)
    (h : c.native.run host alg w.store c.env c.mem c.params = some (s', r)) :
    w.native host alg c = some (⟨s', c.env.third⟩, r) :=
  World.native_eq_some_iff.mpr ⟨hclock, h, rfl⟩

/-! ## Round trips -/

section RoundTrips

variable {t₀ : TimePoint} {w w₁ w₂ : World} {env env' : Env} {mem mem' : AmxMemory}
  {ns key ns' key' maxlen : Cell} {rest : List Cell} {nsText keyText : StdString}
  {policy : ExpirePolicy} {r : NativeResult} {steps : List (Call × Reply)}

theorem keeps_of_setString {value : Cell} {text : StdString} (hwf : WellFormed w.store)
    (hnames : getNamespaceAndKey host mem ns key = .ok (nsText, keyText))
    (htext : host.getAmxString mem value = some text) (hpolicy : policyParam rest[0]? = .ok policy)
    (hset : w.native host alg ⟨.setString, ns :: key :: value :: rest, mem, env⟩ = some (w₁, r))
    (hret : r.ret = 1) :
    Keeps nsText keyText (.string (text.take w.store.maxStringLength.toNat),
      .ofPolicy policy (rest[1]?.getD 0) env.first) w₁ := by
  obtain ⟨_, hrun, hclock⟩ := World.native_eq_some_iff.mp hset
  have hsetter : setter host w.store mem ns key rest (fun ns key policy extra =>
      w.store.setString env.layout ns key (textOrEmpty host mem value) policy extra env.first) =
        some (w₁.store, r) := hrun
  have hstore := setter_succeeded hnames hpolicy hsetter hret
  rw [textOrEmpty, htext, Option.getD_some] at hstore
  have hexec : (Write.setString nsText keyText text policy (rest[1]?.getD 0)).run w.store env =
      (w₁.store, .flag true) := by
    rw [Write.run, hstore]
  exact keeps_of_exec hwf hclock hexec rfl

theorem keeps_of_setArray {values size : Cell} (hwf : WellFormed w.store)
    (hnames : getNamespaceAndKey host mem ns key = .ok (nsText, keyText))
    (hpolicy : policyParam rest[0]? = .ok policy)
    (hset : w.native host alg ⟨.setArray, ns :: key :: values :: size :: rest, mem, env⟩ =
      some (w₁, r)) (hret : r.ret = 1) :
    Keeps nsText keyText
      (.array ((mem.cells values size.toInt.toNat).take w.store.maxArraySize.toNat),
        .ofPolicy policy (rest[1]?.getD 0) env.first) w₁ := by
  obtain ⟨_, hrun, hclock⟩ := World.native_eq_some_iff.mp hset
  have hstore := setArray_succeeded hnames hpolicy hrun hret
  have hexec : (Write.setArray nsText keyText (mem.cells values size.toInt.toNat) policy
      (rest[1]?.getD 0)).run w.store env = (w₁.store, .flag true) := by
    rw [Write.run, hstore]
  exact keeps_of_exec hwf hclock hexec rfl

/-- **A text comes back.**  `mem_set_string` has returned 1 in some session, and
after it come any calls that are not about the key, and map ends.  Then
`mem_get_string` for the same names returns 1 as long as the lifetime asked for
lasts, and the text is in the buffer it was given, cut down to the limit in force
when it was stored and to the length of the buffer.  Afterwards it returns 0 and
hands back its default. -/
theorem string_round_trip {value : Cell} {text : StdString} (dest : Cell) (rest' : List Cell)
    (hsession : Session host alg (World.initial t₀) w)
    (hnames : getNamespaceAndKey host mem ns key = .ok (nsText, keyText))
    (htext : host.getAmxString mem value = some text) (hpolicy : policyParam rest[0]? = .ok policy)
    (hset : w.native host alg ⟨.setString, ns :: key :: value :: rest, mem, env⟩ = some (w₁, r))
    (hret : r.ret = 1) (hrun : Run (World.call alg) (Untouched nsText keyText) w₁ steps w₂)
    (hnames' : getNamespaceAndKey host mem' ns' key' = .ok (nsText, keyText))
    (hmaxlen : 0 < maxlen) (hclock : w₂.clock ≤ env'.first) :
    let stored := text.take w.store.maxStringLength.toNat
    let alive := ((Lifetime.ofPolicy policy (rest[1]?.getD 0) env.first).afterSweeps
      (sweepCount steps)).alive env'.first
    let answer := (if alive then stored else defaultText host mem' rest'[0]?).take
      maxlen.toInt.toNat
    ∃ w₃ mem'', w₂.native host alg
        ⟨.getString, ns' :: key' :: dest :: maxlen :: rest', mem', env'⟩ =
          some (w₃, ⟨boolCell alive, mem'', none⟩) ∧
      (answer.length ≤ host.maxText → host.getAmxString mem'' dest = some answer) := by
  intro stored alive answer
  have hkeeps := keeps_of_setString ((session_run hsession).wellFormed wellFormed_initial) hnames
    htext hpolicy hset hret
  have hzero : 0 ∉ stored := fun hmem =>
    host.zero_notMem_of_getAmxString htext (List.mem_of_mem_take hmem)
  cases halive : alive with
  | true =>
      obtain ⟨e, hlive, hvalue⟩ := live_of_run hrun hkeeps hclock halive
      refine ⟨_, _, World.native_of_run hclock
        (amxxMemGetString_of_live hnames' hmaxlen hlive hvalue), fun hfits => ?_⟩
      have hanswer : answer = stored.take maxlen.toInt.toNat := by
        rw [show answer = (if alive then stored else _).take maxlen.toInt.toNat from rfl, halive]
        rfl
      rw [hanswer] at hfits ⊢
      rw [cStr_of_notMem hzero]
      exact host.getAmxString_setAmxString mem' dest hmaxlen hzero hfits
  | false =>
      have hdead := dead_of_run hrun hkeeps hclock halive
      refine ⟨_, _, World.native_of_run hclock (amxxMemGetString_of_dead hnames' hmaxlen hdead),
        fun hfits => ?_⟩
      have hanswer : answer = (defaultText host mem' rest'[0]?).take maxlen.toInt.toNat := by
        rw [show answer = (if alive then stored else _).take maxlen.toInt.toNat from rfl, halive]
        rfl
      have hdefault : 0 ∉ defaultText host mem' rest'[0]? := zero_notMem_defaultText mem' rest'[0]?
      rw [hanswer] at hfits ⊢
      rw [cStr_of_notMem hdefault]
      exact host.getAmxString_setAmxString mem' dest hmaxlen hdefault hfits

/-- The array is in the memory, and so is its size. -/
theorem cells_setArrayAnswer {dest : Cell} {sizeRef : Option Cell} {cells : List Cell}
    (hfits : cells.length ≤ 2 ^ 30)
    (hapart : ∀ a, IsPassed sizeRef a → ¬ InCells dest cells.length a) :
    (setArrayAnswer host mem dest sizeRef cells).cells dest cells.length = cells := by
  rw [setArrayAnswer, AmxMemory.cells_congr, AmxMemory.cells_setCells mem dest hfits]
  exact fun a ha => agreeOutside_setOptional host _ sizeRef _ a fun hpassed => hapart a hpassed ha

theorem size_setArrayAnswer {dest a : Cell} {sizeRef : Option Cell} {cells : List Cell}
    (hpassed : IsPassed sizeRef a) (haddr : host.hasAddr a = true) :
    setArrayAnswer host mem dest sizeRef cells a = Int32.ofNat cells.length := by
  obtain ⟨rfl, hne⟩ := hpassed
  rw [setArrayAnswer, setOptional, if_pos hne, setReference, if_pos haddr, AmxMemory.set_same]

/-- **An array comes back.**  `mem_set_array` has returned 1 in some session, and
after it come any calls that are not about the key, and map ends.  Then
`mem_get_array` for the same names returns 1 as long as the lifetime asked for
lasts.  It copies the cells that were stored, as far as the limit in force then and
the buffer allow, and writes their number if it is asked to; afterwards it returns
0 and copies nothing.  The size must not be written into the buffer. -/
theorem array_round_trip {values size : Cell} (dest : Cell) (rest' : List Cell)
    (hsession : Session host alg (World.initial t₀) w)
    (hnames : getNamespaceAndKey host mem ns key = .ok (nsText, keyText))
    (hpolicy : policyParam rest[0]? = .ok policy)
    (hset : w.native host alg ⟨.setArray, ns :: key :: values :: size :: rest, mem, env⟩ =
      some (w₁, r)) (hret : r.ret = 1) (hsize : size.toInt ≤ 2 ^ 30)
    (hrun : Run (World.call alg) (Untouched nsText keyText) w₁ steps w₂)
    (hnames' : getNamespaceAndKey host mem' ns' key' = .ok (nsText, keyText))
    (hmaxlen : 0 < maxlen) (haddr : host.hasAddr dest = true)
    (hapart : ∀ a, IsPassed rest'[0]? a → ¬ InCells dest maxlen.toInt.toNat a)
    (hclock : w₂.clock ≤ env'.first) :
    let stored := (mem.cells values size.toInt.toNat).take w.store.maxArraySize.toNat
    let alive := ((Lifetime.ofPolicy policy (rest[1]?.getD 0) env.first).afterSweeps
      (sweepCount steps)).alive env'.first
    let copy := if alive then stored.take maxlen.toInt.toNat else []
    ∃ w₃ mem'', w₂.native host alg
        ⟨.getArray, ns' :: key' :: dest :: maxlen :: rest', mem', env'⟩ =
          some (w₃, ⟨boolCell alive, mem'', none⟩) ∧
      mem''.cells dest copy.length = copy ∧
      ∀ a, IsPassed rest'[0]? a → host.hasAddr a = true → mem'' a = Int32.ofNat copy.length := by
  intro stored alive copy
  have hkeeps := keeps_of_setArray ((session_run hsession).wellFormed wellFormed_initial) hnames
    hpolicy hset hret
  have hlength : copy.length ≤ 2 ^ 30 ∧ copy.length ≤ maxlen.toInt.toNat := by
    have hcells := mem.length_cells values size.toInt.toNat
    rw [show copy = if alive then stored.take maxlen.toInt.toNat else [] from rfl]
    split
    · rw [List.length_take, List.length_take, hcells]
      omega
    · exact ⟨Nat.zero_le _, Nat.zero_le _⟩
  -- whatever is copied, it is copied apart from the size
  have hcopied : (setArrayAnswer host mem' dest rest'[0]? copy).cells dest copy.length = copy := by
    refine cells_setArrayAnswer hlength.1 fun a hpassed hin => hapart a hpassed ?_
    obtain ⟨j, hj, ha⟩ := hin
    exact ⟨j, hj.trans_le hlength.2, ha⟩
  refine Exists.imp (fun w₃ hget => ⟨_, hget, hcopied, fun a hpassed ha =>
    size_setArrayAnswer hpassed ha⟩) ?_
  cases halive : alive with
  | true =>
      obtain ⟨e, hlive, hvalue⟩ := live_of_run hrun hkeeps hclock halive
      have hcopy : copy = stored.take maxlen.toUInt32.toNat := by
        have hpos := Int32.lt_iff_toInt_lt.mp hmaxlen
        rw [Int32.toInt_zero] at hpos
        rw [toNat_toUInt32 (by omega)]
        exact if_pos halive
      rw [hcopy]
      exact ⟨_, World.native_of_run hclock (amxxMemGetArray_of_live hnames' hmaxlen haddr hlive
        hvalue)⟩
  | false =>
      have hdead := dead_of_run hrun hkeeps hclock halive
      have hcopy : copy = [] := if_neg (Bool.eq_false_iff.mp halive)
      rw [hcopy]
      exact ⟨_, World.native_of_run hclock (amxxMemGetArray_of_dead hnames' hmaxlen haddr hdead)⟩

/-- Another key is written, and a map ends. -/
private def anotherKeyAndMap : List (Call × Reply) :=
  [(⟨.write (.setInt [110] [104, 105] 8 .persistent 0), .at 1 fun _ => 0⟩, .flag true),
    (⟨.sweepMapEnd, .at 2 fun _ => 0⟩, .done)]

/-- In a store that is not empty, a text for two maps is read after the first one. -/
theorem string_round_trip_map : ∃ (w w₁ w₂ w₃ : World) (mem'' : AmxMemory),
    (World.initial 0).native .signedChars .insertionSort
        ⟨.setInt, [100, 300, 7], threeTexts, .at 0 fun _ => 0⟩ =
          some (w, ⟨1, threeTexts, none⟩) ∧
      w.native .signedChars .insertionSort
        ⟨.setString, [100, 200, 300, 2, 2], threeTexts, .at 0 fun _ => 0⟩ =
          some (w₁, ⟨1, threeTexts, none⟩) ∧
      Run (World.call .insertionSort) (Untouched [110] [107]) w₁ anotherKeyAndMap w₂ ∧
      w₂.native .signedChars .insertionSort
        ⟨.getString, [100, 200, 400, 31], threeTexts, .at 5 fun _ => 0⟩ =
          some (w₃, ⟨1, mem'', none⟩) ∧
      AmxHost.signedChars.getAmxString mem'' 400 = some [104, 105] := by
  let alg : StdAlgorithm RankPair := .insertionSort
  have hworlds : ∃ w w₁ w₂,
      (World.initial 0).native .signedChars alg
        ⟨.setInt, [100, 300, 7], threeTexts, .at 0 fun _ => 0⟩ =
          some (w, ⟨1, threeTexts, none⟩) ∧
      w.native .signedChars alg
        ⟨.setString, [100, 200, 300, 2, 2], threeTexts, .at 0 fun _ => 0⟩ =
          some (w₁, ⟨1, threeTexts, none⟩) ∧
      Run (World.call alg) (Untouched [110] [107]) w₁ anotherKeyAndMap w₂ ∧
      w.store.maxStringLength = 4096 ∧ w₂.clock = 2 :=
    ⟨⟨_, 0⟩, ⟨_, 0⟩, ⟨_, 2⟩, World.native_of_run le_rfl rfl, World.native_of_run le_rfl rfl,
      run_cons (.inl rfl) (by decide) rfl (run_cons (.inr rfl) (by decide) rfl (.nil _)), rfl, rfl⟩
  obtain ⟨w, w₁, w₂, hfirst, hset, hrun, hlimit, hclock⟩ := hworlds
  have hnames : getNamespaceAndKey .signedChars threeTexts 100 200 = .ok ([110], [107]) := rfl
  have htext : AmxHost.signedChars.getAmxString threeTexts 300 = some [104, 105] := rfl
  have hpolicy : policyParam (some 2) = .ok .mapCount := rfl
  have hmaxlen : (0 : Cell) < 31 := by decide
  have hlater : w₂.clock ≤ (Env.at 5 fun _ => 0).first := by
    rw [hclock]
    decide
  obtain ⟨w₃, mem'', hget, hanswer⟩ := string_round_trip 400 [] (.native hfirst (.nil w)) hnames
    htext hpolicy hset rfl hrun hnames hmaxlen hlater
  rw [hlimit] at hanswer
  exact ⟨w, w₁, w₂, w₃, mem'', hfirst, hset, hrun, hget, hanswer (by decide)⟩

/-- Three texts, and an array of three cells at address 500. -/
private def threeTextsAndArray : AmxMemory := threeTexts.setCells 500 [7, 8, 9]

/-- A store with one key. -/
private def oneKey : MemStoreManager :=
  (({} : MemStoreManager).setInt (fun _ => 0) [110] [104, 105] 7 .persistent 0 0).1

private theorem setArray_oneKey :
    amxxMemSetArray .signedChars oneKey (.at 0 fun _ => 0) threeTextsAndArray
        [100, 200, 500, 3, 2, 2] =
      some ((oneKey.setArray (fun _ => 0) [110] [107] [7, 8, 9] .mapCount 2 0).1,
        ⟨1, threeTextsAndArray, none⟩) := by
  have hcells : threeTextsAndArray.cells 500 3 = [7, 8, 9] := rfl
  have hnative : amxxMemSetArray .signedChars oneKey (.at 0 fun _ => 0) threeTextsAndArray
      [100, 200, 500, 3, 2, 2] =
        let r := oneKey.setArray (fun _ => 0) [110] [107] (threeTextsAndArray.cells 500 3)
          .mapCount 2 0
        some (r.1, ⟨boolCell r.2, threeTextsAndArray, none⟩) := rfl
  rw [hnative, hcells]
  rfl

/-- After another key has been written and a map has ended, two cells of an array for two
maps fit into a buffer at address 600. -/
theorem array_round_trip_two : ∃ (w w₁ w₂ w₃ : World) (mem'' : AmxMemory),
    (World.initial 0).native .signedChars .insertionSort
        ⟨.setInt, [100, 300, 7], threeTextsAndArray, .at 0 fun _ => 0⟩ =
          some (w, ⟨1, threeTextsAndArray, none⟩) ∧
      w.native .signedChars .insertionSort
        ⟨.setArray, [100, 200, 500, 3, 2, 2], threeTextsAndArray, .at 0 fun _ => 0⟩ =
          some (w₁, ⟨1, threeTextsAndArray, none⟩) ∧
      Run (World.call .insertionSort) (Untouched [110] [107]) w₁ anotherKeyAndMap w₂ ∧
      w₂.native .signedChars .insertionSort
        ⟨.getArray, [100, 200, 600, 2, 700], threeTextsAndArray, .at 5 fun _ => 0⟩ =
          some (w₃, ⟨1, mem'', none⟩) ∧
      mem''.cells 600 2 = [7, 8] ∧ mem'' 700 = 2 := by
  let alg : StdAlgorithm RankPair := .insertionSort
  let mem := threeTextsAndArray
  have hfirst : (World.initial 0).native .signedChars alg
      ⟨.setInt, [100, 300, 7], mem, .at 0 fun _ => 0⟩ = some (⟨oneKey, 0⟩, ⟨1, mem, none⟩) :=
    World.native_of_run le_rfl rfl
  have hset : World.native .signedChars alg ⟨oneKey, 0⟩
      ⟨.setArray, [100, 200, 500, 3, 2, 2], mem, .at 0 fun _ => 0⟩ =
        some (⟨_, 0⟩, ⟨1, mem, none⟩) := World.native_of_run le_rfl setArray_oneKey
  have hrun : ∃ w₂, w₂.clock = 2 ∧ Run (World.call alg) (Untouched [110] [107])
      ⟨(oneKey.setArray (fun _ => 0) [110] [107] [7, 8, 9] .mapCount 2 0).1, 0⟩
      anotherKeyAndMap w₂ :=
    ⟨⟨_, 2⟩, rfl,
      run_cons (.inl rfl) (by decide) rfl (run_cons (.inr rfl) (by decide) rfl (.nil _))⟩
  obtain ⟨w₂, hclock, hrun⟩ := hrun
  have hnames : getNamespaceAndKey .signedChars mem 100 200 = .ok ([110], [107]) := rfl
  have hpolicy : policyParam (some 2) = .ok .mapCount := rfl
  have hmaxlen : (0 : Cell) < 2 := by decide
  have hapart : ∀ a, IsPassed (some 700) a → ¬ InCells 600 (2 : Cell).toInt.toNat a := by
    rintro a ⟨ha, _⟩ ⟨j, hj, hin⟩
    cases ha
    have hcases : j = 0 ∨ j = 1 := by
      have hlt : j < 2 := hj
      omega
    rcases hcases with rfl | rfl <;> exact absurd hin (by decide)
  have hlater : w₂.clock ≤ (Env.at 5 fun _ => 0).first := by
    rw [hclock]
    decide
  obtain ⟨w₃, mem'', hget, hcells, hcount⟩ := array_round_trip 600 [700] (.native hfirst (.nil _))
    hnames hpolicy hset rfl (by decide) hrun hnames hmaxlen rfl hapart hlater
  exact ⟨_, _, w₂, w₃, mem'', hfirst, hset, hrun, hget, hcells, hcount 700 ⟨rfl, by decide⟩ rfl⟩

end RoundTrips

end MemStore
