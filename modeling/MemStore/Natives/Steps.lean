import MemStore.Model.Server
import MemStore.Ranking.RowBuffer

/-!
# What a native can do

`NativeStep` lists what a call of a native comes to: it is rejected by one of
its checks, it declines silently, it makes one call of the manager, or it makes
two, the second one to name the type of a key that has the wrong one.  Each case
says what becomes of the manager, of the plugin's memory and of the error log,
and that the calls made are such as a plugin can make (`Op.FromPlugin`).

Every native is such a step (`Native.step`).  That natives leave memory alone
outside of what they may write (`Native.MayWrite`) and that errors have no
effect are read off the cases.
-/

namespace MemStore

/-! ## Calls a plugin can make -/

/-- A text that can name something: not empty, and a C string. -/
def IsName (text : StdString) : Prop := text ≠ [] ∧ 0 ∉ text

def Query.FromPlugin : Query → Prop
  | .getInt ns key _ | .getFloat ns key _ | .getArraySize ns key | .getKeyType ns key
  | .keyExists ns key | .getTTL ns key | .rankGetScore ns key | .rankExists ns key
  | .rankGetPosition ns key _ => IsName ns ∧ IsName key
  | .getString ns key defaultVal => IsName ns ∧ IsName key ∧ 0 ∉ defaultVal
  | .getArray ns key maxlen => IsName ns ∧ IsName key ∧ 0 < maxlen
  | .getNamespaceCount ns | .getActiveKeys ns | .rankGetCount ns | .rankGetTop ns _ _
  | .rankGetRange ns _ _ _ => IsName ns

def Write.FromPlugin : Write → Prop
  | .setInt ns key _ _ _ | .setFloat ns key _ _ _ | .incInt ns key _ _ _ | .incFloat ns key _ _ _
  | .rankSet ns key _ _ _ | .rankInc ns key _ _ _ => IsName ns ∧ IsName key
  | .setString ns key val _ _ => IsName ns ∧ IsName key ∧ 0 ∉ val
  | .setArray ns key data _ _ => IsName ns ∧ IsName key ∧ data ≠ []

/-- The calls natives make, for parameters of any kind, and those the module
itself makes. -/
def Op.FromPlugin : Op → Prop
  | .query q => q.FromPlugin
  | .write w => w.FromPlugin
  | .getKeyAt ns _ | .clearNamespace ns | .rankClear ns => IsName ns
  | .deleteKey ns key | .setExpire ns key _ _ | .rankDelete ns key => IsName ns ∧ IsName key
  | .setLimits maxKeysPerNs maxArraySize maxStringLen _ _ =>
      0 < maxKeysPerNs ∧ 0 < maxArraySize ∧ 0 < maxStringLen
  | .getMemoryStats | .sweepMapEnd | .clearAll | .flushAll => True

/-! ## What natives may write -/

/-- The first `n` cells from an address on. -/
def InCells (base : Cell) (n : ℕ) (a : Cell) : Prop := ∃ j < n, a = cellAddr base j

/-- A reference parameter that is passed. -/
def IsPassed (param : Option Cell) (a : Cell) : Prop := param = some a ∧ a ≠ 0

/-- The addresses a native may write to.  `mem_rank_get_range` follows a table
in memory when it writes keys, and is left unrestricted then. -/
def Native.MayWrite : Native → List Cell → Cell → Prop
  | .getInt, params, a | .getFloat, params, a | .rankGetScore, params, a => params[2]? = some a
  | .getString, _ :: _ :: dest :: maxlen :: _, a => InCells dest (maxlen.toInt.toNat + 1) a
  | .getArray, _ :: _ :: dest :: maxlen :: rest, a =>
      InCells dest maxlen.toInt.toNat a ∨ IsPassed rest[0]? a
  | .getKeyAt, _ :: _ :: dest :: maxlen :: _, a => InCells dest (maxlen.toInt.toNat + 1) a
  | .rankGetTop, _ :: _ :: dest :: maxlen :: rest, a =>
      InCells dest (maxlen.toInt.toNat + 1) a ∨ IsPassed rest[0]? a
  | .incInt, params, a | .incFloat, params, a | .rankInc, params, a => IsPassed params[3]? a
  | .rankGetRange, _ :: _ :: _ :: keys :: scores :: maxItems :: _, a =>
      keys ≠ 0 ∨ scores ≠ 0 ∧ InCells scores maxItems.toInt.toNat a
  | .getMemoryStats, params, a => ∃ i < 4, IsPassed params[i]? a
  | _, _, _ => False

/-- Memories that agree outside of a set of addresses. -/
def AgreeOutside (written : Cell → Prop) (mem mem' : AmxMemory) : Prop :=
  ∀ a, ¬ written a → mem' a = mem a

theorem AgreeOutside.refl (written : Cell → Prop) (mem : AmxMemory) :
    AgreeOutside written mem mem := fun _ _ => rfl

theorem AgreeOutside.trans {written : Cell → Prop} {mem mem' mem'' : AmxMemory}
    (h : AgreeOutside written mem mem') (h' : AgreeOutside written mem' mem'') :
    AgreeOutside written mem mem'' := fun a ha => (h' a ha).trans (h a ha)

theorem AgreeOutside.mono {written written' : Cell → Prop} {mem mem' : AmxMemory}
    (h : AgreeOutside written mem mem') (hsub : ∀ a, written a → written' a) :
    AgreeOutside written' mem mem' := fun a ha => h a fun hw => ha (hsub a hw)

section Writing

variable (host : AmxHost) (mem : AmxMemory)

theorem agreeOutside_set (param value : Cell) :
    AgreeOutside (· = param) mem (mem.set param value) :=
  fun _ ha => AmxMemory.set_of_ne ha value

theorem agreeOutside_setReference (param value : Cell) :
    AgreeOutside (· = param) mem (setReference host mem param value) := by
  rw [setReference]
  split
  · exact agreeOutside_set mem param value
  · exact .refl _ _

/-- A parameter left out or passed as 0 is not written to. -/
theorem agreeOutside_setOptional (param : Option Cell) (value : Cell) :
    AgreeOutside (IsPassed param) mem (setOptional host mem param value) := by
  cases param with
  | none => exact .refl _ _
  | some addr =>
      show AgreeOutside _ mem (if addr ≠ 0 then setReference host mem addr value else mem)
      split
      · next hne =>
          refine (agreeOutside_setReference host mem addr value).mono fun a ha => ?_
          subst ha
          exact ⟨rfl, hne⟩
      · exact .refl _ _

theorem agreeOutside_setCells (base : Cell) {cells : List Cell} {n : ℕ} (hle : cells.length ≤ n) :
    AgreeOutside (InCells base n) mem (mem.setCells base cells) :=
  fun _ ha => AmxMemory.setCells_of_ne fun j hj heq => ha ⟨j, hj.trans_le hle, heq⟩

/-- A text takes one cell more than `maxlen`, for its terminator. -/
theorem agreeOutside_setAmxString (dest : Cell) (text : StdString) {maxlen : Cell}
    (hpos : 0 < maxlen) : AgreeOutside (InCells dest (maxlen.toInt.toNat + 1)) mem
      (host.setAmxString mem dest (cStr text) maxlen) := by
  rw [host.setAmxString_eq _ _ _ _ hpos (zero_notMem_cStr text)]
  refine agreeOutside_setCells mem dest ?_
  rw [List.length_append, List.length_map, List.length_take, List.length_singleton]
  omega

end Writing

/-! ## Steps -/

def NativeError.isMismatch : NativeError → Bool
  | .typeMismatch .. => true
  | _ => false

/-- What a native returns when one of its checks fails. -/
def Native.failed : Native → Cell
  | .getTtl => -2
  | _ => 0

/-- A typed getter as a query. -/
def Query.IsTyped (ns key : StdString) (expected : EntryType) : Query → Prop
  | .getInt ns' key' _ => ns' = ns ∧ key' = key ∧ expected = .int
  | .getFloat ns' key' _ => ns' = ns ∧ key' = key ∧ expected = .float
  | .getString ns' key' _ => ns' = ns ∧ key' = key ∧ expected = .string
  | .getArray ns' key' _ => ns' = ns ∧ key' = key ∧ expected = .array
  | _ => False

/-- What a call of a native comes to. -/
inductive NativeStep (alg : StdAlgorithm RankPair) (s : MemStoreManager) (env : Env)
    (mem : AmxMemory) (n : Native) (params : List Cell) : MemStoreManager → NativeResult → Prop
  | rejected {e : NativeError} (he : e.isMismatch = false) :
      NativeStep alg s env mem n params s ⟨n.failed, mem, some e⟩
  | declined : NativeStep alg s env mem n params s ⟨0, mem, none⟩
  | called {op : Op} {reply : Reply} {s' : MemStoreManager} {ret : Cell} {mem' : AmxMemory}
      (hop : op.FromPlugin) (hexec : exec alg s env op = some (s', reply))
      (hmem : AgreeOutside (n.MayWrite params) mem mem') :
      NativeStep alg s env mem n params s' ⟨ret, mem', none⟩
  | mismatched {q : Query} {ns key : StdString} {expected : EntryType} {e : StoreEntry}
      {mem' : AmxMemory} (hfailed : n.failed = 0) (hop : q.FromPlugin)
      (htyped : q.IsTyped ns key expected) (hlive : s.liveAt env.first ns key = some e)
      (hne : e.type ≠ expected) (hstate : (q.run alg s env.first).1 = s)
      (hmem : AgreeOutside (n.MayWrite params) mem mem') :
      NativeStep alg s env mem n params (s.getKeyType ns key env.second).1
        ⟨0, mem', some (.typeMismatch ns key expected (s.getKeyType ns key env.second).2)⟩

/-! ## Checks -/

section Checks

/-- The check leads to a value with the property, or to an error that is no
type mismatch. -/
def Checks {α : Type} (P : α → Prop) : Except NativeError α → Prop
  | .ok x => P x
  | .error e => e.isMismatch = false

variable (host : AmxHost) (mem : AmxMemory)

theorem checks_nonemptyText {error : NativeError} (herror : error.isMismatch = false)
    (param : Cell) : Checks IsName (nonemptyText host mem error param) := by
  unfold nonemptyText
  split
  · exact herror
  · exact herror
  · next text hne htext =>
      refine ⟨?_, host.zero_notMem_of_getAmxString htext⟩
      rintro rfl
      exact hne rfl

theorem checks_getNamespace (paramNs : Cell) : Checks IsName (getNamespace host mem paramNs) :=
  checks_nonemptyText host mem rfl paramNs

theorem checks_getNamespaceAndKey (paramNs paramKey : Cell) :
    Checks (fun names => IsName names.1 ∧ IsName names.2)
      (getNamespaceAndKey host mem paramNs paramKey) := by
  have hns : Checks IsName (nonemptyText host mem .emptyNamespace paramNs) :=
    checks_nonemptyText host mem rfl paramNs
  have hkey : Checks IsName (nonemptyText host mem .emptyKey paramKey) :=
    checks_nonemptyText host mem rfl paramKey
  unfold getNamespaceAndKey
  cases hcheck : nonemptyText host mem .emptyNamespace paramNs with
  | error e =>
      rw [hcheck] at hns
      exact hns
  | ok ns =>
      cases hcheck' : nonemptyText host mem .emptyKey paramKey with
      | error e =>
          rw [hcheck'] at hkey
          exact hkey
      | ok key =>
          rw [hcheck] at hns
          rw [hcheck'] at hkey
          exact ⟨hns, hkey⟩

theorem checks_rejectIf (cond : Bool) {error : NativeError} (herror : error.isMismatch = false) :
    Checks (fun _ => cond = false) (rejectIf cond error) := by
  cases cond with
  | false => exact rfl
  | true => exact herror

theorem checks_policyParam (param : Option Cell) : Checks (fun _ => True) (policyParam param) := by
  unfold policyParam
  split
  · trivial
  · split
    · trivial
    · exact rfl

theorem checks_orderParam (param : Option Cell) : Checks (fun _ => True) (orderParam param) := by
  unfold orderParam
  split
  · trivial
  · split
    · trivial
    · exact rfl

end Checks

section Shapes

variable {host : AmxHost} {alg : StdAlgorithm RankPair} {s s' : MemStoreManager} {env : Env}
  {mem : AmxMemory} {n : Native} {params : List Cell} {r : NativeResult}

/-- A native that begins with a check is rejected there, or goes on with what
the check has found. -/
theorem NativeStep.of_check {α : Type} {check : Except NativeError α}
    {body : α → Except NativeError NativeOutcome} {P : α → Prop} (hcheck : Checks P check)
    (h : guarded n.failed s mem (check >>= body) = some (s', r))
    (hbody : ∀ x, P x → guarded n.failed s mem (body x) = some (s', r) →
      NativeStep alg s env mem n params s' r) : NativeStep alg s env mem n params s' r := by
  cases check with
  | ok x => exact hbody x hcheck h
  | error e =>
      cases h
      exact .rejected hcheck

/-- What the manager does for a native, seen from the plugin. -/
def Answers (alg : StdAlgorithm RankPair) (s : MemStoreManager) (env : Env)
    (s' : MemStoreManager) : Prop :=
  ∃ (op : Op) (reply : Reply), op.FromPlugin ∧ exec alg s env op = some (s', reply)

theorem NativeStep.of_answers {ret : Cell} {mem' : AmxMemory} (h : Answers alg s env s')
    (hmem : AgreeOutside (n.MayWrite params) mem mem') :
    NativeStep alg s env mem n params s' ⟨ret, mem', none⟩ := by
  obtain ⟨op, reply, hop, hexec⟩ := h
  exact .called hop hexec hmem

theorem setter_step (hfailed : n.failed = 0) {ns key : Cell} {rest : List Cell}
    {store : StdString → StdString → ExpirePolicy → Int32 → MemStoreManager × Bool}
    (h : setter host s mem ns key rest store = some (s', r))
    (hstore : ∀ ns key policy extra, IsName ns → IsName key →
      Answers alg s env (store ns key policy extra).1) :
    NativeStep alg s env mem n params s' r := by
  rw [setter, ← hfailed] at h
  refine .of_check (checks_getNamespaceAndKey host mem ns key) h fun names hnames h => ?_
  refine .of_check (checks_policyParam rest[0]?) h fun policy _ h => ?_
  cases h
  exact .of_answers (hstore _ _ policy _ hnames.1 hnames.2) (.refl _ _)

theorem incrementer_step (hfailed : n.failed = 0) {ns key : Cell} {rest : List Cell}
    {inc : StdString → StdString → ExpirePolicy → Int32 → MemStoreManager × Option Cell}
    {zero : Cell} (h : incrementer host s mem ns key rest inc zero = some (s', r))
    (hwrite : ∀ a, IsPassed rest[1]? a → n.MayWrite params a)
    (hinc : ∀ ns key policy extra, IsName ns → IsName key →
      Answers alg s env (inc ns key policy extra).1) :
    NativeStep alg s env mem n params s' r := by
  rw [incrementer, ← hfailed] at h
  refine .of_check (checks_getNamespaceAndKey host mem ns key) h fun names hnames h => ?_
  refine .of_check (checks_policyParam rest[2]?) h fun policy _ h => ?_
  cases h
  exact .of_answers (hinc _ _ policy _ hnames.1 hnames.2)
    ((agreeOutside_setOptional host mem _ _).mono hwrite)

theorem onKey_step {ns key : Cell} {f : StdString → StdString → MemStoreManager × Cell}
    (h : onKey host s mem n.failed ns key f = some (s', r))
    (hf : ∀ ns key, IsName ns → IsName key → Answers alg s env (f ns key).1) :
    NativeStep alg s env mem n params s' r := by
  rw [onKey] at h
  refine .of_check (checks_getNamespaceAndKey host mem ns key) h fun names hnames h => ?_
  cases h
  exact .of_answers (hf _ _ hnames.1 hnames.2) (.refl _ _)

theorem onNamespace_step (hfailed : n.failed = 0) {ns : Cell}
    {f : StdString → MemStoreManager × Cell}
    (h : onNamespace host s mem ns f = some (s', r))
    (hf : ∀ ns, IsName ns → Answers alg s env (f ns).1) :
    NativeStep alg s env mem n params s' r := by
  rw [onNamespace, ← hfailed] at h
  refine .of_check (checks_getNamespace host mem ns) h fun ns hns h => ?_
  cases h
  exact .of_answers (hf ns hns) (.refl _ _)

/-- A typed getter finds an entry of its type, none at all, or one of another
type, which it then asks for. -/
theorem reportRead_step {α : Type} {expected : EntryType} {value : StoreEntry → α} {d : α}
    {releases : Bool} {ns key : StdString} {q : Query} {reply : Reply}
    {onMismatch onRead : AmxMemory} (hfailed : n.failed = 0) (hop : q.FromPlugin)
    (htyped : q.IsTyped ns key expected)
    (hrun : q.run alg s env.first = ((s.findLive releases ns key env.first).1, reply))
    (hmismatch : AgreeOutside (n.MayWrite params) mem onMismatch)
    (hread : AgreeOutside (n.MayWrite params) mem onRead)
    (h : reportRead ns key expected env.second ((s.findLive releases ns key env.first).1,
      MemStoreManager.readAs expected value d (s.findLive releases ns key env.first).2) onMismatch
        onRead = (s', r)) : NativeStep alg s env mem n params s' r := by
  have hfound := MemStoreManager.findLive_result releases s ns key env.first
  have hcalled : ∀ {ret : Cell}, NativeStep alg s env mem n params
      (s.findLive releases ns key env.first).1 ⟨ret, onRead, none⟩ :=
    .called (show (Op.query q).FromPlugin from hop) (congrArg some hrun) hread
  cases hlive : s.liveAt env.first ns key with
  | none =>
      rw [hfound, hlive] at h
      cases h
      exact hcalled
  | some e =>
      rw [hfound, hlive, MemStoreManager.readAs] at h
      by_cases htype : e.type = expected
      · rw [if_pos htype] at h
        cases h
        exact hcalled
      · rw [if_neg htype] at h
        -- a live entry is left where it is
        obtain ⟨hentry, halive⟩ := MemStoreManager.liveAt_eq_some_iff.mp hlive
        rw [MemStoreManager.findLive_of_live hentry halive] at h hrun
        cases h
        exact .mismatched hfailed hop htyped hlive htype (congrArg Prod.fst hrun) hmismatch

end Shapes

end MemStore
