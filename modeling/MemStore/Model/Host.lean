import MemStore.Model.Natives

/-!
# The host of the natives

What the natives share: the services of the host beside those of `AmxLibrary`,
the errors they log, and the checks of their parameters.

* `params[1]`, `params[2]`, … are a list.  The Pawn compiler passes all
  parameters that have no default, and `numParams` is the length of the list.
* `MF_GetAmxString` returns one of several static buffers.  Every native asks
  for its texts in different ones, so that none is overwritten; buffers are left
  out, except for the length of what fits into one.
* A check that fails makes the native return at once.  The checks are therefore
  computations in `Except`, and `guarded` is the native around them.
-/

namespace MemStore

/-! ## Services -/

/-- The services the natives use, with what is documented of them. -/
structure AmxHost extends AmxLibrary where
  /-- `MF_GetAmxString`; `none` is the null pointer. -/
  getAmxString : AmxMemory → Cell → Option StdString
  /-- Whether `MF_GetAmxAddr` returns a pointer. -/
  hasAddr : Cell → Bool
  /-- `amx_ctof`. -/
  ctof : Cell → Float32
  /-- `amx_ftoc`. -/
  ftoc : Float32 → Cell
  /-- The number of characters that fit into a buffer of `MF_GetAmxString`. -/
  maxText : ℕ
  maxText_lt : maxText < 2 ^ 30
  zero_notMem_of_getAmxString : ∀ {mem addr s}, getAmxString mem addr = some s → 0 ∉ s
  getAmxString_of_read : ∀ {mem addr} {s : StdString}, s.length ≤ maxText → 0 ∉ s →
    (∀ (j : ℕ) (c : UInt8), s[j]? = some c → mem.read addr j = charCell c) →
    mem.read addr s.length = 0 → getAmxString mem addr = some s

/-- `GetTypeName`. -/
def getTypeName : EntryType → String
  | .int => "Int"
  | .float => "Float"
  | .string => "String"
  | .array => "Array"
  | .none => "None"

theorem getTypeName_injective : Function.Injective getTypeName := by
  intro type type' h
  cases type <;> cases type' <;> first | rfl | exact absurd h (by decide)

/-! ## Errors -/

/-- What the natives report to `MF_LogError`. -/
inductive NativeError
  | emptyNamespace
  | emptyKey
  | invalidExpirePolicy (value : Cell)
  | invalidRankOrder (value : Cell)
  | stringMaxlen
  | arraySize
  | arrayPointer
  | destinationMaxlen
  | destinationPointer
  | emptyCallback
  | callbackNotFound (funcName : StdString)
  | typeMismatch (ns key : StdString) (expected actual : EntryType)
  deriving DecidableEq

/-- A text as it is printed by `%s`. -/
def StdString.print (s : StdString) : String := String.ofList (s.map fun c => Char.ofNat c.toNat)

/-- The message of an error, behind the tag of the module. -/
def NativeError.message : NativeError → String
  | .emptyNamespace => "[MEMSTORE] Namespace name cannot be empty!"
  | .emptyKey => "[MEMSTORE] Key name cannot be empty!"
  | .invalidExpirePolicy value =>
      "[MEMSTORE] Invalid ExpirePolicy value: " ++ toString value.toInt
  | .invalidRankOrder value => "[MEMSTORE] Invalid RankOrder value: " ++ toString value.toInt
  | .stringMaxlen => "[MEMSTORE] String buffer maxlen must be greater than 0!"
  | .arraySize => "[MEMSTORE] Array size must be greater than 0!"
  | .arrayPointer => "[MEMSTORE] Invalid array pointer!"
  | .destinationMaxlen => "[MEMSTORE] Array destination maxlen must be greater than 0!"
  | .destinationPointer => "[MEMSTORE] Invalid destination array pointer!"
  | .emptyCallback => "[MEMSTORE] Callback function name cannot be empty!"
  | .callbackNotFound funcName =>
      "[MEMSTORE] Callback function '" ++ StdString.print funcName ++ "' not found in plugin!"
  | .typeMismatch ns key expected actual =>
      "[MEMSTORE] Type mismatch! Key '" ++ StdString.print key ++ "' in namespace '" ++
        StdString.print ns ++ "' is not of type " ++ getTypeName expected ++ " (actual: " ++
        getTypeName actual ++ ")."

/-- The line that reports a mismatch shows the actual type, whatever the names are. -/
theorem NativeError.actual_eq_of_message_eq {ns key : StdString}
    {expected actual actual' : EntryType}
    (h : (typeMismatch ns key expected actual).message =
      (typeMismatch ns key expected actual').message) : actual = actual' := by
  unfold message at h
  rw [String.append_left_inj, String.append_right_inj] at h
  exact getTypeName_injective h

/-! ## Checks of parameters -/

section Checks

variable (host : AmxHost) (mem : AmxMemory)

/-- `MF_GetAmxString(...)`, followed by `if (!str || len == 0)`. -/
def nonemptyText (error : NativeError) (param : Cell) : Except NativeError StdString :=
  match host.getAmxString mem param with
  | none | some [] => .error error
  | some text => .ok text

/-- The namespace of the natives that take no key. -/
def getNamespace (paramNs : Cell) : Except NativeError StdString :=
  nonemptyText host mem .emptyNamespace paramNs

/-- `GetNamespaceAndKey`. -/
def getNamespaceAndKey (paramNs paramKey : Cell) : Except NativeError (StdString × StdString) := do
  let ns ← nonemptyText host mem .emptyNamespace paramNs
  let key ← nonemptyText host mem .emptyKey paramKey
  pure (ns, key)

/-- `if (cond) { MF_LogError(...); return ...; }`. -/
def rejectIf (cond : Bool) (error : NativeError) : Except NativeError Unit :=
  if cond then .error error else .ok ()

/-- `static_cast<ExpirePolicy>`, for the values that `IsValidExpirePolicy` lets through. -/
def expirePolicyOf (value : Cell) : Option ExpirePolicy :=
  if value = 0 then some .persistent
  else if value = 1 then some .mapEnd
  else if value = 2 then some .mapCount
  else if value = 3 then some .ttl
  else none

/-- The policy, which may be left out. -/
def policyParam : Option Cell → Except NativeError ExpirePolicy
  | none => .ok .persistent
  | some value =>
      match expirePolicyOf value with
      | some policy => .ok policy
      | none => .error (.invalidExpirePolicy value)

/-- The order, which may be left out. -/
def orderParam : Option Cell → Except NativeError RankOrder
  | none => .ok .desc
  | some value =>
      match rankOrderOf value with
      | some order => .ok order
      | none => .error (.invalidRankOrder value)

end Checks

/-! ## What natives hand back -/

/-- What a native returns, the memory of the plugin afterwards, and the error
the native has logged. -/
structure NativeResult where
  ret : Cell
  mem : AmxMemory
  error : Option NativeError := none

/-- `cond ? 1 : 0`. -/
def boolCell (b : Bool) : Cell := if b then 1 else 0

/-- A call of a native is `none` when the manager has no behaviour. -/
abbrev NativeOutcome := Option (MemStoreManager × NativeResult)

/-- A native after its checks: if one fails, it returns `ret` and does nothing. -/
def guarded (ret : Cell) (s : MemStoreManager) (mem : AmxMemory) :
    Except NativeError NativeOutcome → NativeOutcome
  | .ok outcome => outcome
  | .error e => some (s, ⟨ret, mem, some e⟩)

section References

variable (host : AmxHost) (mem : AmxMemory)

/-- `if (addr) *addr = value`, for the pointer to a reference parameter. -/
def setReference (param value : Cell) : AmxMemory :=
  if host.hasAddr param then mem.set param value else mem

/-- The same for a parameter that may be left out or passed as 0. -/
def setOptional (param : Option Cell) (value : Cell) : AmxMemory :=
  match param with
  | none => mem
  | some param => if param ≠ 0 then setReference host mem param value else mem

end References

end MemStore
