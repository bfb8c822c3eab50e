import MemStore.Model.Host

/-!
# The natives over key-values

One definition for each native of `Natives.cpp` that works on key-values.  A
native takes the manager, the surroundings of the call, the memory of the plugin
and the parameters; it is `none` when parameters without a default are missing.

The setters check and pass on their parameters in the same way (`setter`), and
so do the natives that take a namespace and a key only (`onKey`), or only a
namespace (`onNamespace`), and the increments (`incrementer`); those of the
leaderboards share these definitions.  The typed getters end alike
(`reportRead`): on a type mismatch they ask for the type of the key, in a second
call of the manager.
-/

namespace MemStore

variable (host : AmxHost) (s : MemStoreManager) (env : Env) (mem : AmxMemory)

/-! ## Shapes -/

/-- The natives that store something under a key; `rest` is the policy and its
argument, which may be left out. -/
def setter (ns key : Cell) (rest : List Cell)
    (store : StdString → StdString → ExpirePolicy → Int32 → MemStoreManager × Bool) :
    NativeOutcome :=
  guarded 0 s mem do
    let names ← getNamespaceAndKey host mem ns key
    let policy ← policyParam rest[0]?
    let extra := rest[1]?.getD 0
    let r := store names.1 names.2 policy extra
    pure (some (r.1, ⟨boolCell r.2, mem, none⟩))

/-- The natives that increment something; `rest` is the delta, the reference to
the new value, the policy and its argument. -/
def incrementer (ns key : Cell) (rest : List Cell)
    (inc : StdString → StdString → ExpirePolicy → Int32 → MemStoreManager × Option Cell)
    (zero : Cell) : NativeOutcome :=
  guarded 0 s mem do
    let names ← getNamespaceAndKey host mem ns key
    let policy ← policyParam rest[2]?
    let extra := rest[3]?.getD 0
    let r := inc names.1 names.2 policy extra
    -- the new value is written even if there is none
    pure (some (r.1, ⟨boolCell r.2.isSome, setOptional host mem rest[1]? (r.2.getD zero), none⟩))

/-- The natives that take a namespace and a key. -/
def onKey (failed ns key : Cell) (f : StdString → StdString → MemStoreManager × Cell) :
    NativeOutcome :=
  guarded failed s mem do
    let names ← getNamespaceAndKey host mem ns key
    let r := f names.1 names.2
    pure (some (r.1, ⟨r.2, mem, none⟩))

/-- The natives that take a namespace. -/
def onNamespace (ns : Cell) (f : StdString → MemStoreManager × Cell) : NativeOutcome :=
  guarded 0 s mem do
    let ns ← getNamespace host mem ns
    let r := f ns
    pure (some (r.1, ⟨r.2, mem, none⟩))

/-- The end of the typed getters: log a type mismatch, with the type the key has
by now, or hand back what has been read.  `onMismatch` and `onRead` are the
memories in which the answer has been written down. -/
def reportRead {α : Type} (ns key : StdString) (expected : EntryType) (now : TimePoint)
    (r : MemStoreManager × ReadResult α) (onMismatch onRead : AmxMemory) :
    MemStoreManager × NativeResult :=
  if r.2.typeMismatch then
    let actual := r.1.getKeyType ns key now
    (actual.1, ⟨0, onMismatch, some (.typeMismatch ns key expected actual.2)⟩)
  else (r.1, ⟨boolCell (r.2.ret && r.2.found), onRead, none⟩)

/-! ## Setters -/

/-- `amxx_mem_set_int`. -/
def amxxMemSetInt : List Cell → NativeOutcome
  | ns :: key :: value :: rest =>
      setter host s mem ns key rest fun ns key policy extra =>
        s.setInt env.layout ns key value policy extra env.first
  | _ => none

/-- `amxx_mem_set_float`. -/
def amxxMemSetFloat : List Cell → NativeOutcome
  | ns :: key :: value :: rest =>
      setter host s mem ns key rest fun ns key policy extra =>
        s.setFloat env.layout ns key (host.ctof value) policy extra env.first
  | _ => none

/-- `(str != nullptr) ? str : ""`. -/
def textOrEmpty (param : Cell) : StdString := (host.getAmxString mem param).getD []

/-- `amxx_mem_set_string`. -/
def amxxMemSetString : List Cell → NativeOutcome
  | ns :: key :: value :: rest =>
      setter host s mem ns key rest fun ns key policy extra =>
        s.setString env.layout ns key (textOrEmpty host mem value) policy extra env.first
  | _ => none

/-- The `size` cells from an address on. -/
def AmxMemory.cells (base : Cell) (size : ℕ) : List Cell := (List.range size).map (mem.read base)

/-- `amxx_mem_set_array`. -/
def amxxMemSetArray : List Cell → NativeOutcome
  | ns :: key :: values :: size :: rest =>
      guarded 0 s mem do
        let names ← getNamespaceAndKey host mem ns key
        rejectIf (size ≤ 0) .arraySize
        rejectIf (!host.hasAddr values) .arrayPointer
        let policy ← policyParam rest[0]?
        let extra := rest[1]?.getD 0
        let r := s.setArray env.layout names.1 names.2 (mem.cells values size.toInt.toNat) policy
          extra env.first
        pure (some (r.1, ⟨boolCell r.2, mem, none⟩))
  | _ => none

/-! ## Getters -/

/-- `amxx_mem_get_int`. -/
def amxxMemGetInt : List Cell → NativeOutcome
  | ns :: key :: value :: rest =>
      guarded 0 s mem do
        let names ← getNamespaceAndKey host mem ns key
        let defaultVal := rest[0]?.getD 0
        let r := s.getInt names.1 names.2 defaultVal env.first
        pure (some (reportRead names.1 names.2 .int env.second r
          (setReference host mem value defaultVal) (setReference host mem value r.2.val)))
  | _ => none

/-- `amxx_mem_get_float`. -/
def amxxMemGetFloat : List Cell → NativeOutcome
  | ns :: key :: value :: rest =>
      guarded 0 s mem do
        let names ← getNamespaceAndKey host mem ns key
        let defaultVal := rest[0]?.elim 0 host.ctof
        let r := s.getFloat names.1 names.2 defaultVal env.first
        pure (some (reportRead names.1 names.2 .float env.second r
          (setReference host mem value (host.ftoc defaultVal))
          (setReference host mem value (host.ftoc r.2.val))))
  | _ => none

/-- `amxx_mem_get_string`. -/
def amxxMemGetString : List Cell → NativeOutcome
  | ns :: key :: dest :: maxlen :: rest =>
      guarded 0 s mem do
        let names ← getNamespaceAndKey host mem ns key
        rejectIf (maxlen ≤ 0) .stringMaxlen
        let defaultVal := rest[0]?.elim [] fun param =>
          if param ≠ 0 then textOrEmpty host mem param else []
        let r := s.getString names.1 names.2 defaultVal env.first
        pure (some (reportRead names.1 names.2 .string env.second r
          (host.setAmxString mem dest (cStr defaultVal) maxlen)
          (host.setAmxString mem dest (cStr r.2.val) maxlen)))
  | _ => none

/-- `amxx_mem_get_array`.  The size is written after the cells. -/
def amxxMemGetArray : List Cell → NativeOutcome
  | ns :: key :: dest :: maxlen :: rest =>
      guarded 0 s mem do
        let names ← getNamespaceAndKey host mem ns key
        rejectIf (maxlen ≤ 0) .destinationMaxlen
        rejectIf (!host.hasAddr dest) .destinationPointer
        let r := s.getArray names.1 names.2 maxlen.toUInt32 env.first
        let mem := setOptional host (mem.setCells dest r.2.val.dest) rest[0]?
          (Int32.ofNat r.2.val.copied)
        pure (some (reportRead names.1 names.2 .array env.second r mem mem))
  | _ => none

/-! ## Inspecting and managing -/

/-- The number of an `EntryType`. -/
def entryTypeCell : EntryType → Cell
  | .none => 0
  | .int => 1
  | .float => 2
  | .string => 3
  | .array => 4

/-- `amxx_mem_get_array_size`. -/
def amxxMemGetArraySize : List Cell → NativeOutcome
  | ns :: key :: _ =>
      onKey host s mem 0 ns key fun ns key =>
        let r := s.getArraySize ns key env.first
        (r.1, Int32.ofNat r.2)
  | _ => none

/-- `amxx_mem_get_key_type`. -/
def amxxMemGetKeyType : List Cell → NativeOutcome
  | ns :: key :: _ =>
      onKey host s mem (entryTypeCell .none) ns key fun ns key =>
        let r := s.getKeyType ns key env.first
        (r.1, entryTypeCell r.2)
  | _ => none

/-- `amxx_mem_key_exists`. -/
def amxxMemKeyExists : List Cell → NativeOutcome
  | ns :: key :: _ =>
      onKey host s mem 0 ns key fun ns key =>
        let r := s.keyExists ns key env.first
        (r.1, boolCell r.2)
  | _ => none

/-- `amxx_mem_delete_key`. -/
def amxxMemDeleteKey : List Cell → NativeOutcome
  | ns :: key :: _ =>
      onKey host s mem 0 ns key fun ns key =>
        let r := s.deleteKey ns key
        (r.1, boolCell r.2)
  | _ => none

/-- `amxx_mem_get_ttl`. -/
def amxxMemGetTtl : List Cell → NativeOutcome
  | ns :: key :: _ => onKey host s mem (-2) ns key fun ns key => (s, s.getTTL ns key env.first)
  | _ => none

/-- `amxx_mem_set_expire`. -/
def amxxMemSetExpire : List Cell → NativeOutcome
  | ns :: key :: policy :: rest =>
      guarded 0 s mem do
        let names ← getNamespaceAndKey host mem ns key
        let policy ← policyParam (some policy)
        let extra := rest[0]?.getD 0
        let r := s.setExpire names.1 names.2 policy extra env.first
        pure (some (r.1, ⟨boolCell r.2, mem, none⟩))
  | _ => none

/-- `amxx_mem_clear_namespace`. -/
def amxxMemClearNamespace : List Cell → NativeOutcome
  | ns :: _ =>
      onNamespace host s mem ns fun ns =>
        let r := s.clearNamespace ns
        (r.1, boolCell r.2)
  | _ => none

/-- `amxx_mem_get_namespace_count`. -/
def amxxMemGetNamespaceCount : List Cell → NativeOutcome
  | ns :: _ =>
      onNamespace host s mem ns fun ns =>
        let r := s.getNamespaceCount ns env.first
        (r.1, Int32.ofNat r.2)
  | _ => none

/-- `amxx_mem_get_key_at`. -/
def amxxMemGetKeyAt : List Cell → NativeOutcome
  | ns :: index :: dest :: maxlen :: _ =>
      guarded 0 s mem do
        let ns ← getNamespace host mem ns
        if index < 0 ∨ maxlen ≤ 0 then pure (some (s, ⟨0, mem, none⟩))
        else
          let r := s.getKeyAt env.layout ns index.toInt.toNat env.first env.second env.third
          pure (r.map fun r =>
            match r.2 with
            | none => (r.1, ⟨0, mem, none⟩)
            | some key => (r.1, ⟨1, host.setAmxString mem dest (cStr key) maxlen, none⟩))
  | _ => none

/-! ## Increments -/

/-- `amxx_mem_inc_int`. -/
def amxxMemIncInt : List Cell → NativeOutcome
  | ns :: key :: rest =>
      incrementer host s mem ns key rest (fun ns key policy extra =>
        s.incInt env.layout ns key (rest[0]?.getD 1) policy extra env.first env.second) 0
  | _ => none

/-- `amxx_mem_inc_float`. -/
def amxxMemIncFloat : List Cell → NativeOutcome
  | ns :: key :: rest =>
      incrementer host s mem ns key rest (fun ns key policy extra =>
        let r := s.incFloat env.layout ns key (rest[0]?.elim 1 host.ctof) policy extra env.first
          env.second
        (r.1, r.2.map host.ftoc)) (host.ftoc 0)
  | _ => none

end MemStore
