import MemStore.Model.Entry

/-!
# The manager and its key-value operations

`MemStoreManager` and the key-value half of its methods.  A method takes the
clock readings it may make as arguments, in the order in which it makes them,
and returns the new manager with its results.

* `m_Namespaces[ns][key]` inserts what is missing; the arrangement of the hash
  maps after an insertion is the argument `layout` of the methods that insert.
* The getters share their prologue, which finds the entry and erases it if it
  has expired; it is `findLive`.  Only some of them give the payload of the
  erased entry back to the quota, which is the argument `releases`.
* `IncInt` and `IncFloat` overwrite an expired entry in place, and read the
  clock a second time when they apply an expiration.
* Log messages are left out.
-/

namespace MemStore

/-- The bucket of every name after an insertion. -/
abbrev Layout := StdString → ℕ

/-- The configurable limits, with the values the constructor gives them. -/
structure Limits where
  maxKeysPerNamespace : SizeT := 5000
  maxArraySize : SizeT := 4096
  maxStringLength : SizeT := 4096
  maxNamespaces : SizeT := 200
  maxMemoryBytes : SizeT := 64 * 1024 * 1024
  deriving DecidableEq, Repr

/-- `SetLimits`: an argument of zero keeps the limit as it is. -/
def Limits.setLimits (limits : Limits) (maxKeysPerNs maxArraySize maxStringLen maxNamespaces
    maxMemoryMb : SizeT) : Limits where
  maxKeysPerNamespace := if 0 < maxKeysPerNs then maxKeysPerNs else limits.maxKeysPerNamespace
  maxArraySize := if 0 < maxArraySize then maxArraySize else limits.maxArraySize
  maxStringLength := if 0 < maxStringLen then maxStringLen else limits.maxStringLength
  maxNamespaces := if 0 < maxNamespaces then maxNamespaces else limits.maxNamespaces
  maxMemoryBytes := if 0 < maxMemoryMb then maxMemoryMb * 1024 * 1024 else limits.maxMemoryBytes

/-- The keys of a namespace as last listed for `GetKeyAt`. -/
structure KeyCache where
  keys : List StdString := []
  valid : Bool := false
  deriving DecidableEq, Repr

/-- The fields of `MemStoreManager`; the defaults are the constructor's. -/
structure MemStoreManager extends Limits where
  namespaces : NestedMap StdString StdString StoreEntry := ∅
  ranks : NestedMap StdString StdString RankEntry := ∅
  keyCaches : UnorderedMap StdString KeyCache := ∅
  rankSequenceCounter : UInt64 := 0
  approxMemoryUsed : SizeT := 0

/-- What a typed getter returns, with its out-parameters. -/
structure ReadResult (α : Type) where
  ret : Bool
  val : α
  typeMismatch : Bool
  found : Bool
  deriving DecidableEq, Repr

/-- The cells `GetArray` copies to the caller. -/
structure ArrayCopy where
  dest : List Cell := []
  copied : ℕ := 0
  deriving DecidableEq, Repr

namespace MemStoreManager

/-- `m_Namespaces.find(ns)` followed by `find(key)`; `none` when either fails. -/
def entryAt (s : MemStoreManager) (ns key : StdString) : Option StoreEntry :=
  NestedMap.at? s.namespaces ns key

/-- `InvalidateKeyCache`. -/
def invalidateKeyCache (s : MemStoreManager) (ns : StdString) : MemStoreManager :=
  { s with keyCaches := s.keyCaches.modify ns fun _ => { keys := [], valid := false } }

/-- `m_ApproxMemoryUsed = (m_ApproxMemoryUsed >= bytes) ? (m_ApproxMemoryUsed - bytes) : 0`. -/
def release (s : MemStoreManager) (bytes : SizeT) : MemStoreManager :=
  { s with
    approxMemoryUsed := if bytes ≤ s.approxMemoryUsed then s.approxMemoryUsed - bytes else 0 }

/-- Erase a namespace that has become empty, together with its key cache. -/
def eraseIfEmpty (s : MemStoreManager) (ns : StdString) : MemStoreManager :=
  match s.namespaces.find? ns with
  | some keyMap =>
      if keyMap.isEmpty then
        { s with namespaces := s.namespaces.erase ns, keyCaches := s.keyCaches.erase ns }
      else s
  | none => s

/-- Erase one entry, invalidate the key cache and drop an emptied namespace. -/
def eraseEntry (s : MemStoreManager) (ns key : StdString) : MemStoreManager :=
  (({ s with namespaces := s.namespaces.modify ns fun keyMap => keyMap.erase key }
    ).invalidateKeyCache ns).eraseIfEmpty ns

/-- `m_Namespaces[ns][key]`, evaluated for its insertion only. -/
def touch (s : MemStoreManager) (layout : Layout) (ns key : StdString) : MemStoreManager :=
  { s with namespaces := NestedMap.upsertAt layout layout s.namespaces ns key {} fun e => e }

/-- Change a stored entry through a reference to it. -/
def modifyEntry (s : MemStoreManager) (ns key : StdString) (f : StoreEntry → StoreEntry) :
    MemStoreManager :=
  { s with namespaces := NestedMap.modifyAt s.namespaces ns key f }

/-! ## Setters -/

/-- `CheckNamespaceKeyLimit`. -/
def checkNamespaceKeyLimit (s : MemStoreManager) (ns key : StdString) : Bool :=
  match s.namespaces.find? ns with
  | some keyMap =>
      match keyMap.find? key with
      | some _ => true
      | none => keyMap.size < s.maxKeysPerNamespace.toNat
  | none => s.namespaces.size < s.maxNamespaces.toNat

/-- The common end of the setters: take the reference `m_Namespaces[ns][key]`,
exchange the payload the entry held for `newBytes`, assign the new value, apply
the expiration and invalidate the key cache. -/
def overwrite (s : MemStoreManager) (layout : Layout) (ns key : StdString)
    (fill : StoreEntry → StoreEntry) (newBytes : SizeT) (policy : ExpirePolicy) (extra : Int32)
    (now : TimePoint) : MemStoreManager :=
  let oldBytes := getPayloadBytes ((s.entryAt ns key).getD {})
  let s := s.release oldBytes
  let s :=
    { s with
      approxMemoryUsed := s.approxMemoryUsed + newBytes
      namespaces := NestedMap.upsertAt layout layout s.namespaces ns key {} fun e =>
        applyExpiration (fill e) policy extra now }
  s.invalidateKeyCache ns

/-- `m_ApproxMemoryUsed + newBytes - oldBytes > m_MaxMemoryBytes`. -/
def quotaExceeded (s : MemStoreManager) (newBytes oldBytes : SizeT) : Bool :=
  s.maxMemoryBytes < s.approxMemoryUsed + newBytes - oldBytes

/-- The setters without a payload. -/
def storeScalar (s : MemStoreManager) (layout : Layout) (ns key : StdString)
    (fill : StoreEntry → StoreEntry) (policy : ExpirePolicy) (extra : Int32) (now : TimePoint) :
    MemStoreManager × Bool :=
  if s.checkNamespaceKeyLimit ns key then
    (s.overwrite layout ns key fill 0 policy extra now, true)
  else (s, false)

/-- The setters with a payload of `newBytes`.  The quota is tested after
`m_Namespaces[ns][key]` has been evaluated. -/
def storePayload (s : MemStoreManager) (layout : Layout) (ns key : StdString)
    (fill : StoreEntry → StoreEntry) (newBytes : SizeT) (policy : ExpirePolicy) (extra : Int32)
    (now : TimePoint) : MemStoreManager × Bool :=
  if s.checkNamespaceKeyLimit ns key then
    if s.quotaExceeded newBytes (getPayloadBytes ((s.entryAt ns key).getD {})) then
      (s.touch layout ns key, false)
    else (s.overwrite layout ns key fill newBytes policy extra now, true)
  else (s, false)

/-- `SetInt`. -/
def setInt (s : MemStoreManager) (layout : Layout) (ns key : StdString) (val : Cell)
    (policy : ExpirePolicy) (extra : Int32) (now : TimePoint) : MemStoreManager × Bool :=
  s.storeScalar layout ns key (fun e => e.fill .int val 0 [] []) policy extra now

/-- `SetFloat`. -/
def setFloat (s : MemStoreManager) (layout : Layout) (ns key : StdString) (val : Float32)
    (policy : ExpirePolicy) (extra : Int32) (now : TimePoint) : MemStoreManager × Bool :=
  s.storeScalar layout ns key (fun e => e.fill .float 0 val [] []) policy extra now

/-- `SetString`. -/
def setString (s : MemStoreManager) (layout : Layout) (ns key val : StdString)
    (policy : ExpirePolicy) (extra : Int32) (now : TimePoint) : MemStoreManager × Bool :=
  let stored :=
    if s.maxStringLength.toNat < val.length then val.take s.maxStringLength.toNat else val
  s.storePayload layout ns key (fun e => e.fill .string 0 0 stored [])
    (UInt32.ofNat stored.length) policy extra now

/-- `SetArray`; `data` holds the `size` cells the caller passes. -/
def setArray (s : MemStoreManager) (layout : Layout) (ns key : StdString) (data : List Cell)
    (policy : ExpirePolicy) (extra : Int32) (now : TimePoint) : MemStoreManager × Bool :=
  let clampedSize := min data.length s.maxArraySize.toNat
  s.storePayload layout ns key (fun e => e.fill .array 0 0 [] (data.take clampedSize))
    (UInt32.ofNat clampedSize * sizeofCell) policy extra now

/-! ## Getters -/

/-- The prologue of the getters: the live entry, if any.  An expired one is
erased, and its payload subtracted from the used memory if `releases`. -/
def findLive (releases : Bool) (s : MemStoreManager) (ns key : StdString) (now : TimePoint) :
    MemStoreManager × Option StoreEntry :=
  match s.entryAt ns key with
  | none => (s, none)
  | some e =>
      if e.isExpired now then
        ((if releases then s.release (getPayloadBytes e) else s).eraseEntry ns key, none)
      else (s, some e)

/-- The epilogue of the typed getters. -/
def readAs {α : Type} (type : EntryType) (value : StoreEntry → α) (defaultVal : α) :
    Option StoreEntry → ReadResult α
  | none => ⟨false, defaultVal, false, false⟩
  | some e =>
      if e.type = type then ⟨true, value e, false, true⟩ else ⟨false, defaultVal, true, true⟩

/-- `GetInt`. -/
def getInt (s : MemStoreManager) (ns key : StdString) (defaultVal : Cell) (now : TimePoint) :
    MemStoreManager × ReadResult Cell :=
  let r := s.findLive false ns key now
  (r.1, readAs .int (fun e => e.cellValue) defaultVal r.2)

/-- `GetFloat`. -/
def getFloat (s : MemStoreManager) (ns key : StdString) (defaultVal : Float32)
    (now : TimePoint) : MemStoreManager × ReadResult Float32 :=
  let r := s.findLive false ns key now
  (r.1, readAs .float (fun e => e.floatValue) defaultVal r.2)

/-- `GetString`. -/
def getString (s : MemStoreManager) (ns key defaultVal : StdString) (now : TimePoint) :
    MemStoreManager × ReadResult StdString :=
  let r := s.findLive true ns key now
  (r.1, readAs .string (fun e => e.stringValue) defaultVal r.2)

/-- `GetArray`, into a buffer of `maxlen` cells. -/
def getArray (s : MemStoreManager) (ns key : StdString) (maxlen : SizeT) (now : TimePoint) :
    MemStoreManager × ReadResult ArrayCopy :=
  let r := s.findLive true ns key now
  (r.1, readAs .array (fun e =>
    ⟨e.arrayValue.take maxlen.toNat, min maxlen.toNat e.arrayValue.length⟩) {} r.2)

/-! ## Inspecting and managing -/

/-- `GetArraySize`. -/
def getArraySize (s : MemStoreManager) (ns key : StdString) (now : TimePoint) :
    MemStoreManager × ℕ :=
  match s.findLive true ns key now with
  | (s, none) => (s, 0)
  | (s, some e) => (s, if e.type = .array then e.arrayValue.length else 0)

/-- `GetKeyType`. -/
def getKeyType (s : MemStoreManager) (ns key : StdString) (now : TimePoint) :
    MemStoreManager × EntryType :=
  match s.findLive false ns key now with
  | (s, none) => (s, .none)
  | (s, some e) => (s, e.type)

/-- `KeyExists`. -/
def keyExists (s : MemStoreManager) (ns key : StdString) (now : TimePoint) :
    MemStoreManager × Bool :=
  match s.findLive false ns key now with
  | (s, none) => (s, false)
  | (s, some _) => (s, true)

/-- `DeleteKey`. -/
def deleteKey (s : MemStoreManager) (ns key : StdString) : MemStoreManager × Bool :=
  match s.entryAt ns key with
  | none => (s, false)
  | some e => ((s.release (getPayloadBytes e)).eraseEntry ns key, true)

/-- `ClearNamespace`. -/
def clearNamespace (s : MemStoreManager) (ns : StdString) : MemStoreManager × Bool :=
  match s.namespaces.find? ns with
  | none => (s, false)
  | some keyMap =>
      let s := keyMap.entries.foldl (fun s pair => s.release (getPayloadBytes pair.2)) s
      ({ s with namespaces := s.namespaces.erase ns, keyCaches := s.keyCaches.erase ns }, true)

/-- `SetExpire`. -/
def setExpire (s : MemStoreManager) (ns key : StdString) (policy : ExpirePolicy) (extra : Int32)
    (now : TimePoint) : MemStoreManager × Bool :=
  match s.entryAt ns key with
  | none => (s, false)
  | some _ => (s.modifyEntry ns key fun e => applyExpiration e policy extra now, true)

/-- The loop of `GetNamespaceCount` and `GetActiveKeys`: erase the expired
entries of a namespace and drop it if that empties it.  The result is what is
kept.  Only `GetNamespaceCount` invalidates the key cache when it erases. -/
def purgeNamespace (invalidates : Bool) (s : MemStoreManager) (ns : StdString)
    (now : TimePoint) : MemStoreManager × UnorderedMap StdString StoreEntry :=
  match s.namespaces.find? ns with
  | none => (s, ∅)
  | some keyMap =>
      let erases := keyMap.entries.any fun pair => pair.2.isExpired now
      let s :=
        { s with
          namespaces := s.namespaces.modify ns fun keyMap =>
            keyMap.eraseIf fun e => e.isExpired now }
      let s := if invalidates && erases then s.invalidateKeyCache ns else s
      (s.eraseIfEmpty ns, keyMap.eraseIf fun e => e.isExpired now)

/-- `GetNamespaceCount`. -/
def getNamespaceCount (s : MemStoreManager) (ns : StdString) (now : TimePoint) :
    MemStoreManager × ℕ :=
  let r := s.purgeNamespace true ns now
  (r.1, r.2.size)

/-- `GetActiveKeys`. -/
def getActiveKeys (s : MemStoreManager) (ns : StdString) (now : TimePoint) :
    MemStoreManager × List StdString :=
  let r := s.purgeNamespace false ns now
  (r.1, r.2.keys)

/-- `cache.keys = GetActiveKeys(ns); cache.valid = true;` through the reference
`cache` to `m_KeyCaches[ns]`.  The right-hand side is evaluated first and may
erase the cache; `none` is the assignment through a dangling reference. -/
def rebuildKeyCache (s : MemStoreManager) (ns : StdString) (now : TimePoint) :
    Option MemStoreManager :=
  let r := s.getActiveKeys ns now
  match r.1.keyCaches.find? ns with
  | none => none
  | some _ =>
      some { r.1 with keyCaches := r.1.keyCaches.modify ns fun _ => { keys := r.2, valid := true } }

/-- The part of `GetKeyAt` below the first rebuild.  `cache` is the reference
`m_KeyCaches[ns]`, looked up wherever the source reads through it. -/
def readKeyCache (s : MemStoreManager) (ns : StdString) (index : ℕ) (now₁ now₂ : TimePoint) :
    Option (MemStoreManager × Option StdString) :=
  (s.keyCaches.find? ns).bind fun cache =>
    match cache.keys[index]? with
    | none => some (s, none)
    | some key =>
        match s.keyExists ns key now₁ with
        | (s, true) => (s.keyCaches.find? ns).map fun cache => (s, cache.keys[index]?)
        | (s, false) =>
            (s.rebuildKeyCache ns now₂).bind fun s =>
              (s.keyCaches.find? ns).map fun cache => (s, cache.keys[index]?)

/-- `GetKeyAt`; the result is `keyOut` when it returns true.  It is `none` on
the paths on which the source uses a reference to an erased key cache, where
its behaviour is undefined. -/
def getKeyAt (s : MemStoreManager) (layout : Layout) (ns : StdString) (index : ℕ)
    (now₀ now₁ now₂ : TimePoint) : Option (MemStoreManager × Option StdString) :=
  match s.namespaces.find? ns with
  | none => some (s, none)
  | some _ =>
      let s := { s with keyCaches := s.keyCaches.upsert layout ns {} fun cache => cache }
      (s.keyCaches.find? ns).bind fun cache =>
        if cache.valid then s.readKeyCache ns index now₁ now₂
        else (s.rebuildKeyCache ns now₀).bind fun s => s.readKeyCache ns index now₁ now₂

/-! ## Atomic arithmetic -/

/-- `if (policy != ExpirePolicy::Persistent || extra != 0) ApplyExpiration(...)`. -/
def reapplyExpiration (e : StoreEntry) (policy : ExpirePolicy) (extra : Int32)
    (now : TimePoint) : StoreEntry :=
  if policy ≠ .persistent ∨ extra ≠ 0 then applyExpiration e policy extra now else e

/-- `IncInt` and `IncFloat`: `fill` is the assignments that reinitialise an
expired entry to `delta`, `add` the addition to a live one, `value` the field
read back, and `setter` the setter called when there is no entry. -/
def increment {α : Type} (s : MemStoreManager) (ns key : StdString) (type : EntryType)
    (fill add : StoreEntry → StoreEntry) (value : StoreEntry → α) (delta : α)
    (setter : MemStoreManager × Bool) (policy : ExpirePolicy) (extra : Int32)
    (now₀ now₁ : TimePoint) : MemStoreManager × Option α :=
  match s.entryAt ns key with
  | some e =>
      if e.isExpired now₀ then
        (((s.release (getPayloadBytes e)).modifyEntry ns key fun e =>
          applyExpiration (fill e) policy extra now₁).invalidateKeyCache ns, some delta)
      -- only a live entry has to be of the right type
      else if e.type ≠ type then (s, none)
      else
        (s.modifyEntry ns key fun e => reapplyExpiration (add e) policy extra now₁,
          some (value (add e)))
  | none => (setter.1, if setter.2 then some delta else none)

/-- `IncInt`; the result is `newVal` when it returns true. -/
def incInt (s : MemStoreManager) (layout : Layout) (ns key : StdString) (delta : Cell)
    (policy : ExpirePolicy) (extra : Int32) (now₀ now₁ : TimePoint) :
    MemStoreManager × Option Cell :=
  s.increment ns key .int (fun e => e.fill .int delta 0 [] [])
    (fun e => { e with cellValue := e.cellValue + delta }) (fun e => e.cellValue) delta
    (s.setInt layout ns key delta policy extra now₁) policy extra now₀ now₁

/-- `IncFloat`; the result is `newVal` when it returns true. -/
def incFloat (s : MemStoreManager) (layout : Layout) (ns key : StdString) (delta : Float32)
    (policy : ExpirePolicy) (extra : Int32) (now₀ now₁ : TimePoint) :
    MemStoreManager × Option Float32 :=
  s.increment ns key .float (fun e => e.fill .float 0 delta [] [])
    (fun e => { e with floatValue := e.floatValue + delta }) (fun e => e.floatValue) delta
    (s.setFloat layout ns key delta policy extra now₁) policy extra now₀ now₁

/-- `GetTTL`. -/
def getTTL (s : MemStoreManager) (ns key : StdString) (now : TimePoint) : Int32 :=
  match s.entryAt ns key with
  | none => -2
  | some e =>
      if e.isExpired now then -2
      else if e.policy = .ttl then
        let diff := (e.expireTime - now).tdiv 1000000000
        if 0 < diff then Int32.ofInt diff else 0
      else -1

end MemStoreManager

end MemStore
