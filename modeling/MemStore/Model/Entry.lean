import MemStore.Containers.NestedMap

/-!
# Entries and their expiration

The data of `MemStore.h`: a `StoreEntry` holds one typed value, a `RankEntry`
one leaderboard score.  Both carry the same three expiration fields, collected
here in `Expiration`, and the source writes `IsExpired` and `ApplyExpiration`
out once for each; the copies agree, so both are read off `Expiration`.

The widths are those of the 32-bit build: `cell` and `int32_t` are `Int32`,
`size_t` is `UInt32` and the tie-breaking sequence is `UInt64`.  The length of
a string or a container is a natural number, turned into a `size_t` where the
source does arithmetic with it.  A clock reading is a number of nanoseconds.
-/

namespace MemStore

/-- `std::string`, byte by byte. -/
abbrev StdString := List UInt8

/-- `cell`. -/
abbrev Cell := Int32

/-- `size_t` of the 32-bit build. -/
abbrev SizeT := UInt32

/-- `steady_clock::time_point`, in nanoseconds. -/
abbrev TimePoint := ℤ

/-- `std::chrono::seconds(n)`, in nanoseconds. -/
def seconds (n : Int32) : ℤ := n.toInt * 1000000000

inductive ExpirePolicy
  | persistent
  | mapEnd
  | mapCount
  | ttl
  deriving DecidableEq, Repr

inductive EntryType
  | none
  | int
  | float
  | string
  | array
  deriving DecidableEq, Repr

inductive RankOrder
  | desc
  | asc
  deriving DecidableEq, Repr

/-- The fields that decide how long an entry lives. -/
structure Expiration where
  policy : ExpirePolicy := .persistent
  mapCounter : Int32 := 0
  expireTime : TimePoint := 0
  deriving DecidableEq, Repr

namespace Expiration

/-- `IsExpired`. -/
def isExpired (x : Expiration) (now : TimePoint) : Bool :=
  if x.policy = .ttl then decide (x.expireTime ≤ now)
  else if x.policy = .mapCount then decide (x.mapCounter ≤ 0)
  -- the map end is not a matter of the clock
  else false

/-- `MAX_TTL_SECONDS`. -/
def maxTtlSeconds : Int32 := 30 * 24 * 60 * 60

/-- The body of `ApplyExpiration`, whose clock reading is `now`. -/
def apply (x : Expiration) (policy : ExpirePolicy) (extra : Int32) (now : TimePoint) :
    Expiration :=
  match policy with
  | .mapCount => { x with policy := .mapCount, mapCounter := if 0 < extra then extra else 1 }
  | .ttl =>
      { x with
        policy := .ttl
        expireTime := now + seconds (if 0 < extra then min extra maxTtlSeconds else 60) }
  -- nothing reads the counter of a `MapEnd` entry
  | .mapEnd => { x with policy := .mapEnd, mapCounter := 1 }
  | .persistent => { x with policy := .persistent }

/-- What the map-end sweep makes of an entry: `none` when it erases it. -/
def sweep (x : Expiration) (now : TimePoint) : Option Expiration :=
  match x.policy with
  | .mapEnd => none
  | .mapCount =>
      if x.mapCounter - 1 ≤ 0 then none else some { x with mapCounter := x.mapCounter - 1 }
  | .ttl => if x.expireTime ≤ now then none else some x
  | .persistent => some x

end Expiration

/-- A typed value.  Only the field named by `type` is meaningful. -/
structure StoreEntry extends Expiration where
  type : EntryType := .none
  cellValue : Cell := 0
  floatValue : Float32 := 0
  stringValue : StdString := []
  arrayValue : List Cell := []

/-- A score and the number that breaks its ties. -/
structure RankEntry extends Expiration where
  score : Cell := 0
  sequence : UInt64 := 0
  deriving DecidableEq, Repr

/-- `sizeof(cell)`. -/
def sizeofCell : SizeT := 4

/-- `GetPayloadBytes`. -/
def getPayloadBytes (entry : StoreEntry) : SizeT :=
  match entry.type with
  | .string => UInt32.ofNat entry.stringValue.length
  | .array => UInt32.ofNat entry.arrayValue.length * sizeofCell
  | _ => 0

/-- `ApplyExpiration`. -/
def applyExpiration (entry : StoreEntry) (policy : ExpirePolicy) (extra : Int32)
    (now : TimePoint) : StoreEntry :=
  { entry with toExpiration := entry.toExpiration.apply policy extra now }

/-- `ApplyRankExpiration`. -/
def applyRankExpiration (entry : RankEntry) (policy : ExpirePolicy) (extra : Int32)
    (now : TimePoint) : RankEntry :=
  { entry with toExpiration := entry.toExpiration.apply policy extra now }

/-- The assignments by which every setter replaces the value of an entry. -/
def StoreEntry.fill (entry : StoreEntry) (type : EntryType) (cellValue : Cell)
    (floatValue : Float32) (stringValue : StdString) (arrayValue : List Cell) : StoreEntry :=
  { entry with
    type := type
    cellValue := cellValue
    floatValue := floatValue
    stringValue := stringValue
    arrayValue := arrayValue }

/-- The body of the sweep loop over key-values. -/
def sweepEntry (now : TimePoint) (entry : StoreEntry) : Option StoreEntry :=
  (entry.toExpiration.sweep now).map fun x => { entry with toExpiration := x }

/-- The body of the sweep loop over leaderboards. -/
def sweepRankEntry (now : TimePoint) (entry : RankEntry) : Option RankEntry :=
  (entry.toExpiration.sweep now).map fun x => { entry with toExpiration := x }

end MemStore
