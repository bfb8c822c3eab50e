import MemStore.Model.Rank
import MemStore.Runs.Machine

/-!
# Calls and runs

The public methods of `MemStoreManager` as one step function.  `Query` lists
the reads, `Write` the setters and increments, and `Op` adds the remaining
methods.

What the surroundings decide about a call is its `Env`: the up to three
readings it makes of the clock, in order, and how the hash maps are arranged
after an insertion.  A `World` is a manager with the latest clock reading so
far; since `steady_clock` never goes back, a call whose first reading lies
before that cannot happen.  A call also has no result when it runs into the
undefined behaviour of `GetKeyAt`.
-/

namespace MemStore

/-- The clock readings of one call and the arrangement its insertions lead to. -/
structure Env where
  first : TimePoint
  second : TimePoint
  third : TimePoint
  layout : Layout
  first_le : first ≤ second
  second_le : second ≤ third

/-- A call during which the clock stands still. -/
def Env.at (t : TimePoint) (layout : Layout) : Env := ⟨t, t, t, layout, le_rfl, le_rfl⟩

theorem Env.first_le_third (env : Env) : env.first ≤ env.third :=
  env.first_le.trans env.second_le

/-- The read operations. -/
inductive Query
  | getInt (ns key : StdString) (defaultVal : Cell)
  | getFloat (ns key : StdString) (defaultVal : Float32)
  | getString (ns key defaultVal : StdString)
  | getArray (ns key : StdString) (maxlen : SizeT)
  | getArraySize (ns key : StdString)
  | getKeyType (ns key : StdString)
  | keyExists (ns key : StdString)
  | getNamespaceCount (ns : StdString)
  | getActiveKeys (ns : StdString)
  | getTTL (ns key : StdString)
  | rankGetScore (ns key : StdString)
  | rankExists (ns key : StdString)
  | rankGetPosition (ns key : StdString) (order : RankOrder)
  | rankGetTop (ns : StdString) (rankPos : Int32) (order : RankOrder)
  | rankGetCount (ns : StdString)
  | rankGetRange (ns : StdString) (startPos : Int32) (count : SizeT) (order : RankOrder)

/-- The setters and increments. -/
inductive Write
  | setInt (ns key : StdString) (val : Cell) (policy : ExpirePolicy) (extra : Int32)
  | setFloat (ns key : StdString) (val : Float32) (policy : ExpirePolicy) (extra : Int32)
  | setString (ns key val : StdString) (policy : ExpirePolicy) (extra : Int32)
  | setArray (ns key : StdString) (data : List Cell) (policy : ExpirePolicy) (extra : Int32)
  | incInt (ns key : StdString) (delta : Cell) (policy : ExpirePolicy) (extra : Int32)
  | incFloat (ns key : StdString) (delta : Float32) (policy : ExpirePolicy) (extra : Int32)
  | rankSet (ns key : StdString) (score : Cell) (policy : ExpirePolicy) (extra : Int32)
  | rankInc (ns key : StdString) (delta : Cell) (policy : ExpirePolicy) (extra : Int32)

/-- The public methods. -/
inductive Op
  | query (q : Query)
  | write (w : Write)
  | getKeyAt (ns : StdString) (index : ℕ)
  | deleteKey (ns key : StdString)
  | clearNamespace (ns : StdString)
  | setExpire (ns key : StdString) (policy : ExpirePolicy) (extra : Int32)
  | rankDelete (ns key : StdString)
  | rankClear (ns : StdString)
  | getMemoryStats
  | setLimits (maxKeysPerNs maxArraySize maxStringLen maxNamespaces maxMemoryMb : SizeT)
  | sweepMapEnd
  | clearAll
  | flushAll

/-- What a call returns to its caller, out-parameters included. -/
inductive Reply
  | intRead (r : ReadResult Cell)
  | floatRead (r : ReadResult Float32)
  | stringRead (r : ReadResult StdString)
  | arrayRead (r : ReadResult ArrayCopy)
  | count (n : ℕ)
  | entryType (type : EntryType)
  | flag (b : Bool)
  | keys (keys : List StdString)
  | keyAt (key : Option StdString)
  | ttl (remaining : Int32)
  | cell (value : Option Cell)
  | float (value : Option Float32)
  | top (entry : Option (StdString × Cell))
  | range (entries : Option (List (StdString × Cell)))
  | stats (stats : MemStoreManager.MemoryStats)
  | done

/-- The Boolean a setter, an increment or a managing operation returns. -/
def Reply.succeeded : Reply → Bool
  | .flag b => b
  | .cell value => value.isSome
  | .float value => value.isSome
  | _ => true

variable (alg : StdAlgorithm RankPair)

/-- Call a read operation; every one of them reads the clock at most once. -/
def Query.run (s : MemStoreManager) (now : TimePoint) : Query → MemStoreManager × Reply
  | .getInt ns key d => let r := s.getInt ns key d now; (r.1, .intRead r.2)
  | .getFloat ns key d => let r := s.getFloat ns key d now; (r.1, .floatRead r.2)
  | .getString ns key d => let r := s.getString ns key d now; (r.1, .stringRead r.2)
  | .getArray ns key maxlen => let r := s.getArray ns key maxlen now; (r.1, .arrayRead r.2)
  | .getArraySize ns key => let r := s.getArraySize ns key now; (r.1, .count r.2)
  | .getKeyType ns key => let r := s.getKeyType ns key now; (r.1, .entryType r.2)
  | .keyExists ns key => let r := s.keyExists ns key now; (r.1, .flag r.2)
  | .getNamespaceCount ns => let r := s.getNamespaceCount ns now; (r.1, .count r.2)
  | .getActiveKeys ns => let r := s.getActiveKeys ns now; (r.1, .keys r.2)
  | .getTTL ns key => (s, .ttl (s.getTTL ns key now))
  | .rankGetScore ns key => let r := s.rankGetScore ns key now; (r.1, .cell r.2)
  | .rankExists ns key => let r := s.rankExists ns key now; (r.1, .flag r.2)
  | .rankGetPosition ns key order =>
      let r := s.rankGetPosition ns key order now; (r.1, .count r.2)
  | .rankGetTop ns rankPos order => let r := s.rankGetTop alg ns rankPos order now; (r.1, .top r.2)
  | .rankGetCount ns => let r := s.rankGetCount ns now; (r.1, .count r.2)
  | .rankGetRange ns startPos count order =>
      let r := s.rankGetRange alg ns startPos count order now; (r.1, .range r.2)

/-- Call a setter or an increment. -/
def Write.run (s : MemStoreManager) (env : Env) : Write → MemStoreManager × Reply
  | .setInt ns key val policy extra =>
      let r := s.setInt env.layout ns key val policy extra env.first; (r.1, .flag r.2)
  | .setFloat ns key val policy extra =>
      let r := s.setFloat env.layout ns key val policy extra env.first; (r.1, .flag r.2)
  | .setString ns key val policy extra =>
      let r := s.setString env.layout ns key val policy extra env.first; (r.1, .flag r.2)
  | .setArray ns key data policy extra =>
      let r := s.setArray env.layout ns key data policy extra env.first; (r.1, .flag r.2)
  | .incInt ns key delta policy extra =>
      let r := s.incInt env.layout ns key delta policy extra env.first env.second
      (r.1, .cell r.2)
  | .incFloat ns key delta policy extra =>
      let r := s.incFloat env.layout ns key delta policy extra env.first env.second
      (r.1, .float r.2)
  | .rankSet ns key score policy extra =>
      let r := s.rankSet env.layout ns key score policy extra env.first; (r.1, .flag r.2)
  | .rankInc ns key delta policy extra =>
      let r := s.rankInc env.layout ns key delta policy extra env.first env.second
      (r.1, .cell r.2)

/-- Call a method. -/
def exec (s : MemStoreManager) (env : Env) : Op → Option (MemStoreManager × Reply)
  | .query q => some (q.run alg s env.first)
  | .write w => some (w.run s env)
  | .getKeyAt ns index =>
      (s.getKeyAt env.layout ns index env.first env.second env.third).map fun r =>
        (r.1, .keyAt r.2)
  | .deleteKey ns key => let r := s.deleteKey ns key; some (r.1, .flag r.2)
  | .clearNamespace ns => let r := s.clearNamespace ns; some (r.1, .flag r.2)
  | .setExpire ns key policy extra =>
      let r := s.setExpire ns key policy extra env.first; some (r.1, .flag r.2)
  | .rankDelete ns key => let r := s.rankDelete ns key; some (r.1, .flag r.2)
  | .rankClear ns => let r := s.rankClear ns; some (r.1, .flag r.2)
  | .getMemoryStats => some (s, .stats s.getMemoryStats)
  | .setLimits maxKeysPerNs maxArraySize maxStringLen maxNamespaces maxMemoryMb =>
      some ({ s with
        toLimits := s.toLimits.setLimits maxKeysPerNs maxArraySize maxStringLen maxNamespaces
          maxMemoryMb }, .done)
  | .sweepMapEnd => some (s.sweepMapEnd env.first, .done)
  | .clearAll => some (s.clearAll, .done)
  | .flushAll => some (s.flushAll, .done)

/-- A method call in its surroundings. -/
structure Call where
  op : Op
  env : Env

/-- A manager and the latest clock reading. -/
structure World where
  store : MemStoreManager
  clock : TimePoint

/-- The manager as constructed, at clock reading `t`. -/
def World.initial (t : TimePoint) : World := ⟨{}, t⟩

/-- One call on a world. -/
def World.call (w : World) (c : Call) : Option (World × Reply) :=
  if w.clock ≤ c.env.first then
    (exec alg w.store c.env c.op).map fun r => (⟨r.1, c.env.third⟩, r.2)
  else none

/-- A run of calls from a newly constructed manager. -/
def RunFromStart (guard : World → Call → Reply → Prop) (steps : List (Call × Reply))
    (w : World) : Prop :=
  ∃ t, Machine.Run (World.call alg) guard (World.initial t) steps w

/-- The worlds some run leads to. -/
def Reachable (w : World) : Prop := ∃ steps, RunFromStart alg Machine.anyStep steps w

variable {alg}

theorem World.call_eq_some_iff {w w' : World} {c : Call} {reply : Reply} :
    w.call alg c = some (w', reply) ↔
      w.clock ≤ c.env.first ∧ exec alg w.store c.env c.op = some (w'.store, reply) ∧
        w'.clock = c.env.third := by
  obtain ⟨store', clock'⟩ := w'
  unfold World.call
  by_cases h : w.clock ≤ c.env.first
  · rw [if_pos h, Option.map_eq_some_iff]
    constructor
    · rintro ⟨⟨store, reply'⟩, hexec, heq⟩
      cases heq
      exact ⟨h, hexec, rfl⟩
    · rintro ⟨_, hexec, rfl⟩
      exact ⟨_, hexec, rfl⟩
  · simp [h]

/-- A run that begins with a call, from what the call makes of the manager. -/
theorem run_cons {guard : World → Call → Reply → Prop} {w w' : World} {c : Call} {reply : Reply}
    {store : MemStoreManager} {steps : List (Call × Reply)} (hguard : guard w c reply)
    (hclock : w.clock ≤ c.env.first) (hexec : exec alg w.store c.env c.op = some (store, reply))
    (hrest : Machine.Run (World.call alg) guard ⟨store, c.env.third⟩ steps w') :
    Machine.Run (World.call alg) guard w ((c, reply) :: steps) w' :=
  .cons hguard (World.call_eq_some_iff.mpr ⟨hclock, hexec, rfl⟩) hrest

end MemStore
