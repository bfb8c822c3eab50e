import MemStore.Natives.Memory
import MemStore.Natives.Table

/-!
# Sessions are runs of the manager

What plugins do with the module comes to calls of the manager that are made one
after another and are such as a plugin can make (`PluginRun`).  That holds for a
native (`native_run`), for `mem_iterate_keys` whatever its callback does
meanwhile (`iterateKeys_run`), and so for every session (`session_run`).

So what holds of all runs of the manager holds of the module as plugins use it
(`session_refines_manager`).
-/

namespace MemStore

open Machine (Run)

/-- Calls that a plugin can make. -/
def FromPlugin (_ : World) (c : Call) (_ : Reply) : Prop := c.op.FromPlugin

variable {host : AmxHost} {alg : StdAlgorithm RankPair}

/-! ## Runs behind what plugins do -/

/-- A run of calls that a plugin can make leads from the one world to the other.
Time may pass after the last call. -/
def PluginRun (alg : StdAlgorithm RankPair) (w w' : World) : Prop :=
  ∃ steps t, t ≤ w'.clock ∧ Run (World.call alg) FromPlugin w steps ⟨w'.store, t⟩

/-- A run can begin earlier, and then ends no later. -/
theorem run_earlier {w w' : World} {steps : List (Call × Reply)}
    (h : Run (World.call alg) FromPlugin w steps w') {t : TimePoint} (ht : t ≤ w.clock) :
    ∃ t' ≤ w'.clock, Run (World.call alg) FromPlugin ⟨w.store, t⟩ steps ⟨w'.store, t'⟩ := by
  cases h with
  | nil w => exact ⟨t, ht, .nil _⟩
  | cons hguard hcall hrest =>
      obtain ⟨hclock, hexec, hclock'⟩ := World.call_eq_some_iff.mp hcall
      exact ⟨_, le_rfl, .cons hguard
        (World.call_eq_some_iff.mpr ⟨ht.trans hclock, hexec, hclock'⟩) hrest⟩

namespace PluginRun

variable {w w' w'' : World}

/-- Time may pass without a call. -/
theorem wait (s : MemStoreManager) {t t' : TimePoint} (h : t ≤ t') :
    PluginRun alg ⟨s, t⟩ ⟨s, t'⟩ := ⟨[], t, h, .nil _⟩

theorem refl (w : World) : PluginRun alg w w := wait w.store le_rfl

theorem trans (h : PluginRun alg w w') (h' : PluginRun alg w' w'') : PluginRun alg w w'' := by
  obtain ⟨steps, t, ht, hrun⟩ := h
  obtain ⟨steps', t', ht', hrun'⟩ := h'
  obtain ⟨t'', hle, hearlier⟩ := run_earlier hrun' ht
  exact ⟨steps ++ steps', t'', hle.trans ht', hrun.append hearlier⟩

theorem call {s s' : MemStoreManager} {t : TimePoint} {env : Env} {op : Op} {reply : Reply}
    (hop : op.FromPlugin) (ht : t ≤ env.first) (hexec : exec alg s env op = some (s', reply)) :
    PluginRun alg ⟨s, t⟩ ⟨s', env.third⟩ :=
  ⟨[(⟨op, env⟩, reply)], env.third, le_rfl,
    .single (show op.FromPlugin from hop) (World.call_eq_some_iff.mpr ⟨ht, hexec, rfl⟩)⟩

/-- What such calls preserve holds after them. -/
theorem invariant (Inv : MemStoreManager → Prop) (h : PluginRun alg w w')
    (hstep : ∀ (w : World) (c : Call) (reply : Reply) (w' : World), c.op.FromPlugin →
      Inv w.store → w.call alg c = some (w', reply) → Inv w'.store)
    (hw : Inv w.store) : Inv w'.store := by
  obtain ⟨steps, t, _, hrun⟩ := h
  exact hrun.invariant (fun w => Inv w.store) hstep hw

end PluginRun

/-! ## Natives -/

/-- A typed getter reads the clock once. -/
theorem exec_query (alg : StdAlgorithm RankPair) (s : MemStoreManager) (q : Query)
    (t : TimePoint) (layout : Layout) :
    exec alg s (.at t layout) (.query q) = some (q.run alg s t) := rfl

/-- A native makes at most two calls. -/
theorem NativeStep.run {s s' : MemStoreManager} {env : Env} {mem : AmxMemory} {n : Native}
    {params : List Cell} {r : NativeResult} (h : NativeStep alg s env mem n params s' r)
    {t : TimePoint} (ht : t ≤ env.first) : PluginRun alg ⟨s, t⟩ ⟨s', env.third⟩ := by
  cases h with
  | rejected | declined => exact .wait s (ht.trans env.first_le_third)
  | called hop hexec hmem => exact .call hop ht hexec
  | @mismatched q ns key expected e mem' hfailed hop htyped hlive hne hstate hmem =>
      -- the getter finds nothing to erase, and the type is asked for later
      have hget : PluginRun alg ⟨s, t⟩ ⟨s, env.first⟩ := by
        have hexec := exec_query alg s q env.first env.layout
        rw [← Prod.eta (q.run alg s env.first), hstate] at hexec
        have hclock : t ≤ (Env.at env.first env.layout).first := ht
        exact .call (show (Op.query q).FromPlugin from hop) hclock hexec
      have hnames : IsName ns ∧ IsName key := by
        cases q <;> first | exact htyped.elim | skip
        case getInt | getFloat =>
          obtain ⟨rfl, rfl, _⟩ := htyped
          exact hop
        case getString | getArray =>
          obtain ⟨rfl, rfl, _⟩ := htyped
          exact ⟨hop.1, hop.2.1⟩
      have htype : PluginRun alg ⟨s, env.first⟩ ⟨(s.getKeyType ns key env.second).1, env.second⟩ :=
        .call (show (Op.query (.getKeyType ns key)).FromPlugin from hnames) env.first_le
          (exec_query alg s (.getKeyType ns key) env.second env.layout)
      exact (hget.trans htype).trans (.wait _ env.second_le)

theorem World.native_eq_some_iff {w w' : World} {c : NativeCall} {r : NativeResult} :
    w.native host alg c = some (w', r) ↔ w.clock ≤ c.env.first ∧
      c.native.run host alg w.store c.env c.mem c.params = some (w'.store, r) ∧
        w'.clock = c.env.third := by
  obtain ⟨store', clock'⟩ := w'
  unfold World.native
  split
  · next hclock =>
      rw [Option.map_eq_some_iff]
      constructor
      · rintro ⟨⟨store, r'⟩, hrun, heq⟩
        cases heq
        exact ⟨hclock, hrun, rfl⟩
      · rintro ⟨_, hrun, rfl⟩
        exact ⟨_, hrun, rfl⟩
  · next hclock => exact iff_of_false nofun fun h => hclock h.1

theorem native_run {w w' : World} {c : NativeCall} {r : NativeResult}
    (h : w.native host alg c = some (w', r)) : PluginRun alg w w' := by
  obtain ⟨hclock, hrun, hclock'⟩ := World.native_eq_some_iff.mp h
  obtain ⟨store', clock'⟩ := w'
  cases hclock'
  exact (Native.step hrun).run hclock

/-! ## Iterating -/

/-- The loop of `mem_iterate_keys` does what the callbacks do. -/
theorem iterateKeys_run {callback : Callback} {data : Cell}
    (hcallback : ∀ key p p' ret, callback key data p = some (p', ret) →
      PluginRun alg p.world p'.world)
    {keys : List StdString} {count count' : Cell} {p p' : PluginWorld}
    (h : iterateKeys callback data keys count p = some (p', count')) :
    PluginRun alg p.world p'.world := by
  induction keys generalizing count p with
  | nil =>
      cases h
      exact .refl _
  | cons key keys ih =>
      obtain ⟨r, hcall, hrest⟩ := Option.bind_eq_some_iff.mp h
      have hfirst := hcallback (cStr key) p r.1 r.2 hcall
      split at hrest
      · cases hrest
        exact hfirst
      · exact hfirst.trans (ih hrest)

/-- What a call of `mem_iterate_keys` comes to. -/
inductive IterateStep (w : World) (c : IterateCall) : World → NativeResult → Prop
  | rejected {e : NativeError} (he : e.isMismatch = false) :
      IterateStep w c ⟨w.store, c.now⟩ ⟨0, c.mem, some e⟩
  | iterated {ns funcName : StdString} {callback : Callback} {data : Cell} {p : PluginWorld}
      {count : Cell} (hns : IsName ns) (hcallback : c.callbacks funcName = some callback)
      (hloop : iterateKeys callback data (w.store.getActiveKeys ns c.now).2 0
        ⟨⟨(w.store.getActiveKeys ns c.now).1, c.now⟩, c.mem⟩ = some (p, count)) :
      IterateStep w c p.world ⟨count, p.mem, none⟩

theorem World.iterate_step {w w' : World} {c : IterateCall} {r : NativeResult}
    (h : w.iterate host c = some (w', r)) : w.clock ≤ c.now ∧ IterateStep w c w' r := by
  unfold World.iterate at h
  split at h
  · next hclock =>
      refine ⟨hclock, ?_⟩
      cases hparams : c.params with
      | nil =>
          rw [hparams] at h
          cases h
      | cons ns params =>
          cases params with
          | nil =>
              rw [hparams] at h
              cases h
          | cons callbackFunction rest =>
              rw [hparams] at h
              dsimp only at h
              have hcheck := checks_getNamespace host c.mem ns
              have hcheck' : Checks IsName
                  (nonemptyText host c.mem .emptyCallback callbackFunction) :=
                checks_nonemptyText host c.mem rfl callbackFunction
              split at h
              · next e he =>
                  rw [he] at hcheck
                  cases h
                  exact .rejected hcheck
              · next nsText hns =>
                  rw [hns] at hcheck
                  split at h
                  · next e he =>
                      rw [he] at hcheck'
                      cases h
                      exact .rejected hcheck'
                  · split at h
                    · cases h
                      exact .rejected rfl
                    · next callback hcallback =>
                        obtain ⟨x, hloop, heq⟩ := Option.map_eq_some_iff.mp h
                        cases heq
                        exact .iterated hcheck hcallback hloop
  · cases h

theorem iterate_run {w w' : World} {c : IterateCall} {r : NativeResult}
    (hcallbacks : ∀ funcName callback, c.callbacks funcName = some callback →
      ∀ key data p p' ret, callback key data p = some (p', ret) → PluginRun alg p.world p'.world)
    (h : w.iterate host c = some (w', r)) : PluginRun alg w w' := by
  obtain ⟨hclock, hstep⟩ := World.iterate_step h
  cases hstep with
  | rejected he => exact .wait w.store hclock
  | @iterated ns funcName callback data p count hns hcallback hloop =>
      -- the keys are listed before the first callback
      have hlist : PluginRun alg w ⟨(w.store.getActiveKeys ns c.now).1, c.now⟩ := by
        have hexec := exec_query alg w.store (.getActiveKeys ns) c.now fun _ => 0
        have hclock : w.clock ≤ (Env.at c.now fun _ => 0).first := hclock
        exact .call (show (Op.query (.getActiveKeys ns)).FromPlugin from hns) hclock hexec
      exact hlist.trans (iterateKeys_run (fun key p p' ret hcall =>
        hcallbacks funcName callback hcallback key data p p' ret hcall) hloop)

/-! ## Sessions -/

theorem session_run {w w' : World} (h : Session host alg w w') : PluginRun alg w w' := by
  induction h with
  | nil w => exact .refl w
  | native hcall _ ih => exact (native_run hcall).trans ih
  | iterate hcallbacks hcall _ ih ih' =>
      exact (iterate_run ih hcall).trans ih'
  | @pluginsUnloaded w _ now hclock _ ih =>
      have hexec : exec alg w.store (.at now fun _ => 0) .sweepMapEnd =
          some (w.store.sweepMapEnd now, .done) := rfl
      have hsweep : Op.sweepMapEnd.FromPlugin := trivial
      exact .trans (.call hsweep hclock hexec) ih
  | @amxxDetach w _ now hclock _ ih =>
      have hexec : exec alg w.store (.at now fun _ => 0) .clearAll =
          some (w.store.clearAll, .done) := rfl
      have hclear : Op.clearAll.FromPlugin := trivial
      exact .trans (.call hclear hclock hexec) ih

/-- **Plugins cannot do more than call the manager.**  Whatever natives plugins call,
and whatever the callbacks of `mem_iterate_keys` do while the native that calls
them is still running: the manager is in a state that calls of its operations, made
one after another, lead to, and all of them are such as a plugin can make.  None of
them is made after the last reading of the clock. -/
theorem session_refines_manager {w w' : World} (h : Session host alg w w') :
    ∃ steps t, w.clock ≤ t ∧ t ≤ w'.clock ∧
      Run (World.call alg) FromPlugin w steps ⟨w'.store, t⟩ := by
  obtain ⟨steps, t, ht, hrun⟩ := session_run h
  exact ⟨steps, t, clock_le_of_run hrun, ht, hrun⟩

/-- A callback that calls a native: it flushes the store. -/
private def flushing : Callback := fun _ _ p =>
  (p.world.native .signedChars .insertionSort
    ⟨.flushAll, [], p.mem, .at p.world.clock fun _ => 0⟩).map
      fun r => (⟨r.1, r.2.mem⟩, r.2.ret)

/-- The store is flushed while `mem_iterate_keys` is running. -/
theorem session_refines_manager_flushing : ∃ (w : World) (steps : List (Call × Reply))
    (t : TimePoint), Session .signedChars .insertionSort (World.initial 0) w ∧
      w.store.entryAt [110] [107] = none ∧
      Run (World.call .insertionSort) FromPlugin (World.initial 0) steps ⟨w.store, t⟩ := by
  let s := (({} : MemStoreManager).setInt (fun _ => 0) [110] [107] 7 .persistent 0 0).1
  have hset : (World.initial 0).native .signedChars .insertionSort
      ⟨.setInt, [100, 200, 7], threeTexts, .at 0 fun _ => 0⟩ =
        some (⟨s, 0⟩, ⟨1, threeTexts, none⟩) := rfl
  have hiterate : World.iterate .signedChars ⟨s, 0⟩
      ⟨[100, 300], threeTexts, 0, fun _ => some flushing⟩ =
        some (⟨(s.getActiveKeys [110] 0).1.flushAll, 0⟩, ⟨1, threeTexts, none⟩) := rfl
  have hcallbacks : ∀ (_ : StdString) callback, some flushing = some callback →
      ∀ key data p p' ret, callback key data p = some (p', ret) →
        Session .signedChars .insertionSort p.world p'.world := by
    intro funcName callback hcallback key data p p' ret hcall
    cases hcallback
    obtain ⟨r, hflush, heq⟩ := Option.map_eq_some_iff.mp hcall
    cases heq
    exact .native hflush (.nil _)
  have hsession : Session .signedChars .insertionSort (World.initial 0)
      ⟨(s.getActiveKeys [110] 0).1.flushAll, 0⟩ :=
    .native hset (.iterate hcallbacks hiterate (.nil _))
  obtain ⟨steps, t, _, _, hrun⟩ := session_refines_manager hsession
  exact ⟨_, steps, t, hsession, rfl, hrun⟩

end MemStore
