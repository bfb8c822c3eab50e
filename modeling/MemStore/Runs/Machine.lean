import Mathlib.Data.List.Basic
import Mathlib.Data.Option.Basic

/-!
# Runs of a partial machine

A machine is a step function `σ → ι → Option (σ × ο)`: from a state and an
input it makes a new state and an output, or has no behaviour at all.
`Run step guard s steps s'` says that the steps lead from `s` to `s'`, each of
them being one the guard allows; the guard sees the state before the step, the
input and the output.

The two rules by which facts about single steps become facts about runs are
`Run.invariant`, for a property of the state, and `Run.simulates`, for a
relation between the state and an abstract state that is updated from the
inputs and outputs alone.
-/

namespace Machine

variable {σ ι ο α : Type*} {step : σ → ι → Option (σ × ο)} {guard : σ → ι → ο → Prop}

/-- A finite run whose steps all satisfy the guard. -/
inductive Run (step : σ → ι → Option (σ × ο)) (guard : σ → ι → ο → Prop) :
    σ → List (ι × ο) → σ → Prop
  | nil (s : σ) : Run step guard s [] s
  | cons {s s' s'' : σ} {i : ι} {o : ο} {steps : List (ι × ο)} (hguard : guard s i o)
      (hstep : step s i = some (s', o)) (hrest : Run step guard s' steps s'') :
      Run step guard s ((i, o) :: steps) s''

/-- The guard that allows every step. -/
abbrev anyStep : σ → ι → ο → Prop := fun _ _ _ => True

/-- Induction along a run, from a relation between the state and an abstract
state computed from the steps. -/
theorem Run.simulates (update : α → ι × ο → α) (R : α → σ → Prop)
    (hstep : ∀ a s i o s', guard s i o → R a s → step s i = some (s', o) →
      R (update a (i, o)) s')
    {s s' : σ} {steps : List (ι × ο)} (h : Run step guard s steps s') :
    ∀ a, R a s → R (steps.foldl update a) s' := by
  induction h with
  | nil s => exact fun _ hR => hR
  | cons hguard hs _ ih => exact fun a hR => ih _ (hstep a _ _ _ _ hguard hR hs)

/-- What holds at the start and is kept by every allowed step holds at the end. -/
theorem Run.invariant (Inv : σ → Prop)
    (hstep : ∀ s i o s', guard s i o → Inv s → step s i = some (s', o) → Inv s')
    {s s' : σ} {steps : List (ι × ο)} (h : Run step guard s steps s') (hs : Inv s) : Inv s' :=
  h.simulates (fun (_ : Unit) _ => ()) (fun _ => Inv) (fun _ => hstep) () hs

/-- A run of allowed steps is one under any guard that allows at least these. -/
theorem Run.weaken {guard' : σ → ι → ο → Prop} (hguard : ∀ s i o, guard s i o → guard' s i o)
    {s s' : σ} {steps : List (ι × ο)} (h : Run step guard s steps s') :
    Run step guard' s steps s' := by
  induction h with
  | nil s => exact .nil s
  | cons hg hs _ ih => exact .cons (hguard _ _ _ hg) hs ih

/-- One allowed step is a run. -/
theorem Run.single {s s' : σ} {i : ι} {o : ο} (hguard : guard s i o)
    (hstep : step s i = some (s', o)) : Run step guard s [(i, o)] s' :=
  .cons hguard hstep (.nil s')

/-- A run that goes on where another one ends. -/
theorem Run.append {s s' s'' : σ} {steps steps' : List (ι × ο)} (h : Run step guard s steps s')
    (h' : Run step guard s' steps' s'') : Run step guard s (steps ++ steps') s'' := by
  induction h with
  | nil s => exact h'
  | cons hguard hs _ ih => exact .cons hguard hs (ih h')

/-- Steps that nobody sees can be left out.  `R` relates the states with them to
those without; the steps that are seen are possible in both, with the same output. -/
theorem Run.filter (visible : ι → Bool) (R : σ → σ → Prop)
    (hseen : ∀ s t i o s', visible i = true → R s t → step s i = some (s', o) →
      ∃ t', step t i = some (t', o) ∧ R s' t')
    (hunseen : ∀ s t i o s', visible i = false → R s t → step s i = some (s', o) → R s' t)
    {s s' : σ} {steps : List (ι × ο)} (h : Run step anyStep s steps s') :
    ∀ t, R s t → ∃ t', Run step anyStep t (steps.filter fun x => visible x.1) t' ∧ R s' t' := by
  induction h with
  | nil s => exact fun t hR => ⟨t, .nil t, hR⟩
  | @cons s s₁ s' i o steps _ hstep _ ih =>
      intro t hR
      have hcons : ((i, o) :: steps).filter (fun x => visible x.1) =
          if visible i then (i, o) :: steps.filter fun x => visible x.1
          else steps.filter fun x => visible x.1 := List.filter_cons
      cases hvisible : visible i with
      | false =>
          obtain ⟨t', hrun, hR'⟩ := ih t (hunseen s t i o s₁ hvisible hR hstep)
          rw [hcons, hvisible]
          exact ⟨t', hrun, hR'⟩
      | true =>
          obtain ⟨t₁, hstep', hR₁⟩ := hseen s t i o s₁ hvisible hR hstep
          obtain ⟨t', hrun, hR'⟩ := ih t₁ hR₁
          rw [hcons, hvisible]
          exact ⟨t', .cons trivial hstep' hrun, hR'⟩

end Machine
