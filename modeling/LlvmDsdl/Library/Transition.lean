import Mathlib.Data.List.Basic

/-!
Contract: runs of a labelled machine whose step is a partial function.

Owns: the run of a list of labels, how runs compose, and the rules that carry a
property, or a relation between states, from one step to a whole run.
-/

namespace LlvmDsdl.Library.Transition

variable {σ ε : Type*}

/-- The state after `labels`, when every one of them is enabled in turn. -/
def runFrom (step : σ → ε → Option σ) (state : σ) : List ε → Option σ
  | [] => some state
  | label :: rest => (step state label).bind fun next => runFrom step next rest

/-- A step from a state with the property leads to one with it. -/
def Preserves (step : σ → ε → Option σ) (property : σ → Prop) : Prop :=
  ∀ state label next, property state → step state label = some next → property next

variable {step : σ → ε → Option σ}

theorem runFrom_cons {state final : σ} {label : ε} {rest : List ε} :
    runFrom step state (label :: rest) = some final ↔
      ∃ next, step state label = some next ∧ runFrom step next rest = some final := by
  show (step state label).bind (fun next => runFrom step next rest) = some final ↔ _
  rw [Option.bind_eq_some_iff]

theorem runFrom_append {state final : σ} {first second : List ε} :
    runFrom step state (first ++ second) = some final ↔
      ∃ middle, runFrom step state first = some middle ∧
        runFrom step middle second = some final := by
  induction first generalizing state with
  | nil =>
      constructor
      · intro ran
        exact ⟨state, rfl, ran⟩
      · rintro ⟨middle, here, ran⟩
        rw [Option.some.inj here]
        exact ran
  | cons label rest ih =>
      rw [List.cons_append, runFrom_cons]
      constructor
      · rintro ⟨next, stepped, ran⟩
        have ⟨middle, earlier, later⟩ := ih.mp ran
        exact ⟨middle, runFrom_cons.mpr ⟨next, stepped, earlier⟩, later⟩
      · rintro ⟨middle, earlier, later⟩
        have ⟨next, stepped, ran⟩ := runFrom_cons.mp earlier
        exact ⟨next, stepped, ih.mpr ⟨middle, ran, later⟩⟩

theorem Preserves.run {property : σ → Prop} (preserves : Preserves step property)
    {state final : σ} {labels : List ε} (holds : property state)
    (ran : runFrom step state labels = some final) : property final := by
  induction labels generalizing state with
  | nil =>
      rw [← Option.some.inj ran]
      exact holds
  | cons label rest ih =>
      have ⟨next, stepped, later⟩ := runFrom_cons.mp ran
      exact ih (preserves state label next holds stepped) later

end LlvmDsdl.Library.Transition
