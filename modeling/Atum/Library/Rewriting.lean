import Mathlib.Data.List.Basic

/-!
# Deterministic rewriting

A step function takes a state to its successor, with a label, or to nothing.  A run is
a sequence of steps.  A state that is reached from itself never comes to an end
(`not_ends_of_cycle`): every run to the end would contain a shorter one.
-/

namespace Rewriting

variable {σ β : Type} (step : σ → Option (β × σ))

/-- A run with the labels of its steps. -/
inductive Run : σ → List β → σ → Prop
  | refl (state : σ) : Run state [] state
  | cons {state next last : σ} {label : β} {labels : List β} :
      step state = some (label, next) → Run next labels last → Run state (label :: labels) last

/-- A run from the state comes to a state without a successor. -/
def Ends (state : σ) : Prop := ∃ labels last, Run step state labels last ∧ step last = none

variable {step} {state : σ} {label : β}

theorem Run.single {next : σ} (h : step state = some (label, next)) : Run step state [label] next :=
  .cons h (.refl next)

variable {labels labels' : List β} {middle last : σ}

theorem Run.trans (h : Run step state labels middle) (h' : Run step middle labels' last) :
    Run step state (labels ++ labels') last := by
  induction h with
  | refl => exact h'
  | cons hstep _ ih => exact .cons hstep (ih h')

/-- A run that comes to an end goes through every state that can be reached. -/
theorem Run.split (h : Run step state labels middle) (h' : Run step state labels' last)
    (hend : step last = none) : ∃ rest, labels' = labels ++ rest ∧ Run step middle rest last := by
  induction h generalizing labels' with
  | refl => exact ⟨labels', rfl, h'⟩
  | cons hstep _ ih =>
    cases h' with
    | refl =>
      rw [hend] at hstep
      cases hstep
    | cons hstep' hrest =>
      obtain ⟨rfl, rfl⟩ := Prod.mk.inj (Option.some.inj (hstep.symm.trans hstep'))
      obtain ⟨rest, rfl, hrun⟩ := ih hrest
      exact ⟨rest, rfl, hrun⟩

/-- What comes to an end also does so from every state on the way. -/
theorem Ends.of_run (h : Ends step state)
    (hrun : Run step state labels middle) : Ends step middle := by
  obtain ⟨labels', last, hlast, hend⟩ := h
  obtain ⟨rest, -, hrest⟩ := hrun.split hlast hend
  exact ⟨rest, last, hrest, hend⟩

theorem not_ends_of_cycle (h : Run step state (label :: labels) state) : ¬ Ends step state := by
  intro ⟨labels', last, hlast, hend⟩
  induction hlen : labels'.length using Nat.strongRecOn generalizing labels' with
  | ind length ih =>
    obtain ⟨rest, rfl, hrest⟩ := h.split hlast hend
    have hshorter : rest.length < length := by
      rw [← hlen, List.length_append, List.length_cons]
      omega
    exact ih rest.length hshorter rest hrest rfl

end Rewriting
