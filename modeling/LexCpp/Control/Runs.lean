import Mathlib

/-!
# Runs of a partial step function

`step s i` is the state after input `i`, or `none` where the input is not possible.  `Runs`
are its runs along inputs that satisfy a condition, and the two rules are what a step has
to keep so that a run keeps it.
-/

universe u v w

variable {σ : Type u} {ι : Type v} {β : Type w}

/-- From one state to another by steps whose inputs meet the condition. -/
def Runs (step : σ → ι → Option σ) (P : σ → ι → Prop) : σ → σ → Prop :=
  Relation.ReflTransGen fun s s' ↦ ∃ i, P s i ∧ step s i = some s'

namespace Runs

variable {step : σ → ι → Option σ} {P : σ → ι → Prop} {s s' : σ}

/-- An invariant of the steps holds along the run. -/
theorem invariant {I : σ → Prop} (hstep : ∀ s i s', I s → P s i → step s i = some s' → I s')
    (hrun : Runs step P s s') (hs : I s) : I s' := by
  induction hrun with
  | refl => exact hs
  | tail _ h ih =>
      obtain ⟨i, hi, hstep'⟩ := h
      exact hstep _ i _ ih hi hstep'

/-- What no step changes from a state with the invariant, a run does not change. -/
theorem const {I : σ → Prop} {f : σ → β}
    (hstep : ∀ s i s', I s → P s i → step s i = some s' → I s' ∧ f s' = f s)
    (hrun : Runs step P s s') (hs : I s) : f s' = f s := by
  have hinv : I s' ∧ f s' = f s := by
    refine hrun.invariant (I := fun x ↦ I x ∧ f x = f s) (fun x i x' hx hi hstep' ↦ ?_) ⟨hs, rfl⟩
    obtain ⟨hI, hf⟩ := hstep x i x' hx.1 hi hstep'
    exact ⟨hI, hf.trans hx.2⟩
  exact hinv.2

end Runs
