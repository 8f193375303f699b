import Mathlib

/-!
# Observed runs

`step s i` is the state after input `i` with what can be seen of the step, or `none` where
the input is not possible.  Two systems whose steps keep a relation of their states, and show
the same up to a map, show the same along every sequence of inputs.
-/

universe u v w

variable {σ σ' : Type u} {ι ι' : Type v} {ω ω' : Type w}

namespace Observed

/-- A sequence of inputs, with all that is seen of them. -/
def run (step : σ → ι → Option (σ × List ω)) : List ι → σ → Option (σ × List ω)
  | [], s => some (s, [])
  | i :: is, s => (step s i).bind fun p ↦ (run step is p.1).map fun q ↦ (q.1, p.2 ++ q.2)

/-- Every input of the sequence meets the condition in the state that it comes in. -/
def Along (step : σ → ι → Option (σ × List ω)) (P : σ → ι → Prop) : List ι → σ → Prop
  | [], _ => True
  | i :: is, s => P s i ∧ ∀ p, step s i = some p → Along step P is p.1

theorem Along.mono {step : σ → ι → Option (σ × List ω)} {P Q : σ → ι → Prop}
    (hPQ : ∀ s i, P s i → Q s i) {is : List ι} {s : σ} (h : Along step P is s) :
    Along step Q is s := by
  induction is generalizing s with
  | nil => trivial
  | cons i is ih => exact ⟨hPQ s i h.1, fun p hp ↦ ih (h.2 p hp)⟩

theorem along_of_forall {step : σ → ι → Option (σ × List ω)} {P : σ → ι → Prop} {is : List ι}
    (his : ∀ i ∈ is, ∀ s, P s i) (s : σ) : Along step P is s := by
  induction is generalizing s with
  | nil => trivial
  | cons i is ih =>
      refine ⟨his i List.mem_cons_self s, fun p _ ↦ ?_⟩
      exact ih (fun j hj ↦ his j (List.mem_cons_of_mem i hj)) p.1

/-- What every step keeps whose input meets the condition, a run keeps. -/
theorem run_invariant {step : σ → ι → Option (σ × List ω)} {I : σ → Prop} {P : σ → ι → Prop}
    (hstep : ∀ s i p, I s → P s i → step s i = some p → I p.1) {is : List ι} {s : σ}
    (his : Along step P is s) (hs : I s) {r : σ × List ω} (hr : run step is s = some r) : I r.1 := by
  induction is generalizing s r with
  | nil =>
      obtain rfl := Option.some.inj hr
      exact hs
  | cons i is ih =>
      obtain ⟨p, hp, hr⟩ := Option.bind_eq_some_iff.1 hr
      obtain ⟨q, hq, rfl⟩ := Option.map_eq_some_iff.1 hr
      exact ih (r := q) (his.2 p hp) (hstep s i p hs his.1 hp) hq

/-- What is seen of every step is seen of a run. -/
theorem run_seen {step : σ → ι → Option (σ × List ω)} {I : σ → Prop} {C : ι → Prop} {Q : ω → Prop}
    (hstep : ∀ s i p, I s → C i → step s i = some p → I p.1 ∧ ∀ o ∈ p.2, Q o) {is : List ι}
    (his : ∀ i ∈ is, C i) {s : σ} (hs : I s) {r : σ × List ω} (hr : run step is s = some r) :
    ∀ o ∈ r.2, Q o := by
  induction is generalizing s r with
  | nil =>
      obtain rfl := Option.some.inj hr
      exact fun o ho ↦ absurd ho List.not_mem_nil
  | cons i is ih =>
      obtain ⟨p, hp, hr⟩ := Option.bind_eq_some_iff.1 hr
      obtain ⟨q, hq, rfl⟩ := Option.map_eq_some_iff.1 hr
      obtain ⟨hI, hfirst⟩ := hstep s i p hs (his i List.mem_cons_self) hp
      have hrest : ∀ o ∈ q.2, Q o := ih (fun j hj ↦ his j (List.mem_cons_of_mem i hj)) hI hq
      intro o ho
      exact (List.mem_append.1 ho).elim (hfirst o) (hrest o)

/-- Both steps are impossible, or they lead to related states and show the same. -/
def Matched (R : σ → σ' → Prop) (f : ω' → ω) : Option (σ × List ω) → Option (σ' × List ω') → Prop :=
  Option.Rel fun p q ↦ R p.1 q.1 ∧ p.2 = q.2.map f

section Lockstep

variable {step : σ → ι → Option (σ × List ω)} {step' : σ' → ι' → Option (σ' × List ω')}
  {R : σ → σ' → Prop} {P : σ' → ι' → Prop} {g : ι' → ι} {f : ω' → ω}

/-- Steps in lockstep make runs in lockstep. -/
theorem lockstep
    (hstep : ∀ s s' i, R s s' → P s' i → Matched R f (step s (g i)) (step' s' i))
    {is : List ι'} {s : σ} {s' : σ'} (h : R s s') (his : Along step' P is s') :
    Matched R f (run step (is.map g) s) (run step' is s') := by
  induction is generalizing s s' with
  | nil => exact Option.Rel.some ⟨h, rfl⟩
  | cons i is ih =>
      have hfirst : Matched R f (step s (g i)) (step' s' i) := hstep s s' i h his.1
      change Matched R f ((step s (g i)).bind fun p ↦
          (run step (is.map g) p.1).map fun q ↦ (q.1, p.2 ++ q.2))
        ((step' s' i).bind fun p ↦ (run step' is p.1).map fun q ↦ (q.1, p.2 ++ q.2))
      cases hp : step s (g i) with
      | none =>
          rw [hp] at hfirst
          cases hq : step' s' i with
          | none => exact Option.Rel.none
          | some q => rw [hq] at hfirst; cases hfirst
      | some p =>
          rw [hp] at hfirst
          cases hq : step' s' i with
          | none => rw [hq] at hfirst; cases hfirst
          | some q =>
              rw [hq] at hfirst
              obtain ⟨hpq, hobs⟩ : R p.1 q.1 ∧ p.2 = q.2.map f := by
                cases hfirst with
                | some h => exact h
              have hrest : Matched R f (run step (is.map g) p.1) (run step' is q.1) :=
                ih hpq (his.2 q hq)
              simp only [Option.bind_some]
              revert hrest
              generalize run step (is.map g) p.1 = o
              generalize run step' is q.1 = o'
              intro hrest
              cases hrest with
              | none => exact Option.Rel.none
              | some hr =>
                  exact Option.Rel.some
                    ⟨hr.1, (congrArg₂ (· ++ ·) hobs hr.2).trans List.map_append.symm⟩

/-- What is seen of two runs in lockstep is the same. -/
theorem Matched.seen {o : Option (σ × List ω)} {o' : Option (σ' × List ω')}
    (h : Matched R f o o') : o.map Prod.snd = o'.map fun q ↦ q.2.map f := by
  cases h with
  | none => rfl
  | some h => exact congrArg some h.2

end Lockstep

end Observed
