import Mathlib

/-!
# While loops with fuel

A `while` loop whose body may fail, run for at most a given number of rounds.
`whileFuel` returns the state in which the condition first fails, or `none` if the
body fails or the fuel runs out.

Total correctness is the rule `exists_whileFuel`: an invariant the body keeps and a
measure it decreases give a result, for any fuel above the measure.
-/

universe u

variable {σ : Type u}

/-- Run `body` as long as `cond` holds. -/
def whileFuel (cond : σ → Bool) (body : σ → Option σ) : Nat → σ → Option σ
  | 0, _ => none
  | fuel + 1, s => if cond s then (body s).bind (whileFuel cond body fuel) else some s

section

variable {cond : σ → Bool} {body : σ → Option σ}

theorem whileFuel_of_not {s : σ} (fuel : Nat) (h : cond s = false) :
    whileFuel cond body (fuel + 1) s = some s := by
  simp [whileFuel, h]

theorem whileFuel_of_body {s s' : σ} (fuel : Nat) (h : cond s = true) (hb : body s = some s') :
    whileFuel cond body (fuel + 1) s = whileFuel cond body fuel s' := by
  simp [whileFuel, h, hb]

/-- **Total correctness.**  If in every state of the invariant in which the loop goes
on the body succeeds, keeps the invariant and decreases the measure, then the loop
ends in a state of the invariant in which the condition fails. -/
theorem exists_whileFuel (inv : σ → Prop) (measure : σ → Nat)
    (hbody : ∀ s, inv s → cond s = true → ∃ s', body s = some s' ∧ inv s' ∧ measure s' < measure s)
    {s : σ} (hs : inv s) {fuel : Nat} (hfuel : measure s < fuel) :
    ∃ s', whileFuel cond body fuel s = some s' ∧ inv s' ∧ cond s' = false := by
  induction fuel generalizing s with
  | zero => exact absurd hfuel (Nat.not_lt_zero _)
  | succ fuel ih =>
      cases hc : cond s with
      | false => exact ⟨s, whileFuel_of_not fuel hc, hs, hc⟩
      | true =>
          obtain ⟨s', hb, hs', hlt⟩ := hbody s hs hc
          rw [whileFuel_of_body fuel hc hb]
          exact ih hs' (Nat.lt_of_lt_of_le hlt (Nat.le_of_lt_succ hfuel))

end
