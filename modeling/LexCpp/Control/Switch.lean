import Mathlib.Data.List.Basic

/-!
# Switches

A `switch` whose bodies all end in `break`.  A `case` without a body falls through to the next one
that has one, and in the end to `default`.
-/

namespace LexCpp

structure Switch (α β : Type) where
  cases : List (α × Option β)
  default : β
deriving DecidableEq, Repr

namespace Switch

variable {α β : Type} [DecidableEq α] {v : α}

/-- The body that is run. -/
def run (s : Switch α β) (v : α) : β :=
  ((s.cases.dropWhile fun c ↦ c.1 ≠ v).findSome? Prod.snd).getD s.default

/-- Cases with other labels are passed over. -/
theorem run_append {cs : List (α × Option β)} (h : ∀ c ∈ cs, c.1 ≠ v) (cs' : List (α × Option β))
    (d : β) : run ⟨cs ++ cs', d⟩ v = run ⟨cs', d⟩ v := by
  rw [run, List.dropWhile_append_of_pos fun c hc ↦ decide_eq_true (h c hc)]
  rfl

/-- From its own case on, a value falls through to the first body. -/
theorem run_cons (b : Option β) (cs : List (α × Option β)) (d : β) :
    run ⟨(v, b) :: cs, d⟩ v = (((v, b) :: cs).findSome? Prod.snd).getD d := by
  rw [run, List.dropWhile_cons_of_neg (by simp)]

/-- With a body for every case nothing falls through. -/
theorem run_map {l : List α} (hv : v ∈ l) (body : α → β) (d : β) :
    run ⟨l.map fun c ↦ (c, some (body c)), d⟩ v = body v := by
  induction l with
  | nil => exact absurd hv List.not_mem_nil
  | cons c l ih =>
      by_cases hc : c = v
      · rw [hc, List.map_cons, run_cons]
        rfl
      · rw [List.map_cons, ← List.singleton_append, run_append (by simpa using hc)]
        exact ih ((List.mem_cons.1 hv).resolve_left (Ne.symm hc))

end Switch

end LexCpp
