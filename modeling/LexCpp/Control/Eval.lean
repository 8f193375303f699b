import LexCpp.Control.Ensures

/-!
# Evaluation of stateful code

What code in `StateT σ Option` does in a given state: one equation for each way of putting it
together, so that a run is followed by rewriting.
-/

universe u

variable {σ α β : Type u}

@[simp] theorem eval_pure (a : α) (s : σ) : (pure a : StateT σ Option α) s = some (a, s) := rfl

@[simp] theorem eval_bind (x : StateT σ Option β) (f : β → StateT σ Option α) (s : σ) :
    (x >>= f) s = (x s).bind fun p ↦ f p.1 p.2 := rfl

@[simp] theorem eval_map (x : StateT σ Option β) (f : β → α) (s : σ) :
    (f <$> x) s = (x s).map fun p ↦ (f p.1, p.2) := by
  rw [← bind_pure_comp, eval_bind]
  cases x s <;> rfl

@[simp] theorem eval_get (s : σ) : (get : StateT σ Option σ) s = some (s, s) := rfl

@[simp] theorem eval_modify (f : σ → σ) (s : σ) :
    (modify f : StateT σ Option PUnit) s = some (⟨⟩, f s) := rfl

@[simp] theorem eval_ite (c : Prop) [Decidable c] (x y : StateT σ Option α) (s : σ) :
    (if c then x else y) s = if c then x s else y s := by
  split_ifs <;> rfl

/-- Running the first part. -/
theorem eval_bind_of {x : StateT σ Option β} {f : β → StateT σ Option α} {s s' : σ} {b : β}
    (hx : x s = some (b, s')) : (x >>= f) s = f b s' := by
  rw [eval_bind, hx]
  rfl

/-- A run of two parts goes through a run of the first. -/
theorem exists_of_eval_bind {x : StateT σ Option β} {f : β → StateT σ Option α} {s t : σ} {a : α}
    (h : (x >>= f) s = some (a, t)) : ∃ b s', x s = some (b, s') ∧ f b s' = some (a, t) := by
  rw [eval_bind] at h
  obtain ⟨⟨b, s'⟩, hx, hf⟩ := Option.bind_eq_some_iff.1 h
  exact ⟨b, s', hx, hf⟩
