import LexCpp.Control.While

/-!
# Partial correctness of stateful code

`Ensures x s Q`: if `x` returns from `s`, then the result and the final state satisfy `Q`.
Code is `StateT σ Option`, where `none` is a loop that ran out of fuel, so nothing is said
about runs that do not return.
-/

universe u

variable {σ α β : Type u}

/-- Every result of `x` from `s` satisfies `Q`. -/
def Ensures (x : StateT σ Option α) (s : σ) (Q : α → σ → Prop) : Prop :=
  ∀ a s', x s = some (a, s') → Q a s'

theorem Ensures.mono {x : StateT σ Option α} {s : σ} {Q R : α → σ → Prop} (h : Ensures x s Q)
    (hQR : ∀ a s', Q a s' → R a s') : Ensures x s R :=
  fun a s' hx ↦ hQR a s' (h a s' hx)

variable {s : σ} {Q : α → σ → Prop}

@[simp] theorem ensures_none : Ensures (fun _ ↦ none) s Q := fun _ _ h ↦ by cases h

@[simp] theorem ensures_pure {a : α} : Ensures (pure a) s Q ↔ Q a s :=
  ⟨fun h ↦ h a s rfl, fun h _ _ hx ↦ by cases hx; exact h⟩

@[simp] theorem ensures_bind {x : StateT σ Option β} {f : β → StateT σ Option α} :
    Ensures (x >>= f) s Q ↔ Ensures x s fun b s' ↦ Ensures (f b) s' Q := by
  constructor
  · intro h b s' hx a s'' hf
    refine h a s'' ?_
    change (x s).bind (fun p ↦ f p.1 p.2) = some (a, s'')
    rw [hx]
    exact hf
  · intro h a s'' hxf
    obtain ⟨⟨b, s'⟩, hx, hf⟩ := Option.bind_eq_some_iff.1 hxf
    exact h b s' hx a s'' hf

@[simp] theorem ensures_get {Q : σ → σ → Prop} : Ensures get s Q ↔ Q s s :=
  ensures_pure (Q := Q) (a := s)

@[simp] theorem ensures_modify {f : σ → σ} {Q : PUnit → σ → Prop} :
    Ensures (modify f) s Q ↔ Q ⟨⟩ (f s) :=
  ⟨fun h ↦ h _ _ rfl, fun h _ _ hx ↦ by cases hx; exact h⟩

@[simp] theorem ensures_ite {c : Prop} [Decidable c] {x y : StateT σ Option α} :
    Ensures (if c then x else y) s Q ↔ (c → Ensures x s Q) ∧ (¬ c → Ensures y s Q) := by
  split_ifs with h <;> simp [h]

@[simp] theorem ensures_map {x : StateT σ Option β} {f : β → α} :
    Ensures (f <$> x) s Q ↔ Ensures x s fun b s' ↦ Q (f b) s' := by
  rw [← bind_pure_comp, ensures_bind]
  simp only [ensures_pure]
