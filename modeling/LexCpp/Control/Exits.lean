import Mathlib

/-!
# Code that may exit

Code that works on a state, may leave the whole program with a code of `ε`, and may run out of fuel.
Three judgments, with a rule for each way of putting code together: what holds when a part returns and
when it exits (`Code.Ends`), what two parts have in common from related states (`Code.Relates`), and
that with enough fuel there is a result, the same for all (`Code.Settles`).
-/

universe u

/-- Code that returns an `α` or exits with an `ε`; `none` is a loop that ran out of fuel. -/
def Code (ε σ α : Type u) : Type u := σ → Option ((ε ⊕ α) × σ)

namespace Code

variable {ε σ σ' α β γ : Type u}

/-- What is run after a part: nothing, if it exits. -/
def andThen (f : α → Code ε σ β) (p : (ε ⊕ α) × σ) : Option ((ε ⊕ β) × σ) :=
  p.1.elim (fun e ↦ some (.inl e, p.2)) fun a ↦ f a p.2

instance : Monad (Code ε σ) where
  pure a := fun s ↦ some (.inr a, s)
  bind x f := fun s ↦ (x s).bind (andThen f)

/-- Leave the program. -/
def exit (e : ε) : Code ε σ α := fun s ↦ some (.inl e, s)

def modify (f : σ → σ) : Code ε σ PUnit := fun s ↦ some (.inr ⟨⟩, f s)

def get : Code ε σ σ := fun s ↦ some (.inr s, s)

/-- The result of a computation that may run out of fuel. -/
def lift (o : Option α) : Code ε σ α := fun s ↦ o.map fun a ↦ (.inr a, s)

theorem bind_apply (x : Code ε σ α) (f : α → Code ε σ β) (s : σ) :
    (x >>= f) s = (x s).bind (andThen f) := rfl

/-- A run of two parts exits in the first, or goes through it. -/
theorem of_bind {x : Code ε σ α} {f : α → Code ε σ β} {s : σ} {p : (ε ⊕ β) × σ}
    (h : (x >>= f) s = some p) : (∃ e s', x s = some (.inl e, s') ∧ p = (.inl e, s')) ∨
      ∃ a s', x s = some (.inr a, s') ∧ f a s' = some p := by
  obtain ⟨⟨e | a, s'⟩, hx, hf⟩ := Option.bind_eq_some_iff.1 h
  · exact Or.inl ⟨e, s', hx, (Option.some.inj hf).symm⟩
  · exact Or.inr ⟨a, s', hx, hf⟩

/-! ## What holds at the end -/

/-- If the code returns, `Q` holds, and if it exits, `E` does. -/
def Ends (x : Code ε σ α) (s : σ) (Q : α → σ → Prop) (E : ε → σ → Prop) : Prop :=
  ∀ p, x s = some p → p.1.elim (fun e ↦ E e p.2) fun a ↦ Q a p.2

namespace Ends

variable {x : Code ε σ α} {s : σ} {Q Q' : α → σ → Prop} {E E' : ε → σ → Prop}

theorem mono (h : Ends x s Q E) (hQ : ∀ a s', Q a s' → Q' a s') (hE : ∀ e s', E e s' → E' e s') :
    Ends x s Q' E' := by
  rintro ⟨_ | _, s'⟩ hp
  · exact hE _ _ (h _ hp)
  · exact hQ _ _ (h _ hp)

/-- Code that does not exit. -/
theorem noExit (h : Ends x s Q fun _ _ ↦ False) : Ends x s Q E := h.mono (fun _ _ hQ ↦ hQ) fun _ _ hE ↦ hE.elim

protected theorem pure {a : α} (h : Q a s) : Ends (pure a) s Q E := by
  rintro _ ⟨⟩
  exact h

theorem exit {e : ε} (h : E e s) : Ends (exit e : Code ε σ α) s Q E := by
  rintro _ ⟨⟩
  exact h

theorem modify {f : σ → σ} {Q : PUnit → σ → Prop} (h : Q ⟨⟩ (f s)) : Ends (modify f) s Q E := by
  rintro _ ⟨⟩
  exact h

theorem get {Q : σ → σ → Prop} (h : Q s s) : Ends get s Q E := by
  rintro _ ⟨⟩
  exact h

theorem lift {o : Option α} (h : ∀ a, o = some a → Q a s) : Ends (lift o) s Q E := by
  intro p hp
  obtain ⟨a, ha, rfl⟩ := Option.map_eq_some_iff.1 hp
  exact h a ha

theorem bind {f : α → Code ε σ β} {R : β → σ → Prop} (hx : Ends x s Q E)
    (hf : ∀ a s', Q a s' → Ends (f a) s' R E) : Ends (x >>= f) s R E := by
  intro r hr
  obtain ⟨⟨e | a, s'⟩, hp, hr⟩ := Option.bind_eq_some_iff.1 hr
  · obtain rfl := Option.some.inj hr
    exact hx _ hp
  · exact hf a s' (hx _ hp) r hr

/-- Nothing in particular. -/
theorem trivial : Ends x s (fun _ _ ↦ True) fun _ _ ↦ True := by
  rintro ⟨_ | _, _⟩ -
  · exact True.intro
  · exact True.intro

theorem ite {c : Prop} [Decidable c] {y : Code ε σ α} (hx : c → Ends x s Q E)
    (hy : ¬ c → Ends y s Q E) : Ends (if c then x else y) s Q E := by
  split_ifs with h
  · exact hx h
  · exact hy h

end Ends

/-! ## Two runs -/

/-- From related states both run out of fuel, or both exit with the same and in related states, or both
return, with related results in related states. -/
def Relates (R : σ → σ' → Prop) (V : α → β → Prop) (x : Code ε σ α) (y : Code ε σ' β) : Prop :=
  ∀ s s', R s s' → Option.Rel
    (fun p q ↦ Sum.LiftRel Eq V p.1 q.1 ∧ R p.2 q.2)
    (x s) (y s')

namespace Relates

variable {R : σ → σ' → Prop} {V : α → β → Prop} {x : Code ε σ α} {y : Code ε σ' β}

protected theorem pure {a : α} {b : β} (h : V a b) : Relates R V (pure a : Code ε σ α) (pure b) :=
  fun _ _ hs ↦ .some ⟨.inr h, hs⟩

theorem exit (e : ε) : Relates R V (exit e : Code ε σ α) (exit e) :=
  fun _ _ hs ↦ .some ⟨.inl rfl, hs⟩

theorem modify {f : σ → σ} {g : σ' → σ'} (h : ∀ s s', R s s' → R (f s) (g s')) :
    Relates R Eq (modify f : Code ε σ PUnit) (modify g) :=
  fun s s' hs ↦ .some ⟨.inr rfl, h s s' hs⟩

theorem lift (o : Option α) : Relates R Eq (lift o : Code ε σ α) (lift o) := by
  intro s s' hs
  cases o with
  | none => exact .none
  | some a => exact .some ⟨.inr rfl, hs⟩

theorem bind {α' β' : Type u} {W : α' → β' → Prop} {f : α → Code ε σ α'} {g : β → Code ε σ' β'}
    (hx : Relates R V x y) (hf : ∀ a b, V a b → Relates R W (f a) (g b)) :
    Relates R W (x >>= f) (y >>= g) := by
  intro s s' hs
  have h := hx s s' hs
  rw [bind_apply, bind_apply]
  rcases hp : x s with _ | ⟨e | a, t⟩
  · rw [hp] at h
    rcases hq : y s' with _ | q
    · exact .none
    · rw [hq] at h
      cases h
  · rw [hp] at h
    rcases hq : y s' with _ | ⟨e' | b, t'⟩
    · rw [hq] at h
      cases h
    · rw [hq] at h
      cases h with
      | some h =>
          obtain ⟨he, ht⟩ := h
          exact .some ⟨.inl (Sum.liftRel_inl_inl.1 he), ht⟩
    · rw [hq] at h
      cases h with
      | some h => exact absurd h.1 Sum.not_liftRel_inl_inr
  · rw [hp] at h
    rcases hq : y s' with _ | ⟨e' | b, t'⟩
    · rw [hq] at h
      cases h
    · rw [hq] at h
      cases h with
      | some h => exact absurd h.1 Sum.not_liftRel_inr_inl
    · rw [hq] at h
      cases h with
      | some h =>
          obtain ⟨hab, ht⟩ := h
          exact hf a b (Sum.liftRel_inr_inr.1 hab) t t' ht

theorem ite {c : Prop} [Decidable c] {x' : Code ε σ α} {y' : Code ε σ' β} (hx : c → Relates R V x y)
    (hy : ¬ c → Relates R V x' y') : Relates R V (if c then x else x') (if c then y else y') := by
  by_cases h : c
  · rw [if_pos h, if_pos h]
    exact hx h
  · rw [if_neg h, if_neg h]
    exact hy h

end Relates

/-! ## Enough fuel -/

/-- With enough fuel there is a result, which does not depend on the fuel. -/
def Settles (x : ℕ → Code ε σ α) (s : σ) : Prop := ∃ N p, ∀ n, N ≤ n → x n s = some p

namespace Settles

variable {s : σ}

/-- Code that does not need fuel. -/
theorem of_returns {x : Code ε σ α} {p : (ε ⊕ α) × σ} (h : x s = some p) : Settles (fun _ ↦ x) s :=
  ⟨0, p, fun _ _ ↦ h⟩

theorem lift {o : ℕ → Option α} (h : ∃ N a, ∀ n, N ≤ n → o n = some a) :
    Settles (fun n ↦ (lift (o n) : Code ε σ α)) s := by
  obtain ⟨N, a, ha⟩ := h
  exact ⟨N, (.inr a, s), fun n hn ↦ congrArg (Option.map _) (ha n hn)⟩

/-- What follows a part settles from where the part ends. -/
theorem bind_of {x : ℕ → Code ε σ α} {f : ℕ → α → Code ε σ β} {Q : α → σ → Prop} {E : ε → σ → Prop}
    (hx : Settles x s) (hQ : ∀ n, Ends (x n) s Q E)
    (hf : ∀ a s', Q a s' → Settles (fun n ↦ f n a) s') : Settles (fun n ↦ x n >>= f n) s := by
  obtain ⟨N, ⟨e | a, s'⟩, hp⟩ := hx
  · exact ⟨N, (.inl e, s'), fun n hn ↦ congrArg (Option.bind · (andThen (f n))) (hp n hn)⟩
  · obtain ⟨M, q, hq⟩ := hf a s' (hQ N _ (hp N le_rfl))
    refine ⟨max N M, q, fun n hn ↦ ?_⟩
    have hfirst := congrArg (Option.bind · (andThen (f n))) (hp n ((le_max_left N M).trans hn))
    exact hfirst.trans (hq n ((le_max_right N M).trans hn))

theorem bind {x : ℕ → Code ε σ α} {f : ℕ → α → Code ε σ β} (hx : Settles x s)
    (hf : ∀ a s', Settles (fun n ↦ f n a) s') : Settles (fun n ↦ x n >>= f n) s :=
  hx.bind_of (fun _ ↦ Ends.trivial) fun a s' _ ↦ hf a s'

theorem ite {c : Prop} [Decidable c] {x y : ℕ → Code ε σ α} (hx : c → Settles x s)
    (hy : ¬ c → Settles y s) : Settles (fun n ↦ if c then x n else y n) s := by
  by_cases h : c
  · simpa only [if_pos h] using hx h
  · simpa only [if_neg h] using hy h

end Settles

end Code
