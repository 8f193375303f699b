import LexCpp.Control.Ensures
import LexCpp.Control.Eval

/-!
# Total correctness of stateful code

`Returns x s Q`: `x` returns from `s`, and the result and the final state satisfy `Q`.
-/

universe u

variable {σ α β : Type u}

/-- `x` returns from `s`, and its result satisfies `Q`. -/
def Returns (x : StateT σ Option α) (s : σ) (Q : α → σ → Prop) : Prop :=
  ∃ a s', x s = some (a, s') ∧ Q a s'

variable {x y : StateT σ Option α} {s : σ} {Q R : α → σ → Prop}

theorem Returns.mono (h : Returns x s Q) (hQR : ∀ a s', Q a s' → R a s') : Returns x s R := by
  obtain ⟨a, s', hx, hQ⟩ := h
  exact ⟨a, s', hx, hQR a s' hQ⟩

/-- There is only one result. -/
theorem Returns.ensures (h : Returns x s Q) : Ensures x s Q := by
  obtain ⟨a, s', hx, hQ⟩ := h
  intro a' s'' hx'
  obtain ⟨rfl, rfl⟩ := Prod.mk.inj (Option.some.inj (hx.symm.trans hx'))
  exact hQ

theorem Returns.pure {a : α} (h : Q a s) : Returns (pure a) s Q := ⟨a, s, rfl, h⟩

theorem Returns.bind {z : StateT σ Option β} {f : β → StateT σ Option α} {M : β → σ → Prop}
    (hz : Returns z s M) (hf : ∀ b s', M b s' → Returns (f b) s' Q) : Returns (z >>= f) s Q := by
  obtain ⟨b, s', hz, hM⟩ := hz
  obtain ⟨a, s'', hf, hQ⟩ := hf b s' hM
  exact ⟨a, s'', (eval_bind_of hz).trans hf, hQ⟩

/-- A step whose result is known. -/
theorem Returns.step {z : StateT σ Option β} {f : β → StateT σ Option α} {b : β} {s' : σ}
    (hz : z s = some (b, s')) (hf : Returns (f b) s' Q) : Returns (z >>= f) s Q := by
  obtain ⟨a, s'', hf, hQ⟩ := hf
  exact ⟨a, s'', (eval_bind_of hz).trans hf, hQ⟩

theorem Returns.ite {c : Prop} [Decidable c] (hx : c → Returns x s Q) (hy : ¬ c → Returns y s Q) :
    Returns (if c then x else y) s Q := by
  split_ifs with h
  · exact hx h
  · exact hy h
