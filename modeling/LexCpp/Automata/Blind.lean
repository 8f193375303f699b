import Mathlib

/-!
# Languages that cannot tell letters apart

A language is blind to `f` if it contains with a word every word of the same letters up to `f`.
-/

universe u v

variable {α : Type u} {β : Type v} {f : α → β} {L M : Language α}

/-- Words with the same image under `f` are both in the language or both not. -/
def Blind (f : α → β) (L : Language α) : Prop :=
  ∀ u v : List α, u.map f = v.map f → u ∈ L → v ∈ L

namespace Blind

theorem mem_iff (h : Blind f L) {u v : List α} (huv : u.map f = v.map f) : u ∈ L ↔ v ∈ L :=
  ⟨h u v huv, h v u huv.symm⟩

theorem zero : Blind f (0 : Language α) := fun _ _ _ hu ↦ absurd hu (Language.notMem_zero _)

theorem one : Blind f (1 : Language α) := by
  intro u v huv hu
  rw [Language.mem_one] at hu ⊢
  subst hu
  exact List.map_eq_nil_iff.1 huv.symm

/-- A language of single letters. -/
theorem letters {P : α → Prop} (hP : ∀ a b, f a = f b → P a → P b) :
    Blind f {w | ∃ a, P a ∧ w = [a]} := by
  rintro u v huv ⟨a, ha, rfl⟩
  obtain ⟨b, rest, rfl, hb, hrest⟩ := List.map_eq_cons_iff.1 huv.symm
  obtain rfl := List.map_eq_nil_iff.1 hrest
  exact ⟨b, hP a b hb.symm ha, rfl⟩

theorem add (hL : Blind f L) (hM : Blind f M) : Blind f (L + M) := by
  intro u v huv hu
  rw [Language.mem_add] at hu ⊢
  exact hu.imp (hL u v huv) (hM u v huv)

theorem mul (hL : Blind f L) (hM : Blind f M) : Blind f (L * M) := by
  intro u v huv hu
  obtain ⟨a, ha, b, hb, rfl⟩ := Language.mem_mul.1 hu
  rw [List.map_append] at huv
  obtain ⟨c, d, rfl, hc, hd⟩ := List.map_eq_append_iff.1 huv.symm
  exact Language.append_mem_mul (hL a c hc.symm ha) (hM b d hd.symm hb)

theorem pow (hL : Blind f L) (n : ℕ) : Blind f (L ^ n) := by
  induction n with
  | zero =>
      rw [pow_zero]
      exact one
  | succ n ih =>
      rw [pow_succ]
      exact ih.mul hL

theorem iUnion {ι : Type*} {L : ι → Language α} (h : ∀ i, Blind f (L i)) :
    Blind f {w | ∃ i, w ∈ L i} := fun u v huv hu ↦ hu.imp fun i ↦ h i u v huv

theorem kstar (hL : Blind f L) : Blind f (KStar.kstar L) := by
  intro u v huv hu
  rw [Language.kstar_eq_iSup_pow, Language.mem_iSup] at hu ⊢
  exact hu.imp fun n ↦ hL.pow n u v huv

end Blind
