import LexCpp.Automata.Between

/-!
# Splicing closed regions of an ε-automaton

Thompson's construction builds the automaton of a compound expression inside one
growing state set: the parts occupy disjoint closed regions, and joining them adds
a few ε-edges.  Each structure here relates an automaton `M` to the automaton `M'`
that has those extra edges, and its theorems read off the languages from the new
entry to *every* state of the parts, not only to the new exit.  The finer
statement is what lets a marker in the middle of an expression be located.

| joined as | extra ε-edges | from the entry to the exit |
|---|---|---|
| `Sequence` | `e → s'` | `L * L'` |
| `Choice` | `s → a`, `s → b`, `a' → e`, `b' → e` | `L + L'` |
| `Wrap` | `s → a`, `a' → e`, maybe `s → e`, maybe `a' → a` | `L∗`, `L * L∗`, `1 + L` |
-/

universe u v

open Computability

namespace εNFA

variable {α : Type u} {σ : Type v} {M M' : εNFA α σ} {A B : Set σ}

/-! ## Sequence -/

/-- `M'` is `M` with one ε-edge from the exit `e` of the region `A` to the entry
`s'` of the region `B`. -/
structure Sequence (M M' : εNFA α σ) (A B : Set σ) (s e s' : σ) : Prop where
  closed_left : M.Closed A
  closed_right : M.Closed B
  disjoint : Disjoint A B
  entry_mem : s ∈ A
  exit_mem : e ∈ A
  next_mem : s' ∈ B
  step_iff : ∀ x l y, y ∈ M'.step x l ↔ y ∈ M.step x l ∨ (l = none ∧ x = e ∧ y = s')

namespace Sequence

variable {s e s' : σ}

theorem le (h : Sequence M M' A B s e s') (x : σ) (l : Option α) : M.step x l ⊆ M'.step x l :=
  fun y hy ↦ (h.step_iff x l y).2 (Or.inl hy)

/-- Where a word read from the entry leads, and how it splits. -/
theorem mem_cases (h : Sequence M M' A B s e s') {q : σ} {w : List α} (hw : w ∈ M'.between s q) :
    (q ∈ A ∧ w ∈ M.between s q) ∨ (q ∈ B ∧ w ∈ M.between s e * M.between s' q) := by
  refine between_induction
    (fun x w ↦ (x ∈ A ∧ w ∈ M.between s x) ∨ (x ∈ B ∧ w ∈ M.between s e * M.between s' x))
    (Or.inl ⟨h.entry_mem, M.nil_mem_between s⟩) ?_ ?_ hw
  · rintro x y w hy (⟨hx, hw⟩ | ⟨hx, hw⟩)
    · rcases (h.step_iff x none y).1 hy with hy | ⟨-, rfl, rfl⟩
      · exact Or.inl ⟨h.closed_left x hx _ hy, mem_between_of_step hw hy⟩
      · exact Or.inr ⟨h.next_mem,
          Language.mem_mul.2 ⟨w, hw, [], M.nil_mem_between y, w.append_nil⟩⟩
    · rcases (h.step_iff x none y).1 hy with hy | ⟨-, rfl, rfl⟩
      · obtain ⟨u, hu, v, hv, rfl⟩ := Language.mem_mul.1 hw
        exact Or.inr ⟨h.closed_right x hx _ hy,
          Language.append_mem_mul hu (mem_between_of_step hv hy)⟩
      · exact absurd hx (Set.disjoint_left.1 h.disjoint h.exit_mem)
  · rintro x a y w hy (⟨hx, hw⟩ | ⟨hx, hw⟩)
    · rcases (h.step_iff x (some a) y).1 hy with hy | ⟨hl, -⟩
      · exact Or.inl ⟨h.closed_left x hx _ hy,
          append_mem_between hw (singleton_mem_between_of_step hy)⟩
      · cases hl
    · rcases (h.step_iff x (some a) y).1 hy with hy | ⟨hl, -⟩
      · obtain ⟨u, hu, v, hv, rfl⟩ := Language.mem_mul.1 hw
        rw [List.append_assoc]
        exact Or.inr ⟨h.closed_right x hx _ hy, Language.append_mem_mul hu
          (append_mem_between hv (singleton_mem_between_of_step hy))⟩
      · cases hl

/-- Inside the first part nothing changes. -/
theorem between_left (h : Sequence M M' A B s e s') {q : σ} (hq : q ∈ A) :
    M'.between s q = M.between s q := by
  ext w
  refine ⟨fun hw ↦ ?_, between_mono h.le⟩
  rcases h.mem_cases hw with ⟨-, hw⟩ | ⟨hB, -⟩
  · exact hw
  · exact absurd hB (Set.disjoint_left.1 h.disjoint hq)

/-- The second part is read after a word of the first. -/
theorem between_right (h : Sequence M M' A B s e s') {q : σ} (hq : q ∈ B) :
    M'.between s q = M.between s e * M.between s' q := by
  ext w
  constructor
  · intro hw
    rcases h.mem_cases hw with ⟨hA, -⟩ | ⟨-, hw⟩
    · exact absurd hq (Set.disjoint_left.1 h.disjoint hA)
    · exact hw
  · intro hw
    obtain ⟨u, hu, v, hv, rfl⟩ := Language.mem_mul.1 hw
    have hmid : u ∈ M'.between s s' :=
      mem_between_of_step (between_mono h.le hu) ((h.step_iff _ _ _).2 (Or.inr ⟨rfl, rfl, rfl⟩))
    exact append_mem_between hmid (between_mono h.le hv)

end Sequence

/-! ## Choice -/

/-- `M'` joins the regions `A` (entry `a`, exit `a'`) and `B` (entry `b`, exit `b'`)
between a fresh entry `s` and a fresh exit `e`. -/
structure Choice (M M' : εNFA α σ) (A B : Set σ) (a a' b b' s e : σ) : Prop where
  closed_left : M.Closed A
  closed_right : M.Closed B
  disjoint : Disjoint A B
  left_mem : a ∈ A
  left_exit_mem : a' ∈ A
  right_mem : b ∈ B
  right_exit_mem : b' ∈ B
  entry_notMem : s ∉ A ∧ s ∉ B
  exit_notMem : e ∉ A ∧ e ∉ B
  entry_ne_exit : s ≠ e
  entry_step : ∀ l, M.step s l = ∅
  exit_step : ∀ l, M.step e l = ∅
  step_iff : ∀ x l y, y ∈ M'.step x l ↔ y ∈ M.step x l ∨ (l = none ∧
    ((x = s ∧ (y = a ∨ y = b)) ∨ ((x = a' ∨ x = b') ∧ y = e)))

namespace Choice

variable {a a' b b' s e : σ}

theorem le (h : Choice M M' A B a a' b b' s e) (x : σ) (l : Option α) :
    M.step x l ⊆ M'.step x l := fun y hy ↦ (h.step_iff x l y).2 (Or.inl hy)

/-- Where a word read from the entry leads. -/
theorem mem_cases (h : Choice M M' A B a a' b b' s e) {q : σ} {w : List α}
    (hw : w ∈ M'.between s q) : (q = s ∧ w = []) ∨ (q ∈ A ∧ w ∈ M.between a q) ∨
      (q ∈ B ∧ w ∈ M.between b q) ∨ (q = e ∧ w ∈ M.between a a' + M.between b b') := by
  have hsA := h.entry_notMem.1
  have hsB := h.entry_notMem.2
  have heA := h.exit_notMem.1
  have heB := h.exit_notMem.2
  refine between_induction
    (fun x w ↦ (x = s ∧ w = []) ∨ (x ∈ A ∧ w ∈ M.between a x) ∨
      (x ∈ B ∧ w ∈ M.between b x) ∨ (x = e ∧ w ∈ M.between a a' + M.between b b'))
    (Or.inl ⟨rfl, rfl⟩) ?_ ?_ hw
  · intro x y w hy hP
    rcases (h.step_iff x none y).1 hy with hy | ⟨-, ⟨rfl, rfl | rfl⟩ | ⟨rfl | rfl, rfl⟩⟩
    · rcases hP with ⟨rfl, rfl⟩ | ⟨hx, hw⟩ | ⟨hx, hw⟩ | ⟨rfl, hw⟩
      · exact absurd hy (by simp [h.entry_step])
      · exact Or.inr (Or.inl ⟨h.closed_left x hx _ hy, mem_between_of_step hw hy⟩)
      · exact Or.inr (Or.inr (Or.inl ⟨h.closed_right x hx _ hy, mem_between_of_step hw hy⟩))
      · exact absurd hy (by simp [h.exit_step])
    · rcases hP with ⟨-, rfl⟩ | ⟨hx, -⟩ | ⟨hx, -⟩ | ⟨hx, -⟩
      · exact Or.inr (Or.inl ⟨h.left_mem, M.nil_mem_between y⟩)
      · exact absurd hx hsA
      · exact absurd hx hsB
      · exact absurd hx h.entry_ne_exit
    · rcases hP with ⟨-, rfl⟩ | ⟨hx, -⟩ | ⟨hx, -⟩ | ⟨hx, -⟩
      · exact Or.inr (Or.inr (Or.inl ⟨h.right_mem, M.nil_mem_between y⟩))
      · exact absurd hx hsA
      · exact absurd hx hsB
      · exact absurd hx h.entry_ne_exit
    · rcases hP with ⟨rfl, -⟩ | ⟨-, hw⟩ | ⟨hx, -⟩ | ⟨rfl, -⟩
      · exact absurd h.left_exit_mem hsA
      · exact Or.inr (Or.inr (Or.inr ⟨rfl, Or.inl hw⟩))
      · exact absurd hx (Set.disjoint_left.1 h.disjoint h.left_exit_mem)
      · exact absurd h.left_exit_mem heA
    · rcases hP with ⟨rfl, -⟩ | ⟨hx, -⟩ | ⟨-, hw⟩ | ⟨rfl, -⟩
      · exact absurd h.right_exit_mem hsB
      · exact absurd h.right_exit_mem (Set.disjoint_left.1 h.disjoint hx)
      · exact Or.inr (Or.inr (Or.inr ⟨rfl, Or.inr hw⟩))
      · exact absurd h.right_exit_mem heB
  · intro x c y w hy hP
    rcases (h.step_iff x (some c) y).1 hy with hy | ⟨hl, -⟩
    · rcases hP with ⟨rfl, rfl⟩ | ⟨hx, hw⟩ | ⟨hx, hw⟩ | ⟨rfl, hw⟩
      · exact absurd hy (by simp [h.entry_step])
      · exact Or.inr (Or.inl ⟨h.closed_left x hx _ hy,
          append_mem_between hw (singleton_mem_between_of_step hy)⟩)
      · exact Or.inr (Or.inr (Or.inl ⟨h.closed_right x hx _ hy,
          append_mem_between hw (singleton_mem_between_of_step hy)⟩))
      · exact absurd hy (by simp [h.exit_step])
    · cases hl

/-- A state of the first part is reached by the words its own entry reads. -/
theorem between_left (h : Choice M M' A B a a' b b' s e) {q : σ} (hq : q ∈ A) :
    M'.between s q = M.between a q := by
  ext w
  refine ⟨fun hw ↦ ?_, fun hw ↦ mem_between_of_step_left
    ((h.step_iff _ _ _).2 (Or.inr ⟨rfl, Or.inl ⟨rfl, Or.inl rfl⟩⟩)) (between_mono h.le hw)⟩
  rcases h.mem_cases hw with ⟨rfl, -⟩ | ⟨-, hw⟩ | ⟨hB, -⟩ | ⟨rfl, -⟩
  · exact absurd hq h.entry_notMem.1
  · exact hw
  · exact absurd hB (Set.disjoint_left.1 h.disjoint hq)
  · exact absurd hq h.exit_notMem.1

/-- A state of the second part is reached by the words its own entry reads. -/
theorem between_right (h : Choice M M' A B a a' b b' s e) {q : σ} (hq : q ∈ B) :
    M'.between s q = M.between b q := by
  ext w
  refine ⟨fun hw ↦ ?_, fun hw ↦ mem_between_of_step_left
    ((h.step_iff _ _ _).2 (Or.inr ⟨rfl, Or.inl ⟨rfl, Or.inr rfl⟩⟩)) (between_mono h.le hw)⟩
  rcases h.mem_cases hw with ⟨rfl, -⟩ | ⟨hA, -⟩ | ⟨-, hw⟩ | ⟨rfl, -⟩
  · exact absurd hq h.entry_notMem.2
  · exact absurd hq (Set.disjoint_left.1 h.disjoint hA)
  · exact hw
  · exact absurd hq h.exit_notMem.2

/-- The exit is reached by the words of either part. -/
theorem between_exit (h : Choice M M' A B a a' b b' s e) :
    M'.between s e = M.between a a' + M.between b b' := by
  ext w
  constructor
  · intro hw
    rcases h.mem_cases hw with ⟨he, -⟩ | ⟨hA, -⟩ | ⟨hB, -⟩ | ⟨-, hw⟩
    · exact absurd he.symm h.entry_ne_exit
    · exact absurd hA h.exit_notMem.1
    · exact absurd hB h.exit_notMem.2
    · exact hw
  · rintro (hw | hw)
    · rw [← h.between_left h.left_exit_mem] at hw
      exact mem_between_of_step hw ((h.step_iff _ _ _).2 (Or.inr ⟨rfl, Or.inr ⟨Or.inl rfl, rfl⟩⟩))
    · rw [← h.between_right h.right_exit_mem] at hw
      exact mem_between_of_step hw ((h.step_iff _ _ _).2 (Or.inr ⟨rfl, Or.inr ⟨Or.inr rfl, rfl⟩⟩))

end Choice

/-! ## Wrapping: star, plus and question -/

/-- The words that come before the last pass through a wrapped part. -/
def loopWords (back : Bool) (L : Language α) : Language α := if back then L∗ else 1

@[simp] theorem loopWords_true (L : Language α) : loopWords true L = L∗ := rfl
@[simp] theorem loopWords_false (L : Language α) : loopWords false L = 1 := rfl

theorem nil_mem_loopWords (back : Bool) (L : Language α) : [] ∈ loopWords back L := by
  cases back
  · exact Language.nil_mem_one
  · exact Language.nil_mem_kstar L

/-- `M'` puts a fresh entry `s` and a fresh exit `e` around the region `A` (entry
`a`, exit `a'`); `skip` adds `s → e` and `back` adds `a' → a`. -/
structure Wrap (M M' : εNFA α σ) (A : Set σ) (a a' s e : σ) (skip back : Bool) : Prop where
  closed : M.Closed A
  left_mem : a ∈ A
  left_exit_mem : a' ∈ A
  entry_notMem : s ∉ A
  exit_notMem : e ∉ A
  entry_ne_exit : s ≠ e
  entry_step : ∀ l, M.step s l = ∅
  exit_step : ∀ l, M.step e l = ∅
  step_iff : ∀ x l y, y ∈ M'.step x l ↔ y ∈ M.step x l ∨ (l = none ∧
    ((x = s ∧ y = a) ∨ (x = a' ∧ y = e) ∨ (skip = true ∧ x = s ∧ y = e) ∨
      (back = true ∧ x = a' ∧ y = a)))

namespace Wrap

variable {a a' s e : σ} {skip back : Bool}

theorem le (h : Wrap M M' A a a' s e skip back) (x : σ) (l : Option α) :
    M.step x l ⊆ M'.step x l := fun y hy ↦ (h.step_iff x l y).2 (Or.inl hy)

/-- Where a word read from the entry leads. -/
theorem mem_cases (h : Wrap M M' A a a' s e skip back) {q : σ} {w : List α}
    (hw : w ∈ M'.between s q) : (q = s ∧ w = []) ∨
      (q ∈ A ∧ w ∈ loopWords back (M.between a a') * M.between a q) ∨
      (q = e ∧ ((skip = true ∧ w = []) ∨
        w ∈ loopWords back (M.between a a') * M.between a a')) := by
  refine between_induction
    (fun x w ↦ (x = s ∧ w = []) ∨
      (x ∈ A ∧ w ∈ loopWords back (M.between a a') * M.between a x) ∨
      (x = e ∧ ((skip = true ∧ w = []) ∨ w ∈ loopWords back (M.between a a') * M.between a a')))
    (Or.inl ⟨rfl, rfl⟩) ?_ ?_ hw
  · intro x y w hy hP
    rcases (h.step_iff x none y).1 hy with hy | ⟨-, ⟨rfl, rfl⟩ | ⟨rfl, rfl⟩ | ⟨hk, rfl, rfl⟩ |
      ⟨hb, rfl, rfl⟩⟩
    · rcases hP with ⟨rfl, rfl⟩ | ⟨hx, hw⟩ | ⟨rfl, -⟩
      · exact absurd hy (by simp [h.entry_step])
      · obtain ⟨u, hu, v, hv, rfl⟩ := Language.mem_mul.1 hw
        exact Or.inr (Or.inl ⟨h.closed x hx _ hy,
          Language.append_mem_mul hu (mem_between_of_step hv hy)⟩)
      · exact absurd hy (by simp [h.exit_step])
    · rcases hP with ⟨-, rfl⟩ | ⟨hx, -⟩ | ⟨hx, -⟩
      · exact Or.inr (Or.inl ⟨h.left_mem,
          Language.append_mem_mul (nil_mem_loopWords _ _) (M.nil_mem_between y)⟩)
      · exact absurd hx h.entry_notMem
      · exact absurd hx h.entry_ne_exit
    · rcases hP with ⟨rfl, -⟩ | ⟨-, hw⟩ | ⟨rfl, -⟩
      · exact absurd h.left_exit_mem h.entry_notMem
      · exact Or.inr (Or.inr ⟨rfl, Or.inr hw⟩)
      · exact absurd h.left_exit_mem h.exit_notMem
    · rcases hP with ⟨-, rfl⟩ | ⟨hx, -⟩ | ⟨hx, -⟩
      · exact Or.inr (Or.inr ⟨rfl, Or.inl ⟨hk, rfl⟩⟩)
      · exact absurd hx h.entry_notMem
      · exact absurd hx h.entry_ne_exit
    · subst hb
      rcases hP with ⟨rfl, -⟩ | ⟨-, hw⟩ | ⟨rfl, -⟩
      · exact absurd h.left_exit_mem h.entry_notMem
      · -- Going back closes one more pass.
        refine Or.inr (Or.inl ⟨h.left_mem, Language.mem_mul.2
          ⟨w, ?_, [], M.nil_mem_between y, w.append_nil⟩⟩)
        exact kstar_mul_le_kstar (a := M.between y x) hw
      · exact absurd h.left_exit_mem h.exit_notMem
  · intro x c y w hy hP
    rcases (h.step_iff x (some c) y).1 hy with hy | ⟨hl, -⟩
    · rcases hP with ⟨rfl, rfl⟩ | ⟨hx, hw⟩ | ⟨rfl, -⟩
      · exact absurd hy (by simp [h.entry_step])
      · obtain ⟨u, hu, v, hv, rfl⟩ := Language.mem_mul.1 hw
        rw [List.append_assoc]
        exact Or.inr (Or.inl ⟨h.closed x hx _ hy, Language.append_mem_mul hu
          (append_mem_between hv (singleton_mem_between_of_step hy))⟩)
      · exact absurd hy (by simp [h.exit_step])
    · cases hl

/-- Every sequence of complete passes leads from the fresh entry to the start of
the wrapped part. -/
theorem mem_of_loopWords (h : Wrap M M' A a a' s e skip back) {w : List α}
    (hw : w ∈ loopWords back (M.between a a')) : w ∈ M'.between s a := by
  have hin : [] ∈ M'.between s a :=
    nil_mem_between_of_step ((h.step_iff _ _ _).2 (Or.inr ⟨rfl, Or.inl ⟨rfl, rfl⟩⟩))
  cases back with
  | false =>
      rw [loopWords_false, Language.mem_one] at hw
      exact hw ▸ hin
  | true =>
      obtain ⟨ws, rfl, hws⟩ := Language.mem_kstar.1 hw
      clear hw
      induction ws using List.reverseRecOn with
      | nil => exact hin
      | append_singleton ws v ih =>
          rw [List.flatten_append, List.flatten_singleton]
          have hws' : ∀ y ∈ ws, y ∈ M.between a a' := fun y hy ↦ hws y (by simp [hy])
          have hv : v ∈ M'.between a a' := between_mono h.le (hws v (by simp))
          have hback : a ∈ M'.step a' none :=
            (h.step_iff _ _ _).2 (Or.inr ⟨rfl, Or.inr (Or.inr (Or.inr ⟨rfl, rfl, rfl⟩))⟩)
          exact append_mem_between (ih hws')
            (mem_between_of_step hv hback)

/-- A state of the wrapped part is reached after complete passes and a partial
one. -/
theorem between_inner (h : Wrap M M' A a a' s e skip back) {q : σ} (hq : q ∈ A) :
    M'.between s q = loopWords back (M.between a a') * M.between a q := by
  ext w
  constructor
  · intro hw
    rcases h.mem_cases hw with ⟨rfl, -⟩ | ⟨-, hw⟩ | ⟨rfl, -⟩
    · exact absurd hq h.entry_notMem
    · exact hw
    · exact absurd hq h.exit_notMem
  · intro hw
    obtain ⟨u, hu, v, hv, rfl⟩ := Language.mem_mul.1 hw
    exact append_mem_between (h.mem_of_loopWords hu) (between_mono h.le hv)

/-- The exit is reached by at least one complete pass, or at once if the wrapping
may be skipped. -/
theorem between_exit (h : Wrap M M' A a a' s e skip back) :
    M'.between s e =
      (if skip then 1 else 0) + loopWords back (M.between a a') * M.between a a' := by
  ext w
  constructor
  · intro hw
    rcases h.mem_cases hw with ⟨he, -⟩ | ⟨hA, -⟩ | ⟨-, ⟨hk, rfl⟩ | hw⟩
    · exact absurd he.symm h.entry_ne_exit
    · exact absurd hA h.exit_notMem
    · exact Or.inl (by rw [if_pos hk]; exact Language.nil_mem_one)
    · exact Or.inr hw
  · rintro (hw | hw)
    · cases skip with
      | false => exact absurd hw (Language.notMem_zero w)
      | true =>
          obtain rfl : w = [] := hw
          exact nil_mem_between_of_step
            ((h.step_iff _ _ _).2 (Or.inr ⟨rfl, Or.inr (Or.inr (Or.inl ⟨rfl, rfl, rfl⟩))⟩))
    · have hw' : w ∈ M'.between s a' := by rw [h.between_inner h.left_exit_mem]; exact hw
      exact mem_between_of_step hw' ((h.step_iff _ _ _).2 (Or.inr ⟨rfl, Or.inr (Or.inl ⟨rfl, rfl⟩)⟩))

end Wrap

end εNFA
