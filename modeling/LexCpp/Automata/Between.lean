import Mathlib

/-!
# Words read between two states of an ε-automaton

Mathlib's `εNFA.evalFrom` collects the states reached from a set by a word.
Constructions that splice automata together need the transposed view: for two
states `p` and `q`, the *language* of the words that lead from `p` to `q`.  This
file sets that view up.

The upper bound on such a language always comes from `between_induction`: attach
to every state a predicate on words, check it against each single edge, and
conclude for all paths at once.  No path is ever cut into pieces.  The lower
bounds come from `append_mem_between` and `between_mono`.
-/

universe u v

namespace εNFA

variable {α : Type u} {σ : Type v} {M M' : εNFA α σ}

/-- The words that lead from `p` to `q`. -/
def between (M : εNFA α σ) (p q : σ) : Language α :=
  {w | q ∈ M.evalFrom {p} w}

theorem mem_between {p q : σ} {w : List α} : w ∈ M.between p q ↔ q ∈ M.evalFrom {p} w := Iff.rfl

theorem mem_between_iff_exists_path {p q : σ} {w : List α} :
    w ∈ M.between p q ↔ ∃ x, x.reduceOption = w ∧ M.IsPath p q x :=
  M.mem_evalFrom_iff_exists_path

/-- The empty word leads from a state to itself. -/
theorem nil_mem_between (M : εNFA α σ) (p : σ) : [] ∈ M.between p p :=
  M.subset_εClosure {p} rfl

/-- An ε-edge reads the empty word. -/
theorem nil_mem_between_of_step {p q : σ} (h : q ∈ M.step p none) : [] ∈ M.between p q :=
  εClosure.step p q h (M.subset_εClosure {p} rfl)

/-- A labelled edge reads its label. -/
theorem singleton_mem_between_of_step {p q : σ} {a : α} (h : q ∈ M.step p (some a)) :
    [a] ∈ M.between p q :=
  mem_between_iff_exists_path.2 ⟨[some a], rfl, (M.isPath_singleton).2 h⟩

/-- Words compose along a common state. -/
theorem append_mem_between {p q r : σ} {u w : List α} (hu : u ∈ M.between p q)
    (hw : w ∈ M.between q r) : u ++ w ∈ M.between p r := by
  obtain ⟨x, rfl, hx⟩ := mem_between_iff_exists_path.1 hu
  obtain ⟨y, rfl, hy⟩ := mem_between_iff_exists_path.1 hw
  exact mem_between_iff_exists_path.2
    ⟨x ++ y, List.reduceOption_append x y, M.isPath_append.2 ⟨q, hx, hy⟩⟩

/-- Following one ε-edge at the end of a word. -/
theorem mem_between_of_step {p q r : σ} {w : List α} (hw : w ∈ M.between p q)
    (h : r ∈ M.step q none) : w ∈ M.between p r := by
  have := append_mem_between hw (nil_mem_between_of_step h)
  rwa [List.append_nil] at this

/-- Following one ε-edge at the beginning of a word. -/
theorem mem_between_of_step_left {p q r : σ} {w : List α} (h : q ∈ M.step p none)
    (hw : w ∈ M.between q r) : w ∈ M.between p r :=
  append_mem_between (nil_mem_between_of_step h) hw

/-- **The labelling rule.**  A predicate on states and words that holds at `p` of
the empty word and is carried along every edge holds of every word read from
`p`, at the state the word leads to. -/
theorem between_induction {p : σ} (P : σ → List α → Prop) (hp : P p [])
    (hε : ∀ x y w, y ∈ M.step x none → P x w → P y w)
    (hs : ∀ x a y w, y ∈ M.step x (some a) → P x w → P y (w ++ [a])) {q : σ} {w : List α}
    (hw : w ∈ M.between p q) : P q w := by
  have hcl : ∀ (S : Set σ) (w : List α), (∀ x ∈ S, P x w) → ∀ x ∈ M.εClosure S, P x w := by
    intro S w h x hx
    induction hx with
    | base x hx => exact h x hx
    | step x y hy _ ih => exact hε x y w hy ih
  rw [mem_between] at hw
  induction w using List.reverseRecOn generalizing q with
  | nil => exact hcl {p} [] (by rintro x rfl; exact hp) q hw
  | append_singleton w a ih =>
      rw [evalFrom_append_singleton, mem_stepSet_iff] at hw
      obtain ⟨x, hx, hq⟩ := hw
      exact hcl (M.step x (some a)) (w ++ [a]) (fun y hy ↦ hs x a y w hy (ih hx)) q hq

/-- More edges read more words. -/
theorem between_mono (h : ∀ x l, M.step x l ⊆ M'.step x l) {p q : σ} {w : List α}
    (hw : w ∈ M.between p q) : w ∈ M'.between p q := by
  refine between_induction (fun x w ↦ w ∈ M'.between p x) (M'.nil_mem_between p) ?_ ?_ hw
  · intro x y w hy hw
    exact mem_between_of_step hw (h _ _ hy)
  · intro x a y w hy hw
    exact append_mem_between hw (singleton_mem_between_of_step (h _ _ hy))

/-! ## States that nothing enters -/

/-- Such a state is reached from itself only, and by the empty word only. -/
theorem eq_nil_of_notMem_step {x : σ} (h : ∀ y l, x ∉ M.step y l) {p : σ} {w : List α}
    (hw : w ∈ M.between p x) : p = x ∧ w = [] := by
  refine between_induction (fun y w ↦ y = x → p = x ∧ w = []) (fun hp ↦ ⟨hp, rfl⟩) ?_ ?_ hw rfl
  · rintro y z w hz - rfl
    exact absurd hz (h y none)
  · rintro y a z w hz - rfl
    exact absurd hz (h y (some a))

/-- `M'` is `M` with an ε-edge to `s` from each of the states `E`, which nothing
enters. -/
structure Attach (M M' : εNFA α σ) (E : Set σ) (s : σ) : Prop where
  notMem_step : ∀ x ∈ E, ∀ y l, x ∉ M.step y l
  target_notMem : s ∉ E
  step_iff : ∀ x l y, y ∈ M'.step x l ↔ y ∈ M.step x l ∨ (l = none ∧ x ∈ E ∧ y = s)

/-- The attached states gain the words read from `s`; no other state gains any. -/
theorem Attach.mem_between {E : Set σ} {s : σ} (h : Attach M M' E s) {p q : σ} {w : List α} :
    w ∈ M'.between p q ↔ w ∈ M.between p q ∨ (p ∈ E ∧ w ∈ M.between s q) := by
  have hle : ∀ x l, M.step x l ⊆ M'.step x l := fun x l y hy ↦ (h.step_iff x l y).2 (Or.inl hy)
  constructor
  · intro hw
    refine between_induction (fun x w ↦ w ∈ M.between p x ∨ (p ∈ E ∧ w ∈ M.between s x))
      (Or.inl (M.nil_mem_between p)) ?_ ?_ hw
    · intro x y w hy hP
      rcases (h.step_iff x none y).1 hy with hy | ⟨-, hx, rfl⟩
      · exact hP.imp (mem_between_of_step · hy) (And.imp_right (mem_between_of_step · hy))
      · rcases hP with hw | ⟨-, hw⟩
        · obtain ⟨rfl, rfl⟩ := eq_nil_of_notMem_step (h.notMem_step x hx) hw
          exact Or.inr ⟨hx, M.nil_mem_between y⟩
        · obtain ⟨rfl, -⟩ := eq_nil_of_notMem_step (h.notMem_step x hx) hw
          exact absurd hx h.target_notMem
    · intro x a y w hy hP
      rcases (h.step_iff x (some a) y).1 hy with hy | ⟨hl, -⟩
      · have hy := singleton_mem_between_of_step hy
        exact hP.imp (append_mem_between · hy) (And.imp_right (append_mem_between · hy))
      · cases hl
  · rintro (hw | ⟨hp, hw⟩)
    · exact between_mono hle hw
    · exact mem_between_of_step_left ((h.step_iff _ _ _).2 (Or.inr ⟨rfl, hp, rfl⟩))
        (between_mono hle hw)

/-! ## Closed regions -/

/-- A set of states that no edge leaves. -/
def Closed (M : εNFA α σ) (A : Set σ) : Prop := ∀ x ∈ A, ∀ l, M.step x l ⊆ A

/-- A word never leaves a closed region. -/
theorem Closed.mem_of_mem_between {A : Set σ} (hA : M.Closed A) {p q : σ} (hp : p ∈ A)
    {w : List α} (hw : w ∈ M.between p q) : q ∈ A :=
  between_induction (fun x _ ↦ x ∈ A) hp (fun x _ _ hy hx ↦ hA x hx _ hy)
    (fun x _ _ _ hy hx ↦ hA x hx _ hy) hw

/-- Edges that agree inside a closed region read the same words there: one
inclusion. -/
theorem mem_between_of_closed {A : Set σ} (hA : M.Closed A)
    (h : ∀ x ∈ A, ∀ l, M.step x l ⊆ M'.step x l) {p q : σ} (hp : p ∈ A) {w : List α}
    (hw : w ∈ M.between p q) : w ∈ M'.between p q := by
  refine (between_induction (fun x w ↦ x ∈ A ∧ w ∈ M'.between p x)
    ⟨hp, M'.nil_mem_between p⟩ ?_ ?_ hw).2
  · rintro x y w hy ⟨hx, hw⟩
    exact ⟨hA x hx _ hy, mem_between_of_step hw (h x hx none hy)⟩
  · rintro x a y w hy ⟨hx, hw⟩
    exact ⟨hA x hx _ hy,
      append_mem_between hw (singleton_mem_between_of_step (h x hx (some a) hy))⟩

/-- Two automata with the same edges inside a closed region read the same words
there. -/
theorem between_congr {A : Set σ} (hA : M.Closed A) (h : ∀ x ∈ A, ∀ l, M'.step x l = M.step x l)
    {p : σ} (hp : p ∈ A) (q : σ) : M'.between p q = M.between p q := by
  have hA' : M'.Closed A := fun x hx l ↦ (h x hx l).subset.trans (hA x hx l)
  ext w
  exact ⟨mem_between_of_closed hA' (fun x hx l ↦ (h x hx l).subset) hp,
    mem_between_of_closed hA (fun x hx l ↦ (h x hx l).superset) hp⟩

end εNFA
