import Mathlib

/-!
# Sorting and removing duplicates

`std::sort` followed by `erase(unique(..))`: the ascending duplicate-free list of the
elements of a list.  Such a list is determined by its elements
(`List.SortedLT.eq_of_mem_iff`), so it can stand for a finite set.
-/

universe u

variable {α : Type u} [LinearOrder α]

/-- Drop every element that equals its successor, as `std::unique` does up to which
of the equal elements stays. -/
def unique : List α → List α
  | [] => []
  | [a] => [a]
  | a :: b :: l => if a = b then unique (b :: l) else a :: unique (b :: l)

/-- `std::sort`, then `std::unique`. -/
def sortUnique (l : List α) : List α := unique (l.insertionSort (· ≤ ·))

@[simp] theorem mem_unique {l : List α} {x : α} : x ∈ unique l ↔ x ∈ l := by
  fun_induction unique l with
  | case1 => rfl
  | case2 => rfl
  | case3 a l ih => rw [ih]; simp
  | case4 a b l h ih => rw [List.mem_cons, ih, List.mem_cons (a := x) (b := a)]

@[simp] theorem mem_sortUnique {l : List α} {x : α} : x ∈ sortUnique l ↔ x ∈ l := by
  rw [sortUnique, mem_unique, List.mem_insertionSort]

theorem sortedLT_unique {l : List α} (h : l.SortedLE) : (unique l).SortedLT := by
  rw [List.sortedLT_iff_pairwise]
  replace h := List.sortedLE_iff_pairwise.1 h
  fun_induction unique l with
  | case1 => exact List.Pairwise.nil
  | case2 a => exact List.pairwise_singleton _ a
  | case3 a l ih => exact ih (List.pairwise_cons.1 h).2
  | case4 a b l hne ih =>
      obtain ⟨ha, hl⟩ := List.pairwise_cons.1 h
      refine List.pairwise_cons.2 ⟨fun x hx ↦ ?_, ih hl⟩
      rw [mem_unique] at hx
      have hab : a < b := lt_of_le_of_ne (ha b (by simp)) hne
      rcases List.mem_cons.1 hx with rfl | hx
      · exact hab
      · exact lt_of_lt_of_le hab ((List.pairwise_cons.1 hl).1 x hx)

theorem sortedLT_sortUnique (l : List α) : (sortUnique l).SortedLT :=
  sortedLT_unique List.sortedLE_insertionSort

/-- Two lists with the same elements give the same set. -/
theorem sortUnique_congr {l l' : List α} (h : ∀ x, x ∈ l ↔ x ∈ l') :
    sortUnique l = sortUnique l' :=
  (sortedLT_sortUnique l).eq_of_mem_iff (sortedLT_sortUnique l') fun x ↦ by simp [h]
