import Mathlib

/-!
# Lists of rows in one array

Two ways to lay a list of rows out in one array, and to read a row back: rows of
different lengths behind a table of offsets (`pool`), and rows of one length end to
end (`rows2d`).
-/

universe u

variable {α : Type u}

/-! ## Offsets and pool -/

/-- The offsets at which the rows start, with the end of the last one, and the rows end
to end. -/
def pool (rows : List (List α)) : List Nat × List α :=
  let (off, pool) := rows.foldl (fun (acc : List Nat × List α) row ↦
    (acc.1 ++ [acc.2.length], acc.2 ++ row)) ([], [])
  (off ++ [pool.length], pool)

/-- Row `s`, read entry by entry between its two offsets. -/
def poolRow (off : List Nat) (pool : List α) (s : Nat) (d : α) : List α :=
  (List.range (off.getD (s + 1) 0 - off.getD s 0)).map fun i ↦ pool.getD (off.getD s 0 + i) d

theorem pool_eq (rows : List (List α)) : pool rows =
    ((List.range (rows.length + 1)).map fun i ↦ (rows.take i).flatten.length, rows.flatten) := by
  have hfold : rows.foldl (fun (acc : List Nat × List α) row ↦
      (acc.1 ++ [acc.2.length], acc.2 ++ row)) ([], []) =
      ((List.range rows.length).map fun i ↦ (rows.take i).flatten.length, rows.flatten) := by
    induction rows using List.reverseRecOn with
    | nil => rfl
    | append_singleton rows row ih =>
        rw [List.foldl_append, ih, List.foldl_cons, List.foldl_nil, List.length_append, List.length_singleton, List.range_succ,
          List.map_append, List.flatten_append]
        refine Prod.ext (congrArg₂ (· ++ ·) (List.map_congr_left fun i hi ↦ ?_) ?_) (by simp)
        · rw [List.take_append_of_le_length (Nat.le_of_lt (List.mem_range.1 hi))]
        · simp
  rw [pool, hfold, List.range_succ, List.map_append]
  simp only [List.map_cons, List.map_nil, List.take_length]

/-- **Reading a row back.** -/
theorem poolRow_pool (rows : List (List α)) (d : α) (tail : List α) {s : Nat} {row : List α}
    (hs : rows[s]? = some row) : poolRow (pool rows).1 ((pool rows).2 ++ tail) s d = row := by
  obtain ⟨hlt, rfl⟩ := List.getElem?_eq_some_iff.1 hs
  have hoff : ∀ i ≤ rows.length, (pool rows).1.getD i 0 = (rows.take i).flatten.length := by
    intro i hi
    rw [pool_eq, List.getD_eq_getElem _ _ (by simpa using Nat.lt_succ_of_le hi)]
    simp
  have hsplit : rows.flatten = (rows.take s).flatten ++ (rows[s] ++ (rows.drop (s + 1)).flatten) := by
    rw [← List.flatten_cons, ← List.drop_eq_getElem_cons hlt, ← List.flatten_append,
      List.take_append_drop]
  have hlen : (rows.take (s + 1)).flatten.length = (rows.take s).flatten.length + rows[s].length := by
    rw [List.take_succ_eq_append_getElem hlt, List.flatten_append, List.length_append]
    simp
  rw [poolRow, hoff s (Nat.le_of_lt hlt), hoff (s + 1) hlt, hlen, Nat.add_sub_cancel_left]
  refine List.ext_getElem (by simp) fun i hi _ ↦ ?_
  rw [List.length_map, List.length_range] at hi
  rw [List.getElem_map, List.getElem_range, pool_eq, hsplit, List.append_assoc,
    List.getD_append_right _ _ _ _ (Nat.le_add_right _ _), Nat.add_sub_cancel_left,
    List.append_assoc, List.getD_append _ _ _ _ hi, List.getD_eq_getElem _ _ hi]

/-! ## Rows of one length -/

/-- `rows` rows of `cols` values each, cut from one list. -/
def rows2d (rows cols : Nat) (values : List α) (d : α) : List (List α) :=
  (List.range rows).map fun r ↦ (List.range cols).map fun c ↦ values.getD (r * cols + c) d

theorem getD_rows2d {rows cols : Nat} (values : List α) (d d' : α) {r c : Nat} (hr : r < rows)
    (hc : c < cols) :
    ((rows2d rows cols values d).getD r []).getD c d' = values.getD (r * cols + c) d := by
  simp [rows2d, hr, hc]

/-- Rows of one length, written end to end, are found again. -/
theorem getD_flatten (l : List (List α)) {cols : Nat} (h : ∀ row ∈ l, row.length = cols) (d : α)
    {r c : Nat} {row : List α} (hr : l[r]? = some row) (hc : c < cols) :
    l.flatten.getD (r * cols + c) d = row.getD c d := by
  induction l generalizing r with
  | nil => simp at hr
  | cons a l ih =>
      have ha := h a List.mem_cons_self
      rw [List.flatten_cons]
      cases r with
      | zero =>
          rw [List.getElem?_cons_zero, Option.some.injEq] at hr
          subst hr
          rw [Nat.zero_mul, Nat.zero_add, List.getD_append _ _ _ _ (ha ▸ hc)]
      | succ r =>
          rw [List.getElem?_cons_succ] at hr
          have hidx : (r + 1) * cols + c = a.length + (r * cols + c) := by
            rw [ha, Nat.succ_mul]
            omega
          rw [hidx, List.getD_append_right _ _ _ _ (Nat.le_add_right _ _), Nat.add_sub_cancel_left]
          exact ih (fun row hrow ↦ h row (List.mem_cons_of_mem a hrow)) hr

/-- The rows cut from a list, end to end again. -/
theorem flatten_rows2d {rows cols : Nat} {values : List α} (d : α) (h : values.length = rows * cols) :
    (rows2d rows cols values d).flatten = values := by
  suffices htake : ∀ n ≤ rows, (rows2d n cols values d).flatten = values.take (n * cols) by
    rw [htake rows le_rfl, ← h, List.take_length]
  intro n
  induction n with
  | zero =>
      intro _
      rw [Nat.zero_mul]
      rfl
  | succ n ih =>
      intro hn
      have hle : n * cols + cols ≤ values.length := by
        rw [h, ← Nat.succ_mul]
        exact Nat.mul_le_mul_right cols hn
      have hrow : ((List.range cols).map fun c ↦ values.getD (n * cols + c) d) =
          (values.drop (n * cols)).take cols := by
        refine List.ext_getElem ?_ fun i hi _ ↦ ?_
        · rw [List.length_map, List.length_range, List.length_take_of_le]
          rw [List.length_drop]
          omega
        · rw [List.length_map, List.length_range] at hi
          rw [List.getElem_map, List.getElem_range, List.getElem_take, List.getElem_drop,
            List.getD_eq_getElem _ _ (by omega)]
      have hsucc : rows2d (n + 1) cols values d =
          rows2d n cols values d ++ [(List.range cols).map fun c ↦ values.getD (n * cols + c) d] := by
        rw [rows2d, List.range_succ, List.map_append]
        rfl
      rw [hsucc, List.flatten_append, ih (Nat.le_of_succ_le hn), List.flatten_singleton, hrow, Nat.succ_mul,
        List.take_add]
