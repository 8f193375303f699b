import LexCpp.Control.Eval
import LexCpp.Source.Reader

/-!
# What the reader takes

The methods of the reader on a given text.  A method that reads `w` ends in the state `after`
that many bytes.
-/

namespace LexCpp

namespace Reader

variable {s : ReaderState}

/-! ## Taking bytes -/

@[simp] theorem rest_taken (s : ReaderState) : (taken s).rest = s.rest.tail := by
  unfold taken
  split
  · next h => rw [h]; rfl
  · next h =>
      rw [h]
      split_ifs <;> rfl

@[simp] theorem out_taken (s : ReaderState) : (taken s).out = s.out := by
  unfold taken
  split
  · rfl
  · split_ifs <;> rfl

@[simp] theorem scBlocks_taken (s : ReaderState) : (taken s).scBlocks = s.scBlocks := by
  unfold taken
  split
  · rfl
  · split_ifs <;> rfl

@[simp] theorem diags_taken (s : ReaderState) : (taken s).diags = s.diags := by
  unfold taken
  split
  · rfl
  · split_ifs <;> rfl

/-- The state with `n` bytes taken. -/
def after (s : ReaderState) (n : Nat) : ReaderState := taken^[n] s

@[simp] theorem after_zero (s : ReaderState) : after s 0 = s := rfl

@[simp] theorem after_taken (s : ReaderState) (n : Nat) : after (taken s) n = after s (n + 1) := rfl

theorem after_one (s : ReaderState) : after s 1 = taken s := rfl

@[simp] theorem after_after (s : ReaderState) (m n : Nat) : after (after s m) n = after s (m + n) := by
  unfold after
  rw [Nat.add_comm, Function.iterate_add_apply]

@[simp] theorem taken_after (s : ReaderState) (n : Nat) : taken (after s n) = after s (n + 1) :=
  (Function.iterate_succ_apply' taken n s).symm

@[simp] theorem rest_after (s : ReaderState) (n : Nat) : (after s n).rest = s.rest.drop n := by
  induction n with
  | zero => rfl
  | succ n ih => rw [← taken_after, rest_taken, ih, List.tail_drop]

@[simp] theorem out_after (s : ReaderState) (n : Nat) : (after s n).out = s.out := by
  induction n with
  | zero => rfl
  | succ n ih => rw [← taken_after, out_taken, ih]

@[simp] theorem scBlocks_after (s : ReaderState) (n : Nat) : (after s n).scBlocks = s.scBlocks := by
  induction n with
  | zero => rfl
  | succ n ih => rw [← taken_after, scBlocks_taken, ih]

@[simp] theorem diags_after (s : ReaderState) (n : Nat) : (after s n).diags = s.diags := by
  induction n with
  | zero => rfl
  | succ n ih => rw [← taken_after, diags_taken, ih]

theorem rest_after_append {w k : List Byte} (h : s.rest = w ++ k) : (after s w.length).rest = k := by
  rw [rest_after, h, List.drop_left]

/-! ## Primitives -/

section Primitives

variable (s)

@[simp] theorem eval_atEnd : atEnd s = some (s.rest.isEmpty, s) := rfl

@[simp] theorem eval_peekAt (k : Nat) : peekAt k s = some (s.rest.getD k 0, s) := rfl

@[simp] theorem eval_peek : peek s = some (s.rest.getD 0 0, s) := rfl

@[simp] theorem eval_skip : skip s = some ((), taken s) := rfl

@[simp] theorem eval_getByte : getByte s = some (s.rest.getD 0 0, taken s) := rfl

@[simp] theorem eval_remaining : remaining s = some (s.rest.length, s) := rfl

@[simp] theorem eval_loc (file : String) : loc file s = some (⟨file, s.line, s.col⟩, s) := rfl

@[simp] theorem eval_restore (old : ReaderState) : restore old s =
    some ((), { s with rest := old.rest, line := old.line, col := old.col }) := rfl

@[simp] theorem eval_restorePos (old : ReaderState) :
    restorePos old s = some ((), { s with rest := old.rest }) := rfl

@[simp] theorem eval_modifyOut (f : LexFile → LexFile) :
    modifyOut f s = some ((), { s with out := f s.out }) := rfl

@[simp] theorem eval_modifyBlocks (f : List ScBlock → List ScBlock) :
    modifyBlocks f s = some ((), { s with scBlocks := f s.scBlocks }) := rfl

@[simp] theorem eval_report (d : Diag) :
    report d s = some ((), { s with diags := s.diags ++ [d] }) := rfl

end Primitives

/-- One if a newline comes next. -/
def newlineAt (k : List Byte) : Nat := if k.head? = some newline then 1 else 0

@[simp] theorem getD_eq_newline_iff {k : List Byte} :
    k.getD 0 0 = newline ↔ k.head? = some newline := by
  cases k with
  | nil => exact ⟨fun h ↦ absurd h (by decide), fun h ↦ absurd h (by simp)⟩
  | cons c k => simp

theorem eval_skipNewline (s : ReaderState) :
    skipNewline s = some ((), after s (newlineAt s.rest)) := by
  simp only [skipNewline, eval_bind, eval_peek, Option.bind_some, eval_ite, eval_skip, eval_pure,
    getD_eq_newline_iff, newlineAt]
  split_ifs <;> rfl

/-! ## Runs of bytes -/

/-- `getWhile` stops before a byte that does not qualify. -/
theorem eval_getWhile {p : Byte → Bool} {w k : List Byte} (hs : s.rest = w ++ k)
    (hw : ∀ b ∈ w, p b = true) (hk : ∀ c ∈ k.head?, p c = false) {n : Nat} (hn : w.length ≤ n) :
    getWhile p n s = some (w, after s w.length) := by
  induction n generalizing w s with
  | zero =>
      obtain rfl := List.eq_nil_of_length_eq_zero (Nat.le_zero.1 hn)
      rfl
  | succ n ih =>
      cases w with
      | nil =>
          rw [List.nil_append] at hs
          cases k with
          | nil => simp [getWhile, hs]
          | cons c k =>
              have hc : p c = false := hk c rfl
              simp [getWhile, hs, hc]
      | cons b w =>
          have hb : p b = true := hw b List.mem_cons_self
          have hrest : (taken s).rest = w ++ k := by rw [rest_taken, hs]; rfl
          have hrec := ih hrest (fun c hc ↦ hw c (List.mem_cons_of_mem b hc))
            (Nat.le_of_succ_le_succ hn)
          simp [getWhile, hs, hb, hrec]

theorem eval_takeWhile {p : Byte → Bool} {w k : List Byte} (hs : s.rest = w ++ k)
    (hw : ∀ b ∈ w, p b = true) (hk : ∀ c ∈ k.head?, p c = false) :
    takeWhile p s = some (w, after s w.length) := by
  rw [takeWhile, eval_bind_of (eval_remaining s)]
  refine eval_getWhile hs hw hk ?_
  rw [hs, List.length_append]
  exact Nat.le_add_right _ _

end Reader

end LexCpp
