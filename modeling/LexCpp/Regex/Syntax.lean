import Mathlib

/-!
# Regular expression trees

The trees of `regex.hpp` and the languages they stand for.

## Two readings of a byte class

A tree is read twice.  `Node.lang` is the language its author means: a class is
the set of its one-byte strings.  `Node.reads` is the language the automaton of
`nfa.cpp` reads: `NFAEdge` marks an ε-edge by an *empty* byte set, so a class node
with no bytes becomes an edge that reads nothing.  The two are instances of one
recursion, `Node.denote`, and agree on trees whose classes are nonempty
(`Node.reads_eq_lang`).

`Node.heads` collects the words read up to a `TrailBoundary` marker, the place
where the head of `r/s` ends.
-/

namespace LexCpp

open Computability

/-- A byte of the pattern or of the input. -/
abbrev Byte := Fin 256

instance Byte.neZero : NeZero 256 := ⟨by decide⟩

instance Byte.lawfulBEqList : LawfulBEq (List Byte) := inferInstance

/-- The newline byte. -/
def newline : Byte := 10

/-! ## Byte sets -/

/-- A bitset over the 256 byte values; the four words of the source lie end to
end. -/
structure ByteSet where
  w : BitVec 256 := 0
deriving DecidableEq, Repr, Inhabited

namespace ByteSet

def add (s : ByteSet) (b : Byte) : ByteSet := ⟨s.w ||| BitVec.twoPow 256 b⟩

def test (s : ByteSet) (b : Byte) : Bool := s.w.getLsbD b

def empty (s : ByteSet) : Bool := s.w == 0

@[simp] theorem test_default (b : Byte) : test {} b = false := by simp [test]

@[simp] theorem test_add (s : ByteSet) (b c : Byte) :
    (s.add b).test c = (s.test c || decide (b = c)) := by
  simp [add, test, Fin.ext_iff, eq_comm]

theorem empty_iff {s : ByteSet} : s.empty = true ↔ ∀ b, s.test b = false := by
  constructor
  · intro h b
    simp only [empty, beq_iff_eq] at h
    simp [test, h]
  · intro h
    simp only [empty, beq_iff_eq]
    refine BitVec.eq_of_getLsbD_eq fun i hi ↦ ?_
    simpa [test] using h ⟨i, hi⟩

theorem empty_eq_false_of_test {s : ByteSet} {b : Byte} (h : s.test b = true) :
    s.empty = false := by
  by_contra hs
  rw [Bool.not_eq_false, empty_iff] at hs
  simp [hs b] at h

/-- The one-byte strings of a set. -/
def lang (s : ByteSet) : Language Byte := {w | ∃ b, s.test b = true ∧ w = [b]}

/-- What an edge labelled with the set reads: nothing if the set is empty. -/
def edgeLang (s : ByteSet) : Language Byte := if s.empty then 1 else s.lang

theorem mem_lang {s : ByteSet} {w : List Byte} :
    w ∈ s.lang ↔ ∃ b, s.test b = true ∧ w = [b] := Iff.rfl

theorem edgeLang_of_nonempty {s : ByteSet} (h : s.empty = false) : s.edgeLang = s.lang := by
  simp [edgeLang, h]

theorem singleton_mem_edgeLang {s : ByteSet} {b : Byte} (h : s.test b = true) :
    [b] ∈ s.edgeLang := by
  rw [edgeLang_of_nonempty (empty_eq_false_of_test h)]
  exact ⟨b, h, rfl⟩

end ByteSet

/-! ## Trees -/

/-- The upper repetition bound that stands for "no bound". -/
def kInf : Nat := 0xffffffff

/-- A regex tree: one constructor for every `NodeKind`. -/
inductive Node where
  | empty
  | cls (s : ByteSet)
  | concat (a b : Node)
  | alt (a b : Node)
  | star (a : Node)
  | plus (a : Node)
  | question (a : Node)
  | rep (lo hi : Nat) (a : Node)
  | anchorBOL
  | anchorEOL
  | trailBoundary
deriving DecidableEq, Repr, Inhabited

namespace Node

/-- `p` holds at every node of the tree. -/
def all (p : Node → Bool) : Node → Bool
  | concat a b => p (concat a b) && a.all p && b.all p
  | alt a b => p (alt a b) && a.all p && b.all p
  | star a => p (star a) && a.all p
  | plus a => p (plus a) && a.all p
  | question a => p (question a) && a.all p
  | rep lo hi a => p (rep lo hi a) && a.all p
  | t => p t

/-- Every class node has at least one byte. -/
def classesNonempty (t : Node) : Bool :=
  t.all fun
    | cls s => !s.empty
    | _ => true

/-- Every repetition has `lo <= hi` or no upper bound. -/
def boundsOrdered (t : Node) : Bool :=
  t.all fun
    | rep lo hi _ => lo ≤ hi || hi = kInf
    | _ => true

/-- No `^` and no `$` anywhere in the tree. -/
def anchorFree (t : Node) : Bool :=
  t.all fun
    | anchorBOL | anchorEOL => false
    | _ => true

/-- No trailing-context marker anywhere in the tree. -/
def markerFree (t : Node) : Bool :=
  t.all fun
    | trailBoundary => false
    | _ => true

/-! ## Languages -/

/-- The language of a tree over an interpretation `C` of its byte classes.
Anchors and markers are zero-width.  A repetition takes from `lo` to `hi` copies;
an upper bound below `lo` adds nothing to it, as in `compile_repeat`. -/
def denote (C : ByteSet → Language Byte) : Node → Language Byte
  | empty => 1
  | cls s => C s
  | concat a b => a.denote C * b.denote C
  | alt a b => a.denote C + b.denote C
  | star a => (a.denote C)∗
  | plus a => a.denote C * (a.denote C)∗
  | question a => 1 + a.denote C
  | rep lo hi a => {w | ∃ k, lo ≤ k ∧ (hi = kInf ∨ k ≤ max lo hi) ∧ w ∈ a.denote C ^ k}
  | anchorBOL | anchorEOL | trailBoundary => 1

/-- The language of a tree. -/
def lang (t : Node) : Language Byte := t.denote ByteSet.lang

/-- The language the compiled automaton reads. -/
def reads (t : Node) : Language Byte := t.denote ByteSet.edgeLang

theorem reads_eq_lang {t : Node} (h : t.classesNonempty = true) : t.reads = t.lang := by
  unfold reads lang
  unfold classesNonempty at h
  induction t with
  | cls s => exact ByteSet.edgeLang_of_nonempty (by simpa [all] using h)
  | concat a b iha ihb | alt a b iha ihb =>
      simp only [all, Bool.true_and, Bool.and_eq_true] at h
      simp only [denote, iha h.1, ihb h.2]
  | star a ih | plus a ih | question a ih =>
      simp only [all, Bool.true_and] at h
      simp only [denote, ih h]
  | rep lo hi a ih =>
      simp only [all, Bool.true_and] at h
      simp only [denote, ih h]
      rfl
  | _ => rfl

end Node

/-! ## Unrolled repetition -/

section Unroll

variable {L H : Language Byte}

/-- At most `m` optional copies. -/
theorem mem_one_add_pow {m : Nat} {w : List Byte} :
    w ∈ (1 + L) ^ m ↔ ∃ k, k ≤ m ∧ w ∈ L ^ k := by
  induction m generalizing w with
  | zero => simp
  | succ m ih =>
      rw [pow_succ', add_mul, one_mul, Language.mem_add, ih]
      constructor
      · rintro (⟨k, hk, hw⟩ | hw)
        · exact ⟨k, Nat.le_succ_of_le hk, hw⟩
        · obtain ⟨u, hu, v, hv, rfl⟩ := Language.mem_mul.1 hw
          obtain ⟨k, hk, hv⟩ := ih.1 hv
          exact ⟨k + 1, Nat.succ_le_succ hk, by
            rw [pow_succ']; exact Language.append_mem_mul hu hv⟩
      · rintro ⟨k, hk, hw⟩
        cases k with
        | zero => exact Or.inl ⟨0, Nat.zero_le m, hw⟩
        | succ k =>
            rw [pow_succ'] at hw
            obtain ⟨u, hu, v, hv, rfl⟩ := Language.mem_mul.1 hw
            exact Or.inr (Language.append_mem_mul hu (ih.2 ⟨k, Nat.le_of_succ_le_succ hk, hv⟩))

/-- The repetition unrolled the way `compile_repeat` does it: `lo` copies, then
a star or the remaining optional copies. -/
theorem mem_rep_iff {lo hi : Nat} {w : List Byte} :
    (∃ k, lo ≤ k ∧ (hi = kInf ∨ k ≤ max lo hi) ∧ w ∈ L ^ k) ↔
      w ∈ L ^ lo * (if hi = kInf then L∗ else (1 + L) ^ (hi - lo)) := by
  constructor
  · rintro ⟨k, hlo, hhi, hw⟩
    obtain ⟨j, rfl⟩ := Nat.exists_eq_add_of_le hlo
    rw [pow_add] at hw
    obtain ⟨u, hu, v, hv, rfl⟩ := Language.mem_mul.1 hw
    refine Language.append_mem_mul hu ?_
    split_ifs with h
    · rw [Language.kstar_eq_iSup_pow]
      exact Language.mem_iSup.2 ⟨j, hv⟩
    · exact mem_one_add_pow.2 ⟨j, by omega, hv⟩
  · intro hw
    obtain ⟨u, hu, v, hv, rfl⟩ := Language.mem_mul.1 hw
    split_ifs at hv with h
    · rw [Language.kstar_eq_iSup_pow] at hv
      obtain ⟨j, hv⟩ := Language.mem_iSup.1 hv
      exact ⟨lo + j, Nat.le_add_right lo j, Or.inl h, by
        rw [pow_add]; exact Language.append_mem_mul hu hv⟩
    · obtain ⟨j, hj, hv⟩ := mem_one_add_pow.1 hv
      exact ⟨lo + j, Nat.le_add_right lo j, Or.inr (by omega), by
        rw [pow_add]; exact Language.append_mem_mul hu hv⟩

/-- The words that end inside one of `n` consecutive copies, at a place that `H`
describes within the copy. -/
def powHeads (L H : Language Byte) : Nat → Language Byte
  | 0 => 0
  | n + 1 => powHeads L H n + L ^ n * H

/-- The same, split off at the first copy. -/
theorem powHeads_succ' (L H : Language Byte) (n : Nat) :
    powHeads L H (n + 1) = H + L * powHeads L H n := by
  induction n with
  | zero => simp [powHeads]
  | succ n ih =>
      calc
        powHeads L H (n + 1 + 1) = H + L * powHeads L H n + L ^ (n + 1) * H := by
          rw [← ih]; rfl
        _ = H + L * (powHeads L H n + L ^ n * H) := by
          rw [mul_add, pow_succ', mul_assoc, add_assoc]

end Unroll

namespace Node

/-- The words read from the start of a tree up to one of its markers. -/
def heads (C : ByteSet → Language Byte) : Node → Language Byte
  | trailBoundary => 1
  | concat a b => a.heads C + a.denote C * b.heads C
  | alt a b => a.heads C + b.heads C
  | star a | plus a => (a.denote C)∗ * a.heads C
  | question a => a.heads C
  | rep lo hi a =>
      powHeads (a.denote C) (a.heads C) lo + a.denote C ^ lo *
        (if hi = kInf then (a.denote C)∗ * a.heads C
          else powHeads (1 + a.denote C) (a.heads C) (hi - lo))
  | empty | cls _ | anchorBOL | anchorEOL => 0

theorem powHeads_zero (L : Language Byte) (n : Nat) : powHeads L 0 n = 0 := by
  induction n with
  | zero => rfl
  | succ n ih => simp [powHeads, ih]

/-- Without markers there is nothing to stop at. -/
theorem heads_eq_zero {C : ByteSet → Language Byte} {t : Node} (h : t.markerFree = true) :
    t.heads C = 0 := by
  unfold markerFree at h
  induction t with
  | concat a b iha ihb | alt a b iha ihb =>
      simp only [all, Bool.true_and, Bool.and_eq_true] at h
      simp only [heads, iha h.1, ihb h.2, mul_zero, add_zero]
  | star a ih | plus a ih | question a ih =>
      simp only [all, Bool.true_and] at h
      simp only [heads, ih h, mul_zero]
  | rep lo hi a ih =>
      simp only [all, Bool.true_and] at h
      simp only [heads, ih h, powHeads_zero, mul_zero, ite_self, add_zero]
  | trailBoundary => simp [all] at h
  | _ => rfl

end Node

end LexCpp
