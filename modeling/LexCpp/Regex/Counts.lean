import LexCpp.Regex.Pattern
import LexCpp.Regex.Reading

/-!
# Counted repetition

What the parser makes of `x{n}`, `x{n,}` and `x{n,m}` for numerals of any length.  The bounds of
the tree are computed in 32 bits, and the largest of them stands for "no bound"
(`Counts.honoured_iff`).
-/

namespace LexCpp

open Computability

/-- A number as it is written. -/
structure Numeral where
  digits : List Byte
  ne_nil : digits ≠ []
  isDigit_of_mem : ∀ b ∈ digits, isDigit b = true

namespace Numeral

/-- The number that is written. -/
def value (n : Numeral) : Nat := n.digits.foldl (fun v d ↦ v * 10 + (d - chr '0').val) 0

/-- The parser reads it in the arithmetic of 32 bits. -/
theorem numeral_digits (n : Numeral) : Parser.numeral n.digits = n.value % 4294967296 := by
  have hfold : ∀ (ds : List Byte) (v : Nat),
      ds.foldl (fun v d ↦ (v * 10 + (d - chr '0').val) % 4294967296) (v % 4294967296) =
        ds.foldl (fun v d ↦ v * 10 + (d - chr '0').val) v % 4294967296 := by
    intro ds
    induction ds with
    | nil => exact fun _ ↦ rfl
    | cons d ds ih =>
        intro v
        rw [List.foldl_cons, List.foldl_cons, ← ih]
        congr 1
        omega
  exact hfold n.digits 0

end Numeral

/-- The counts of a repetition as they are written. -/
inductive Counts where
  | exactly (n : Numeral)
  | atLeast (n : Numeral)
  | between (n m : Numeral)

namespace Counts

open LexCpp.Parser

/-- The text between the braces. -/
def inner : Counts → List Byte
  | exactly n => n.digits
  | atLeast n => n.digits ++ [chr ',']
  | between n m => n.digits ++ chr ',' :: m.digits

def render (q : Counts) : List Byte := chr '\x7b' :: (q.inner ++ [chr '\x7d'])

/-- The numbers of copies that are asked for. -/
def Takes : Counts → Nat → Prop
  | exactly n, k => k = n.value
  | atLeast n, k => n.value ≤ k
  | between n m, k => n.value ≤ k ∧ k ≤ m.value

/-- The upper bound is not below the lower one. -/
def Ordered : Counts → Prop
  | between n m => n.value ≤ m.value
  | _ => True

/-- The words put together as often as is asked for. -/
def copies (q : Counts) (L : Language Byte) : Language Byte := {w | ∃ k, q.Takes k ∧ w ∈ L ^ k}

/-- The bounds are in order and fit in the tree, and none but a missing upper bound stands there
as `kInf`. -/
def Fits : Counts → Prop
  | exactly n => n.value < kInf
  | atLeast n => n.value ≤ kInf
  | between n m => n.value ≤ m.value ∧ m.value < kInf

/-- The bounds as the parser computes them. -/
def bounds : Counts → Nat × Nat
  | exactly n => (n.value % 4294967296, n.value % 4294967296)
  | atLeast n => (n.value % 4294967296, kInf)
  | between n m => (n.value % 4294967296, m.value % 4294967296)

def tree (q : Counts) (a : Node) : Node := .rep q.bounds.1 q.bounds.2 a

/-- What reading an operand followed by the counts has to end in: an error, or a repetition of
the operand that stands for the numbers of copies that are written.  The language is that of any
interpretation of the byte classes, such as the one of the compiled automaton. -/
def Honoured (q : Counts) (a t : Node) (errors : List Diag) : Prop :=
  Diag.ok errors = false ∨
  q.Ordered ∧ (∃ lo hi, t = .rep lo hi a) ∧ ∀ C, t.denote C = q.copies (a.denote C)

/-! ## Reading -/

theorem bounds_inner (q : Counts) : Bounds q.inner q.bounds.1 q.bounds.2 := by
  cases q with
  | exactly n =>
      rw [bounds, ← n.numeral_digits]
      exact .exactly n.digits n.ne_nil n.isDigit_of_mem
  | atLeast n =>
      rw [bounds, ← n.numeral_digits]
      exact .atLeast n.digits n.ne_nil n.isDigit_of_mem
  | between n m =>
      rw [bounds, ← n.numeral_digits, ← m.numeral_digits]
      exact .between n.digits m.digits n.ne_nil n.isDigit_of_mem m.ne_nil m.isDigit_of_mem

theorem exists_digit_inner (q : Counts) : ∃ b w, q.inner = b :: w ∧ isDigit b = true := by
  have hdigits : ∀ (n : Numeral) (w : List Byte),
      ∃ b w', n.digits ++ w = b :: w' ∧ isDigit b = true := by
    intro n w
    obtain ⟨b, bs, hbs⟩ := List.exists_cons_of_ne_nil n.ne_nil
    exact ⟨b, bs ++ w, by rw [hbs]; rfl, n.isDigit_of_mem b (by rw [hbs]; exact List.mem_cons_self)⟩
  cases q with
  | exactly n =>
      change ∃ b w, n.digits = b :: w ∧ _
      simpa only [List.append_nil] using hdigits n []
  | atLeast n => exact hdigits n _
  | between n m => exact hdigits n _

variable {rec : ParseEnv → Parser Node} {env : ParseEnv} {s : ParseState} {a : Node} {d : List Diag}
  {k : List Byte}

theorem eval_parsePostfix (q : Counts)
    (h : parsePrimary rec env s = some (some a, ⟨q.render ++ k, d⟩)) :
    parsePostfix rec env s = some (some (q.tree a), ⟨k, d⟩) := by
  have hbrace : chr '\x7b' ≠ chr '*' ∧ chr '\x7b' ≠ chr '+' ∧ chr '\x7b' ≠ chr '?' := by decide
  have hread := eval_parseRepeat_bounds (k := k) (d := d) q.bounds_inner a
  obtain ⟨b, w, hinner, hb⟩ := q.exists_digit_inner
  rw [render, List.cons_append, List.append_assoc, List.singleton_append] at h
  rw [hinner, List.cons_append] at h hread
  simp [parsePostfix, h, hbrace, hb, hread, tree]

/-! ## The numbers of copies -/

/-- The numbers of copies that a repetition with these bounds allows. -/
def Allows (lo hi k : Nat) : Prop := lo ≤ k ∧ (hi = kInf ∨ k ≤ max lo hi)

theorem denote_tree (q : Counts) (a : Node) (C : ByteSet → Language Byte) :
    (q.tree a).denote C = {w | ∃ k, Allows q.bounds.1 q.bounds.2 k ∧ w ∈ a.denote C ^ k} := by
  ext w
  exact exists_congr fun k ↦ and_assoc.symm

theorem allows_iff_takes {q : Counts} (h : q.Fits) (k : Nat) :
    Allows q.bounds.1 q.bounds.2 k ↔ q.Takes k := by
  have hmod : ∀ {n : Nat}, n ≤ kInf → n % 4294967296 = n := fun hn ↦
    Nat.mod_eq_of_lt (Nat.lt_succ_of_le hn)
  cases q with
  | exactly n =>
      change Allows (n.value % _) (n.value % _) k ↔ k = n.value
      rw [hmod (Nat.le_of_lt h), Allows, max_self]
      simp only [Nat.ne_of_lt h, false_or]
      exact ⟨fun h ↦ le_antisymm h.2 h.1, fun h ↦ ⟨h.ge, h.le⟩⟩
  | atLeast n =>
      change Allows (n.value % _) kInf k ↔ n.value ≤ k
      rw [hmod h, Allows]
      simp only [true_or, and_true]
  | between n m =>
      obtain ⟨hnm, hm⟩ := h
      change Allows (n.value % _) (m.value % _) k ↔ n.value ≤ k ∧ k ≤ m.value
      rw [hmod hm.le, hmod (hnm.trans hm.le), Allows, max_eq_right hnm]
      simp only [Nat.ne_of_lt hm, false_or]

theorem fits_of_allows_iff {q : Counts} (hord : q.Ordered)
    (h : ∀ k, Allows q.bounds.1 q.bounds.2 k ↔ q.Takes k) : q.Fits := by
  have hlt : ∀ n, n % 4294967296 ≤ kInf := fun n ↦
    Nat.le_of_lt_succ (Nat.mod_lt n (by decide))
  cases q with
  | exactly n =>
      by_contra hfits
      change ∀ k, Allows (n.value % _) (n.value % _) k ↔ k = n.value at h
      change ¬ n.value < kInf at hfits
      -- the smallest number that the tree allows is the one that is written
      have hlo := (h (n.value % 4294967296)).1 ⟨le_rfl, Or.inr (le_max_left _ _)⟩
      have hinf : n.value % 4294967296 = kInf :=
        le_antisymm (hlt _) ((Nat.le_of_not_lt hfits).trans hlo.ge)
      have hsucc := (h (n.value + 1)).1 ⟨(Nat.mod_le _ _).trans (Nat.le_succ _), Or.inl hinf⟩
      exact Nat.succ_ne_self _ hsucc
  | atLeast n =>
      change ∀ k, Allows (n.value % _) kInf k ↔ n.value ≤ k at h
      exact ((h _).1 ⟨le_rfl, Or.inl rfl⟩).trans (hlt n.value)
  | between n m =>
      change ∀ k, Allows (n.value % _) (m.value % _) k ↔ n.value ≤ k ∧ k ≤ m.value at h
      refine ⟨hord, ?_⟩
      by_contra hm
      rw [Nat.not_lt] at hm
      obtain ⟨-, hhi⟩ := (h m.value).2 ⟨hord, le_rfl⟩
      rcases hhi with hinf | hle
      · have hsucc := (h (m.value + 1)).1
          ⟨(Nat.mod_le _ _).trans (hord.trans (Nat.le_succ _)), Or.inl hinf⟩
        exact Nat.not_succ_le_self _ hsucc.2
      · have hmax : m.value = kInf := le_antisymm (hle.trans (max_le (hlt _) (hlt _))) hm
        have hsucc := (h (m.value + 1)).1
          ⟨(Nat.mod_le _ _).trans (hord.trans (Nat.le_succ _)), Or.inl (by rw [hmax]; rfl)⟩
        exact Nat.not_succ_le_self _ hsucc.2

/-! ## The result -/

/-- The byte `a`. -/
def letter : Node := litNode (chr 'a') false

theorem mem_lang_letter {w : List Byte} : w ∈ letter.lang ↔ w = [chr 'a'] := by
  have htest : ∀ b, (ByteSet.add {} (chr 'a')).test b = decide (chr 'a' = b) := fun b ↦ by
    rw [ByteSet.test_add, ByteSet.test_default, Bool.false_or]
  constructor
  · rintro ⟨b, hb, rfl⟩
    rw [of_decide_eq_true ((htest b).symm.trans hb)]
  · rintro rfl
    exact ⟨chr 'a', (htest _).trans (decide_eq_true rfl), rfl⟩

/-- The numbers of copies can be read off the words. -/
theorem replicate_mem_pow_iff {n k : Nat} :
    List.replicate n (chr 'a') ∈ letter.lang ^ k ↔ k = n := by
  constructor
  · intro h
    have hlen := Node.length_of_mem_pow (m := 1) (fun w hw ↦ by rw [mem_lang_letter.1 hw]; rfl) h
    rw [List.length_replicate, Nat.one_mul] at hlen
    exact hlen.symm
  · rintro rfl
    induction k with
    | zero => exact Language.nil_mem_one
    | succ k ih =>
        rw [pow_succ, List.replicate_succ']
        exact Language.append_mem_mul ih (mem_lang_letter.2 rfl)

theorem eval_parsePrimary_letter :
    parsePrimary rec env ⟨chr 'a' :: k, d⟩ = some (some (litNode (chr 'a') env.ci), ⟨k, d⟩) := by
  have hne : chr 'a' ≠ chr '(' ∧ chr 'a' ≠ chr '[' ∧ chr 'a' ≠ chr '"' ∧ chr 'a' ≠ chr '\x7b' ∧
      chr 'a' ≠ chr '.' ∧ chr 'a' ≠ chr '\\' ∧ chr 'a' ≠ chr ')' ∧ chr 'a' ≠ chr '|' ∧
      chr 'a' ≠ chr '$' ∧ chr 'a' ≠ 0 := by decide
  simp [parsePrimary, hne]

/-- Every operand is repeated as often as the counts say, or an error is recorded, exactly if the
bounds fit. -/
theorem honoured_iff (q : Counts) :
    (∀ fuel env p k a d d',
      parsePrimary (parseAlt fuel) env ⟨p ++ (q.render ++ k), d⟩ =
        some (some a, ⟨q.render ++ k, d'⟩) →
      ∃ t errors, parsePostfix (parseAlt fuel) env ⟨p ++ (q.render ++ k), d⟩ =
          some (some t, ⟨k, d' ++ errors⟩) ∧
        q.Honoured a t errors) ↔
    q.Fits := by
  constructor
  · intro h
    obtain ⟨t, errors, hread, hq⟩ := h 0 { macros := fun _ ↦ none } [chr 'a'] [] letter [] []
      eval_parsePrimary_letter
    have hparsed : parsePostfix (parseAlt 0) { macros := fun _ ↦ none }
        ⟨chr 'a' :: (q.render ++ []), []⟩ = some (some (q.tree letter), ⟨[], []⟩) :=
      eval_parsePostfix q eval_parsePrimary_letter
    rw [show [chr 'a'] ++ (q.render ++ []) = chr 'a' :: (q.render ++ []) from rfl, hparsed] at hread
    obtain ⟨rfl, herrors⟩ : q.tree letter = t ∧ errors = [] := by
      simpa [letter, eq_comm] using hread
    rw [herrors] at hq
    obtain ⟨hord, -, hlang⟩ := hq.resolve_left (by decide)
    refine fits_of_allows_iff hord fun k ↦ ?_
    have hword := Set.ext_iff.1 ((q.denote_tree letter ByteSet.lang).symm.trans (hlang _))
      (List.replicate k (chr 'a'))
    have hcopies : ∀ {P : Nat → Prop},
        (∃ j, P j ∧ List.replicate k (chr 'a') ∈ letter.denote ByteSet.lang ^ j) ↔ P k := fun {P} ↦
      ⟨fun ⟨j, hj, hw⟩ ↦ replicate_mem_pow_iff.1 hw ▸ hj,
        fun hk ↦ ⟨k, hk, replicate_mem_pow_iff.2 rfl⟩⟩
    exact hcopies.symm.trans (hword.trans hcopies)
  · intro hfits fuel env p k a d d' hread
    refine ⟨q.tree a, [], ?_, Or.inr ⟨?_, ⟨_, _, rfl⟩, fun C ↦ ?_⟩⟩
    · rw [List.append_nil]
      exact eval_parsePostfix q hread
    · cases q with
      | between n m => exact hfits.1
      | _ => trivial
    · rw [denote_tree]
      ext w
      exact exists_congr fun j ↦ and_congr_left' (allows_iff_takes hfits j)

/-- A numeral of these digits. -/
def ofDigits (s : List Char) (hne : s.map chr ≠ []) (hdigits : (s.map chr).all isDigit = true) :
    Numeral :=
  ⟨s.map chr, hne, List.all_eq_true.1 hdigits⟩

/-- 2^32. -/
def tooLarge : Numeral :=
  ofDigits ['4', '2', '9', '4', '9', '6', '7', '2', '9', '6'] (by decide) (by decide)

/-- `a\x7b4294967296\x7d` is read without an error as no copy of `a`. -/
theorem tooLarge_not_honoured :
    parsePostfix (parseAlt 0) { macros := fun _ ↦ none }
        ⟨chr 'a' :: (exactly tooLarge).render, []⟩ =
      some (some (.rep 0 0 letter), ⟨[], []⟩) ∧
    ¬ (exactly tooLarge).Honoured letter (.rep 0 0 letter) [] := by
  have hvalue : tooLarge.value = 4294967296 := by decide
  constructor
  · have hread : parsePostfix (parseAlt 0) { macros := fun _ ↦ none }
        ⟨chr 'a' :: (exactly tooLarge).render, []⟩ =
        some (some ((exactly tooLarge).tree letter), ⟨[], []⟩) := by
      refine eval_parsePostfix (exactly tooLarge) ?_
      rw [List.append_nil]
      exact eval_parsePrimary_letter
    rw [tree, bounds, hvalue] at hread
    exact hread
  · intro h
    obtain ⟨-, -, hlang⟩ := h.resolve_left (by decide)
    have hnil : ([] : List Byte) ∈ (exactly tooLarge).copies letter.lang := by
      have hrep : ([] : List Byte) ∈ (Node.rep 0 0 letter).denote ByteSet.lang :=
        ⟨0, le_rfl, Or.inr le_rfl, Language.nil_mem_one⟩
      rwa [hlang ByteSet.lang] at hrep
    obtain ⟨k, rfl, hk⟩ := hnil
    have hzero : tooLarge.value = 0 := replicate_mem_pow_iff (n := 0).1 hk
    rw [hvalue] at hzero
    exact absurd hzero (by decide)

end Counts

end LexCpp
