import LexCpp.Control.Eval
import LexCpp.Regex.Parser

/-!
# What the parser reads

The methods of the parser on a given text.  A method reads `w` if it gives the same result
before every continuation `k` it may meet, and leaves `k`.
-/

namespace LexCpp

open Computability

/-! ## Byte sets -/

namespace ByteSet

@[simp] theorem test_addAll (s : ByteSet) (bs : List Byte) (b : Byte) :
    (s.addAll bs).test b = (s.test b || decide (b ∈ bs)) := by
  induction bs generalizing s with
  | nil => simp [addAll]
  | cons c bs ih =>
      change ((s.add c).addAll bs).test b = _
      rw [ih, test_add, Bool.or_assoc]
      simp [List.mem_cons, eq_comm]

@[simp] theorem test_inverse (s : ByteSet) (b : Byte) : s.inverse.test b = !s.test b := by
  rw [inverse, test_addAll, test_default, Bool.false_or]
  simp

end ByteSet

namespace Parser

/-! ## Primitives -/

section Primitives

variable (s : ParseState)

@[simp] theorem eval_atEnd : atEnd s = some (s.rest.isEmpty, s) := rfl

@[simp] theorem eval_peekAt (k : Nat) : peekAt k s = some (s.rest.getD k 0, s) := rfl

@[simp] theorem eval_peek : peek s = some (s.rest.getD 0 0, s) := rfl

@[simp] theorem eval_skip : skip s = some ((), { s with rest := s.rest.tail }) := rfl

@[simp] theorem eval_advance :
    advance s = some (s.rest.getD 0 0, { s with rest := s.rest.tail }) := rfl

@[simp] theorem eval_save : save s = some (s.rest, s) := rfl

@[simp] theorem eval_restore (rest : List Byte) :
    restore rest s = some ((), { s with rest := rest }) := rfl

@[simp] theorem eval_report (d : Diag) :
    report d s = some ((), { s with diags := s.diags ++ [d] }) := rfl

@[simp] theorem eval_remaining : remaining s = some (s.rest.length, s) := rfl

theorem eval_accept (c : Char) : accept c s =
    if s.rest.getD 0 0 = chr c then some (true, { s with rest := s.rest.tail })
    else some (false, s) := by
  simp only [accept, eval_bind, eval_peek, Option.bind_some, eval_ite, eval_skip, eval_pure]

end Primitives

/-! ## Runs of bytes -/

variable {d : List Diag} {k : List Byte}

/-- `readWhile` stops before a byte that does not qualify. -/
theorem eval_readWhile {p : Byte → Bool} {w : List Byte} (hw : ∀ b ∈ w, p b = true)
    (hk : ∀ c ∈ k.head?, p c = false) {n : Nat} (hn : w.length ≤ n) :
    readWhile p n ⟨w ++ k, d⟩ = some (w, ⟨k, d⟩) := by
  induction n generalizing w with
  | zero =>
      obtain rfl := List.eq_nil_of_length_eq_zero (Nat.le_zero.1 hn)
      rfl
  | succ n ih =>
      cases w with
      | nil =>
          cases k with
          | nil => rfl
          | cons c k =>
              have hc : p c = false := hk c rfl
              simp [readWhile, hc]
      | cons b w =>
          have hb : p b = true := hw b List.mem_cons_self
          have hrec := ih (fun c hc ↦ hw c (List.mem_cons_of_mem b hc)) (Nat.le_of_succ_le_succ hn)
          simp [readWhile, hb, hrec]

/-- `readWhile` with turns enough. -/
theorem eval_readWhile_all (p : Byte → Bool) {n : Nat} (hn : k.length ≤ n) :
    readWhile p n ⟨k, d⟩ = some (k.takeWhile p, ⟨k.dropWhile p, d⟩) := by
  have heval := eval_readWhile (d := d) (k := k.dropWhile p) (w := k.takeWhile p) (n := n)
    (fun b hb ↦ List.mem_takeWhile_imp hb) (fun c hc ↦ ?_)
    ((List.takeWhile_prefix p).length_le.trans hn)
  · rwa [List.takeWhile_append_dropWhile] at heval
  · have hnot := List.head?_dropWhile_not p k
    rw [hc] at hnot
    exact Bool.eq_false_of_not_eq_true (by simpa using hnot)

/-! ## Numerals -/

/-- The digit of a number below ten. -/
def digit (d : Nat) : Byte := chr '0' + Fin.ofNat 256 d

/-- The decimal numeral of a number. -/
def decimal (n : Nat) : List Byte :=
  if n < 10 then [digit n] else decimal (n / 10) ++ [digit (n % 10)]

theorem digit_spec {n : Nat} (hn : n < 10) :
    isDigit (digit n) = true ∧ (digit n - chr '0').val = n := by
  have h : ∀ m : Fin 10, isDigit (digit m) = true ∧ (digit m - chr '0').val = m := by decide
  exact h ⟨n, hn⟩

theorem isDigit_of_mem_decimal {n : Nat} {b : Byte} (hb : b ∈ decimal n) : isDigit b = true := by
  induction n using decimal.induct with
  | case1 n hn =>
      rw [decimal, if_pos hn, List.mem_singleton] at hb
      rw [hb]
      exact (digit_spec hn).1
  | case2 n hn ih =>
      rw [decimal, if_neg hn, List.mem_append, List.mem_singleton] at hb
      rcases hb with hb | rfl
      · exact ih hb
      · exact (digit_spec (Nat.mod_lt n (by decide))).1

theorem decimal_ne_nil (n : Nat) : decimal n ≠ [] := by
  rw [decimal]
  split_ifs with hn
  · exact List.cons_ne_nil _ _
  · exact fun h ↦ List.cons_ne_nil _ _ (List.append_eq_nil_iff.1 h).2

theorem numeral_concat (ds : List Byte) (b : Byte) :
    numeral (ds ++ [b]) = (numeral ds * 10 + (b - chr '0').val) % 4294967296 := by
  unfold numeral
  rw [List.foldl_append]
  rfl

/-- A numeral is read in the arithmetic of 32 bits. -/
theorem numeral_decimal (n : Nat) : numeral (decimal n) = n % 4294967296 := by
  induction n using decimal.induct with
  | case1 n hn =>
      rw [decimal, if_pos hn]
      have h := numeral_concat [] (digit n)
      rw [List.nil_append, (digit_spec hn).2] at h
      rw [h]
      change (0 * 10 + n) % 4294967296 = n % 4294967296
      rw [Nat.zero_mul, Nat.zero_add]
  | case2 n hn ih =>
      rw [decimal, if_neg hn, numeral_concat, ih, (digit_spec (Nat.mod_lt n (by decide))).2]
      omega

/-! ## Escapes -/

/-- The hexadecimal digit of a number below sixteen. -/
def hexByte (d : Nat) : Byte :=
  if d < 10 then digit d else chr 'a' + Fin.ofNat 256 (d - 10)

/-- `\xHH`. -/
def hexEscape (b : Byte) : List Byte :=
  [chr '\\', chr 'x', hexByte (b.val / 16), hexByte (b.val % 16)]

theorem hexByte_spec {n : Nat} (hn : n < 16) :
    isXdigit (hexByte n) = true ∧ hexDigit (hexByte n) = n := by
  have h : ∀ m : Fin 16, isXdigit (hexByte m) = true ∧ hexDigit (hexByte m) = m := by decide
  exact h ⟨n, hn⟩

/-- An escape of two digits ends after them. -/
theorem eval_readClassByte_hexEscape (b : Byte) :
    readClassByte ⟨hexEscape b ++ k, d⟩ = some (b, ⟨k, d⟩) := by
  have hhi : b.val / 16 < 16 := Nat.div_lt_of_lt_mul b.isLt
  have hlo : b.val % 16 < 16 := Nat.mod_lt _ (by decide)
  obtain ⟨hxhi, hvhi⟩ := hexByte_spec hhi
  obtain ⟨hxlo, hvlo⟩ := hexByte_spec hlo
  have hfind : controlEscapes.find? (fun e ↦ chr e.1 = chr 'x') = none := by decide
  have hvalue : b.val / 16 * 16 + b.val % 16 = b.val := Nat.div_add_mod' _ _
  have hread : readEscapeByte ⟨hexEscape b ++ k, d⟩ = some (b, ⟨k, d⟩) := by
    unfold readEscapeByte hexEscape
    simp [hfind, readHex, hxhi, hvhi, hxlo, hvlo, hvalue, show chr 'x' ≠ 0 by decide,
      show isOctal (chr 'x') = false by decide]
  simpa [readClassByte, hexEscape] using hread

end Parser

/-! ## Operators -/

/-- A postfix operator as it is written. -/
inductive Operator where
  | star
  | plus
  | question
  | exactly (n : Nat)
  | atLeast (n : Nat)
  | between (n m : Nat) (h : n ≤ m)

namespace Operator

def render : Operator → List Byte
  | star => [chr '*']
  | plus => [chr '+']
  | question => [chr '?']
  | exactly n => chr '\x7b' :: (Parser.decimal n ++ [chr '\x7d'])
  | atLeast n => chr '\x7b' :: (Parser.decimal n ++ [chr ',', chr '\x7d'])
  | between n m _ => chr '\x7b' :: (Parser.decimal n ++ chr ',' :: (Parser.decimal m ++ [chr '\x7d']))

/-- The numbers of copies that the operator stands for. -/
def Takes : Operator → Nat → Prop
  | star, _ => True
  | plus, k => 1 ≤ k
  | question, k => k ≤ 1
  | exactly n, k => k = n
  | atLeast n, k => n ≤ k
  | between n m _, k => n ≤ k ∧ k ≤ m

/-- Its bounds fit in the tree, and the upper one is not taken for "no bound". -/
def Fits : Operator → Prop
  | star | plus | question => True
  | exactly n => n < kInf
  | atLeast n => n ≤ kInf
  | between _ m _ => m < kInf

instance (q : Operator) : Decidable q.Fits :=
  match q with
  | star | plus | question => .isTrue trivial
  | exactly n => inferInstanceAs (Decidable (n < kInf))
  | atLeast n => inferInstanceAs (Decidable (n ≤ kInf))
  | between _ m _ => inferInstanceAs (Decidable (m < kInf))

/-- The tree of the operator applied to an operand. -/
def tree (a : Node) : Operator → Node
  | star => .star a
  | plus => .plus a
  | question => .question a
  | exactly n => .rep n n a
  | atLeast n => .rep n kInf a
  | between n m _ => .rep n m a

/-- The tree with its bounds as the parser computes them. -/
def parsed (a : Node) : Operator → Node
  | exactly n => .rep (n % 4294967296) (n % 4294967296) a
  | atLeast n => .rep (n % 4294967296) kInf a
  | between n m _ => .rep (n % 4294967296) (m % 4294967296) a
  | q => q.tree a

/-- The words of the operand put together as often as the operator says. -/
def lang (L : Language Byte) (q : Operator) : Language Byte := {w | ∃ k, q.Takes k ∧ w ∈ L ^ k}

theorem lang_tree {q : Operator} (h : q.Fits) (a : Node) : (q.tree a).lang = q.lang a.lang := by
  ext w
  cases q with
  | star =>
      change w ∈ a.lang∗ ↔ ∃ k, True ∧ w ∈ a.lang ^ k
      rw [Language.kstar_eq_iSup_pow, Language.mem_iSup]
      simp only [true_and]
  | plus =>
      change w ∈ a.lang * a.lang∗ ↔ ∃ k, 1 ≤ k ∧ w ∈ a.lang ^ k
      rw [Language.kstar_eq_iSup_pow, Language.mul_iSup, Language.mem_iSup]
      constructor
      · rintro ⟨k, hw⟩
        exact ⟨k + 1, Nat.succ_pos k, by rwa [pow_succ']⟩
      · rintro ⟨k, hk, hw⟩
        obtain ⟨j, rfl⟩ := Nat.exists_eq_add_of_le' hk
        exact ⟨j, by rwa [← pow_succ']⟩
  | question =>
      change w ∈ 1 + a.lang ↔ ∃ k, k ≤ 1 ∧ w ∈ a.lang ^ k
      rw [← mem_one_add_pow, pow_one]
  | exactly n =>
      change (∃ k, n ≤ k ∧ (n = kInf ∨ k ≤ max n n) ∧ w ∈ a.lang ^ k) ↔ ∃ k, k = n ∧ w ∈ a.lang ^ k
      have hn : n ≠ kInf := Nat.ne_of_lt h
      simp only [hn, false_or, max_self]
      exact ⟨fun hw ↦ hw.imp fun k hk ↦ ⟨Nat.le_antisymm hk.2.1 hk.1, hk.2.2⟩,
        fun hw ↦ hw.imp fun k hk ↦ ⟨hk.1.ge, hk.1.le, hk.2⟩⟩
  | atLeast n =>
      change (∃ k, n ≤ k ∧ (kInf = kInf ∨ k ≤ max n kInf) ∧ w ∈ a.lang ^ k) ↔
        ∃ k, n ≤ k ∧ w ∈ a.lang ^ k
      simp only [true_or, true_and]
  | between n m hnm =>
      change (∃ k, n ≤ k ∧ (m = kInf ∨ k ≤ max n m) ∧ w ∈ a.lang ^ k) ↔
        ∃ k, (n ≤ k ∧ k ≤ m) ∧ w ∈ a.lang ^ k
      have hm : m ≠ kInf := Nat.ne_of_lt h
      simp only [hm, false_or, max_eq_right hnm, and_assoc]

theorem parsed_eq_tree {q : Operator} (h : q.Fits) (a : Node) : q.parsed a = q.tree a := by
  have hmod : ∀ {n : Nat}, n ≤ kInf → n % 4294967296 = n := fun hn ↦
    Nat.mod_eq_of_lt (Nat.lt_succ_of_le hn)
  cases q with
  | exactly n => simp only [parsed, tree, hmod (Nat.le_of_lt h)]
  | atLeast n => simp only [parsed, tree, hmod h]
  | between n m hnm =>
      have hm : m ≤ kInf := Nat.le_of_lt h
      simp only [parsed, tree, hmod hm, hmod (hnm.trans hm)]
  | _ => rfl

end Operator

namespace Parser

variable {d : List Diag} {k : List Byte}

theorem eval_digits {c : Byte} (hc : isDigit c = false) (n m : Nat) (hm : (decimal n).length ≤ m) :
    readWhile isDigit m ⟨decimal n ++ c :: k, d⟩ = some (decimal n, ⟨c :: k, d⟩) := by
  refine eval_readWhile (fun b hb ↦ isDigit_of_mem_decimal hb) (fun b hb ↦ ?_) hm
  rwa [← Option.some.inj hb]

/-- A repetition is read up to its closing brace. -/
theorem eval_parseRepeat {q : Operator} (hq : q.render.head? = some (chr '\x7b')) (a : Node) :
    parseRepeat a ⟨q.render ++ k, d⟩ = some (q.parsed a, ⟨k, d⟩) := by
  have hclose : isDigit (chr '\x7d') = false := by decide
  have hcomma : isDigit (chr ',') = false := by decide
  have hne : chr '\x7d' ≠ chr ',' := by decide
  cases q with
  | exactly n =>
      have hread := eval_digits (k := k) (d := d) hclose n
      simp [parseRepeat, parseUpper, Operator.render, Operator.parsed, hread, decimal_ne_nil, hne,
        numeral_decimal]
  | atLeast n =>
      have hread := eval_digits (k := chr '\x7d' :: k) (d := d) hcomma n
      simp [parseRepeat, parseUpper, Operator.render, Operator.parsed, hread, decimal_ne_nil,
        hclose, numeral_decimal]
  | between n m hnm =>
      have hlo := eval_digits (k := decimal m ++ chr '\x7d' :: k) (d := d) hcomma n
      have hhi := eval_digits (k := k) (d := d) hclose m
      have hval := numeral_decimal m
      have hb : ∀ b ∈ decimal m, isDigit b = true := fun b ↦ isDigit_of_mem_decimal
      obtain ⟨b, bs, hm⟩ := List.exists_cons_of_ne_nil (decimal_ne_nil m)
      rw [hm] at hlo hhi hval hb
      rw [List.cons_append] at hlo hhi
      have hb := hb b List.mem_cons_self
      simp [parseRepeat, parseUpper, Operator.render, Operator.parsed, hm, hlo, hhi, decimal_ne_nil,
        numeral_decimal n, hval, hb]
  | star => exact absurd (Option.some.inj hq) (by decide)
  | plus => exact absurd (Option.some.inj hq) (by decide)
  | question => exact absurd (Option.some.inj hq) (by decide)

/-! ## The functions that call each other -/

variable {rec : ParseEnv → Parser Node} {env : ParseEnv} {s : ParseState} {t : Node}

/-- An operator after an operand. -/
theorem eval_parsePostfix_operator (q : Operator)
    (h : parsePrimary rec env s = some (some t, ⟨q.render ++ k, d⟩)) :
    parsePostfix rec env s = some (some (q.parsed t), ⟨k, d⟩) := by
  have hbrace : chr '\x7b' ≠ chr '*' ∧ chr '\x7b' ≠ chr '+' ∧ chr '\x7b' ≠ chr '?' := by decide
  have hrep : ∀ {w : List Byte} {n : Nat}, q.render = chr '\x7b' :: (decimal n ++ w) →
      parsePostfix rec env s = some (some (q.parsed t), ⟨k, d⟩) := by
    intro w n hq
    have hread := eval_parseRepeat (k := k) (d := d) (q := q) (by rw [hq]; rfl) t
    have hb : ∀ b ∈ decimal n, isDigit b = true := fun b ↦ isDigit_of_mem_decimal
    obtain ⟨b, bs, hn⟩ := List.exists_cons_of_ne_nil (decimal_ne_nil n)
    rw [hn] at hb hq
    have hb := hb b List.mem_cons_self
    rw [hq] at h hread
    simp only [List.cons_append, List.append_assoc] at h hread
    simp [parsePostfix, h, hbrace, hb, hread]
  cases q with
  | star => simp [parsePostfix, h, Operator.render, Operator.parsed, Operator.tree]
  | plus =>
      simp [parsePostfix, h, Operator.render, Operator.parsed, Operator.tree,
        show chr '+' ≠ chr '*' by decide]
  | question =>
      simp [parsePostfix, h, Operator.render, Operator.parsed, Operator.tree,
        show chr '?' ≠ chr '*' by decide, show chr '?' ≠ chr '+' by decide]
  | exactly n => exact hrep rfl
  | atLeast n => exact hrep rfl
  | between n m hnm => exact hrep rfl

/-- The bytes an operator can start with. -/
def isOperatorByte (b : Byte) : Bool := b = chr '*' || b = chr '+' || b = chr '?' || b = chr '\x7b'

/-- An operand without an operator. -/
theorem eval_parsePostfix_plain (h : parsePrimary rec env s = some (some t, ⟨k, d⟩))
    (hk : isOperatorByte (k.getD 0 0) = false) :
    parsePostfix rec env s = some (some t, ⟨k, d⟩) := by
  simp only [isOperatorByte, Bool.or_eq_false_iff, decide_eq_false_iff_not] at hk
  simp only [List.getD_eq_getElem?_getD] at hk
  simp [parsePostfix, h, hk]

/-- A concatenation ends before a terminator. -/
theorem eval_concatLoop_stop (hk : isConcatTerminator (k.getD 0 0) = true) (n : Nat)
    (acc : Option Node) : concatLoop rec env (n + 1) acc ⟨k, d⟩ = some (acc, ⟨k, d⟩) := by
  simp only [List.getD_eq_getElem?_getD] at hk
  simp [concatLoop, hk]

/-- One part of a concatenation. -/
theorem eval_concatLoop_step {w : List Byte} {d' : List Diag}
    (hw : isConcatTerminator (w.getD 0 0) = false)
    (h : parsePostfix rec env ⟨w, d⟩ = some (some t, ⟨k, d'⟩)) (n : Nat) (acc : Option Node) :
    concatLoop rec env (n + 1) acc ⟨w, d⟩ =
      concatLoop rec env n (some (concat acc t)) ⟨k, d'⟩ := by
  cases w with
  | nil => exact absurd hw (by decide)
  | cons c w =>
      simp only [List.getD_cons_zero] at hw
      simp [concatLoop, hw, h]

/-- An alternation ends where no `|` follows. -/
theorem eval_altLoop_stop (hk : k.getD 0 0 ≠ chr '|') (n : Nat) :
    altLoop rec env (n + 1) t ⟨k, d⟩ = some (t, ⟨k, d⟩) := by
  simp only [List.getD_eq_getElem?_getD] at hk
  simp [altLoop, hk]

/-- One more branch. -/
theorem eval_altLoop_step {w : List Byte} {l : Node} {s : ParseState}
    (h : parseConcat rec env ⟨w, d⟩ = some (t, s)) (n : Nat) :
    altLoop rec env (n + 1) l ⟨chr '|' :: w, d⟩ = altLoop rec env n (.alt l t) s := by
  simp [altLoop, h]

theorem eval_parseConcat {o : Option Node} {s s' : ParseState}
    (h : concatLoop rec env (s.rest.length + 1) none s = some (o, s')) :
    parseConcat rec env s = some (o.getD .empty, s') := by
  unfold parseConcat
  rw [eval_bind_of (eval_remaining s), eval_bind_of h]
  rfl

/-- A concatenation of one part. -/
theorem eval_parseConcat_one {w : List Byte} (hw : isConcatTerminator (w.getD 0 0) = false)
    (h : parsePostfix rec env ⟨w, d⟩ = some (some t, ⟨k, d⟩))
    (hk : isConcatTerminator (k.getD 0 0) = true) :
    parseConcat rec env ⟨w, d⟩ = some (t, ⟨k, d⟩) := by
  cases w with
  | nil => exact absurd hw (by decide)
  | cons c w =>
      refine eval_parseConcat (o := some t) ?_
      rw [eval_concatLoop_step hw h]
      exact eval_concatLoop_stop hk _ _

/-- A bracket expression. -/
theorem eval_parsePrimary_class {w : List Byte} (h : parseClass env ⟨chr '[' :: w, d⟩ = some (t, s)) :
    parsePrimary rec env ⟨chr '[' :: w, d⟩ = some (some t, s) := by
  simp [parsePrimary, h, show chr '[' ≠ chr '(' by decide]

/-- Text in parentheses. -/
theorem eval_parsePrimary_group {w : List Byte}
    (h : rec env ⟨w ++ chr ')' :: k, d⟩ = some (t, ⟨chr ')' :: k, d⟩)) :
    parsePrimary rec env ⟨chr '(' :: (w ++ chr ')' :: k), d⟩ = some (some t, ⟨k, d⟩) := by
  simp [parsePrimary, h]

/-! ## Bounds -/

/-- The text between the braces of a repetition, with the bounds that are read from it. -/
inductive Bounds : List Byte → Nat → Nat → Prop
  | exactly (ds : List Byte) (hne : ds ≠ []) (hds : ∀ b ∈ ds, isDigit b = true) :
      Bounds ds (numeral ds) (numeral ds)
  | atLeast (ds : List Byte) (hne : ds ≠ []) (hds : ∀ b ∈ ds, isDigit b = true) :
      Bounds (ds ++ [chr ',']) (numeral ds) kInf
  | between (ds es : List Byte) (hne : ds ≠ []) (hds : ∀ b ∈ ds, isDigit b = true) (hne' : es ≠ [])
      (hes : ∀ b ∈ es, isDigit b = true) : Bounds (ds ++ chr ',' :: es) (numeral ds) (numeral es)

theorem eval_readDigits {ds : List Byte} {c : Byte} (hds : ∀ b ∈ ds, isDigit b = true)
    (hc : isDigit c = false) {n : Nat} (hn : ds.length ≤ n) :
    readWhile isDigit n ⟨ds ++ c :: k, d⟩ = some (ds, ⟨c :: k, d⟩) := by
  refine eval_readWhile hds (fun b hb ↦ ?_) hn
  rwa [← Option.some.inj hb]

/-- A repetition is read up to its closing brace. -/
theorem eval_parseRepeat_bounds {b : List Byte} {lo hi : Nat} (h : Bounds b lo hi) (a : Node) :
    parseRepeat a ⟨chr '{' :: (b ++ chr '}' :: k), d⟩ = some (.rep lo hi a, ⟨k, d⟩) := by
  have hne : chr '}' ≠ chr ',' := by decide
  have hclose : isDigit (chr '}') = false := by decide
  cases h with
  | exactly _ hds₀ hds =>
      have hread := fun n ↦ eval_readDigits (k := k) (d := d) (n := n) hds hclose
      simp [parseRepeat, parseUpper, hread, hds₀, hne]
  | atLeast ds hds₀ hds =>
      have hread := fun n ↦ eval_readDigits (k := chr '}' :: k) (d := d) (c := chr ',') (n := n) hds
        (by decide)
      simp [parseRepeat, parseUpper, hread, hds₀, hclose]
  | between ds es hds₀ hds hes₀ hes =>
      have hlo := fun n ↦ eval_readDigits (k := es ++ chr '}' :: k) (d := d) (c := chr ',') (n := n) hds
        (by decide)
      have hhi := fun n ↦ eval_readDigits (k := k) (d := d) (n := n) hes hclose
      obtain ⟨e, es, rfl⟩ := List.exists_cons_of_ne_nil hes₀
      have he := hes e List.mem_cons_self
      simp only [List.cons_append] at hlo hhi
      simp [parseRepeat, parseUpper, hlo, hhi, hds₀, he]

/-- Without bounds and a closing brace, the brace is left. -/
theorem eval_parseRepeat_none {r : List Byte} (h : ∀ b lo hi k, Bounds b lo hi → r ≠ b ++ chr '}' :: k)
    (a : Node) : parseRepeat a ⟨chr '{' :: r, d⟩ = some (a, ⟨chr '{' :: r, d⟩) := by
  have hds : ∀ b ∈ r.takeWhile isDigit, isDigit b = true := fun b hb ↦ List.mem_takeWhile_imp hb
  have hsplit : r.takeWhile isDigit ++ r.dropWhile isDigit = r := List.takeWhile_append_dropWhile
  have hhead : ∀ {c : Byte} {w : List Byte}, c ≠ 0 → w.getD 0 0 = c → ∃ w', w = c :: w' := by
    intro c w hc hw
    cases w with
    | nil => exact absurd hw.symm hc
    | cons b w => exact ⟨w, by rw [← show b = c from hw]⟩
  unfold parseRepeat
  rw [eval_bind_of (eval_save _), eval_bind_of (eval_skip _), eval_bind_of (eval_remaining _)]
  have hread : readWhile isDigit r.length ⟨r, d⟩ =
      some (r.takeWhile isDigit, ⟨r.dropWhile isDigit, d⟩) := eval_readWhile_all isDigit le_rfl
  refine (eval_bind_of hread).trans ?_
  rw [eval_ite]
  by_cases hnil : r.takeWhile isDigit = []
  · rw [if_pos hnil]
    rfl
  rw [if_neg hnil]
  unfold parseUpper
  by_cases hcomma : (r.dropWhile isDigit).getD 0 0 ≠ chr ','
  · have hclose : (r.dropWhile isDigit).getD 0 0 ≠ chr '}' := fun hc ↦ by
      obtain ⟨w, hw⟩ := hhead (by decide) hc
      exact h _ _ _ w (.exactly _ hnil hds) (by rw [← hw, hsplit])
    simp only [List.getD_eq_getElem?_getD] at hcomma hclose
    simp [hcomma, hclose]
  rw [not_not] at hcomma
  obtain ⟨w, hw⟩ := hhead (by decide) hcomma
  rw [hw] at hsplit ⊢
  by_cases hdigit : isDigit (w.getD 0 0) = true
  · have hread := eval_readWhile_all (d := d) (k := w) isDigit le_rfl
    have hes₀ : w.takeWhile isDigit ≠ [] := by
      cases w with
      | nil => exact absurd hdigit (by decide)
      | cons b w =>
          have hb : isDigit b = true := hdigit
          rw [List.takeWhile_cons_of_pos hb]
          exact List.cons_ne_nil _ _
    have hclose : (w.dropWhile isDigit).getD 0 0 ≠ chr '}' := fun hc ↦ by
      obtain ⟨w', hw'⟩ := hhead (by decide) hc
      refine h _ _ _ w' (.between _ _ hnil hds hes₀ fun b hb ↦ List.mem_takeWhile_imp hb) ?_
      rw [List.append_assoc, List.cons_append, ← hw', List.takeWhile_append_dropWhile, hsplit]
    simp only [List.getD_eq_getElem?_getD] at hdigit hclose
    simp [hdigit, hread, hclose]
  · have hclose : w.getD 0 0 ≠ chr '}' := fun hc ↦ by
      obtain ⟨w', hw'⟩ := hhead (by decide) hc
      refine h _ _ _ w' (.atLeast _ hnil hds) ?_
      rw [List.append_assoc, List.singleton_append, ← hw', hsplit]
    simp only [List.getD_eq_getElem?_getD] at hdigit hclose
    simp [hdigit, hclose]

/-! ## References to macros -/

/-- After a `{`, the text is a reference to the macro `name`, and `k` follows. -/
structure Reference (name r k : List Byte) : Prop where
  eq : r = name ++ chr '}' :: k
  ne_nil : name ≠ []
  bytes : ∀ b ∈ name, isNameByte b = true

/-- What a reference stands for: an expansion, or an error. -/
def expandMacro (parseAlt : ParseEnv → Parser Node) (env : ParseEnv) (name : List Byte) :
    Parser Node := do
  if name ∈ env.expanding then
    report ⟨.error, env.loc, "recursive macro expansion: \x7b" ++ text name ++ "\x7d"⟩
    return .empty
  match env.macros name with
  | none =>
      report ⟨.error, env.loc, "undefined macro: \x7b" ++ text name ++ "\x7d"⟩
      return .empty
  | some exp =>
      let after ← save
      restore exp
      let inner ← parseAlt { env with expanding := name :: env.expanding }
      restore after
      return inner

theorem eval_readName {name r k : List Byte} (h : Reference name r k) {n : Nat} (hn : r.length ≤ n) :
    readWhile isNameByte n ⟨r, d⟩ = some (name, ⟨chr '}' :: k, d⟩) := by
  have hlen : name.length ≤ r.length := by
    rw [h.eq]
    exact (List.prefix_append _ _).length_le
  rw [h.eq]
  refine eval_readWhile h.bytes (fun c hc ↦ ?_) (hlen.trans hn)
  rw [← Option.some.inj hc]
  decide

/-- A reference is expanded. -/
theorem eval_parseMacro_reference {name r k : List Byte} (h : Reference name r k) :
    parseMacro rec env ⟨chr '{' :: r, d⟩ = expandMacro rec env name ⟨k, d⟩ := by
  unfold parseMacro
  rw [eval_bind_of (eval_save _), eval_bind_of (eval_skip _), eval_bind_of (eval_remaining _)]
  refine (eval_bind_of (eval_readName h le_rfl)).trans ?_
  have hgo : ¬ (name = [] ∨ (chr '}' :: k).getD 0 0 ≠ chr '}') := not_or.2 ⟨h.ne_nil, not_not.2 rfl⟩
  rw [eval_bind_of (eval_peek _), eval_ite]
  refine (if_neg hgo).trans ?_
  rw [eval_bind_of (eval_skip _)]
  rfl

/-- Where there is no reference, the name ends without its brace. -/
theorem stops_of_literal {r : List Byte} (h : ∀ name k, ¬ Reference name r k) :
    r.takeWhile isNameByte = [] ∨ (r.dropWhile isNameByte).getD 0 0 ≠ chr '}' := by
  refine or_iff_not_imp_left.2 fun hne hclose ↦ ?_
  cases hdrop : r.dropWhile isNameByte with
  | nil =>
      rw [hdrop] at hclose
      exact absurd hclose (by decide)
  | cons c k =>
      rw [hdrop] at hclose
      obtain rfl : c = chr '}' := hclose
      refine h (r.takeWhile isNameByte) k ⟨?_, hne, fun b hb ↦ List.mem_takeWhile_imp hb⟩
      rw [← hdrop, List.takeWhile_append_dropWhile]

/-- Any other `{` is a byte. -/
theorem eval_parseMacro_literal {r : List Byte} (h : ∀ name k, ¬ Reference name r k) :
    parseMacro rec env ⟨chr '{' :: r, d⟩ = some (litNode (chr '{') env.ci, ⟨r, d⟩) := by
  have hread : readWhile isNameByte r.length ⟨r, d⟩ =
      some (r.takeWhile isNameByte, ⟨r.dropWhile isNameByte, d⟩) := eval_readWhile_all isNameByte le_rfl
  unfold parseMacro
  rw [eval_bind_of (eval_save _), eval_bind_of (eval_skip _), eval_bind_of (eval_remaining _)]
  refine (eval_bind_of hread).trans ?_
  rw [eval_bind_of (eval_peek _), eval_ite, if_pos (stops_of_literal h)]
  rfl

end Parser

end LexCpp
