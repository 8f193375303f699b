import LexCpp.Regex.Reading

/-!
# Fully bracketed expressions

A regular expression written so that nothing is left to precedence: a byte set is a bracket
of `\xHH` escapes, the empty string is `()`, and every operand stands in parentheses.  The
parser reads it as it is written, and stops exactly where it ends.
-/

namespace LexCpp

/-- A regular expression over nonempty byte sets, listed in any order. -/
inductive Expr where
  | set (bytes : List Byte) (h : bytes ≠ [])
  | empty
  | concat (a b : Expr)
  | alt (a b : Expr)
  | repeated (q : Operator) (h : q.Fits) (a : Expr)

namespace Expr

/-- The language the expression stands for. -/
def lang : Expr → Language Byte
  | set bytes _ => {w | ∃ b ∈ bytes, w = [b]}
  | empty => 1
  | concat a b => a.lang * b.lang
  | alt a b => a.lang + b.lang
  | repeated q _ a => q.lang a.lang

/-- Text in parentheses. -/
def group (w : List Byte) : List Byte := chr '(' :: (w ++ [chr ')'])

/-- The text of the expression. -/
def render : Expr → List Byte
  | set bytes _ => chr '[' :: (bytes.flatMap Parser.hexEscape ++ [chr ']'])
  | empty => group []
  | concat a b => group a.render ++ group b.render
  | alt a b => group a.render ++ chr '|' :: group b.render
  | repeated q _ a => group a.render ++ q.render

/-- The tree of the expression. -/
def tree : Expr → Node
  | set bytes _ => .cls (ByteSet.addAll {} bytes)
  | empty => .empty
  | concat a b => .concat a.tree b.tree
  | alt a b => .alt a.tree b.tree
  | repeated q _ a => q.tree a.tree

/-- How deep its groups are nested. -/
def depth : Expr → Nat
  | set _ _ => 0
  | empty => 1
  | concat a b | alt a b => max a.depth b.depth + 1
  | repeated _ _ a => a.depth + 1

end Expr

namespace Parser

variable {env : ParseEnv} {k : List Byte} {d : List Diag}

/-! ## Byte sets -/

/-- The items of a bracket of escapes. -/
theorem eval_classLoop (hci : env.ci = false) {bytes : List Byte} {n : Nat} (hn : bytes.length < n)
    (first : Bool) (hfirst : bytes = [] → first = false) (cls : ByteSet) :
    classLoop env n first cls ⟨bytes.flatMap hexEscape ++ chr ']' :: k, d⟩ =
      some (cls.addAll bytes, ⟨chr ']' :: k, d⟩) := by
  induction n generalizing bytes first cls with
  | zero => exact absurd hn (Nat.not_lt_zero _)
  | succ n ih =>
      cases bytes with
      | nil => simp [classLoop, hfirst rfl, ByteSet.addAll]
      | cons b bytes =>
          have hrec : classLoop env n false (cls.add b)
              ⟨bytes.flatMap hexEscape ++ chr ']' :: k, d⟩ = _ :=
            ih (Nat.lt_of_succ_lt_succ hn) false (fun _ ↦ rfl) (cls.add b)
          have hread := eval_readClassByte_hexEscape (d := d)
            (k := bytes.flatMap hexEscape ++ chr ']' :: k) b
          obtain ⟨c, w, hw, hc⟩ : ∃ c w,
              bytes.flatMap hexEscape ++ chr ']' :: k = c :: w ∧ c ≠ chr '-' := by
            cases bytes with
            | nil => exact ⟨chr ']', k, rfl, by decide⟩
            | cons c bytes => exact ⟨chr '\\', _, rfl, by decide⟩
          have hbyte : cls.addByteCi b env.ci = cls.add b := by rw [hci]; rfl
          rw [hw] at hrec hread
          simp only [hexEscape, List.cons_append, List.nil_append] at hread
          simp [classLoop, hexEscape, hw, hread, hc, hbyte, hrec, ByteSet.addAll,
            show chr '\\' ≠ chr ']' by decide, show chr '\\' ≠ chr '[' by decide]

/-- A bracket of escapes. -/
theorem eval_parseClass (hci : env.ci = false) {bytes : List Byte} (hbytes : bytes ≠ []) :
    parseClass env ⟨(Expr.set bytes hbytes).render ++ k, d⟩ =
      some (.cls (ByteSet.addAll {} bytes), ⟨k, d⟩) := by
  have hlen : bytes.length < (bytes.flatMap hexEscape ++ chr ']' :: k).length + 1 := by
    have hmul : (bytes.flatMap hexEscape).length = bytes.length * 4 := by
      rw [List.length_flatMap]
      simp [hexEscape]
    rw [List.length_append, hmul]
    omega
  have hloop := eval_classLoop (k := k) (d := d) hci hlen true (fun h ↦ absurd h hbytes) {}
  have hplain : accept '^' ⟨bytes.flatMap hexEscape ++ chr ']' :: k, d⟩ =
      some (false, ⟨bytes.flatMap hexEscape ++ chr ']' :: k, d⟩) := by
    obtain ⟨b, bs, rfl⟩ := List.exists_cons_of_ne_nil hbytes
    rw [eval_accept, if_neg]
    exact (by decide : chr '\\' ≠ chr '^')
  rw [Expr.render, List.cons_append, List.append_assoc, parseClass, eval_bind_of (eval_skip _)]
  change (accept '^' >>= _) ⟨bytes.flatMap hexEscape ++ chr ']' :: k, d⟩ = _
  rw [eval_bind_of hplain, eval_bind_of (eval_remaining _), eval_bind_of hloop]
  simp

/-! ## Expressions -/

/-- What comes after a whole alternation: the end, or the end of a group. -/
def Closes (k : List Byte) : Prop := k.getD 0 0 = 0 ∨ k.getD 0 0 = chr ')'

namespace Closes

theorem group (k : List Byte) : Closes (chr ')' :: k) := Or.inr rfl

theorem terminates (h : Closes k) : isConcatTerminator (k.getD 0 0) = true := by
  rcases h with h | h
  · rw [h]; decide
  · rw [h]; decide

theorem ne_bar (h : Closes k) : k.getD 0 0 ≠ chr '|' := by
  rcases h with h | h
  · rw [h]; decide
  · rw [h]; decide

theorem no_operator (h : Closes k) : isOperatorByte (k.getD 0 0) = false := by
  rcases h with h | h
  · rw [h]; decide
  · rw [h]; decide

end Closes

/-- An alternation of one branch. -/
theorem eval_parseAlt_one {fuel : Nat} {w : List Byte} {t : Node}
    (h : parseConcat (parseAlt fuel) env ⟨w, d⟩ = some (t, ⟨k, d⟩)) (hk : Closes k) :
    parseAlt (fuel + 1) env ⟨w, d⟩ = some (t, ⟨k, d⟩) := by
  rw [parseAlt, eval_bind_of h, eval_bind_of (eval_remaining _)]
  exact eval_altLoop_stop hk.ne_bar _

/-- An operand in parentheses. -/
theorem eval_operand {w : List Byte} {t : Node} {n : Nat}
    (h : ∀ {fuel : Nat} {k : List Byte}, n ≤ fuel → Closes k →
      parseAlt (fuel + 1) env ⟨w ++ k, d⟩ = some (t, ⟨k, d⟩))
    {fuel : Nat} (hfuel : n + 1 ≤ fuel) (k : List Byte) :
    parsePrimary (parseAlt fuel) env ⟨Expr.group w ++ k, d⟩ = some (some t, ⟨k, d⟩) := by
  obtain ⟨m, rfl⟩ := Nat.exists_eq_add_of_le' hfuel
  have hclose : parseAlt (m + n + 1) env ⟨w ++ chr ')' :: k, d⟩ = some (t, ⟨chr ')' :: k, d⟩) :=
    h (Nat.le_add_left n m) (Closes.group k)
  rw [Expr.group, List.cons_append, List.append_assoc]
  exact eval_parsePrimary_group hclose

theorem length_group_append (w k : List Byte) :
    (Expr.group w ++ k).length = w.length + k.length + 1 + 1 := by
  simp only [Expr.group, List.length_append, List.length_cons, List.length_nil]
  omega

theorem starts_group (w k : List Byte) :
    isConcatTerminator ((Expr.group w ++ k).getD 0 0) = false ∧
      isOperatorByte ((Expr.group w ++ k).getD 0 0) = false :=
  (by decide : isConcatTerminator (chr '(') = false ∧ isOperatorByte (chr '(') = false)

/-- **The parser reads a fully bracketed expression as it is written**, and stops where the
expression ends. -/
theorem eval_parseAlt_render (hci : env.ci = false) (e : Expr) {fuel : Nat} {k : List Byte}
    (hfuel : e.depth ≤ fuel) (hk : Closes k) :
    parseAlt (fuel + 1) env ⟨e.render ++ k, d⟩ = some (e.tree, ⟨k, d⟩) := by
  induction e generalizing fuel k with
  | set bytes hbytes =>
      have hclass : parsePrimary (parseAlt fuel) env ⟨(Expr.set bytes hbytes).render ++ k, d⟩ =
          some (some (.cls (ByteSet.addAll {} bytes)), ⟨k, d⟩) :=
        eval_parsePrimary_class (eval_parseClass hci hbytes)
      refine eval_parseAlt_one (eval_parseConcat_one ?_ ?_ hk.terminates) hk
      · exact (by decide : isConcatTerminator (chr '[') = false)
      · exact eval_parsePostfix_plain hclass hk.no_operator
  | empty =>
      obtain ⟨m, rfl⟩ := Nat.exists_eq_add_of_le' hfuel
      have hnothing : parseAlt (m + 1) env ⟨[] ++ chr ')' :: k, d⟩ =
          some (.empty, ⟨chr ')' :: k, d⟩) := by
        refine eval_parseAlt_one (eval_parseConcat (o := none) ?_) (Closes.group k)
        exact eval_concatLoop_stop (Closes.group k).terminates _ _
      refine eval_parseAlt_one (eval_parseConcat_one ?_ ?_ hk.terminates) hk
      · exact (starts_group [] k).1
      · exact eval_parsePostfix_plain (eval_parsePrimary_group hnothing) hk.no_operator
  | concat a b iha ihb =>
      have ha := eval_operand iha ((Nat.succ_le_succ (le_max_left _ _)).trans hfuel)
        (Expr.group b.render ++ k)
      have hb := eval_operand ihb ((Nat.succ_le_succ (le_max_right _ _)).trans hfuel) k
      have hsecond := eval_parsePostfix_plain hb hk.no_operator
      have hfirst := eval_parsePostfix_plain ha (starts_group b.render k).2
      refine eval_parseAlt_one (eval_parseConcat (o := some (.concat a.tree b.tree)) ?_) hk
      rw [Expr.render, List.append_assoc, length_group_append]
      rw [eval_concatLoop_step (starts_group _ _).1 hfirst]
      rw [eval_concatLoop_step (starts_group _ _).1 hsecond]
      exact eval_concatLoop_stop hk.terminates _ _
  | alt a b iha ihb =>
      have ha := eval_operand iha ((Nat.succ_le_succ (le_max_left _ _)).trans hfuel)
        (chr '|' :: (Expr.group b.render ++ k))
      have hb := eval_operand ihb ((Nat.succ_le_succ (le_max_right _ _)).trans hfuel) k
      have hfirst : parseConcat (parseAlt fuel) env
          ⟨Expr.group a.render ++ chr '|' :: (Expr.group b.render ++ k), d⟩ =
            some (a.tree, ⟨chr '|' :: (Expr.group b.render ++ k), d⟩) :=
        eval_parseConcat_one (starts_group _ _).1
          (eval_parsePostfix_plain ha (by decide : isOperatorByte (chr '|') = false))
          (by decide : isConcatTerminator (chr '|') = true)
      have hsecond : parseConcat (parseAlt fuel) env ⟨Expr.group b.render ++ k, d⟩ =
          some (b.tree, ⟨k, d⟩) :=
        eval_parseConcat_one (starts_group _ _).1 (eval_parsePostfix_plain hb hk.no_operator)
          hk.terminates
      rw [Expr.render, List.append_assoc, List.cons_append, parseAlt, eval_bind_of hfirst,
        eval_bind_of (eval_remaining _)]
      rw [eval_altLoop_step hsecond]
      exact eval_altLoop_stop hk.ne_bar _
  | repeated q hq a ih =>
      have ha := eval_operand ih hfuel (q.render ++ k)
      rw [Expr.render, List.append_assoc, Expr.tree, ← Operator.parsed_eq_tree hq]
      refine eval_parseAlt_one (eval_parseConcat_one ?_ ?_ hk.terminates) hk
      · exact (starts_group _ _).1
      · exact eval_parsePostfix_operator q ha

end Parser

namespace Expr

/-! ## Languages -/

theorem lang_tree (e : Expr) : e.tree.lang = e.lang := by
  induction e with
  | set bytes hbytes =>
      ext w
      change (∃ b, (ByteSet.addAll {} bytes).test b = true ∧ w = [b]) ↔ ∃ b ∈ bytes, w = [b]
      simp only [ByteSet.test_addAll, ByteSet.test_default, Bool.false_or, decide_eq_true_iff]
  | empty => rfl
  | concat a b iha ihb =>
      rw [lang, ← iha, ← ihb]
      rfl
  | alt a b iha ihb =>
      rw [lang, ← iha, ← ihb]
      rfl
  | repeated q hq a ih =>
      rw [lang, ← ih]
      exact Operator.lang_tree hq _

theorem head_render_ne (e : Expr) : e.render.getD 0 0 ≠ chr '^' := by
  cases e with
  | set bytes hbytes => exact (by decide : chr '[' ≠ chr '^')
  | _ => exact (by decide : chr '(' ≠ chr '^')

end Expr

/-- **Fully bracketed text is read as written**: without a diagnostic, to its end, and as a tree
for the language of the expression. -/
theorem parseRegex_render (e : Expr) (macros : List Byte → Option (List Byte)) (loc : SourceLoc)
    {fuel : Nat} (hfuel : e.depth < fuel) :
    ∃ t, Parser.parseTop fuel { macros, loc } { rest := e.render } = some (some t, { rest := [] }) ∧
      parseRegex fuel { macros, loc } e.render = some (some t, []) ∧ t.lang = e.lang := by
  obtain ⟨n, rfl⟩ := Nat.exists_eq_add_of_lt hfuel
  have hbol : Parser.accept '^' { rest := e.render } = some (false, { rest := e.render }) := by
    rw [Parser.eval_accept, if_neg e.head_render_ne]
  have halt : Parser.parseAlt (e.depth + n + 1) { macros, loc } ⟨e.render ++ [], []⟩ =
      some (e.tree, ⟨[], []⟩) :=
    Parser.eval_parseAlt_render rfl e (Nat.le_add_right e.depth n) (Or.inl rfl)
  rw [List.append_nil] at halt
  have htop : Parser.parseTop (e.depth + n + 1) { macros, loc } { rest := e.render } =
      some (some e.tree, { rest := [] }) := by
    rw [Parser.parseTop, eval_bind_of hbol, eval_bind_of halt]
    rfl
  refine ⟨e.tree, htop, ?_, e.lang_tree⟩
  rw [parseRegex, htop]
  rfl

/-- `([\x61\x62]){2,}` is read in two levels of groups. -/
theorem parseRegex_render_repeated :
    ∃ t, Parser.parseTop 2 { macros := fun _ ↦ none, loc := {} }
        { rest := (Expr.repeated (.atLeast 2) (by decide) (.set [97, 98] (by decide))).render } =
          some (some t, { rest := [] }) ∧
      parseRegex 2 { macros := fun _ ↦ none, loc := {} }
        (Expr.repeated (.atLeast 2) (by decide) (.set [97, 98] (by decide))).render =
          some (some t, []) ∧
      t.lang = (Expr.repeated (.atLeast 2) (by decide) (.set [97, 98] (by decide))).lang :=
  parseRegex_render (.repeated (.atLeast 2) (by decide) (.set [97, 98] (by decide)))
    (fun _ ↦ none) {} (by decide)

end LexCpp
