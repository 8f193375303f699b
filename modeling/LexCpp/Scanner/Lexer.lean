import LexCpp.Scanner.Reject

/-!
# The scanner

One iteration of the loop of `yylex`, in either body, on the buffer with its sealed
`yytext`: the byte after the text is overwritten by a NUL while an action runs, and
written back at the start of the next iteration.

What an action does is not modelled but given: an `Effect` for every iteration.  An
action that returns leaves the loop at once, and the next call of `yylex` starts the next
iteration, so that the end of the loop body is what a returning action skips.
-/

namespace LexCpp

open Munch

/-! ## What is matched -/

/-- A selected rule, the length of its match, and what trailing context leaves of it. -/
structure Match where
  rule : Nat
  total : Nat
  len : Nat
deriving DecidableEq, Repr

/-- `yy_len` after the trailing context of fixed length is taken off. -/
def cutTrail (trail : Int) (len : Nat) : Nat :=
  if 0 < trail ∧ trail ≤ len then len - trail.toNat else len

/-- `yy_len` after trailing context of varying length is taken off: up to the marker. -/
def cutBoundary (bp : Int) (mb len : Nat) : Nat :=
  if bp ≠ -1 ∧ (mb : Int) ≤ bp ∧ bp ≤ mb + len then (bp - mb).toNat else len

/-- The match of `yy_lex_body` at a position; `none` is the default rule. -/
def lexMatch (t : Tables) (buf : List Byte) (mb c : Nat) (atBol : Bool) : Option Match :=
  let s := scanFrom t buf mb c atBol
  let sel := s.select buf mb
  if sel.rule < 0 then none
  else
    let trail := t.ruleTrailLen sel.rule
    some
      { rule := sel.rule.toNat
        total := sel.len
        len :=
          if t.yyBoundary.isSome ∧ trail < 0 then
            cutBoundary (s.boundaryPos.getD sel.rule.toNat (-1)) mb sel.len
          else cutTrail trail sel.len }

/-- The first match of `yy_lex_body_reject` at a position. -/
def rejectMatch (t : Tables) (buf : List Byte) (mb c : Nat) (atBol : Bool) : Option Match :=
  let sel := rejectSelect t buf mb c atBol
  if sel.rule < 0 ∨ sel.len = 0 then none
  else some ⟨sel.rule.toNat, sel.len, cutTrail (t.ruleTrailLen sel.rule) sel.len⟩

/-- The match of whichever body was generated: the one with `REJECT` comes with
`yy_accept_off`. -/
def bodyMatch (t : Tables) (buf : List Byte) (mb c : Nat) (atBol : Bool) : Option Match :=
  if t.yyAccept.isSome then rejectMatch t buf mb c atBol else lexMatch t buf mb c atBol

/-! ## The state -/

/-- The current buffer, and the globals that `yylex` works on.  `yytext` is an index into
`data`; `data` goes on past `bufEnd` with the two NULs of the buffer. -/
structure Lexer where
  data : List Byte
  bufEnd : Nat
  bufPos : Nat := 0
  atBol : Bool := true
  start : Nat := 0
  text : Nat := 0
  leng : Int := 0
  textSave : Byte := 0
  textActive : Bool := false
  moreFlag : Bool := false
  moreOffset : Int := 0
deriving DecidableEq, Repr

/-- What an action does: `yymore()`, `BEGIN`, `yy_set_bol`, and whether it returns. -/
structure Effect where
  more : Bool := false
  returns : Bool := false
  start : Option Nat := none
  atBol : Option Bool := none
deriving DecidableEq, Repr

/-- What an iteration does: run the action of a rule, with the match's own text and with
`yytext`; echo a byte by the default rule; jam, without a default rule; or end. -/
inductive Event where
  | token (rule : Nat) (own text : List Byte)
  | echo (b : Byte)
  | jam
  | eof
deriving DecidableEq, Repr

namespace Lexer

/-- A scanner at the start of a buffer that holds the given bytes. -/
def init (input : List Byte) : Lexer := { data := input ++ [0, 0], bufEnd := input.length }

/-- `yy_text_unseal`. -/
def textUnseal (s : Lexer) : Lexer :=
  if s.textActive then
    { s with data := s.data.set (s.text + s.leng).toNat s.textSave, textActive := false }
  else s

/-- The bytes of the buffer. -/
def buf (s : Lexer) : List Byte := s.data.take s.bufEnd

/-- From the selection to the action: set `yytext`, seal it, and move on. -/
def accept (s : Lexer) (m : Match) : Lexer :=
  let mb := s.bufPos
  let text := if 0 < s.moreOffset then mb - s.moreOffset.toNat else mb
  let len := if 0 < s.moreOffset then m.len + s.moreOffset.toNat else m.len
  let data := s.data.set (text + len) 0
  { s with
    bufPos := mb + m.len
    text := text
    moreFlag := false
    leng := int32 len
    textSave := s.data.getD (text + len) 0
    data := data
    textActive := true
    atBol := 0 < len ∧ data[text + len - 1]? = some newline }

/-- `yytext[0..yyleng)`. -/
def yytext (s : Lexer) : List Byte := (s.data.drop s.text).take s.leng.toNat

/-- Run the action, and the end of the loop body unless it returns. -/
def act (e : Effect) (s : Lexer) : Lexer :=
  let s := { s with
    moreFlag := s.moreFlag || e.more
    start := e.start.getD s.start
    atBol := e.atBol.getD s.atBol }
  if e.returns then s else { s with moreOffset := if s.moreFlag then s.leng else 0 }

/-- The default rule. -/
def echo (s : Lexer) : Event × Lexer :=
  let b := s.data.getD s.bufPos 0
  (.echo b, { s with bufPos := s.bufPos + 1, atBol := b = newline })

/-- The end of the buffer, with the action that ends the scan. -/
def atEof (s : Lexer) : Event × Lexer :=
  (.eof, { s with text := s.bufPos, leng := 0, textSave := 0, textActive := true })

/-- One iteration of the loop of `yylex`. -/
def iterate (t : Tables) (nodefault : Bool) (e : Effect) (s : Lexer) : Event × Lexer :=
  let s := s.textUnseal
  if s.bufEnd ≤ s.bufPos then s.atEof
  else
    match bodyMatch t s.buf s.bufPos s.start s.atBol with
    | none => if nodefault then (.jam, s) else s.echo
    | some m =>
        let s' := s.accept m
        (.token m.rule ((s.buf.drop s.bufPos).take m.len) s'.yytext, s'.act e)

/-- A run: one iteration for every effect. -/
def run (t : Tables) (nodefault : Bool) : List Effect → Lexer → List Event × Lexer
  | [], s => ([], s)
  | e :: es, s =>
      let (ev, s) := s.iterate t nodefault e
      let (evs, s) := s.run t nodefault es
      (ev :: evs, s)

end Lexer

/-! ## Matches and languages -/

section Match

variable {t : Tables} {G : Grammar} {c : Nat}

/-- The default rule is taken where nothing is considered. -/
theorem lexMatch_eq_none_iff (ht : t.Implements G) (hc : c < G.condNames.length) (buf : List Byte)
    (mb : Nat) (atBol : Bool) : lexMatch t buf mb c atBol = none ↔
      ∀ n r, ¬ Considered G c atBol (buf.drop mb) n r := by
  rw [← (lexSelect_spec ht hc buf mb atBol).neg_iff]
  unfold lexMatch
  simp only
  rw [ite_eq_left_iff]
  exact ⟨fun h ↦ by_contra fun hneg ↦ Option.some_ne_none _ (h hneg), fun h hneg ↦ absurd h hneg⟩

/-- The matched rule is the best of those considered. -/
theorem isGreatest_of_lexMatch (ht : t.Implements G) (hc : c < G.condNames.length)
    {buf : List Byte} {mb : Nat} {atBol : Bool} {m : Match}
    (h : lexMatch t buf mb c atBol = some m) :
    IsGreatest (candidates (Considered G c atBol (buf.drop mb))) (cand m.total m.rule) := by
  have hsel := lexSelect_spec ht hc buf mb atBol
  unfold lexMatch at h
  simp only at h
  rw [Option.ite_none_left_eq_some, Option.some.injEq] at h
  obtain ⟨hpos, rfl⟩ := h
  refine Selects.natCast_iff.1 ?_
  rwa [Int.toNat_of_nonneg (not_lt.1 hpos)]

end Match

/-- The first `n` of the bytes left are a word of rule `r`, which is active. -/
def Grammar.WordAt (G : Grammar) (c : Nat) (atBol : Bool) (rest : List Byte) (n r : Nat) : Prop :=
  0 < n ∧ n ≤ rest.length ∧ ∃ spec, G.rules[r]? = some spec ∧ spec.Active G.condExcl c atBol ∧
    rest.take n ∈ spec.body.lang

/-- Without `$` and without empty classes, the matches considered are the words of the
rules. -/
theorem considered_iff_wordAt {G : Grammar}
    (hG : ∀ r ∈ G.rules, r.root.classesNonempty = true ∧ r.eol = false) {c : Nat} {atBol : Bool}
    {rest : List Byte} {n r : Nat} :
    Considered G c atBol rest n r ↔ G.WordAt c atBol rest n r := by
  have heol : G.eol r = false := by
    unfold Grammar.eol
    cases h : G.rules[r]? with
    | none => rfl
    | some spec => exact (hG spec (List.mem_of_getElem? h)).2
  have hslot : ∀ n, ¬ G.SlotAt true c atBol rest n r := fun n h ↦
    absurd (heol.symm.trans h.2) (by decide)
  rw [Considered, or_iff_left fun h ↦ hslot n h.1.2]
  unfold Grammar.SlotAt Grammar.MatchesAt Grammar.Matches Grammar.WordAt
  rw [and_iff_left heol]
  refine and_congr_right fun _ ↦ and_congr_right fun _ ↦ exists_congr fun spec ↦
    and_congr_right fun hspec ↦ and_congr_right fun _ ↦ ?_
  rw [Node.reads_eq_lang (spec.body_classesNonempty (hG spec (List.mem_of_getElem? hspec)).1)]

namespace Lexer

/-- The scanner stands at a position of a buffer, once `yytext` is unsealed. -/
structure At (s : Lexer) (buf : List Byte) (mb c : Nat) (atBol : Bool) : Prop where
  buf_eq : s.textUnseal.buf = buf
  bufEnd : s.bufEnd = buf.length
  bufPos : s.bufPos = mb
  start : s.start = c
  atBol : s.atBol = atBol

@[simp] theorem bufEnd_textUnseal (s : Lexer) : s.textUnseal.bufEnd = s.bufEnd := by
  unfold textUnseal
  split_ifs <;> rfl

@[simp] theorem bufPos_textUnseal (s : Lexer) : s.textUnseal.bufPos = s.bufPos := by
  unfold textUnseal
  split_ifs <;> rfl

@[simp] theorem start_textUnseal (s : Lexer) : s.textUnseal.start = s.start := by
  unfold textUnseal
  split_ifs <;> rfl

@[simp] theorem atBol_textUnseal (s : Lexer) : s.textUnseal.atBol = s.atBol := by
  unfold textUnseal
  split_ifs <;> rfl

@[simp] theorem moreOffset_textUnseal (s : Lexer) : s.textUnseal.moreOffset = s.moreOffset := by
  unfold textUnseal
  split_ifs <;> rfl

/-- An iteration inside the buffer does what the match says. -/
theorem At.iterate_eq {s : Lexer} {buf : List Byte} {mb c : Nat} {atBol : Bool}
    (h : s.At buf mb c atBol) (hmb : mb < buf.length) (t : Tables) (nodefault : Bool) (e : Effect) :
    s.iterate t nodefault e = match bodyMatch t buf mb c atBol with
      | none => if nodefault then (.jam, s.textUnseal) else s.textUnseal.echo
      | some m => (.token m.rule ((buf.drop mb).take m.len) (s.textUnseal.accept m).yytext,
          (s.textUnseal.accept m).act e) := by
  have hlt : ¬ s.textUnseal.bufEnd ≤ s.textUnseal.bufPos := by
    rw [bufEnd_textUnseal, bufPos_textUnseal, h.bufEnd, h.bufPos]
    omega
  rw [iterate]
  simp only
  rw [if_neg hlt, h.buf_eq, bufPos_textUnseal, start_textUnseal, atBol_textUnseal, h.bufPos,
    h.start, h.atBol]

/-- The byte that the default rule echoes. -/
theorem At.echo_fst {s : Lexer} {buf : List Byte} {mb c : Nat} {atBol : Bool}
    (h : s.At buf mb c atBol) (hmb : mb < buf.length) :
    s.textUnseal.echo.1 = .echo (buf.getD mb 0) := by
  have hget : s.textUnseal.data.getD mb 0 = buf.getD mb 0 := by
    rw [← h.buf_eq, Lexer.buf, bufEnd_textUnseal, h.bufEnd, List.getD_eq_getElem?_getD,
      List.getD_eq_getElem?_getD, List.getElem?_take_of_lt hmb]
  rw [echo, bufPos_textUnseal, h.bufPos, hget]

end Lexer

/-- **Longest match, first rule.**  Over the tables of a list of rules without `$`, the
scan selects the longest match of an active rule, and of several rules the first; if no
rule matches, `yy_rule` stays `-1` and the default rule is taken. -/
theorem longest_match_first_rule (G : Grammar)
    (hG : ∀ r ∈ G.rules, r.root.classesNonempty = true ∧ r.eol = false)
    (std : StdSort Nat) (mode : CompressMode) :
    ∃ dfa t, generate std mode false G.nfa = some (dfa, t) ∧
      ∀ c < G.condNames.length, ∀ (atBol : Bool) (buf : List Byte) (mb : Nat), mb < buf.length →
        (∃ n r : Nat, lexSelect t buf mb c atBol = ⟨r, n⟩ ∧ G.WordAt c atBol (buf.drop mb) n r ∧
          ∀ n' r', G.WordAt c atBol (buf.drop mb) n' r' → n' < n ∨ (n' = n ∧ r ≤ r')) ∨
        ((∀ n r, ¬ G.WordAt c atBol (buf.drop mb) n r) ∧
          (lexSelect t buf mb c atBol).rule = -1 ∧
          ∀ (s : Lexer) (e : Effect), s.At buf mb c atBol →
            (s.iterate t false e).1 = .echo (buf.getD mb 0)) := by
  obtain ⟨dfa, t, hgen, ht, ha, -⟩ := G.exists_tables std mode false
  refine ⟨dfa, t, hgen, fun c hc atBol buf mb hmb ↦ ?_⟩
  have hsel := (lexSelect_spec ht hc buf mb atBol).congr fun n r ↦ considered_iff_wordAt hG
  rcases hsel with ⟨hrule, -, hno⟩ | ⟨r, hrule, hg⟩
  · refine Or.inr ⟨hno, hrule, fun s e hs ↦ ?_⟩
    have hnone : bodyMatch t buf mb c atBol = none := by
      rw [bodyMatch, if_neg (by simp [ha]), lexMatch_eq_none_iff ht hc]
      exact fun n r h ↦ hno n r ((considered_iff_wordAt hG).1 h)
    rw [hs.iterate_eq hmb, hnone]
    exact hs.echo_fst hmb
  · rw [isGreatest_cand_iff] at hg
    refine Or.inl ⟨_, r, ?_, hg.1, hg.2⟩
    rw [← hrule]

/-- `ab` for a keyword, `[ab]+` for identifiers and `^a?`, which also matches nothing. -/
def keywordGrammar : Grammar :=
  { rules :=
      [{ root := .concat (.cls (ByteSet.add {} 97)) (.cls (ByteSet.add {} 98)) },
       { root := .plus (.cls ((ByteSet.add {} 97).add 98)) },
       { root := .concat .anchorBOL (.question (.cls (ByteSet.add {} 97))) }] }

/-- A keyword that is a word of the identifier rule too. -/
theorem longest_match_first_rule_keyword :
    (∀ r ∈ keywordGrammar.rules, r.root.classesNonempty = true ∧ r.eol = false) ∧
    ∃ dfa t, generate (.insertion Nat) .compress false keywordGrammar.nfa = some (dfa, t) ∧
      ((∃ n r : Nat, lexSelect t [97, 98, 32] 0 0 true = ⟨r, n⟩ ∧
          keywordGrammar.WordAt 0 true [97, 98, 32] n r) ∨
        ∀ n r, ¬ keywordGrammar.WordAt 0 true [97, 98, 32] n r) := by
  have hG : ∀ r ∈ keywordGrammar.rules, r.root.classesNonempty = true ∧ r.eol = false := by decide
  obtain ⟨dfa, t, hgen, h⟩ :=
    longest_match_first_rule keywordGrammar hG (.insertion Nat) .compress
  refine ⟨hG, dfa, t, hgen, ?_⟩
  exact (h 0 (by decide) true [97, 98, 32] 0 (by decide)).imp
    (fun ⟨n, r, hsel, hw, _⟩ ↦ ⟨n, r, hsel, hw⟩) And.left

end LexCpp
