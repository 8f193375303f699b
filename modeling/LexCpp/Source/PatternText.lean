import LexCpp.Regex.Closed
import LexCpp.Source.Reading

/-!
# Where a pattern ends

`read_pattern` takes the text of a pattern off a rule line with the scan of `Regex.Closed`, which
stops at a blank, a tab or a newline outside of quotes, brackets and parentheses.
-/

namespace LexCpp

namespace Reader

/-- The bytes that end a pattern. -/
def isBreak (c : Byte) : Bool := isBlank c || c = newline

theorem isBreak_special : ∀ c ∈ Piece.special, isBreak c = false := by decide +kernel

/-- One turn of the loop of `read_pattern` before a byte. -/
theorem eval_patternLoop_cons (n depth : Nat) (inClass inQuoted : Bool) {s : ReaderState} {c : Byte}
    {cs : List Byte} (hs : s.rest = c :: cs) :
    patternLoop (n + 1) depth inClass inQuoted s =
      if (!inClass && !inQuoted && depth == 0 && isBreak c) = true then some ([], s)
      else if c = chr '\\' ∧ cs ≠ [] then
        (patternLoop n depth inClass inQuoted (after s 2)).map fun p ↦ (c :: cs.getD 0 0 :: p.1, p.2)
      else
        (if inQuoted then patternLoop n depth inClass (c != chr '"') (taken s)
          else if inClass then patternLoop n depth (c != chr ']') inQuoted (taken s)
          else if c = chr '"' then patternLoop n depth inClass true (taken s)
          else if c = chr '[' then patternLoop n depth true inQuoted (taken s)
          else if c = chr '(' then patternLoop n (depth + 1) inClass inQuoted (taken s)
          else if c = chr ')' then patternLoop n (depth - 1) inClass inQuoted (taken s)
          else patternLoop n depth inClass inQuoted (taken s)).map fun p ↦ (c :: p.1, p.2) := by
  have hlen : 1 < cs.length + 1 ↔ cs ≠ [] := by
    rw [Nat.lt_add_left_iff_pos, List.length_pos_iff]
  rw [patternLoop]
  simp only [eval_bind, eval_atEnd, hs, List.isEmpty_cons, Option.bind_some, eval_ite,
    Bool.false_eq_true, if_false, eval_peek, List.getD_cons_zero, eval_remaining,
    List.length_cons, hlen, eval_skip, eval_getByte, rest_taken, List.tail_cons, eval_pure,
    Option.map_eq_bind, isBreak]
  split_ifs
  all_goals rfl

/-- The loop of `read_pattern` is such a scan. -/
theorem eval_patternLoop {n : Nat} (depth : Nat) {inClass inQuoted : Bool}
    (hmode : inClass = false ∨ inQuoted = false) {s : ReaderState} (hn : s.rest.length < n) :
    patternLoop n depth inClass inQuoted s =
      some (beforeStop isBreak depth inClass inQuoted false s.rest,
        after s (beforeStop isBreak depth inClass inQuoted false s.rest).length) := by
  induction n generalizing depth inClass inQuoted s with
  | zero => exact absurd hn (Nat.not_lt_zero _)
  | succ n ih =>
      cases hs : s.rest with
      | nil => simp [patternLoop, hs, beforeStop]
      | cons c cs =>
          have hrest : (taken s).rest = cs := by rw [rest_taken, hs]; rfl
          rw [hs] at hn
          have hgo : ∀ d {ic iq}, ic = false ∨ iq = false →
              (patternLoop n d ic iq (taken s)).map (fun p ↦ (c :: p.1, p.2)) =
                some (c :: beforeStop isBreak d ic iq false cs,
                  after s (c :: beforeStop isBreak d ic iq false cs).length) := by
            intro d ic iq hm
            rw [ih d hm (by rw [hrest]; exact Nat.lt_of_succ_lt_succ hn), hrest, after_taken]
            rfl
          rw [eval_patternLoop_cons n depth inClass inQuoted hs, beforeStop,
            if_neg Bool.false_ne_true]
          by_cases hstop : (!inClass && !inQuoted && depth == 0 && isBreak c) = true
          · rw [if_pos hstop, if_pos hstop]
            rfl
          rw [if_neg hstop, if_neg hstop]
          by_cases hesc : c = chr '\\' ∧ cs ≠ []
          · obtain ⟨e, w, rfl⟩ := List.exists_cons_of_ne_nil hesc.2
            have hrest' : (after s 2).rest = w := by rw [rest_after, hs]; rfl
            have hlen : (after s 2).rest.length < n := by
              rw [hrest']
              exact Nat.lt_of_succ_lt (Nat.lt_of_succ_lt_succ hn)
            rw [if_pos hesc, if_pos hesc, ih depth hmode hlen, hrest', after_after, Nat.add_comm 2]
            rfl
          rw [if_neg hesc, if_neg hesc]
          by_cases hq : inQuoted = true
          · obtain rfl : inClass = false := hmode.resolve_right (by rw [hq]; decide)
            rw [if_pos hq, if_neg Bool.false_ne_true, if_pos hq]
            exact hgo depth (Or.inl rfl)
          obtain rfl : inQuoted = false := Bool.eq_false_iff.2 hq
          rw [if_neg hq, if_neg hq]
          by_cases hc : inClass = true
          · rw [if_pos hc, if_pos hc]
            exact hgo depth (Or.inr rfl)
          rw [if_neg hc, if_neg hc]
          by_cases hbracket : c = chr '['
          · rw [if_pos hbracket, if_neg (by rw [hbracket]; decide), if_pos hbracket]
            exact hgo depth (Or.inr rfl)
          rw [if_neg hbracket, if_neg hbracket]
          by_cases hquote : c = chr '"'
          · rw [if_pos hquote, if_pos hquote]
            exact hgo depth (Or.inl (Bool.eq_false_iff.2 hc))
          rw [if_neg hquote, if_neg hquote]
          by_cases hopen : c = chr '('
          · rw [if_pos hopen, if_pos hopen]
            exact hgo (depth + 1) hmode
          rw [if_neg hopen, if_neg hopen]
          by_cases hclose : c = chr ')'
          · rw [if_pos hclose, if_pos hclose]
            exact hgo (depth - 1) hmode
          rw [if_neg hclose, if_neg hclose]
          exact hgo depth hmode

theorem eval_readPattern (s : ReaderState) : readPattern s =
    some (beforeStop isBreak 0 false false false s.rest,
      after s (beforeStop isBreak 0 false false false s.rest).length) := by
  rw [readPattern, eval_bind_of (eval_remaining s)]
  exact eval_patternLoop 0 (Or.inl rfl) (Nat.lt_succ_self _)

/-- What `read_pattern` has to take off a line: all the pieces before a blank, or all the rest. -/
def PatternRight (env : ParseEnv) (ps : List Piece) : Prop :=
  (∀ (s : ReaderState) (c : Byte) (r : List Byte), isBreak c = true →
    s.rest = Piece.texts ps ++ c :: r → Piece.Closed env isBreak (c :: r) ps →
      readPattern s = some (Piece.texts ps, after s (Piece.texts ps).length)) ∧
  ∀ (s : ReaderState) (e : List Byte), e = [] ∨ e = [chr '\\'] → s.rest = Piece.texts ps ++ e →
    Piece.Closed env isBreak e ps →
      readPattern s = some (Piece.texts ps ++ e, after s (Piece.texts ps ++ e).length)

section Pattern

variable {env : ParseEnv} {ps : List Piece}

theorem patternRight_of_harmless (hharm : Piece.AllHarmless isBreak 0 ps) : PatternRight env ps := by
  constructor
  · intro s c r hc hs hps
    have hmet : beforeStop isBreak 0 false false false (c :: r) = [] := by
      rw [beforeStop]
      simp [hc]
    rw [eval_readPattern, hs, hps.beforeStop_eq isBreak_special hharm, hmet, List.append_nil]
  · intro s e he hs hps
    rw [eval_readPattern, hs, hps.beforeStop_eq isBreak_special hharm,
      beforeStop_end (isBreak_special _ (by decide)) he]

/-- A bracket expression that is not harmless is cut, or takes more than the pattern, somewhere. -/
theorem exists_not_patternRight {b : List Byte} {depth : Nat} (hb : ∀ k, Piece.IsBracket env b k)
    (hharm : ¬ Piece.Harmless isBreak depth b) :
    ∃ m, ¬ PatternRight env (Piece.around depth b m (chr ' ')) := by
  obtain ⟨m, -, hclosed, hwrong⟩ :=
    Piece.exists_around isBreak_special (e := chr ' ') (by decide) (by decide) hb hharm
  refine ⟨m, fun hright ↦ hwrong ?_⟩
  have hread := eval_readPattern
    { rest := Piece.texts (Piece.around depth b m (chr ' ')) ++ Piece.behind depth m (chr ' ') }
  unfold Piece.behind at *
  by_cases hlt : m < depth
  · rw [if_pos hlt] at *
    have h := hright.2 { rest := Piece.texts (Piece.around depth b m (chr ' ')) ++ [] } [] (Or.inl rfl)
      rfl hclosed
    rw [hread] at h
    rw [(Prod.mk.inj (Option.some.inj h)).1, List.append_nil]
  · rw [if_neg hlt] at *
    have h := hright.1 { rest := Piece.texts (Piece.around depth b m (chr ' ')) ++ [chr ' '] } (chr ' ')
      [] (by decide) rfl hclosed
    rw [hread] at h
    exact (Prod.mk.inj (Option.some.inj h)).1

end Pattern

/-- **The end of a pattern and the brackets of the parser.**  If every bracket expression is
harmless where it stands, `read_pattern` takes all up to the first blank, tab or newline outside
of escapes, quotes, parentheses and the bracket expressions that `parse_class` reads.  A bracket
expression that is not harmless has a closed pattern around it for which it does not. -/
theorem readPattern_closed (env : ParseEnv) :
    (∀ ps, Piece.AllHarmless isBreak 0 ps → PatternRight env ps) ∧
    ∀ b depth, (∀ k, Piece.IsBracket env b k) → ¬ Piece.Harmless isBreak depth b →
      ∃ m, ¬ PatternRight env (Piece.around depth b m (chr ' ')) :=
  ⟨fun _ ↦ patternRight_of_harmless, fun _ _ ↦ exists_not_patternRight⟩

/-- `[^]a] x`: the bracket goes on behind its first `]`, but not by a blank. -/
theorem readPattern_closed_negated :
    PatternRight { macros := fun _ ↦ none } [.bracket [91, 94, 93, 97, 93]] := by
  refine (readPattern_closed _).1 _ ⟨⟨[.bracket [91, 94, 93], .byte 97, .byte 93],
    ⟨⟨[94], .byte (by decide) (by decide) .nil, rfl⟩, ?_⟩, rfl⟩, trivial⟩
  exact ⟨by decide, fun _ ↦ by decide, by decide, fun _ ↦ by decide, rfl⟩

/-- `[[:alpha:] ]` is one bracket expression, and `read_pattern` stops at the blank in it. -/
theorem readPattern_bracket :
    Piece.Closed { macros := fun _ ↦ none } isBreak [32, 120]
        [.bracket [91, 91, 58, 97, 108, 112, 104, 97, 58, 93, 32, 93]] ∧
      ((readPattern { rest := [91, 91, 58, 97, 108, 112, 104, 97, 58, 93, 32, 93, 32, 120] }).map
        fun r ↦ (r.1, r.2.rest)) =
          some ([91, 91, 58, 97, 108, 112, 104, 97, 58, 93], [32, 93, 32, 120]) ∧
      ¬ PatternRight { macros := fun _ ↦ none }
        [.bracket [91, 91, 58, 97, 108, 112, 104, 97, 58, 93, 32, 93]] := by
  have hrun : (Parser.parseClass { macros := fun _ ↦ none }
      { rest := [91, 91, 58, 97, 108, 112, 104, 97, 58, 93, 32, 93, 32, 120] }).map
        (fun r ↦ (r.2.rest, Diag.ok r.2.diags)) = some ([32, 120], true) := by decide +kernel
  have hread : (readPattern
      { rest := [91, 91, 58, 97, 108, 112, 104, 97, 58, 93, 32, 93, 32, 120] }).map
        (fun r ↦ (r.1, r.2.rest)) =
      some ([91, 91, 58, 97, 108, 112, 104, 97, 58, 93], [32, 93, 32, 120]) := by decide +kernel
  obtain ⟨⟨t, s⟩, hparse, heq⟩ := Option.map_eq_some_iff.1 hrun
  obtain ⟨hrest, hok⟩ := Prod.mk.inj heq
  have hclosed : Piece.Closed { macros := fun _ ↦ none } isBreak [32, 120]
      [.bracket [91, 91, 58, 97, 108, 112, 104, 97, 58, 93, 32, 93]] :=
    ⟨⟨⟨[91, 58, 97, 108, 112, 104, 97, 58, 93, 32], rfl⟩, t, s, hparse, hrest, hok⟩, rfl⟩
  refine ⟨hclosed, hread, fun hright ↦ ?_⟩
  have h := hright.1 { rest := [91, 91, 58, 97, 108, 112, 104, 97, 58, 93, 32, 93, 32, 120] } 32 [120]
    (by decide) rfl hclosed
  rw [h] at hread
  exact absurd (congrArg (Option.map fun r ↦ r.1.length) hread) (by decide)

end Reader

end LexCpp
