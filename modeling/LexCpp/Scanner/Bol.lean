import LexCpp.Scanner.Calls

/-!
# The beginning of a line

`yy_at_bol` against the buffer.  Every operation that moves the position sets the flag from
what it has at hand: the last byte of the text, the byte pushed back, or nothing at all for
`input`.  `Session.KeepsBol` is when that is the byte before the new position.
-/

namespace LexCpp

/-- A position is 0 or comes after a newline. -/
def AtLineStart (D : List Byte) (pos : Nat) : Prop := pos = 0 ∨ D[pos - 1]? = some newline

instance (D : List Byte) (pos : Nat) : Decidable (AtLineStart D pos) :=
  inferInstanceAs (Decidable (_ ∨ _))

namespace Session

/-- The flag says whether the position is the start of a line. -/
def BolRight (s : Session) : Prop :=
  s.lx.atBol = true ↔ AtLineStart s.lx.unsealed s.lx.bufPos

/-- The step looks at the byte before the position it moves to: no empty text is taken or
left by `yyless` at the start of a line, `input` reads a newline exactly if the flag is
set, and `unput` is given a newline exactly if it moves to the start of a line.  `REJECT`
is left aside. -/
def KeepsBol (t : Tables) (nconds : Nat) (s : Session) (c : Call) : Prop :=
  s.Fits t nconds c ∧
    match c with
    | .scan => ∀ m ∈ s.ahead t, s.lx.textLen m = 0 → ¬ AtLineStart s.lx.unsealed s.lx.bufPos
    | .less n => s.lx.textActive = true ∧ (n = 0 → ¬ AtLineStart s.lx.unsealed s.lx.text)
    | .input =>
        s.lx.bufPos < s.lx.bufEnd →
          (s.lx.atBol = true ↔ s.lx.unsealed[s.lx.bufPos]? = some newline)
    | .unput b => b = newline ↔ AtLineStart s.lx.unsealed (s.lx.bufPos - 1)
    | .reject => False
    | _ => True

variable {t : Tables} {G : Grammar} {nconds : Nat} {s s' : Session}

theorem atLineStart_succ {D : List Byte} {pos : Nat} :
    AtLineStart D (pos + 1) ↔ D[pos]? = some newline := by
  simp [AtLineStart]

/-- A byte at or after the position does not matter. -/
theorem atLineStart_set {D : List Byte} {pos i : Nat} (h : pos ≤ i) (b : Byte) :
    AtLineStart (D.set i b) pos ↔ AtLineStart D pos := by
  cases pos with
  | zero => exact iff_of_true (Or.inl rfl) (Or.inl rfl)
  | succ pos => rw [atLineStart_succ, atLineStart_succ, List.getElem?_set_ne (by omega)]

theorem bolRight_of_not_active (h : s.lx.textActive = false) :
    s.BolRight ↔ (s.lx.atBol = true ↔ AtLineStart s.lx.data s.lx.bufPos) := by
  rw [BolRight, Lexer.unsealed_of_not_active h]

/-- From a selection to its action. -/
theorem bolRight_take (h : s.Inv nconds) {m : Match} (hin : s.lx.bufPos + m.len ≤ s.lx.bufEnd)
    (hfit : s.lx.moreOffset ≤ s.lx.bufPos ∧ s.lx.textLen m < 2147483648)
    (hempty : s.lx.textLen m = 0 → ¬ AtLineStart s.lx.data s.lx.bufPos) : (s.take m).BolRight := by
  have hlen : (s.lx.accept m).text + s.lx.textLen m = s.lx.bufPos + m.len := by
    have := hfit.1
    change (if 0 < s.lx.moreOffset then s.lx.bufPos - s.lx.moreOffset.toNat else s.lx.bufPos) + _ = _
    unfold Lexer.textLen
    split_ifs <;> omega
  have hflag : (s.take m).lx.atBol = decide (0 < s.lx.textLen m ∧
      (s.lx.data.set ((s.lx.accept m).text + s.lx.textLen m) 0)[
        (s.lx.accept m).text + s.lx.textLen m - 1]? = some newline) := rfl
  rw [BolRight, (h.take hin hfit).2, hflag, decide_eq_true_iff, hlen]
  change _ ↔ AtLineStart s.lx.data (s.lx.bufPos + m.len)
  rcases Nat.eq_zero_or_pos (s.lx.textLen m) with hzero | hpos
  · have hm : m.len = 0 := by
      unfold Lexer.textLen at hzero
      split_ifs at hzero <;> omega
    rw [hm]
    exact iff_of_false (fun hp ↦ absurd hp.1 (by omega)) (hempty hzero)
  · rw [and_iff_right hpos, AtLineStart, or_iff_right (by omega), List.getElem?_set_ne (by omega)]

/-- **One step.** -/
theorem bolRight_step (ht : t.Implements G) (he : t.yyRuleEol.isSome = t.yyAccept.isSome)
    (h : s.Inv G.condNames.length) (hbol : s.BolRight) {nodefault : Bool} {c : Call}
    (hc : s.KeepsBol t G.condNames.length c) (hs' : s.step t nodefault c = some s') :
    s'.BolRight := by
  have hu := h.textUnseal
  have hD : s.lx.textUnseal.textActive = false := by simp
  have hdata : s.lx.textUnseal.data = s.lx.unsealed := rfl
  cases c with
  | scan =>
      simp only [step, Option.ite_none_left_eq_some] at hs'
      replace hs' := hs'.2
      unfold scan at hs'
      split_ifs at hs' with hend
      · obtain rfl := Option.some.inj hs'
        have hunsealed : s.lx.textUnseal.atEof.2.unsealed =
            s.lx.unsealed.set s.lx.bufPos 0 := by
          rw [Lexer.unsealed_of_active rfl]
          change s.lx.textUnseal.data.set ((s.lx.textUnseal.bufPos : Int) + 0).toNat 0 = _
          rw [Lexer.bufPos_textUnseal, add_zero, Int.toNat_natCast, hdata]
        unfold BolRight at hbol ⊢
        rw [hunsealed]
        change s.lx.textUnseal.atBol = true ↔ AtLineStart _ s.lx.textUnseal.bufPos
        rw [Lexer.bufPos_textUnseal, atLineStart_set le_rfl, Lexer.atBol_textUnseal]
        exact hbol
      · cases hm : s.ahead t with
        | some m =>
            rw [hm] at hs'
            obtain rfl := Option.some.inj hs'
            have hfit := hc.1 m hm
            have hempty := hc.2 m hm
            have htext : (s.top t).lx.textLen m = s.lx.textLen m := by
              unfold Lexer.textLen
              rw [lx_top, Lexer.moreOffset_textUnseal]
            refine bolRight_take (h.top ht he) ?_ ?_ ?_
            · rw [lx_top, Lexer.bufPos_textUnseal, Lexer.bufEnd_textUnseal]
              exact h.ahead_le ht he hm
            · rw [htext, lx_top, Lexer.bufPos_textUnseal, Lexer.moreOffset_textUnseal]
              exact hfit
            · rwa [htext, lx_top, Lexer.bufPos_textUnseal, hdata]
        | none =>
            -- the flag is set from the byte that is echoed
            rw [hm] at hs'
            unfold byDefault at hs'
            split_ifs at hs' with _ hlt
            · obtain rfl := Option.some.inj hs'
              have hin : s.lx.bufPos < s.lx.unsealed.length := by
                rw [Lexer.length_unsealed]
                exact (not_le.1 hend).trans h.bufEnd_lt
              rw [BolRight, Lexer.unsealed_of_not_active (by simp [Lexer.echo])]
              change decide ((s.top t).lx.data.getD (s.top t).lx.bufPos 0 = newline) = true ↔
                AtLineStart (s.top t).lx.data ((s.top t).lx.bufPos + 1)
              rw [lx_top, Lexer.bufPos_textUnseal, hdata, atLineStart_succ, decide_eq_true_iff,
                List.getD_eq_getElem _ _ hin, List.getElem?_eq_getElem hin, Option.some.injEq]
            · exact absurd hlt (by
                rw [lx_top, Lexer.bufPos_textUnseal, Lexer.bufEnd_textUnseal, not_not]
                exact not_le.1 hend)
  | more =>
      obtain rfl := Option.some.inj hs'
      unfold BolRight at hbol ⊢
      rw [Lexer.unsealed_eq] at hbol ⊢
      exact hbol
  | start c =>
      obtain rfl := Option.some.inj hs'
      unfold BolRight at hbol ⊢
      rw [Lexer.unsealed_eq] at hbol ⊢
      exact hbol
  | less n =>
      simp only [step, Option.ite_none_right_eq_some] at hs'
      obtain ⟨⟨-, hn⟩, hs'⟩ := hs'
      obtain rfl := Option.some.inj hs'
      obtain ⟨hact, hempty⟩ := hc.2
      obtain ⟨hunsealed, hpos⟩ := Lexer.unsealed_less hact (h.sealed hact) hn
        (lt_of_le_of_lt h.pos_le h.bufEnd_lt)
      have hflag : (s.lx.less n).atBol = decide (0 < n ∧
          (s.lx.putBack.data.set (s.lx.text + n) 0)[s.lx.text + n - 1]? = some newline) := rfl
      rw [BolRight]
      change (s.lx.less n).atBol = true ↔ AtLineStart (s.lx.less n).unsealed (s.lx.less n).bufPos
      rw [hunsealed, hpos, hflag, decide_eq_true_iff]
      rcases Nat.eq_zero_or_pos n with rfl | hn₀
      · exact iff_of_false (fun hp ↦ absurd hp.1 (lt_irrefl 0)) (hempty rfl)
      · rw [and_iff_right hn₀, AtLineStart, or_iff_right (by omega), List.getElem?_set_ne (by omega),
          Lexer.unsealed_of_active hact]
  | input =>
      obtain rfl := Option.some.inj hs'
      unfold Lexer.input
      simp only [Lexer.bufEnd_textUnseal, Lexer.bufPos_textUnseal]
      split_ifs with hend
      · unfold BolRight at hbol ⊢
        simp only [Lexer.unsealed_textUnseal, Lexer.bufPos_textUnseal, Lexer.atBol_textUnseal]
        exact hbol
      · refine (bolRight_of_not_active (by exact hD)).2 ?_
        simp only [Lexer.atBol_textUnseal, hdata]
        rw [atLineStart_succ]
        exact hc.2 (not_le.1 hend)
  | unput b =>
      obtain rfl := Option.some.inj hs'
      have hb : b = newline ↔ AtLineStart s.lx.unsealed (s.lx.bufPos - 1) := hc.2
      unfold Lexer.unput
      simp only [Lexer.bufPos_textUnseal]
      split_ifs with hpos
      · refine (bolRight_of_not_active (by exact hD)).2 ?_
        simp only [decide_eq_true_eq, hpos]
        rw [hb, hpos]
        exact iff_of_true (Or.inl rfl) (Or.inl rfl)
      · refine (bolRight_of_not_active (by exact hD)).2 ?_
        simp only [decide_eq_true_eq, hdata]
        rw [atLineStart_set le_rfl]
        exact hb
  | reject => exact hc.2.elim
  | leave returns =>
      simp only [step, Option.ite_none_right_eq_some] at hs'
      obtain ⟨-, hs'⟩ := hs'
      obtain rfl := Option.some.inj hs'
      unfold BolRight at hbol ⊢
      unfold Lexer.act
      simp only
      split_ifs <;> (rw [Lexer.unsealed_eq] at hbol ⊢; exact hbol)

end Session

/-- The rule `a`. -/
def letterRule : Grammar := { rules := [{ root := .cls (ByteSet.add {} 97) }] }

end LexCpp
