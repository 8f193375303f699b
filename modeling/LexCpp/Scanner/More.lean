import LexCpp.Scanner.Calls

/-!
# yymore

The prefix that `yymore` keeps is remembered in a flag, which the action sets and the next
match clears, and an offset, which the end of the loop body computes from the flag.  An
action that returns and the default rule both leave the loop body before its end, so they
leave the offset as it was (`Lexer.KeepsMore`).
-/

namespace LexCpp

/-- **What `yytext` should be**: the texts of the matches before it, back to the last whose
action did not call `yymore`, and then the match's own text.  `pre` is what is kept so far;
the default rule keeps nothing, and nothing follows the end of the buffer or a jam. -/
def TextsJoin : List Byte → List Effect → List Event → Prop
  | pre, e :: es, .token _ own text :: evs =>
      text = pre ++ own ∧ TextsJoin (if e.more then pre ++ own else []) es evs
  | _, _ :: es, .echo _ :: evs => TextsJoin [] es evs
  | _, _, _ => True

namespace Lexer

/-- The iteration leaves the offset that the prefix asks for: the default rule does not meet
a pending prefix, and an action that returns neither drops one nor starts one, unless its own
text is empty.  The text is shorter than `2^31` bytes. -/
def KeepsMore (t : Tables) (s : Lexer) (e : Effect) : Prop :=
  s.bufPos < s.bufEnd →
    match bodyMatch t s.textUnseal.buf s.bufPos s.start s.atBol with
    | none => s.moreOffset ≤ 0
    | some m =>
        s.textLen m < 2147483648 ∧
          (e.returns = true → if e.more then m.len = 0 else s.moreOffset ≤ 0)

instance decidableKeepsMore (t : Tables) (s : Lexer) (e : Effect) : Decidable (KeepsMore t s e) :=
  match h : bodyMatch t s.textUnseal.buf s.bufPos s.start s.atBol with
  | none =>
      decidable_of_iff (s.bufPos < s.bufEnd → s.moreOffset ≤ 0) (by rw [KeepsMore, h])
  | some m =>
      decidable_of_iff
        (s.bufPos < s.bufEnd → s.textLen m < 2147483648 ∧
          (e.returns = true → if e.more then m.len = 0 else s.moreOffset ≤ 0))
        (by rw [KeepsMore, h])

/-- **The invariant**: the offset says where the prefix starts, which ends at the position. -/
structure MoreInv (bytes pre : List Byte) (nconds : Nat) (s : Lexer) : Prop
    extends s.Intact bytes nconds where
  pre_eq : pre = (bytes.take s.bufPos).drop (s.bufPos - s.moreOffset.toNat)

variable {t : Tables} {G : Grammar} {nconds : Nat} {bytes pre : List Byte} {s : Lexer}

/-- The text of a match is the prefix and its own bytes. -/
theorem MoreInv.yytext_accept (h : s.MoreInv bytes pre nconds) {m : Match}
    (hin : s.bufPos + m.len ≤ s.bufEnd) (hlen : s.textLen m < 2147483648) :
    (s.textUnseal.accept m).yytext = pre ++ (bytes.drop s.bufPos).take m.len ∧
      (s.textUnseal.accept m).yytext =
        (bytes.take (s.bufPos + m.len)).drop (s.bufPos - s.moreOffset.toNat) := by
  obtain ⟨-, -, htext⟩ := h.toIntact.accept hin hlen
  have hown : (bytes.drop s.bufPos).take m.len = (bytes.take (s.bufPos + m.len)).drop s.bufPos := by
    rw [List.take_drop]
  refine ⟨?_, htext⟩
  rw [htext, hown, drop_eq_append_drop _ (Nat.sub_le s.bufPos s.moreOffset.toNat), List.take_take,
    min_eq_left (Nat.le_add_right _ _), ← h.pre_eq]

/-- **One match.**  What its action leaves of the prefix. -/
theorem MoreInv.act (h : s.MoreInv bytes pre nconds) {m : Match}
    (hin : s.bufPos + m.len ≤ s.bufEnd) {e : Effect} (hstart : ∀ c ∈ e.start, c < nconds)
    (hlen : s.textLen m < 2147483648)
    (hret : e.returns = true → if e.more then m.len = 0 else s.moreOffset ≤ 0) :
    ((s.textUnseal.accept m).act e).MoreInv bytes
      (if e.more then pre ++ (bytes.drop s.bufPos).take m.len else []) nconds := by
  obtain ⟨htext, hcut⟩ := h.yytext_accept hin hlen
  obtain ⟨-, hleng, -⟩ := h.toIntact.accept hin hlen
  have hpos : (s.textUnseal.accept m).bufPos = s.bufPos + m.len := by
    rw [bufPos_accept, bufPos_textUnseal]
  have hkeep : (s.textUnseal.accept m).moreOffset = s.moreOffset := moreOffset_textUnseal s
  have hnil : ([] : List Byte) = (bytes.take (s.bufPos + m.len)).drop (s.bufPos + m.len - 0) :=
    (List.drop_eq_nil_of_le (List.length_take_le _ _)).symm
  refine { h.toIntact.act hin hlen hstart with pre_eq := ?_ }
  rw [moreOffset_act, moreFlag_accept, Bool.false_or, hkeep, hleng, bufPos_act, hpos]
  cases hr : e.returns with
  | true =>
      have hret := hret hr
      cases hmore : e.more with
      | true =>
          rw [hmore, if_pos rfl] at hret
          simp only [if_true]
          rw [← htext, hcut, hret, Nat.add_zero]
      | false =>
          rw [hmore, if_neg Bool.false_ne_true] at hret
          simp only [if_true, Bool.false_eq_true, if_false]
          rw [Int.toNat_of_nonpos hret]
          exact hnil
  | false =>
      cases hmore : e.more with
      | true =>
          simp only [if_true, Bool.false_eq_true, if_false]
          rw [← htext, hcut, Int.toNat_natCast, textLen_eq, Nat.add_sub_add_right]
      | false => exact hnil

/-- The default rule, with nothing kept. -/
theorem MoreInv.echo (h : s.MoreInv bytes pre nconds) (hoff : s.moreOffset ≤ 0)
    (hlt : s.bufPos < s.bufEnd) : s.textUnseal.echo.2.MoreInv bytes [] nconds := by
  have hoffset : s.textUnseal.echo.2.moreOffset = s.moreOffset := moreOffset_textUnseal s
  refine { h.toIntact.echo hlt with pre_eq := ?_ }
  rw [hoffset, Int.toNat_of_nonpos hoff, Nat.sub_zero]
  exact (List.drop_eq_nil_of_le (List.length_take_le _ _)).symm

/-- **One run**, from the prefix that is kept so far. -/
theorem MoreInv.run (ht : t.Implements G) {usesReject : Bool} (ha : t.yyAccept.isSome = usesReject)
    (he : t.yyRuleEol.isSome = usesReject) (nodefault : Bool) (es : List Effect)
    (hes : ∀ e ∈ es, ∀ c ∈ e.start, c < G.condNames.length)
    (h : s.MoreInv bytes pre G.condNames.length) (halong : s.Along (KeepsMore t) t nodefault es) :
    TextsJoin pre es (s.run t nodefault es).1 := by
  induction es generalizing s pre with
  | nil => exact trivial
  | cons e es ih =>
      obtain ⟨hkeep, halong⟩ := halong
      have ih := fun {s pre} ↦ @ih s pre fun e' he' ↦ hes e' (List.mem_cons_of_mem e he')
      rw [Lexer.run]
      rcases Nat.lt_or_ge s.bufPos s.bufEnd with hlt | hge
      · have hkeep := hkeep hlt
        have hiter := h.toIntact.at.iterate_eq (h.bufEnd_eq ▸ hlt) t nodefault e
        rw [h.buf_eq] at hkeep
        cases hm : bodyMatch t bytes s.bufPos s.start s.atBol with
        | some m =>
            rw [hm] at hkeep hiter
            rw [hiter] at halong ⊢
            have hin : s.bufPos + m.len ≤ s.bufEnd := by
              obtain ⟨hlen, htotal⟩ := Session.len_le (bodyMatch_spec ht ha he h.start_lt hm)
              rw [List.length_drop, ← h.bufEnd_eq] at htotal
              omega
            refine ⟨(h.yytext_accept hin hkeep.1).1, ih ?_ halong⟩
            exact h.act hin (hes e List.mem_cons_self) hkeep.1 hkeep.2
        | none =>
            rw [hm] at hkeep hiter
            rw [hiter] at halong ⊢
            cases nodefault with
            | true => exact trivial
            | false => exact ih (h.echo hkeep hlt) halong
      · rw [iterate_of_le hge]
        exact trivial

end Lexer

/-- **`yymore` keeps what comes before.**  In a run whose iterations all leave the right
offset, every action has in `yytext` the texts of the matches before it, back to the last
whose action did not call `yymore`, and its own. -/
theorem yymore_joins (G : Grammar) (hG : 0 < G.condNames.length) (std : StdSort Nat)
    (mode : CompressMode) (usesReject : Bool) :
    ∃ dfa t, generate std mode usesReject G.nfa = some (dfa, t) ∧
      ∀ (nodefault : Bool) (bytes : List Byte) (es : List Effect),
        (∀ e ∈ es, ∀ c ∈ e.start, c < G.condNames.length) →
          (Lexer.init bytes).Along (Lexer.KeepsMore t) t nodefault es →
            TextsJoin [] es ((Lexer.init bytes).run t nodefault es).1 := by
  obtain ⟨dfa, t, hgen, ht, ha, he⟩ := G.exists_tables std mode usesReject
  exact ⟨dfa, t, hgen, fun nodefault bytes es hes halong ↦
    Lexer.MoreInv.run ht ha he nodefault es hes ⟨Lexer.init_intact hG bytes, rfl⟩ halong⟩

/-- The two rules `a` and `b`. -/
def twoLetters : Grammar :=
  { rules := [{ root := .cls (ByteSet.add {} 97) }, { root := .cls (ByteSet.add {} 98) }] }

/-- `a` keeps its text for `b`. -/
theorem yymore_joins_letters :
    0 < twoLetters.condNames.length ∧
    ∃ dfa t, generate (.insertion Nat) .fullEc false twoLetters.nfa = some (dfa, t) ∧
      (Lexer.init [97, 98]).Along (Lexer.KeepsMore t) t false [{ more := true }, {}] ∧
      TextsJoin [] [{ more := true }, {}]
        ((Lexer.init [97, 98]).run t false [{ more := true }, {}]).1 := by
  have hkeep : ∀ g ∈ generate (.insertion Nat) .fullEc false twoLetters.nfa,
      (Lexer.init [97, 98]).Along (Lexer.KeepsMore g.2) g.2 false [{ more := true }, {}] := by
    decide +kernel
  obtain ⟨dfa, t, hgen, h⟩ := yymore_joins twoLetters (by decide) (.insertion Nat) .fullEc false
  have halong := hkeep (dfa, t) hgen
  exact ⟨by decide, dfa, t, hgen, halong, h false [97, 98] _ (by decide) halong⟩

/-- An action that calls `yymore` and returns: the next text is only its own. -/
theorem not_textsJoin_returns :
    ((generate (.insertion Nat) .fullEc false twoLetters.nfa).map fun g ↦
      ((Lexer.init [97, 98]).run g.2 false [{ more := true, returns := true }, {}]).1) =
        some [.token 0 [97] [97], .token 1 [98] [98]] ∧
    ¬ TextsJoin [] [{ more := true, returns := true }, {}]
      [.token 0 [97] [97], .token 1 [98] [98]] := by
  constructor
  · decide +kernel
  · rintro ⟨-, h, -⟩
    exact absurd h (by decide)

end LexCpp
