import LexCpp.Scanner.Calls

/-!
# Counting lines

`yylineno` and the newlines still to be read.  Their sum is what a step leaves alone,
except where bytes are counted or moved over a second time: a newline in the prefix that
`yymore` keeps, given back by `yyless` or `REJECT`, or pushed back by `unput`.
-/

namespace LexCpp

namespace Session

/-- What is still to be read of the buffer. -/
def unread (s : Session) : List Byte := (s.lx.unsealed.take s.lx.bufEnd).drop s.lx.bufPos

/-- `yylineno` and the newlines still to be read. -/
def lineSum (s : Session) : Int := s.yylineno + newlines s.unread

/-- The prefix that `yymore` keeps for a match at a position. -/
def pending (s : Session) (mb : Nat) : List Byte :=
  (s.lx.unsealed.take mb).drop (mb - s.lx.moreOffset.toNat)

/-- Each newline a step moves over is counted by that step, and by no other: the prefix
kept by `yymore` has none, nor have the bytes that `yyless` or `REJECT` gives back, and
none is pushed back.  `yyless` and `REJECT` find the text as it was sealed. -/
def CountsOnce (t : Tables) (nconds : Nat) (s : Session) (c : Call) : Prop :=
  s.Fits t nconds c ∧
    match c with
    | .scan => ∀ m ∈ s.ahead t, newline ∉ s.pending s.lx.bufPos
    | .less n =>
        s.lx.textActive = true ∧ newline ∉ (s.lx.unsealed.take s.lx.bufPos).drop (s.lx.text + n)
    | .unput b => b ≠ newline
    | .reject =>
        (s.lx.textActive = true ∨
          s.lx.data[(s.lx.text + s.lx.leng).toNat]? = some s.lx.textSave) ∧
        newline ∉ (s.lx.unsealed.take (max s.yyMb s.lx.bufPos)).drop (min s.yyMb s.lx.bufPos) ∧
        ∀ m ∈ s.next t, newline ∉ s.pending s.yyMb
    | _ => True

/-! ## Newlines of a part -/

theorem newlines_eq_zero {l : List Byte} (h : newline ∉ l) : newlines l = 0 :=
  List.count_eq_zero_of_not_mem h

theorem newlines_append (l l' : List Byte) : newlines (l ++ l') = newlines l + newlines l' :=
  List.count_append

/-- Moving from one position to a later one. -/
theorem newlines_drop (l : List Byte) {a b : Nat} (h : a ≤ b) :
    newlines (l.drop a) = newlines ((l.take b).drop a) + newlines (l.drop b) := by
  rw [← newlines_append, ← drop_eq_append_drop l h]

/-- Moving over one byte. -/
theorem newlines_drop_succ {D : List Byte} {p e : Nat} (hp : p < e) (he : e ≤ D.length) :
    newlines ((D.take e).drop p) = newlines [D.getD p 0] + newlines ((D.take e).drop (p + 1)) := by
  have hlen : p < D.length := hp.trans_le he
  have hbyte : ((D.take e).take (p + 1)).drop p = [D.getD p 0] := by
    rw [List.take_take, min_eq_left hp, List.drop_take, Nat.add_sub_cancel_left,
      List.drop_eq_getElem_cons hlen, List.take_succ_cons, List.take_zero,
      List.getD_eq_getElem _ _ hlen]
  rw [newlines_drop _ (Nat.le_succ p), Nat.succ_eq_add_one, hbyte]

variable {t : Tables} {G : Grammar} {nconds : Nat} {s s' : Session}

/-- Moving over bytes without a newline, in either direction. -/
theorem newlines_drop_eq {l : List Byte} {a b : Nat}
    (h : newline ∉ (l.take (max a b)).drop (min a b)) : newlines (l.drop a) = newlines (l.drop b) := by
  have hle : min a b ≤ max a b := (min_le_left a b).trans (le_max_left a b)
  have hz := newlines_eq_zero h
  have hdrop := newlines_drop l hle
  rw [hz, Nat.zero_add] at hdrop
  rcases le_total a b with hab | hab
  · rwa [min_eq_left hab, max_eq_right hab] at hdrop
  · rw [min_eq_right hab, max_eq_left hab] at hdrop
    exact hdrop.symm

/-! ## The steps -/

theorem lineSum_of_not_active (h : s.lx.textActive = false) :
    s.lineSum = s.yylineno + newlines ((s.lx.data.take s.lx.bufEnd).drop s.lx.bufPos) := by
  rw [lineSum, unread, Lexer.unsealed_of_not_active h]

/-- The text of a match is the pending prefix and then the bytes it moves over. -/
theorem newlines_text (hact : s.lx.textActive = false) {m : Match}
    (hoff : s.lx.moreOffset ≤ s.lx.bufPos) :
    newlines (((s.lx.accept m).data.drop (s.lx.accept m).text).take (s.lx.textLen m)) =
      newlines (s.pending s.lx.bufPos) +
        newlines ((s.lx.data.take (s.lx.bufPos + m.len)).drop s.lx.bufPos) := by
  rw [Lexer.take_drop_accept hoff, newlines_drop _ (Nat.sub_le s.lx.bufPos s.lx.moreOffset.toNat),
    List.take_take, min_eq_left (Nat.le_add_right _ _), pending,
    Lexer.unsealed_of_not_active hact]

/-- From a selection to its action. -/
theorem lineSum_take (h : s.Inv nconds) (hact : s.lx.textActive = false) {m : Match}
    (hin : s.lx.bufPos + m.len ≤ s.lx.bufEnd)
    (hfit : s.lx.moreOffset ≤ s.lx.bufPos ∧ s.lx.textLen m < 2147483648)
    (hpend : newline ∉ s.pending s.lx.bufPos) : (s.take m).lineSum = s.lineSum := by
  have hunread : (s.take m).unread = (s.lx.data.take s.lx.bufEnd).drop (s.lx.bufPos + m.len) := by
    rw [unread, (h.take hin hfit).2]
    rfl
  have hline : (s.take m).yylineno = s.yylineno +
      newlines ((s.lx.data.take (s.lx.bufPos + m.len)).drop s.lx.bufPos) := by
    have := newlines_text hact (m := m) hfit.1
    rw [newlines_eq_zero hpend, Nat.zero_add] at this
    rw [← this]
    rfl
  have hmove := newlines_drop (s.lx.data.take s.lx.bufEnd) (Nat.le_add_right s.lx.bufPos m.len)
  rw [List.take_take, min_eq_left hin] at hmove
  rw [lineSum, lineSum, hunread, hline, unread, Lexer.unsealed_of_not_active hact, hmove]
  push_cast
  omega

/-- The default rule. -/
theorem lineSum_byDefault (h : s.Inv nconds) (hact : s.lx.textActive = false) {nodefault : Bool}
    (hs' : s.byDefault nodefault = some s') : s'.lineSum = s.lineSum := by
  unfold byDefault at hs'
  split_ifs at hs' with _ hlt
  · obtain rfl := Option.some.inj hs'
    rw [lineSum_of_not_active, lineSum_of_not_active hact, newlines_drop_succ hlt h.bufEnd_lt.le]
    · simp only [Lexer.echo]
      push_cast
      omega
    · exact hact
  · obtain rfl := Option.some.inj hs'
    rfl

/-- `REJECT` up to `yy_find_best`. -/
theorem unsealed_undo (hheld : s.lx.textActive = true ∨
    s.lx.data[(s.lx.text + s.lx.leng).toNat]? = some s.lx.textSave) :
    s.undo.lx.unsealed = s.lx.unsealed := by
  have hundo : s.undo.lx.unsealed = s.lx.putBack.data := Lexer.unsealed_of_not_active rfl
  rw [hundo]
  cases hact : s.lx.textActive with
  | true => exact (Lexer.unsealed_of_active hact).symm
  | false =>
      rw [Lexer.unsealed_of_not_active hact]
      have hsave := hheld.resolve_left (by simp [hact])
      obtain ⟨hlt, hget⟩ := List.getElem?_eq_some_iff.1 hsave
      change s.lx.data.set _ s.lx.textSave = s.lx.data
      rw [← hget, List.set_getElem_self]

theorem lineSum_undo (hheld : s.lx.textActive = true ∨
      s.lx.data[(s.lx.text + s.lx.leng).toNat]? = some s.lx.textSave) (h : s.Inv nconds)
    (hback : newline ∉
      (s.lx.unsealed.take (max s.yyMb s.lx.bufPos)).drop (min s.yyMb s.lx.bufPos)) :
    s.undo.lineSum = s.lineSum := by
  have hmax : max s.yyMb s.lx.bufPos ≤ s.lx.bufEnd := max_le h.mb_le h.pos_le
  have hmove : newlines ((s.lx.unsealed.take s.lx.bufEnd).drop s.yyMb) =
      newlines ((s.lx.unsealed.take s.lx.bufEnd).drop s.lx.bufPos) := by
    refine newlines_drop_eq ?_
    rwa [List.take_take, min_eq_left hmax]
  rw [lineSum, lineSum, unread, unread, unsealed_undo hheld, ← hmove]
  rfl

/-- **One step.** -/
theorem lineSum_step (ht : t.Implements G) (he : t.yyRuleEol.isSome = t.yyAccept.isSome)
    (h : s.Inv G.condNames.length) {nodefault : Bool} {c : Call}
    (hc : s.CountsOnce t G.condNames.length c) (hs' : s.step t nodefault c = some s') :
    s'.lineSum = s.lineSum := by
  have hu : ({ s with lx := s.lx.textUnseal } : Session).lineSum = s.lineSum := by
    rw [lineSum, lineSum, unread, unread, Lexer.unsealed_textUnseal, Lexer.bufEnd_textUnseal,
      Lexer.bufPos_textUnseal]
  cases c with
  | scan =>
      simp only [step, Option.ite_none_left_eq_some] at hs'
      replace hs' := hs'.2
      unfold scan at hs'
      have htop : (s.top t).lineSum = s.lineSum := by
        rw [← hu, lineSum, lineSum, unread, unread, lx_top, yylineno_top]
      have hact : (s.top t).lx.textActive = false := by simp
      split_ifs at hs' with hend
      · -- nothing is left to be read, before and after
        obtain rfl := Option.some.inj hs'
        have hnil : ∀ D : List Byte, (D.take s.lx.bufEnd).drop s.lx.bufPos = [] := fun D ↦
          List.drop_eq_nil_of_le ((List.length_take_le _ _).trans hend)
        rw [lineSum, lineSum, unread, unread, hnil]
        have hpos : (s.lx.textUnseal.atEof.2).bufPos = s.lx.bufPos := Lexer.bufPos_textUnseal _
        have hend' : (s.lx.textUnseal.atEof.2).bufEnd = s.lx.bufEnd := Lexer.bufEnd_textUnseal _
        rw [hpos, hend', hnil]
      · cases hm : s.ahead t with
        | some m =>
            rw [hm] at hs'
            obtain rfl := Option.some.inj hs'
            rw [← htop]
            have hfit := hc.1 m hm
            refine lineSum_take (h.top ht he) hact ?_ ?_ ?_
            · rw [lx_top, Lexer.bufPos_textUnseal, Lexer.bufEnd_textUnseal]
              exact h.ahead_le ht he hm
            · rw [lx_top, Lexer.bufPos_textUnseal, Lexer.moreOffset_textUnseal]
              refine ⟨hfit.1, ?_⟩
              unfold Lexer.textLen at hfit ⊢
              rw [Lexer.moreOffset_textUnseal]
              exact hfit.2
            · have := hc.2 m hm
              unfold pending at this ⊢
              rwa [lx_top, Lexer.bufPos_textUnseal, Lexer.moreOffset_textUnseal,
                Lexer.unsealed_textUnseal]
        | none =>
            rw [hm] at hs'
            rw [← htop]
            exact lineSum_byDefault (h.top ht he) hact hs'
  | more =>
      obtain rfl := Option.some.inj hs'
      rw [lineSum, lineSum, unread, unread, Lexer.unsealed_eq, Lexer.unsealed_eq]
  | start c =>
      obtain rfl := Option.some.inj hs'
      rw [lineSum, lineSum, unread, unread, Lexer.unsealed_eq, Lexer.unsealed_eq]
  | less n =>
      simp only [step, Option.ite_none_right_eq_some] at hs'
      obtain ⟨⟨-, hn⟩, hs'⟩ := hs'
      obtain rfl := Option.some.inj hs'
      obtain ⟨hact, hback⟩ := hc.2
      obtain ⟨hunsealed, hpos⟩ := Lexer.unsealed_less hact (h.sealed hact) hn
        (lt_of_le_of_lt h.pos_le h.bufEnd_lt)
      have hle : s.lx.text + n ≤ s.lx.bufPos := by
        have := h.sealed hact
        omega
      have hmove := newlines_drop (s.lx.unsealed.take s.lx.bufEnd) hle
      rw [List.take_take, min_eq_left h.pos_le, newlines_eq_zero hback, Nat.zero_add] at hmove
      rw [lineSum, lineSum, unread, unread, hunsealed, hpos, ← hmove]
      rfl
  | input =>
      obtain rfl := Option.some.inj hs'
      rw [← hu]
      have hi := h.textUnseal
      have hD : s.lx.textUnseal.textActive = false := by simp
      unfold Lexer.input
      simp only
      split_ifs with hend
      · rw [lineSum, lineSum]
        simp [newlines, newline, unread]
      · rw [lineSum_of_not_active, lineSum_of_not_active]
        · simp only
          rw [newlines_drop_succ (not_le.1 hend) hi.bufEnd_lt.le]
          push_cast
          omega
        · exact hD
        · exact hD
  | unput b =>
      obtain rfl := Option.some.inj hs'
      have hi := h.textUnseal
      have hD : s.lx.textUnseal.textActive = false := by simp
      have hb : newlines [b] = 0 := newlines_eq_zero (by simpa using Ne.symm hc.2)
      rw [← hu]
      unfold Lexer.unput
      simp only
      split_ifs with hpos
      · -- the byte comes before all of the buffer
        rw [lineSum_of_not_active, lineSum_of_not_active]
        · simp only [hpos, List.take_succ_cons, List.drop_zero]
          rw [← List.singleton_append, newlines_append, hb, Nat.zero_add]
        · exact hD
        · exact hD
      · have hlt : s.lx.textUnseal.bufPos - 1 < s.lx.textUnseal.bufEnd := by
          have := hi.pos_le
          simp only at this
          omega
        have hset : (s.lx.textUnseal.data.set (s.lx.textUnseal.bufPos - 1) b).getD
            (s.lx.textUnseal.bufPos - 1) 0 = b := by
          have hin := hlt.trans hi.bufEnd_lt
          rw [List.getD_eq_getElem _ _ (by rwa [List.length_set]), List.getElem_set_self]
        have hin : s.lx.textUnseal.bufEnd ≤
            (s.lx.textUnseal.data.set (s.lx.textUnseal.bufPos - 1) b).length := by
          rw [List.length_set]
          exact hi.bufEnd_lt.le
        rw [lineSum_of_not_active, lineSum_of_not_active]
        · simp only
          rw [newlines_drop_succ hlt hin, hset, hb, Nat.zero_add,
            Nat.sub_add_cancel (Nat.one_le_iff_ne_zero.2 hpos), List.take_set,
            List.drop_set_of_lt (by omega)]
        · exact hD
        · exact hD
  | reject =>
      simp only [step, Option.ite_none_right_eq_some] at hs'
      replace hs' := hs'.2
      unfold reject at hs'
      obtain ⟨hheld, hback, hpend⟩ := hc.2
      rw [← lineSum_undo hheld h hback]
      cases hm : s.next t with
      | some m =>
          rw [hm] at hs'
          obtain rfl := Option.some.inj hs'
          refine lineSum_take h.undo rfl (h.next_le hm) (hc.1 m hm) ?_
          have := hpend m hm
          unfold pending at this ⊢
          rw [unsealed_undo hheld]
          exact this
      | none =>
          rw [hm] at hs'
          exact lineSum_byDefault h.undo rfl hs'
  | leave returns =>
      simp only [step, Option.ite_none_right_eq_some] at hs'
      obtain ⟨-, hs'⟩ := hs'
      obtain rfl := Option.some.inj hs'
      unfold Lexer.act
      simp only
      split_ifs <;> rw [lineSum, lineSum, unread, unread, Lexer.unsealed_eq, Lexer.unsealed_eq]

end Session

/-- The rule `\n`. -/
def newlineRule : Grammar := { rules := [{ root := .cls (ByteSet.add {} newline) }] }

end LexCpp
