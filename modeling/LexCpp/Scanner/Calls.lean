import LexCpp.Control.Runs
import LexCpp.Scanner.Progress

/-!
# Calls from an action

The scanner with what an action can do to it while it runs: `yymore`, `BEGIN`, `yyless`,
`input`, `unput` and `REJECT`.  A `Session` is a scanner over one buffer in memory together
with `yylineno` and the locals of `yylex` that `REJECT` comes back to, and its steps are the
calls and the two parts of the loop around the action: from its top to the action, and
from the end of the action to the top.

A buffer in memory is done from the start, so `yy_refill` adds nothing to it.
-/

namespace LexCpp

open Munch

/-! ## The calls -/

inductive Call where
  | scan
  | more
  | start (c : Nat)
  | less (n : Nat)
  | input
  | unput (c : Byte)
  | reject
  | leave (returns : Bool)
deriving DecidableEq, Repr

def newlines (l : List Byte) : Nat := l.count newline

namespace Lexer

/-- `yy_len` with the pending prefix. -/
def textLen (s : Lexer) (m : Match) : Nat :=
  if 0 < s.moreOffset then m.len + s.moreOffset.toNat else m.len

/-- `yy_input`, with the byte it returns. -/
def input (s : Lexer) : Byte × Lexer :=
  let s := s.textUnseal
  if s.bufEnd ≤ s.bufPos then (0, s)
  else (s.data.getD s.bufPos 0, { s with bufPos := s.bufPos + 1 })

/-- `yy_unput`.  At the start of the buffer its bytes move up to make room. -/
def unput (c : Byte) (s : Lexer) : Lexer :=
  let s := s.textUnseal
  if s.bufPos = 0 then { s with data := c :: s.data, bufEnd := s.bufEnd + 1, atBol := c = newline }
  else { s with data := s.data.set (s.bufPos - 1) c, bufPos := s.bufPos - 1, atBol := c = newline }

/-- Write the byte that was held back for the NUL. -/
def putBack (s : Lexer) : Lexer :=
  { s with data := s.data.set (s.text + s.leng).toNat s.textSave }

/-- `yy_do_yyless`; it does not look at `yy_text_active`. -/
def less (n : Nat) (s : Lexer) : Lexer :=
  let pos := (s.bufPos - (s.leng - n)).toNat
  let s := s.putBack
  let data := s.data.set (s.text + n) 0
  { s with
    bufPos := pos
    leng := n
    textSave := s.data.getD (s.text + n) 0
    data := data
    atBol := 0 < n ∧ data[s.text + n - 1]? = some newline }

end Lexer

/-- A scanner, `yylineno` and the locals of `yylex`; `inAction` is whether an action is
running. -/
structure Session where
  lx : Lexer
  yylineno : Int := 1
  yyRule : Int := -1
  yyMb : Nat := 0
  yyMatchLens : List Int := []
  inAction : Bool := false
deriving DecidableEq, Repr

namespace Session

def init (bytes : List Byte) : Session := { lx := Lexer.init bytes }

/-- From the selection to the action of the rule. -/
def take (m : Match) (s : Session) : Session :=
  let lx := s.lx.accept m
  { s with
    lx := lx
    yyRule := m.rule
    yylineno := s.yylineno + newlines ((lx.data.drop lx.text).take (s.lx.textLen m))
    inAction := true }

/-- The default rule, and back to the top; a jam ends the process. -/
def byDefault (nodefault : Bool) (s : Session) : Option Session :=
  if nodefault then none
  else if s.lx.bufPos < s.lx.bufEnd then
    some
      { s with
        lx := s.lx.echo.2
        yylineno := s.yylineno + newlines [s.lx.data.getD s.lx.bufPos 0]
        inAction := false }
  else some { s with inAction := false }

/-- The locals of the loop inside the buffer, with the text unsealed. -/
def top (t : Tables) (s : Session) : Session :=
  let lx := s.lx.textUnseal
  if t.yyAccept.isSome then
    { s with
      lx := lx
      yyMb := lx.bufPos
      yyMatchLens := matchLens t lx.buf lx.bufPos lx.start lx.atBol }
  else { s with lx := lx }

/-- The match at the position, with the text unsealed. -/
def ahead (t : Tables) (s : Session) : Option Match :=
  bodyMatch t s.lx.textUnseal.buf s.lx.bufPos s.lx.start s.lx.atBol

/-- From the top of the loop to an action, or back to the top by the default rule. -/
def scan (t : Tables) (nodefault : Bool) (s : Session) : Option Session :=
  if s.lx.bufEnd ≤ s.lx.bufPos then
    some { s with lx := s.lx.textUnseal.atEof.2, yyRule := -1, inAction := true }
  else
    match s.ahead t with
    | some m => some ((s.top t).take m)
    | none => (s.top t).byDefault nodefault

/-- `REJECT` up to `yy_find_best`. -/
def undo (s : Session) : Session :=
  { s with
    lx := { s.lx.putBack with textActive := false, bufPos := s.yyMb }
    yyMatchLens := s.yyMatchLens.set s.yyRule.toNat (-1) }

/-- What `yy_find_best` finds after a `REJECT`. -/
def next (t : Tables) (s : Session) : Option Match :=
  let sel := findBest s.undo.yyMatchLens
  if sel.rule < 0 ∨ sel.len = 0 then none
  else some ⟨sel.rule.toNat, sel.len, cutTrail (t.ruleTrailLen sel.rule) sel.len⟩

/-- `REJECT`, on to the next best match. -/
def reject (t : Tables) (nodefault : Bool) (s : Session) : Option Session :=
  match s.next t with
  | some m => some (s.undo.take m)
  | none => s.undo.byDefault nodefault

/-- One step; `none` where the program has no such step.  The action at the end of the
buffer returns in any case. -/
def step (t : Tables) (nodefault : Bool) (s : Session) : Call → Option Session
  | .scan => if s.inAction then none else s.scan t nodefault
  | .more => some { s with lx := { s.lx with moreFlag := true } }
  | .start c => some { s with lx := { s.lx with start := c } }
  | .less n =>
      if s.inAction ∧ (n : Int) ≤ s.lx.leng then some { s with lx := s.lx.less n } else none
  | .input =>
      some
        { s with
          lx := s.lx.input.2
          yylineno := s.yylineno + newlines [s.lx.input.1] }
  | .unput c => some { s with lx := s.lx.unput c }
  | .reject =>
      if s.inAction ∧ 0 ≤ s.yyRule ∧ t.yyAccept.isSome then s.reject t nodefault else none
  | .leave returns =>
      if s.inAction then
        some { s with lx := s.lx.act { returns := returns || s.yyRule < 0 }, inAction := false }
      else none

end Session

/-! ## Sealed text -/

/-- What is left at a position, up to a later one and from there on. -/
theorem drop_eq_append_drop {α : Type} (l : List α) {a b : Nat} (h : a ≤ b) :
    l.drop a = (l.take b).drop a ++ l.drop b := by
  rw [List.drop_take, ← Nat.add_sub_cancel' h, Nat.add_sub_cancel_left, ← List.drop_drop,
    List.take_append_drop]

namespace Lexer

/-- The buffer without the NUL behind `yytext`. -/
def unsealed (s : Lexer) : List Byte := s.textUnseal.data

theorem unsealed_eq (s : Lexer) : s.unsealed =
    if s.textActive then s.data.set (s.text + s.leng).toNat s.textSave else s.data := by
  unfold unsealed textUnseal
  split_ifs <;> rfl

theorem unsealed_of_not_active {s : Lexer} (h : s.textActive = false) : s.unsealed = s.data := by
  rw [unsealed_eq, if_neg (by simp [h])]

theorem unsealed_of_active {s : Lexer} (h : s.textActive = true) :
    s.unsealed = s.putBack.data := by
  rw [unsealed_eq, if_pos h]
  rfl

@[simp] theorem textActive_textUnseal (s : Lexer) : s.textUnseal.textActive = false := by
  unfold textUnseal
  split_ifs with h
  · rfl
  · simpa using h

@[simp] theorem unsealed_textUnseal (s : Lexer) : s.textUnseal.unsealed = s.unsealed :=
  unsealed_of_not_active (textActive_textUnseal s)

theorem length_unsealed (s : Lexer) : s.unsealed.length = s.data.length :=
  length_data_textUnseal s

/-- Sealing a byte and putting it back. -/
theorem set_set_getD {l : List Byte} {i : Nat} (h : i < l.length) :
    (l.set i 0).set i (l.getD i 0) = l := by
  rw [List.set_set, List.getD_eq_getElem _ _ h, List.set_getElem_self]

theorem leng_accept (s : Lexer) (m : Match) : (s.accept m).leng = int32 (s.textLen m) := by
  simp only [accept, textLen]

theorem text_accept (s : Lexer) (m : Match) :
    (s.accept m).text = s.bufPos - s.moreOffset.toNat := by
  change (if 0 < s.moreOffset then s.bufPos - s.moreOffset.toNat else s.bufPos) = _
  split_ifs <;> omega

theorem textLen_eq (s : Lexer) (m : Match) : s.textLen m = s.moreOffset.toNat + m.len := by
  unfold textLen
  split_ifs <;> omega

/-- The bytes of the text lie before the NUL that seals it. -/
theorem take_drop_accept {s : Lexer} {m : Match} (hoff : s.moreOffset ≤ s.bufPos) :
    ((s.accept m).data.drop (s.accept m).text).take (s.textLen m) =
      (s.data.take (s.bufPos + m.len)).drop (s.bufPos - s.moreOffset.toNat) := by
  have hlen : (s.accept m).text + s.textLen m = s.bufPos + m.len := by
    rw [text_accept, textLen_eq]
    omega
  have hdata : (s.accept m).data = s.data.set ((s.accept m).text + s.textLen m) 0 := rfl
  rw [← text_accept s m, hdata, List.drop_take, ← hlen, Nat.add_sub_cancel_left,
    ← Nat.add_sub_cancel_left (n := (s.accept m).text) (m := s.textLen m), ← List.drop_take,
    ← List.drop_take, List.take_set_of_le (by omega)]

/-- The text of a match, sealed, is still the text in the buffer. -/
theorem unsealed_accept {s : Lexer} {m : Match}
    (hoff : s.moreOffset ≤ s.bufPos) (hlen : s.textLen m < 2147483648)
    (hin : s.bufPos + m.len < s.data.length) :
    (s.accept m).unsealed = s.data ∧
      ((s.accept m).text : Int) + (s.accept m).leng = (s.bufPos + m.len : Nat) ∧
      (s.accept m).leng = s.textLen m := by
  have hleng : (s.accept m).leng = s.textLen m := by
    rw [leng_accept, int32_natCast hlen]
  have htext : (s.accept m).text + s.textLen m = s.bufPos + m.len := by
    rw [text_accept, textLen_eq]
    omega
  refine ⟨?_, by rw [hleng]; exact_mod_cast htext, hleng⟩
  have hidx : ((s.accept m).text + (s.accept m).leng).toNat = s.bufPos + m.len := by
    rw [hleng]
    omega
  rw [unsealed_of_active rfl, putBack, hidx]
  change (s.data.set ((s.accept m).text + s.textLen m) 0).set _
    (s.data.getD ((s.accept m).text + s.textLen m) 0) = s.data
  rw [htext]
  exact set_set_getD hin

/-- Giving back a part of sealed text. -/
theorem unsealed_less {s : Lexer} {n : Nat} (hact : s.textActive = true)
    (hpos : (s.text : Int) + s.leng = s.bufPos) (hn : (n : Int) ≤ s.leng)
    (hin : s.bufPos < s.data.length) :
    (s.less n).unsealed = s.unsealed ∧ (s.less n).bufPos = s.text + n := by
  have hidx : ((s.less n).text + (s.less n).leng).toNat = s.text + n := by
    change ((s.text : Int) + n).toNat = _
    omega
  constructor
  · rw [unsealed_of_active (s := s.less n) hact, unsealed_of_active hact, putBack, hidx]
    change (s.putBack.data.set (s.text + n) 0).set _ (s.putBack.data.getD (s.text + n) 0) = _
    refine set_set_getD ?_
    change s.text + n < (s.data.set _ _).length
    rw [List.length_set]
    omega
  · change ((s.bufPos : Int) - (s.leng - n)).toNat = s.text + n
    omega

/-! ### The buffer over a run -/

theorem moreFlag_accept (s : Lexer) (m : Match) : (s.accept m).moreFlag = false := rfl

theorem moreOffset_act (e : Effect) (s : Lexer) : (s.act e).moreOffset =
    if e.returns then s.moreOffset else if s.moreFlag || e.more then s.leng else 0 := by
  unfold Lexer.act
  simp only
  split_ifs <;> rfl

theorem unsealed_act (e : Effect) (s : Lexer) : (s.act e).unsealed = s.unsealed := by
  rw [unsealed_eq, unsealed_eq]
  unfold Lexer.act
  simp only
  split_ifs <;> rfl

/-- The buffer holds its bytes, apart from the seal, and the prefix that `yymore` keeps lies
before the position. -/
structure Intact (bytes : List Byte) (nconds : Nat) (s : Lexer) : Prop where
  unsealed : s.unsealed = bytes ++ [0, 0]
  bufEnd_eq : s.bufEnd = bytes.length
  pos_le : s.bufPos ≤ s.bufEnd
  start_lt : s.start < nconds
  offset_le : s.moreOffset ≤ s.bufPos

variable {bytes : List Byte} {nconds : Nat} {s : Lexer}

theorem init_intact (hn : 0 < nconds) (bytes : List Byte) : (init bytes).Intact bytes nconds where
  unsealed := rfl
  bufEnd_eq := rfl
  pos_le := Nat.zero_le _
  start_lt := hn
  offset_le := le_refl _

namespace Intact

theorem buf_eq (h : s.Intact bytes nconds) : s.textUnseal.buf = bytes := by
  have hdata : s.textUnseal.data = bytes ++ [0, 0] := h.unsealed
  rw [buf, hdata, bufEnd_textUnseal, h.bufEnd_eq, List.take_left]

theorem textUnseal (h : s.Intact bytes nconds) : s.textUnseal.Intact bytes nconds where
  unsealed := (unsealed_textUnseal s).trans h.unsealed
  bufEnd_eq := (bufEnd_textUnseal s).trans h.bufEnd_eq
  pos_le := by
    rw [bufPos_textUnseal, bufEnd_textUnseal]
    exact h.pos_le
  start_lt := (start_textUnseal s).trans_lt h.start_lt
  offset_le := by
    rw [moreOffset_textUnseal, bufPos_textUnseal]
    exact h.offset_le

/-- The text of a match, in the bytes of the buffer. -/
theorem accept (h : s.Intact bytes nconds) {m : Match} (hin : s.bufPos + m.len ≤ s.bufEnd)
    (hlen : s.textLen m < 2147483648) :
    (s.textUnseal.accept m).unsealed = bytes ++ [0, 0] ∧
      (s.textUnseal.accept m).leng = s.textLen m ∧
      (s.textUnseal.accept m).yytext =
        (bytes.take (s.bufPos + m.len)).drop (s.bufPos - s.moreOffset.toNat) := by
  have hdata : s.textUnseal.data = bytes ++ [0, 0] := h.unsealed
  have hle : s.bufPos + m.len ≤ bytes.length := hin.trans_eq h.bufEnd_eq
  have hsize : s.textUnseal.textLen m = s.textLen m := by
    rw [textLen_eq, textLen_eq, moreOffset_textUnseal]
  have hoff : s.textUnseal.moreOffset ≤ s.textUnseal.bufPos := by
    rw [moreOffset_textUnseal, bufPos_textUnseal]
    exact h.offset_le
  have hin' : s.textUnseal.bufPos + m.len < s.textUnseal.data.length := by
    rw [bufPos_textUnseal, hdata, List.length_append]
    exact Nat.lt_add_right_iff_pos.2 Nat.two_pos |>.trans_le' hle
  obtain ⟨hunsealed, -, hleng⟩ := unsealed_accept hoff (hsize ▸ hlen) hin'
  refine ⟨hunsealed.trans hdata, hleng.trans (congrArg _ hsize), ?_⟩
  rw [yytext, hleng, Int.toNat_natCast, take_drop_accept hoff, hdata, bufPos_textUnseal,
    moreOffset_textUnseal, List.take_append_of_le_length hle]

/-- One match. -/
theorem act (h : s.Intact bytes nconds) {m : Match} (hin : s.bufPos + m.len ≤ s.bufEnd)
    (hlen : s.textLen m < 2147483648) {e : Effect} (hstart : ∀ c ∈ e.start, c < nconds) :
    ((s.textUnseal.accept m).act e).Intact bytes nconds := by
  obtain ⟨hunsealed, hleng, -⟩ := h.accept hin hlen
  have hend : (s.textUnseal.accept m).bufEnd = s.bufEnd := bufEnd_textUnseal s
  have hpos : (s.textUnseal.accept m).bufPos = s.bufPos + m.len := by
    rw [bufPos_accept, bufPos_textUnseal]
  have hkept : (s.textUnseal.accept m).start = s.start := start_textUnseal s
  have hoff : (s.textUnseal.accept m).moreOffset = s.moreOffset := moreOffset_textUnseal s
  have hle := h.offset_le
  have hsize := textLen_eq s m
  refine
    { unsealed := (unsealed_act e _).trans hunsealed
      bufEnd_eq := (bufEnd_act e _).trans (hend.trans h.bufEnd_eq)
      pos_le := by rw [bufEnd_act, bufPos_act, hend, hpos]; exact hin
      start_lt := ?_
      offset_le := ?_ }
  · rw [start_act]
    cases hs : e.start with
    | none => exact hkept.trans_lt h.start_lt
    | some c => exact hstart c hs
  · rw [moreOffset_act, bufPos_act, hpos, hoff, hleng]
    split_ifs <;> omega

/-- The default rule. -/
theorem echo (h : s.Intact bytes nconds) (hlt : s.bufPos < s.bufEnd) :
    s.textUnseal.echo.2.Intact bytes nconds := by
  have hoff : s.textUnseal.echo.2.moreOffset = s.moreOffset := moreOffset_textUnseal s
  have hpos : s.textUnseal.echo.2.bufPos = s.bufPos + 1 :=
    congrArg (· + 1) (bufPos_textUnseal s)
  have hend : s.textUnseal.echo.2.bufEnd = s.bufEnd := bufEnd_textUnseal s
  refine
    { unsealed := (unsealed_of_not_active (s := s.textUnseal.echo.2)
        (textActive_textUnseal s)).trans h.unsealed
      bufEnd_eq := hend.trans h.bufEnd_eq
      pos_le := by rw [hend, hpos]; exact hlt
      start_lt := (start_textUnseal s).trans_lt h.start_lt
      offset_le := ?_ }
  rw [hoff, hpos]
  exact h.offset_le.trans (by exact_mod_cast Nat.le_succ _)

end Intact

theorem Intact.at (h : s.Intact bytes nconds) : s.At bytes s.bufPos s.start s.atBol :=
  ⟨h.buf_eq, h.bufEnd_eq, rfl, rfl, rfl⟩

end Lexer

/-! ## What every run keeps -/

namespace Session

/-- The data goes on behind the buffer, the position and every match that `REJECT` may
come back to lie in the buffer, and sealed text ends at the position. -/
structure Inv (nconds : Nat) (s : Session) : Prop where
  bufEnd_lt : s.lx.bufEnd < s.lx.data.length
  pos_le : s.lx.bufPos ≤ s.lx.bufEnd
  start_lt : s.lx.start < nconds
  mb_le : s.yyMb ≤ s.lx.bufEnd
  lens : ∀ L ∈ s.yyMatchLens, (s.yyMb : Int) + L ≤ s.lx.bufEnd
  sealed : s.lx.textActive = true → (s.lx.text : Int) + s.lx.leng = s.lx.bufPos

/-- What a step needs so that `yytext` lies in the buffer and `yyleng` is its length:
the prefix that `yymore` keeps has not been pushed back over the start of the buffer, and
the text is shorter than `2^31` bytes. -/
def Fits (t : Tables) (nconds : Nat) (s : Session) : Call → Prop
  | .scan => ∀ m ∈ s.ahead t, s.lx.moreOffset ≤ s.lx.bufPos ∧ s.lx.textLen m < 2147483648
  | .reject => ∀ m ∈ s.next t, s.lx.moreOffset ≤ s.yyMb ∧ s.lx.textLen m < 2147483648
  | .start c => c < nconds
  | _ => True

variable {t : Tables} {G : Grammar} {nconds : Nat} {s s' : Session}

theorem init_inv (hn : 0 < nconds) (bytes : List Byte) : (init bytes).Inv nconds where
  bufEnd_lt := by simp [init, Lexer.init]
  pos_le := Nat.zero_le _
  start_lt := hn
  mb_le := Nat.zero_le _
  lens := by simp [init]
  sealed h := absurd h (by simp [init, Lexer.init])

/-- The text unsealed. -/
theorem Inv.textUnseal (h : s.Inv nconds) : ({ s with lx := s.lx.textUnseal } : Session).Inv nconds where
  bufEnd_lt := by
    rw [Lexer.bufEnd_textUnseal, Lexer.length_data_textUnseal]
    exact h.bufEnd_lt
  pos_le := by
    rw [Lexer.bufEnd_textUnseal, Lexer.bufPos_textUnseal]
    exact h.pos_le
  start_lt := by
    rw [Lexer.start_textUnseal]
    exact h.start_lt
  mb_le := by
    rw [Lexer.bufEnd_textUnseal]
    exact h.mb_le
  lens := by
    rw [Lexer.bufEnd_textUnseal]
    exact h.lens
  sealed ha := absurd ha (by simp)

theorem int32_le (n : Nat) : int32 n ≤ n := by
  rcases Nat.lt_or_ge n 2147483648 with h | h
  · exact (int32_natCast h).le
  · have := int32_lt n
    omega

/-- Every length kept for `REJECT` lies in the buffer. -/
theorem matchLens_le (ht : t.Implements G) (ha : t.yyAccept.isSome) (he : t.yyRuleEol.isSome)
    {c : Nat} (hc : c < G.condNames.length) {buf : List Byte} {mb : Nat} (hmb : mb ≤ buf.length)
    (atBol : Bool) : ∀ L ∈ matchLens t buf mb c atBol, (mb : Int) + L ≤ buf.length := by
  intro L hL
  obtain ⟨hlen, hspec⟩ := matchLens_spec ht ha he hc buf mb atBol
  obtain ⟨j, hj, rfl⟩ := List.mem_iff_getElem.1 hL
  have hslot := hspec j (hlen ▸ hj)
  rw [List.getD_eq_getElem _ _ hj] at hslot
  rcases hslot with ⟨hnone, -⟩ | ⟨L, hsome, ⟨n, hn, hLn⟩, -⟩
  · rw [hnone]
    omega
  · have hle := hn.1.1
    rw [List.length_drop] at hle
    have := int32_le n
    omega

/-- A match lies in the rest of the buffer. -/
theorem len_le {usesReject : Bool} {c : Nat} {atBol : Bool} {rest : List Byte} {m : Match}
    (h : m.Of G usesReject c atBol rest) : m.len ≤ m.total ∧ m.total ≤ rest.length := by
  constructor
  · have hcut := h.cut
    unfold Grammar.CutAt at hcut
    split_ifs at hcut
    · rcases hcut with ⟨j, -, hlen⟩ | ⟨-, hlen⟩
      · rw [hlen]
        split_ifs
        · assumption
        · exact le_refl _
      · exact hlen.le
    · rw [hcut, cutTrail]
      split_ifs <;> omega
  · have hlook : G.LooksAt usesReject c atBol rest m.total m.rule := cand_mem_candidates.1 h.best.1
    unfold Grammar.LooksAt at hlook
    split_ifs at hlook
    · obtain ⟨-, n, hn, hL⟩ := hlook
      have := int32_le n
      have := hn.1.1
      omega
    · exact hlook.elim (fun h ↦ h.2.1.1) fun h ↦ h.1.2.1.1

/-- The invariant with the locals of a new iteration. -/
theorem Inv.top (ht : t.Implements G) (he : t.yyRuleEol.isSome = t.yyAccept.isSome)
    (h : s.Inv G.condNames.length) : (s.top t).Inv G.condNames.length := by
  have hu := h.textUnseal
  unfold Session.top
  simp only
  split_ifs with ha
  · have hlen : s.lx.textUnseal.buf.length = s.lx.textUnseal.bufEnd := by
      rw [Lexer.buf, List.length_take]
      exact min_eq_left hu.bufEnd_lt.le
    refine { hu with mb_le := hu.pos_le, lens := ?_ }
    rw [← hlen]
    refine matchLens_le ht ha (he.trans ha) hu.start_lt ?_ _
    rw [hlen]
    exact hu.pos_le
  · exact hu

@[simp] theorem lx_top (s : Session) (t : Tables) : (s.top t).lx = s.lx.textUnseal := by
  unfold Session.top
  simp only
  split_ifs <;> rfl

@[simp] theorem yylineno_top (s : Session) (t : Tables) : (s.top t).yylineno = s.yylineno := by
  unfold Session.top
  simp only
  split_ifs <;> rfl

/-- A match ahead ends in the buffer. -/
theorem Inv.ahead_le (ht : t.Implements G) (he : t.yyRuleEol.isSome = t.yyAccept.isSome)
    (h : s.Inv G.condNames.length) {m : Match} (hm : m ∈ s.ahead t) :
    s.lx.bufPos + m.len ≤ s.lx.bufEnd := by
  obtain ⟨hlen, htotal⟩ := len_le (bodyMatch_spec ht rfl he h.start_lt hm)
  rw [List.length_drop, Lexer.buf, List.length_take, Lexer.bufEnd_textUnseal] at htotal
  have := h.pos_le
  omega

/-- A match that `REJECT` comes to ends in the buffer. -/
theorem Inv.next_le (h : s.Inv nconds) {m : Match} (hm : m ∈ s.next t) :
    s.yyMb + m.len ≤ s.lx.bufEnd := by
  unfold next at hm
  simp only [Option.mem_def] at hm
  rw [Option.ite_none_left_eq_some, Option.some.injEq] at hm
  obtain ⟨hpos, rfl⟩ := hm
  rw [not_or, not_lt] at hpos
  have hcut : ∀ (trail : Int) (n : Nat), cutTrail trail n ≤ n := by
    intro trail n
    unfold cutTrail
    split_ifs <;> omega
  rcases findBest_spec s.undo.yyMatchLens with ⟨hneg, -⟩ | ⟨r, hr, hg⟩
  · omega
  · obtain ⟨hlt, hL⟩ := cand_mem_candidates.1 hg.1
    rw [List.getD_eq_getElem _ _ hlt] at hL
    have hmem : ((findBest s.undo.yyMatchLens).len : Int) ∈ s.yyMatchLens ∨
        ((findBest s.undo.yyMatchLens).len : Int) = -1 := by
      rw [← hL]
      exact (List.mem_or_eq_of_mem_set (List.getElem_mem hlt))
    have hle := hcut (t.ruleTrailLen (findBest s.undo.yyMatchLens).rule)
      (findBest s.undo.yyMatchLens).len
    rcases hmem with hmem | hmem
    · have := h.lens _ hmem
      simp only
      omega
    · omega

/-- From a selection to its action. -/
theorem Inv.take (h : s.Inv nconds) {m : Match} (hin : s.lx.bufPos + m.len ≤ s.lx.bufEnd)
    (hfit : s.lx.moreOffset ≤ s.lx.bufPos ∧ s.lx.textLen m < 2147483648) :
    (s.take m).Inv nconds ∧ (s.take m).lx.unsealed = s.lx.data := by
  obtain ⟨hunseal, htext, -⟩ :=
    Lexer.unsealed_accept hfit.1 hfit.2 (lt_of_le_of_lt hin h.bufEnd_lt)
  refine ⟨⟨?_, hin, h.start_lt, h.mb_le, h.lens, fun _ ↦ htext⟩, hunseal⟩
  change s.lx.bufEnd < (s.lx.accept m).data.length
  rw [Lexer.length_data_accept]
  exact h.bufEnd_lt

/-- `REJECT` goes back to the start of the match. -/
theorem Inv.undo (h : s.Inv nconds) : s.undo.Inv nconds where
  bufEnd_lt := by
    change s.lx.bufEnd < (s.lx.data.set _ _).length
    rw [List.length_set]
    exact h.bufEnd_lt
  pos_le := h.mb_le
  start_lt := h.start_lt
  mb_le := h.mb_le
  lens := fun L hL ↦ by
    rcases List.mem_or_eq_of_mem_set hL with hL | rfl
    · exact h.lens L hL
    · have : s.yyMb ≤ s.lx.bufEnd := h.mb_le
      change (s.yyMb : Int) + -1 ≤ s.lx.bufEnd
      omega
  sealed := fun ha ↦ Bool.noConfusion ha

/-- The default rule, from unsealed text. -/
theorem Inv.byDefault (h : s.Inv nconds) (hact : s.lx.textActive = false) {nodefault : Bool}
    (hs' : s.byDefault nodefault = some s') : s'.Inv nconds := by
  unfold Session.byDefault at hs'
  split_ifs at hs' with _ hlt
  · obtain rfl := Option.some.inj hs'
    exact ⟨h.bufEnd_lt, hlt, h.start_lt, h.mb_le, h.lens, fun ha ↦ absurd (hact.symm.trans ha) (by simp)⟩
  · obtain rfl := Option.some.inj hs'
    exact { h with }

/-- **One step.** -/
theorem Inv.step (ht : t.Implements G) (he : t.yyRuleEol.isSome = t.yyAccept.isSome)
    (h : s.Inv G.condNames.length) {nodefault : Bool} {c : Call}
    (hfit : s.Fits t G.condNames.length c) (hs' : s.step t nodefault c = some s') :
    s'.Inv G.condNames.length := by
  cases c with
  | scan =>
      simp only [Session.step, Option.ite_none_left_eq_some] at hs'
      replace hs' := hs'.2
      unfold Session.scan at hs'
      split_ifs at hs' with hend
      · obtain rfl := Option.some.inj hs'
        exact { h.textUnseal with sealed := fun _ ↦ by simp [Lexer.atEof] }
      · cases hm : s.ahead t with
        | some m =>
            rw [hm] at hs'
            obtain rfl := Option.some.inj hs'
            refine ((h.top ht he).take ?_ ?_).1
            · rw [lx_top, Lexer.bufPos_textUnseal, Lexer.bufEnd_textUnseal]
              exact h.ahead_le ht he hm
            · have := hfit m hm
              rw [lx_top, Lexer.bufPos_textUnseal, Lexer.moreOffset_textUnseal]
              refine ⟨this.1, ?_⟩
              unfold Lexer.textLen at this ⊢
              rw [Lexer.moreOffset_textUnseal]
              exact this.2
        | none =>
            rw [hm] at hs'
            exact (h.top ht he).byDefault (by simp) hs'
  | more =>
      obtain rfl := Option.some.inj hs'
      exact { h with }
  | start c =>
      obtain rfl := Option.some.inj hs'
      exact { h with start_lt := hfit }
  | less n =>
      simp only [Session.step, Option.ite_none_right_eq_some] at hs'
      obtain ⟨⟨-, hn⟩, hs'⟩ := hs'
      obtain rfl := Option.some.inj hs'
      have hpos := h.pos_le
      have hpos' : (s.lx.less n).bufPos ≤ s.lx.bufPos := by
        change ((s.lx.bufPos : Int) - (s.lx.leng - n)).toNat ≤ s.lx.bufPos
        omega
      refine ⟨?_, hpos'.trans hpos, h.start_lt, h.mb_le, h.lens, fun ha ↦ ?_⟩
      · change s.lx.bufEnd < ((s.lx.data.set _ _).set _ _).length
        rw [List.length_set, List.length_set]
        exact h.bufEnd_lt
      · have hin := lt_of_le_of_lt hpos h.bufEnd_lt
        have hless := (Lexer.unsealed_less (s := s.lx) ha (h.sealed ha) hn hin).2
        change ((s.lx.text : Int) + n) = ((s.lx.less n).bufPos : Nat)
        rw [hless]
        push_cast
        rfl
  | input =>
      obtain rfl := Option.some.inj hs'
      have hu := h.textUnseal
      unfold Lexer.input
      simp only
      split_ifs with hend
      · exact { hu with }
      · exact { hu with pos_le := not_le.1 hend, sealed := fun ha ↦ absurd ha (by simp) }
  | unput b =>
      obtain rfl := Option.some.inj hs'
      have hu := h.textUnseal
      unfold Lexer.unput
      simp only
      split_ifs with hpos
      · refine ⟨Nat.succ_lt_succ hu.bufEnd_lt, Nat.le_succ_of_le hu.pos_le, hu.start_lt,
          Nat.le_succ_of_le hu.mb_le, fun L hL ↦ ?_, fun ha ↦ absurd ha (by simp)⟩
        have := hu.lens L hL
        push_cast
        simp only at this
        omega
      · refine { hu with
          bufEnd_lt := ?_
          pos_le := (Nat.sub_le _ _).trans hu.pos_le
          sealed := fun ha ↦ absurd ha (by simp) }
        rw [List.length_set]
        exact hu.bufEnd_lt
  | reject =>
      simp only [Session.step, Option.ite_none_right_eq_some] at hs'
      replace hs' := hs'.2
      unfold Session.reject at hs'
      cases hm : s.next t with
      | some m =>
          rw [hm] at hs'
          obtain rfl := Option.some.inj hs'
          exact (h.undo.take (h.next_le hm) (hfit m hm)).1
      | none =>
          rw [hm] at hs'
          exact h.undo.byDefault rfl hs'
  | leave returns =>
      simp only [Session.step, Option.ite_none_right_eq_some] at hs'
      obtain ⟨-, hs'⟩ := hs'
      obtain rfl := Option.some.inj hs'
      unfold Lexer.act
      simp only
      split_ifs <;> exact { h with }

end Session

end LexCpp
