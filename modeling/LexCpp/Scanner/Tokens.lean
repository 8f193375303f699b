import LexCpp.Scanner.More

/-!
# The tokens of a run

What a scanner of a grammar does to a text, said without automata, tables or buffers: wherever it
stands it takes the best of the matches that are looked at, or a byte by the default rule
(`Grammar.Scans`).  That determines the run (`Grammar.Scans.unique`) and loses nothing of the text
(`Grammar.Scans.taken`), and it is what the generated scanner does (`scanner_scans`).
-/

namespace LexCpp

open Munch

/-! ## The specification -/

/-- What is left of the text, the start condition, whether a line begins here, and what `yymore` keeps. -/
structure Place where
  rest : List Byte
  start : Nat := 0
  atBol : Bool := true
  kept : List Byte := []
deriving DecidableEq, Repr

namespace Place

/-- The text of the action that is given the next `k` bytes. -/
def text (p : Place) (k : Nat) : List Byte := p.kept ++ p.rest.take k

/-- After an action on the next `k` bytes. -/
def after (p : Place) (e : Effect) (k : Nat) : Place where
  rest := p.rest.drop k
  start := e.start.getD p.start
  atBol := e.atBol.getD ((p.text k).getLast? = some newline)
  kept := if e.more then p.text k else []

/-- After a byte is echoed. -/
def echoed (p : Place) (b : Byte) (rest : List Byte) : Place :=
  { p with rest, atBol := b = newline, kept := [] }

end Place

/-- No match is looked at. -/
def Grammar.Unmatched (G : Grammar) (usesReject : Bool) (p : Place) : Prop :=
  ∀ n r, ¬ G.LooksAt usesReject p.start p.atBol p.rest n r

/-- A turn of the loop: the best match, a byte by the default rule, nothing, or the end. -/
inductive Grammar.Turn (G : Grammar) (usesReject nodefault : Bool) :
    Place → Effect → Event → Place → Prop
  | token {p e n r k} (hrest : p.rest ≠ [])
      (hbest : IsGreatest (candidates (G.LooksAt usesReject p.start p.atBol p.rest)) (cand n r))
      (hcut : G.CutAt usesReject p.start p.atBol p.rest r n k) :
      Turn G usesReject nodefault p e (.token r (p.rest.take k) (p.text k)) (p.after e k)
  | echo {p b rest e} (hrest : p.rest = b :: rest) (hdefault : nodefault = false)
      (hnone : G.Unmatched usesReject p) : Turn G usesReject nodefault p e (.echo b) (p.echoed b rest)
  | jam {p e} (hrest : p.rest ≠ []) (hdefault : nodefault = true) (hnone : G.Unmatched usesReject p) :
      Turn G usesReject nodefault p e .jam p
  | eof {p e} (hrest : p.rest = []) : Turn G usesReject nodefault p e .eof p

/-- **What a scanner does**, from one place to another, with an effect for the action of every turn. -/
inductive Grammar.Scans (G : Grammar) (usesReject nodefault : Bool) :
    Place → List Effect → List Event → Place → Prop
  | done {p} : Scans G usesReject nodefault p [] [] p
  | turn {p e ev p₁ es evs p'} (hturn : G.Turn usesReject nodefault p e ev p₁)
      (hgo : Scans G usesReject nodefault p₁ es evs p') :
      Scans G usesReject nodefault p (e :: es) (ev :: evs) p'

/-- What an iteration takes from the text. -/
def Event.taken : Event → List Byte
  | .token _ own _ => own
  | .echo b => [b]
  | .jam | .eof => []

section Spec

variable {G : Grammar} {usesReject nodefault : Bool} {p p' : Place}

theorem Grammar.Turn.unique {e : Effect} {ev ev₁ : Event} {p₁ : Place}
    (h : G.Turn usesReject nodefault p e ev p') (h₁ : G.Turn usesReject nodefault p e ev₁ p₁) :
    ev = ev₁ ∧ p' = p₁ := by
  cases h with
  | token hrest hbest hcut =>
      cases h₁ with
      | token _ hbest₁ hcut₁ =>
          obtain ⟨rfl, rfl⟩ := cand_inj.1 (hbest.unique hbest₁)
          obtain rfl := hcut.unique hcut₁
          exact ⟨rfl, rfl⟩
      | echo _ _ hnone => exact absurd (cand_mem_candidates.1 hbest.1) (hnone _ _)
      | jam _ _ hnone => exact absurd (cand_mem_candidates.1 hbest.1) (hnone _ _)
      | eof hnil => exact absurd hnil hrest
  | echo hrest hdefault hnone =>
      cases h₁ with
      | token _ hbest => exact absurd (cand_mem_candidates.1 hbest.1) (hnone _ _)
      | echo hrest₁ =>
          obtain ⟨rfl, rfl⟩ := List.cons.inj (hrest.symm.trans hrest₁)
          exact ⟨rfl, rfl⟩
      | jam _ hdefault₁ => exact absurd (hdefault.symm.trans hdefault₁) Bool.false_ne_true
      | eof hnil => exact absurd (hrest.symm.trans hnil) (List.cons_ne_nil _ _)
  | jam hrest hdefault hnone =>
      cases h₁ with
      | token _ hbest => exact absurd (cand_mem_candidates.1 hbest.1) (hnone _ _)
      | echo _ hdefault₁ => exact absurd (hdefault₁.symm.trans hdefault) Bool.false_ne_true
      | jam => exact ⟨rfl, rfl⟩
      | eof hnil => exact absurd hnil hrest
  | eof hnil =>
      cases h₁ with
      | token hrest => exact absurd hnil hrest
      | echo hrest => exact absurd (hrest.symm.trans hnil) (List.cons_ne_nil _ _)
      | jam hrest => exact absurd hnil hrest
      | eof => exact ⟨rfl, rfl⟩

theorem Grammar.Turn.taken {e : Effect} {ev : Event} (h : G.Turn usesReject nodefault p e ev p') :
    ev.taken ++ p'.rest = p.rest := by
  cases h with
  | token => exact List.take_append_drop ..
  | echo hrest => exact hrest.symm
  | jam => rfl
  | eof => rfl

/-- The rules and the text determine the tokens. -/
theorem Grammar.Scans.unique {es : List Effect} {evs evs₁ : List Event} {p₁ : Place}
    (h : G.Scans usesReject nodefault p es evs p') (h₁ : G.Scans usesReject nodefault p es evs₁ p₁) :
    evs = evs₁ ∧ p' = p₁ := by
  induction h generalizing evs₁ p₁ with
  | done =>
      cases h₁
      exact ⟨rfl, rfl⟩
  | turn hturn _ ih =>
      cases h₁ with
      | turn hturn₁ hgo =>
          obtain ⟨rfl, rfl⟩ := hturn.unique hturn₁
          obtain ⟨rfl, rfl⟩ := ih hgo
          exact ⟨rfl, rfl⟩

/-- What is taken, in order, and what is left are the text. -/
theorem Grammar.Scans.taken {es : List Effect} {evs : List Event}
    (h : G.Scans usesReject nodefault p es evs p') : evs.flatMap Event.taken ++ p'.rest = p.rest := by
  induction h with
  | done => rfl
  | turn hturn _ ih =>
      rw [List.flatMap_cons, List.append_assoc, ih]
      exact hturn.taken

end Spec

/-! ## The scanner -/

namespace Lexer

/-- Where the scanner stands in its buffer. -/
def place (bytes pre : List Byte) (s : Lexer) : Place :=
  { rest := bytes.drop s.bufPos, start := s.start, atBol := s.atBol, kept := pre }

variable {t : Tables} {G : Grammar} {nconds : Nat} {bytes pre : List Byte} {s : Lexer}

/-- At the end of the buffer a NUL is saved, and there is one. -/
theorem Intact.atEof (h : s.Intact bytes nconds) (hge : s.bufEnd ≤ s.bufPos) :
    s.textUnseal.atEof.2.Intact bytes nconds := by
  have hdata : s.textUnseal.data = bytes ++ [0, 0] := h.unsealed
  have hpos : s.textUnseal.bufPos = bytes.length :=
    (bufPos_textUnseal s).trans ((le_antisymm h.pos_le hge).trans h.bufEnd_eq)
  refine { h.textUnseal with unsealed := ?_ }
  rw [unsealed_of_active rfl, putBack]
  change s.textUnseal.data.set ((s.textUnseal.bufPos : Int) + 0).toNat 0 = _
  rw [hdata, hpos, add_zero, Int.toNat_natCast, List.set_append_right _ _ le_rfl, Nat.sub_self]
  rfl

/-- A line begins behind a text that ends with a newline. -/
theorem Intact.atBol_accept (h : s.Intact bytes nconds) {m : Match}
    (hin : s.bufPos + m.len ≤ s.bufEnd) (hlen : s.textLen m < 2147483648) :
    (s.textUnseal.accept m).atBol = decide ((s.textUnseal.accept m).yytext.getLast? = some newline) := by
  obtain ⟨-, -, htext⟩ := h.accept hin hlen
  have hdata : s.textUnseal.data = bytes ++ [0, 0] := h.unsealed
  have hle : s.bufPos + m.len ≤ bytes.length := hin.trans_eq h.bufEnd_eq
  have hsize : s.textUnseal.textLen m = s.textLen m := by
    rw [textLen_eq, textLen_eq, moreOffset_textUnseal]
  have hstart : (s.textUnseal.accept m).text = s.bufPos - s.moreOffset.toNat := by
    change (if 0 < s.textUnseal.moreOffset then _ else _) = _
    rw [moreOffset_textUnseal, bufPos_textUnseal]
    split_ifs <;> omega
  have hflag : (s.textUnseal.accept m).atBol = decide (0 < s.textUnseal.textLen m ∧
      (s.textUnseal.data.set ((s.textUnseal.accept m).text + s.textUnseal.textLen m) 0)[
        (s.textUnseal.accept m).text + s.textUnseal.textLen m - 1]? = some newline) := rfl
  have hoff : s.moreOffset.toNat ≤ s.bufPos := by
    have := h.offset_le
    omega
  have hlast : s.bufPos - s.moreOffset.toNat + s.textLen m = s.bufPos + m.len := by
    rw [textLen_eq]
    omega
  have hlength : (s.textUnseal.accept m).yytext.length = s.textLen m := by
    rw [htext, List.length_drop, List.length_take_of_le hle, textLen_eq]
    omega
  rw [hflag, hsize, hstart, hlast, hdata, List.getLast?_eq_getElem?, hlength, htext]
  refine decide_eq_decide.2 ?_
  rcases Nat.eq_zero_or_pos (s.textLen m) with hzero | hpos
  · have hnil : (bytes.take (s.bufPos + m.len)).drop (s.bufPos - s.moreOffset.toNat) = [] :=
      List.eq_nil_of_length_eq_zero ((congrArg List.length htext).symm.trans (hlength.trans hzero))
    rw [hnil]
    exact iff_of_false (fun hp ↦ absurd hp.1 (by omega)) (Option.some_ne_none _).symm
  · rw [and_iff_right hpos, List.getElem?_set_ne (by omega), List.getElem?_append_left (by omega),
      List.getElem?_drop, List.getElem?_take_of_lt (by omega)]
    exact iff_of_eq (congrArg (bytes[·]? = some newline) (by omega))

/-- A match moves the scanner as it moves the place. -/
theorem MoreInv.place_act (h : s.MoreInv bytes pre nconds) {m : Match}
    (hin : s.bufPos + m.len ≤ s.bufEnd) (hlen : s.textLen m < 2147483648) (e : Effect) :
    ((s.textUnseal.accept m).act e).place bytes (if e.more then pre ++ (bytes.drop s.bufPos).take m.len else []) =
      (s.place bytes pre).after e m.len := by
  have hpos : ((s.textUnseal.accept m).act e).bufPos = s.bufPos + m.len := by
    rw [bufPos_act, bufPos_accept, bufPos_textUnseal]
  have hstart : ((s.textUnseal.accept m).act e).start = e.start.getD s.start :=
    (start_act e _).trans (congrArg e.start.getD (start_textUnseal s))
  have hbol : ((s.textUnseal.accept m).act e).atBol = e.atBol.getD (s.textUnseal.accept m).atBol := by
    unfold Lexer.act
    simp only
    split_ifs <;> rfl
  rw [place, hpos, hstart, hbol, h.toIntact.atBol_accept hin hlen, (h.yytext_accept hin hlen).1,
    ← List.drop_drop]
  rfl

theorem MoreInv.atEof (h : s.MoreInv bytes pre nconds) (hge : s.bufEnd ≤ s.bufPos) :
    s.textUnseal.atEof.2.MoreInv bytes pre nconds where
  toIntact := h.toIntact.atEof hge
  pre_eq := by
    change pre = (bytes.take s.textUnseal.bufPos).drop
      (s.textUnseal.bufPos - s.textUnseal.moreOffset.toNat)
    rw [bufPos_textUnseal, moreOffset_textUnseal]
    exact h.pre_eq

theorem MoreInv.textUnseal (h : s.MoreInv bytes pre nconds) : s.textUnseal.MoreInv bytes pre nconds where
  toIntact := h.toIntact.textUnseal
  pre_eq := by
    rw [bufPos_textUnseal, moreOffset_textUnseal]
    exact h.pre_eq

theorem place_textUnseal (bytes pre : List Byte) (s : Lexer) :
    s.textUnseal.place bytes pre = s.place bytes pre := by
  rw [place, bufPos_textUnseal, start_textUnseal, atBol_textUnseal]
  rfl

/-- The default rule moves the scanner as it moves the place. -/
theorem Intact.place_echo (h : s.Intact bytes nconds) (hlt : s.bufPos < s.bufEnd) (pre : List Byte) :
    ∃ b rest, bytes.drop s.bufPos = b :: rest ∧ s.textUnseal.echo.1 = .echo b ∧
      s.textUnseal.echo.2.place bytes [] = (s.place bytes pre).echoed b rest := by
  have hlt' : s.bufPos < bytes.length := hlt.trans_eq h.bufEnd_eq
  have hdata : s.textUnseal.data = bytes ++ [0, 0] := h.unsealed
  have hbyte : s.textUnseal.data.getD s.textUnseal.bufPos 0 = bytes[s.bufPos] := by
    rw [hdata, bufPos_textUnseal, List.getD_eq_getElem?_getD, List.getElem?_append_left hlt',
      List.getElem?_eq_getElem hlt', Option.getD_some]
  refine ⟨bytes[s.bufPos], bytes.drop (s.bufPos + 1), List.drop_eq_getElem_cons hlt',
    congrArg Event.echo hbyte, ?_⟩
  change Place.mk (bytes.drop (s.textUnseal.bufPos + 1)) s.textUnseal.start
    (decide (s.textUnseal.data.getD s.textUnseal.bufPos 0 = newline)) [] = _
  rw [hbyte, bufPos_textUnseal, start_textUnseal]
  rfl

/-- **One iteration** is a turn. -/
theorem MoreInv.turn (ht : t.Implements G) {usesReject : Bool} (ha : t.yyAccept.isSome = usesReject)
    (he : t.yyRuleEol.isSome = usesReject) (nodefault : Bool) {e : Effect}
    (hstart : ∀ c ∈ e.start, c < G.condNames.length) (h : s.MoreInv bytes pre G.condNames.length)
    (hkeep : s.KeepsMore t e) : ∃ pre', (s.iterate t nodefault e).2.MoreInv bytes pre' G.condNames.length ∧
      G.Turn usesReject nodefault (s.place bytes pre) e (s.iterate t nodefault e).1
        ((s.iterate t nodefault e).2.place bytes pre') := by
  rcases Nat.lt_or_ge s.bufPos s.bufEnd with hlt | hge
  · have hkeep := hkeep hlt
    have hiter := h.toIntact.at.iterate_eq (h.bufEnd_eq ▸ hlt) t nodefault e
    have hrest : bytes.drop s.bufPos ≠ [] := fun hnil ↦
      absurd (List.drop_eq_nil_iff.1 hnil) (not_le.2 (hlt.trans_eq h.bufEnd_eq))
    rw [h.buf_eq] at hkeep
    cases hm : bodyMatch t bytes s.bufPos s.start s.atBol with
    | some m =>
        rw [hm] at hkeep hiter
        rw [hiter]
        have hof := bodyMatch_spec ht ha he h.start_lt hm
        have hin : s.bufPos + m.len ≤ s.bufEnd := by
          obtain ⟨hlen, htotal⟩ := Session.len_le hof
          rw [List.length_drop, ← h.bufEnd_eq] at htotal
          omega
        refine ⟨_, h.act hin hstart hkeep.1 hkeep.2, ?_⟩
        rw [h.place_act hin hkeep.1]
        dsimp only
        rw [(h.yytext_accept hin hkeep.1).1]
        exact .token hrest hof.best hof.cut
    | none =>
        rw [hm] at hkeep hiter
        rw [hiter]
        have hnone : G.Unmatched usesReject (s.place bytes pre) :=
          (bodyMatch_eq_none_iff ht ha he h.start_lt).1 hm
        cases nodefault with
        | true =>
            refine ⟨pre, h.textUnseal, ?_⟩
            dsimp only [if_true]
            rw [if_pos rfl, place_textUnseal]
            exact .jam hrest rfl hnone
        | false =>
            obtain ⟨b, rest, hcons, hevent, hplace⟩ := h.toIntact.place_echo hlt pre
            refine ⟨[], h.echo hkeep hlt, ?_⟩
            dsimp only
            rw [if_neg Bool.false_ne_true, hevent, hplace]
            exact .echo hcons rfl hnone
  · rw [iterate_of_le hge]
    have hplace : s.textUnseal.atEof.2.place bytes pre = s.textUnseal.place bytes pre := rfl
    refine ⟨pre, h.atEof hge, ?_⟩
    rw [hplace, place_textUnseal]
    exact .eof (List.drop_eq_nil_iff.2 (h.bufEnd_eq ▸ hge))

/-- **A run**, turn by turn. -/
theorem MoreInv.scans (ht : t.Implements G) {usesReject : Bool} (ha : t.yyAccept.isSome = usesReject)
    (he : t.yyRuleEol.isSome = usesReject) (nodefault : Bool) (es : List Effect)
    (hes : ∀ e ∈ es, ∀ c ∈ e.start, c < G.condNames.length)
    (h : s.MoreInv bytes pre G.condNames.length) (halong : s.Along (KeepsMore t) t nodefault es) :
    ∃ pre', G.Scans usesReject nodefault (s.place bytes pre) es (s.run t nodefault es).1
      ((s.run t nodefault es).2.place bytes pre') := by
  induction es generalizing s pre with
  | nil => exact ⟨pre, .done⟩
  | cons e es ih =>
      obtain ⟨hkeep, halong⟩ := halong
      obtain ⟨pre₁, h₁, hturn⟩ := h.turn ht ha he nodefault (hes e List.mem_cons_self) hkeep
      obtain ⟨pre', hgo⟩ := ih (fun e' he' ↦ hes e' (List.mem_cons_of_mem e he')) h₁ halong
      exact ⟨pre', .turn hturn hgo⟩

/-! ### Without `yymore` -/

/-- Nothing is kept. -/
theorem moreOffset_iterate (hoff : s.moreOffset = 0) {e : Effect} (hmore : e.more = false) (t : Tables)
    (nodefault : Bool) : (s.iterate t nodefault e).2.moreOffset = 0 := by
  have hu : s.textUnseal.moreOffset = 0 := (moreOffset_textUnseal s).trans hoff
  rw [iterate]
  dsimp only
  by_cases hend : s.textUnseal.bufEnd ≤ s.textUnseal.bufPos
  · rw [if_pos hend]
    exact hu
  · rw [if_neg hend]
    cases bodyMatch t s.textUnseal.buf s.textUnseal.bufPos s.textUnseal.start s.textUnseal.atBol with
    | none =>
        cases nodefault with
        | true => exact hu
        | false => exact hu
    | some m =>
        have hoffset : (s.textUnseal.accept m).moreOffset = 0 := hu
        dsimp only
        rw [moreOffset_act, moreFlag_accept, hmore, hoffset, Bool.false_or, if_neg Bool.false_ne_true, ite_self]

/-- Without `yymore`, and on fewer than `2^31` bytes, every iteration leaves the right offset. -/
theorem MoreInv.along (ht : t.Implements G) {usesReject : Bool} (ha : t.yyAccept.isSome = usesReject)
    (he : t.yyRuleEol.isSome = usesReject) (nodefault : Bool) (es : List Effect)
    (hes : ∀ e ∈ es, e.more = false ∧ ∀ c ∈ e.start, c < G.condNames.length)
    (hbytes : bytes.length < 2147483648) (h : s.MoreInv bytes pre G.condNames.length)
    (hoff : s.moreOffset = 0) : s.Along (KeepsMore t) t nodefault es := by
  induction es generalizing s pre with
  | nil => exact trivial
  | cons e es ih =>
      obtain ⟨hmore, hstart⟩ := hes e List.mem_cons_self
      have hkeep : s.KeepsMore t e := by
        intro hlt
        rw [h.buf_eq]
        cases hm : bodyMatch t bytes s.bufPos s.start s.atBol with
        | none => exact hoff.le
        | some m =>
            obtain ⟨hlen, htotal⟩ := Session.len_le (bodyMatch_spec ht ha he h.start_lt hm)
            rw [List.length_drop] at htotal
            refine ⟨?_, fun _ ↦ ?_⟩
            · rw [textLen_eq, hoff]
              omega
            · rw [hmore, if_neg Bool.false_ne_true]
              exact hoff.le
      obtain ⟨pre₁, h₁, -⟩ := h.turn ht ha he nodefault hstart hkeep
      exact ⟨hkeep, ih (fun e' he' ↦ hes e' (List.mem_cons_of_mem e he')) h₁
        (moreOffset_iterate hoff hmore t nodefault)⟩

end Lexer

/-! ## Whole runs -/

/-- The tables let the scanner do what a scanner of the grammar does: on every text, whatever the actions
do, as long as the offset for `yymore` is left right, or without `yymore` on fewer than `2^31` bytes. -/
def Tables.Scan (t : Tables) (G : Grammar) (usesReject : Bool) : Prop :=
  ∀ (nodefault : Bool) (bytes : List Byte) (es : List Effect),
    (∀ e ∈ es, ∀ c ∈ e.start, c < G.condNames.length) →
      ((Lexer.init bytes).Along (Lexer.KeepsMore t) t nodefault es ∨
        bytes.length < 2147483648 ∧ ∀ e ∈ es, e.more = false) →
      ∃ p, G.Scans usesReject nodefault { rest := bytes } es ((Lexer.init bytes).run t nodefault es).1 p

/-- Tables that implement a grammar scan it. -/
theorem Tables.Implements.scan {t : Tables} {G : Grammar} (ht : t.Implements G)
    (hG : 0 < G.condNames.length) {usesReject : Bool} (ha : t.yyAccept.isSome = usesReject)
    (he : t.yyRuleEol.isSome = usesReject) : t.Scan G usesReject := by
  intro nodefault bytes es hes hkeeps
  have hinit : (Lexer.init bytes).MoreInv bytes [] G.condNames.length := ⟨Lexer.init_intact hG bytes, rfl⟩
  have halong : (Lexer.init bytes).Along (Lexer.KeepsMore t) t nodefault es := hkeeps.elim id fun h ↦
    hinit.along ht ha he nodefault es (fun e hmem ↦ ⟨h.2 e hmem, hes e hmem⟩) h.1 rfl
  obtain ⟨pre, hscans⟩ := hinit.scans ht ha he nodefault es hes halong
  exact ⟨_, hscans⟩

end LexCpp
