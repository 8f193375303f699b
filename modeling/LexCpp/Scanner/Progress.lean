import LexCpp.Scanner.Trail

/-!
# Progress

The guard of the bodies is that the whole match is not empty; the trailing context is
taken off afterwards.  An iteration therefore moves on unless the best match is trailing
context from its first byte to its last (`Grammar.Stalls`).
-/

namespace LexCpp

open Munch

namespace Grammar

variable (G : Grammar)

/-- Nothing of a match of `n` bytes is left. -/
def Swallowed (usesReject : Bool) (c : Nat) (atBol : Bool) (rest : List Byte) (n r : Nat) : Prop :=
  (0 < G.trailLen r ∧ G.trailLen r = n) ∨
    (usesReject = false ∧ G.trailLen r < 0 ∧
      G.HeadsAt c atBol rest r 0 ∧ ∀ j, G.HeadsAt c atBol rest r j → j = 0)

/-- The best match is all trailing context. -/
def Stalls (usesReject : Bool) (c : Nat) (atBol : Bool) (rest : List Byte) : Prop :=
  ∃ n r, IsGreatest (candidates (G.LooksAt usesReject c atBol rest)) (cand n r) ∧
    G.Swallowed usesReject c atBol rest n r

variable {G} {usesReject : Bool} {c : Nat} {atBol : Bool} {rest : List Byte}

theorem cutTrail_eq_zero_iff {trail : Int} {n : Nat} (hn : 0 < n) :
    cutTrail trail n = 0 ↔ 0 < trail ∧ trail = n := by
  unfold cutTrail
  split_ifs <;> omega

theorem CutAt.eq_zero_iff {r total len : Nat} (h : G.CutAt usesReject c atBol rest r total len)
    (htotal : 0 < total) : len = 0 ↔ G.Swallowed usesReject c atBol rest total r := by
  unfold CutAt at h
  unfold Swallowed
  split_ifs at h with hvar
  · have hneg : ¬ (0 < G.trailLen r ∧ G.trailLen r = total) := by
      have := hvar.2
      omega
    rw [or_iff_right hneg, and_iff_right hvar.1, and_iff_right hvar.2]
    rcases h with ⟨j, hj, hlen⟩ | ⟨hno, rfl⟩
    · rw [hlen]
      constructor
      · intro h
        obtain rfl : j = 0 := by
          split_ifs at h
          · exact h
          · omega
        exact ⟨hj.1, fun i hi ↦ Nat.le_zero.1 (hj.2 hi)⟩
      · rintro ⟨-, hall⟩
        obtain rfl := hall j hj.1
        exact if_pos (Nat.zero_le _)
    · exact ⟨fun h ↦ absurd h htotal.ne', fun h ↦ absurd h.1 (hno 0)⟩
  · rw [h, cutTrail_eq_zero_iff htotal, or_iff_left fun h ↦ hvar ⟨h.1, h.2.1⟩]

end Grammar

theorem Match.Of.len_pos_iff {G : Grammar} {usesReject : Bool} {c : Nat} {atBol : Bool}
    {rest : List Byte} {m : Match} (h : m.Of G usesReject c atBol rest) :
    0 < m.len ↔ ¬ G.Stalls usesReject c atBol rest := by
  have htotal : 0 < m.total := (cand_mem_candidates.1 h.best.1).pos
  rw [Nat.pos_iff_ne_zero, Ne, h.cut.eq_zero_iff htotal, not_iff_not]
  constructor
  · exact fun hs ↦ ⟨m.total, m.rule, h.best, hs⟩
  · rintro ⟨n, r, hg, hs⟩
    obtain ⟨rfl, rfl⟩ := h.eq hg
    exact hs

namespace Lexer

/-! ## What an iteration leaves alone -/

theorem length_data_textUnseal (s : Lexer) : s.textUnseal.data.length = s.data.length := by
  unfold textUnseal
  split_ifs
  · exact List.length_set
  · rfl

theorem length_data_accept (s : Lexer) (m : Match) : (s.accept m).data.length = s.data.length :=
  List.length_set

@[simp] theorem bufPos_accept (s : Lexer) (m : Match) : (s.accept m).bufPos = s.bufPos + m.len := rfl

theorem data_act (e : Effect) (s : Lexer) : (s.act e).data = s.data := by
  unfold act
  simp only
  split_ifs <;> rfl

theorem bufEnd_act (e : Effect) (s : Lexer) : (s.act e).bufEnd = s.bufEnd := by
  unfold act
  simp only
  split_ifs <;> rfl

@[simp] theorem bufPos_act (e : Effect) (s : Lexer) : (s.act e).bufPos = s.bufPos := by
  unfold act
  simp only
  split_ifs <;> rfl

theorem start_act (e : Effect) (s : Lexer) : (s.act e).start = e.start.getD s.start := by
  unfold act
  simp only
  split_ifs <;> rfl

/-- An iteration at the end of the buffer. -/
theorem iterate_of_le {s : Lexer} (h : s.bufEnd ≤ s.bufPos) {t : Tables} {nodefault : Bool}
    {e : Effect} : s.iterate t nodefault e = s.textUnseal.atEof := by
  have hstop : s.textUnseal.bufEnd ≤ s.textUnseal.bufPos := by
    rwa [bufEnd_textUnseal, bufPos_textUnseal]
  rw [Lexer.iterate]
  exact if_pos hstop

/-- The buffer ends inside the data, and the start condition is one of the scanner's. -/
structure Ok (nconds : Nat) (s : Lexer) : Prop where
  bufEnd_le : s.bufEnd ≤ s.data.length
  start_lt : s.start < nconds

/-- A state stands at its own position. -/
theorem Ok.at {nconds : Nat} {s : Lexer} (h : s.Ok nconds) :
    s.At s.textUnseal.buf s.bufPos s.start s.atBol := by
  refine ⟨rfl, ?_, rfl, rfl, rfl⟩
  rw [buf, bufEnd_textUnseal, List.length_take, length_data_textUnseal, min_eq_left h.bufEnd_le]

/-- The position after an iteration inside the buffer. -/
theorem bufPos_iterate {s : Lexer} {buf : List Byte} {mb c : Nat} {atBol : Bool}
    (h : s.At buf mb c atBol) (hmb : mb < buf.length) (t : Tables) (nodefault : Bool) (e : Effect) :
    (s.iterate t nodefault e).2.bufPos = match bodyMatch t buf mb c atBol with
      | none => if nodefault then mb else mb + 1
      | some m => mb + m.len := by
  rw [h.iterate_eq hmb]
  cases bodyMatch t buf mb c atBol with
  | none =>
      have hpos : s.textUnseal.bufPos = mb := (bufPos_textUnseal s).trans h.bufPos
      cases nodefault with
      | true => exact hpos
      | false => exact congrArg (· + 1) hpos
  | some m =>
      simp only [bufPos_act, bufPos_accept, bufPos_textUnseal, h.bufPos]

/-- An iteration keeps the ends of the buffer. -/
theorem Ok.iterate {nconds : Nat} {s : Lexer} (h : s.Ok nconds) (t : Tables) (nodefault : Bool)
    {e : Effect} (he : ∀ c ∈ e.start, c < nconds) :
    (s.iterate t nodefault e).2.Ok nconds ∧ (s.iterate t nodefault e).2.bufEnd = s.bufEnd := by
  have hlen := length_data_textUnseal s
  have hend := bufEnd_textUnseal s
  have hu : s.textUnseal.Ok nconds :=
    ⟨by rw [hlen, hend]; exact h.bufEnd_le, by rw [start_textUnseal]; exact h.start_lt⟩
  rcases Nat.lt_or_ge s.bufPos s.bufEnd with hlt | hge
  · rw [h.at.iterate_eq (h.at.bufEnd ▸ hlt)]
    cases bodyMatch t s.textUnseal.buf s.bufPos s.start s.atBol with
    | none =>
        cases nodefault with
        | true => exact ⟨hu, hend⟩
        | false => exact ⟨⟨hu.bufEnd_le, hu.start_lt⟩, hend⟩
    | some m =>
        refine ⟨⟨?_, ?_⟩, (bufEnd_act e _).trans hend⟩
        · rw [bufEnd_act, data_act, length_data_accept]
          exact hu.bufEnd_le
        · rw [start_act]
          cases hs : e.start with
          | none => exact hu.start_lt
          | some c => exact he c hs
  · rw [iterate_of_le hge]
    exact ⟨⟨hu.bufEnd_le, hu.start_lt⟩, hend⟩

/-- Every iteration of a run meets the condition. -/
def Along (P : Lexer → Effect → Prop) (t : Tables) (nodefault : Bool) :
    List Effect → Lexer → Prop
  | [], _ => True
  | e :: es, s => P s e ∧ Along P t nodefault es (s.iterate t nodefault e).2

instance decidableAlong {P : Lexer → Effect → Prop} [∀ s e, Decidable (P s e)] (t : Tables)
    (nodefault : Bool) : ∀ (es : List Effect) (s : Lexer), Decidable (s.Along P t nodefault es)
  | [], _ => isTrue trivial
  | e :: es, s =>
      have := decidableAlong (P := P) t nodefault es (s.iterate t nodefault e).2
      inferInstanceAs (Decidable (P s e ∧ Along P t nodefault es (s.iterate t nodefault e).2))

end Lexer

/-- Whether an event takes bytes off the input. -/
def Event.consumes : Event → Bool
  | .token .. | .echo _ => true
  | .jam | .eof => false

/-! ## The iterations -/

section Progress

variable {t : Tables} {G : Grammar} {usesReject : Bool}

/-- An iteration jams, or moves on unless the best match is all trailing context. -/
theorem advances_iff (ht : t.Implements G) (ha : t.yyAccept.isSome = usesReject)
    (he : t.yyRuleEol.isSome = usesReject) {s : Lexer} {buf : List Byte} {mb c : Nat} {atBol : Bool}
    (hs : s.At buf mb c atBol) (hmb : mb < buf.length) (hc : c < G.condNames.length)
    (nodefault : Bool) (e : Effect) :
    ((s.iterate t nodefault e).1 = .jam ∨ mb < (s.iterate t nodefault e).2.bufPos) ↔
      ¬ G.Stalls usesReject c atBol (buf.drop mb) := by
  rw [Lexer.bufPos_iterate hs hmb, hs.iterate_eq hmb]
  cases hm : bodyMatch t buf mb c atBol with
  | some m =>
      have hof := bodyMatch_spec ht ha he hc hm
      rw [← hof.len_pos_iff]
      simp
  | none =>
      have hno : ¬ G.Stalls usesReject c atBol (buf.drop mb) := by
        rintro ⟨n, r, hg, -⟩
        exact (bodyMatch_eq_none_iff ht ha he hc).1 hm n r (cand_mem_candidates.1 hg.1)
      cases nodefault with
      | true => simp [hno]
      | false => simp [hno]

/-- What is ahead of the scanner does not stall it. -/
def Lexer.Unstalled (G : Grammar) (usesReject : Bool) (s : Lexer) : Prop :=
  s.bufPos < s.bufEnd →
    ¬ G.Stalls usesReject s.start s.atBol (s.textUnseal.buf.drop s.bufPos)

/-- An iteration that takes something moves on, and one that takes nothing stays. -/
theorem Lexer.Ok.advances (ht : t.Implements G) (ha : t.yyAccept.isSome = usesReject)
    (he : t.yyRuleEol.isSome = usesReject) {s : Lexer} (hs : s.Ok G.condNames.length)
    (hgo : s.Unstalled G usesReject) (nodefault : Bool) (e : Effect) :
    if (s.iterate t nodefault e).1.consumes then
      s.bufPos < s.bufEnd ∧ s.bufPos < (s.iterate t nodefault e).2.bufPos
    else (s.iterate t nodefault e).2.bufPos = s.bufPos := by
  rcases Nat.lt_or_ge s.bufPos s.bufEnd with hlt | hge
  · have hmb : s.bufPos < s.textUnseal.buf.length := hs.at.bufEnd ▸ hlt
    have hadv := (advances_iff ht ha he hs.at hmb hs.start_lt nodefault e).2 (hgo hlt)
    have hpos := Lexer.bufPos_iterate hs.at hmb t nodefault e
    rw [hs.at.iterate_eq hmb] at hadv hpos ⊢
    cases hm : bodyMatch t s.textUnseal.buf s.bufPos s.start s.atBol with
    | some m =>
        rw [hm] at hadv
        show s.bufPos < s.bufEnd ∧ s.bufPos < _
        exact ⟨hlt, hadv.resolve_left (by simp)⟩
    | none =>
        rw [hm] at hadv hpos
        cases nodefault with
        | true => exact hpos
        | false => exact ⟨hlt, hadv.resolve_left (by simp [Lexer.echo])⟩
  · rw [Lexer.iterate_of_le hge]
    exact Lexer.bufPos_textUnseal s

/-- A run that never stalls takes something at most once for every byte left. -/
theorem Lexer.Ok.consumes_le (ht : t.Implements G) (ha : t.yyAccept.isSome = usesReject)
    (he : t.yyRuleEol.isSome = usesReject) (nodefault : Bool) (es : List Effect)
    (hes : ∀ e ∈ es, ∀ c ∈ e.start, c < G.condNames.length) {s : Lexer}
    (hs : s.Ok G.condNames.length) (hgo : s.Along (fun s _ ↦ s.Unstalled G usesReject) t nodefault es) :
    ((s.run t nodefault es).1.countP Event.consumes) ≤ s.bufEnd - s.bufPos := by
  induction es generalizing s with
  | nil => exact Nat.zero_le _
  | cons e es ih =>
      obtain ⟨hok, hend⟩ := hs.iterate t nodefault (hes e List.mem_cons_self)
      have hrest := ih (fun e' he' ↦ hes e' (List.mem_cons_of_mem e he')) hok hgo.2
      have hstep := hs.advances ht ha he hgo.1 nodefault e
      rw [hend] at hrest
      rw [Lexer.run]
      simp only [List.countP_cons]
      split_ifs at hstep ⊢ <;> omega

end Progress

/-- **Progress.**  In either body an iteration jams or moves on, unless the best match at
the position is trailing context from end to end; and a run that meets no such match takes
at most as many tokens and echoes as there are bytes left. -/
theorem progress_iff (G : Grammar) (std : StdSort Nat) (mode : CompressMode) (usesReject : Bool) :
    ∃ dfa t, generate std mode usesReject G.nfa = some (dfa, t) ∧
      (∀ c < G.condNames.length, ∀ (atBol : Bool) (buf : List Byte) (mb : Nat), mb < buf.length →
        ∀ (s : Lexer) (nodefault : Bool) (e : Effect), s.At buf mb c atBol →
          (((s.iterate t nodefault e).1 = .jam ∨ mb < (s.iterate t nodefault e).2.bufPos) ↔
            ¬ G.Stalls usesReject c atBol (buf.drop mb))) ∧
      ∀ (nodefault : Bool) (es : List Effect), (∀ e ∈ es, ∀ c ∈ e.start, c < G.condNames.length) →
        ∀ s : Lexer, s.Ok G.condNames.length →
          s.Along (fun s _ ↦ s.Unstalled G usesReject) t nodefault es →
            ((s.run t nodefault es).1.countP Event.consumes) ≤ s.bufEnd - s.bufPos := by
  obtain ⟨dfa, t, hgen, ht, ha, he⟩ := G.exists_tables std mode usesReject
  refine ⟨dfa, t, hgen, fun c hc atBol buf mb hmb s nodefault e hs ↦ ?_,
    fun nodefault es hes s hs hgo ↦ ?_⟩
  · exact advances_iff ht ha he hs hmb hc nodefault e
  · exact hs.consumes_le ht ha he nodefault es hes hgo

/-- The rule `a*/b`. -/
def bareTail : Grammar :=
  { rules := [{ root := .concat (.star (.cls (ByteSet.add {} 97))) (.cls (ByteSet.add {} 98))
                trailLen := 1 }] }

/-- On `b` the whole match of `a*/b` is given back, and the scanner stays where it is. -/
theorem iterate_bareTail :
    ((generate (.insertion Nat) .fullEc false bareTail.nfa).map fun g ↦
        (((Lexer.init [98]).iterate g.2 false {}).1,
          ((Lexer.init [98]).iterate g.2 false {}).2.bufPos)) =
      some (.token 0 [] [], (Lexer.init [98]).bufPos) ∧
    (Lexer.init [98]).bufPos < (Lexer.init [98]).bufEnd := by
  decide +kernel

end LexCpp
