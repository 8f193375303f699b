import LexCpp.Regex.Caseless
import LexCpp.Scanner.Progress

/-!
# Scanning without regard to case

A scanner whose patterns were all read with `case_insensitive` set takes two buffers that are
equal up to the case of letters apart in the same way: both runs go through the same rules with
the same lengths.
-/

namespace LexCpp

open Munch

/-! ## Words in a buffer -/

namespace SameCase

variable {u v : List Byte}

theorem length_eq (h : SameCase u v) : u.length = v.length := by
  rw [← List.length_map (f := lower), h, List.length_map]

theorem take (h : SameCase u v) (n : Nat) : SameCase (u.take n) (v.take n) := by
  show (u.take n).map lower = (v.take n).map lower
  rw [List.map_take, List.map_take, h]

theorem drop (h : SameCase u v) (n : Nat) : SameCase (u.drop n) (v.drop n) := by
  show (u.drop n).map lower = (v.drop n).map lower
  rw [List.map_drop, List.map_drop, h]

theorem append {u' v' : List Byte} (h : SameCase u v) (h' : SameCase u' v') :
    SameCase (u ++ u') (v ++ v') := by
  show (u ++ u').map lower = (v ++ v').map lower
  rw [List.map_append, List.map_append, h, h']

theorem set (h : SameCase u v) {b c : Byte} (hbc : lower b = lower c) (n : Nat) :
    SameCase (u.set n b) (v.set n c) := by
  show (u.set n b).map lower = (v.set n c).map lower
  rw [List.map_set, List.map_set, h, hbc]

theorem lower_getElem? (h : SameCase u v) (n : Nat) : u[n]?.map lower = v[n]?.map lower := by
  rw [← List.getElem?_map, h, List.getElem?_map]

theorem lower_getD (h : SameCase u v) (n : Nat) : lower (u.getD n 0) = lower (v.getD n 0) := by
  have hn := h.lower_getElem? n
  rw [List.getD_eq_getElem?_getD, List.getD_eq_getElem?_getD]
  cases hu : u[n]? with
  | none =>
      rw [hu, Option.map_none, eq_comm, Option.map_eq_none_iff] at hn
      rw [hn]
  | some b =>
      rw [hu, Option.map_some, eq_comm, Option.map_eq_some_iff] at hn
      obtain ⟨c, hc, hbc⟩ := hn
      rw [hc]
      exact hbc.symm

/-- A newline has no case. -/
theorem getElem?_eq_newline_iff (h : SameCase u v) (n : Nat) :
    u[n]? = some newline ↔ v[n]? = some newline := by
  have hiff : ∀ w : List Byte, w[n]? = some newline ↔ w[n]?.map lower = some newline := by
    intro w
    rw [Option.map_eq_some_iff]
    refine ⟨fun hw ↦ ⟨newline, hw, lower_eq_newline.2 rfl⟩, ?_⟩
    rintro ⟨b, hb, hnl⟩
    rw [hb, lower_eq_newline.1 hnl]
  rw [hiff u, hiff v, h.lower_getElem? n]

theorem atLineEnd_iff (h : SameCase u v) (n : Nat) : AtLineEnd u n ↔ AtLineEnd v n := by
  have hiff : ∀ w : List Byte, AtLineEnd w n ↔ w[n]? = none ∨ w[n]? = some newline := by
    intro w
    unfold AtLineEnd
    cases w[n]? with
    | none => simp
    | some b => simp
  have hnone : u[n]? = none ↔ v[n]? = none := by
    rw [List.getElem?_eq_none_iff, List.getElem?_eq_none_iff, h.length_eq]
  rw [hiff u, hiff v, hnone, h.getElem?_eq_newline_iff]

end SameCase

theorem Node.Caseless.mem_lang_iff {t : Node} (h : t.Caseless) {u v : List Byte}
    (huv : SameCase u v) : u ∈ t.lang ↔ v ∈ t.lang :=
  (h.blind_denote fun _ hs ↦ hs.blind).mem_iff huv

/-! ## Grammars -/

namespace Node

theorem caseless_unwrapAnchors {t : Node} (h : t.Caseless) : (unwrapAnchors t).1.Caseless := by
  have hbol : (unwrapBol t).1.Caseless := by
    unfold unwrapBol
    split
    · exact (Caseless.of_append rfl h).2
    · exact h
  show (unwrapEol (unwrapBol t).1).1.Caseless
  unfold unwrapEol
  split
  · rename_i hcat
    rw [hcat] at hbol
    exact (Caseless.of_append rfl hbol).1
  · exact hbol

end Node

namespace Grammar

/-- The patterns of the rules were read with `case_insensitive` set. -/
def ReadCaseless (G : Grammar) : Prop :=
  ∀ r ∈ G.rules, ∃ (fuel : Nat) (env : ParseEnv) (src : List Byte) (p : ParsedPattern)
    (diags : List Diag), env.ci = true ∧ parsePattern fuel env src = some (p, diags) ∧
      p.tree = some r.root

/-- No rule tells the cases of a letter apart. -/
def Caseless (G : Grammar) : Prop := ∀ r ∈ G.rules, r.body.Caseless

theorem ReadCaseless.caseless {G : Grammar} (h : G.ReadCaseless) : G.Caseless := by
  intro r hr
  obtain ⟨fuel, env, src, p, diags, hci, hp, htree⟩ := h r hr
  exact Node.caseless_unwrapAnchors (parsePattern_caseless hci hp r.root htree)

variable {G : Grammar} (hG : G.Caseless) {u v : List Byte} (h : SameCase u v)

include hG h

theorem Caseless.matches_iff (c : Nat) (atBol : Bool) (j : Nat) :
    G.Matches c atBol j u ↔ G.Matches c atBol j v := by
  refine exists_congr fun r ↦ and_congr_right fun hr ↦ and_congr_right fun _ ↦ ?_
  have hblind : Blind lower r.body.reads :=
    (hG r (List.mem_of_getElem? hr)).blind_denote fun _ hs ↦ hs.blind_edgeLang
  exact hblind.mem_iff h

theorem Caseless.heads_iff (c : Nat) (atBol : Bool) (j : Nat) :
    G.Heads c atBol j u ↔ G.Heads c atBol j v := by
  refine exists_congr fun r ↦ and_congr_right fun hr ↦ and_congr_right fun _ ↦ ?_
  have hblind : Blind lower (r.body.heads ByteSet.edgeLang) :=
    (hG r (List.mem_of_getElem? hr)).blind_heads fun _ hs ↦ hs.blind_edgeLang
  exact hblind.mem_iff h

theorem Caseless.matchesAt_iff (c : Nat) (atBol : Bool) (n r : Nat) :
    G.MatchesAt c atBol u n r ↔ G.MatchesAt c atBol v n r := by
  unfold MatchesAt
  rw [h.length_eq, hG.matches_iff (h.take n)]

theorem Caseless.headsAt_iff (c : Nat) (atBol : Bool) (r n : Nat) :
    G.HeadsAt c atBol u r n ↔ G.HeadsAt c atBol v r n := by
  unfold HeadsAt
  rw [h.length_eq, hG.heads_iff (h.take n)]

theorem Caseless.considered_iff (c : Nat) (atBol : Bool) (n r : Nat) :
    Considered G c atBol u n r ↔ Considered G c atBol v n r := by
  have hslot : ∀ e n r, G.SlotAt e c atBol u n r ↔ G.SlotAt e c atBol v n r := fun e n r ↦
    and_congr_left fun _ ↦ hG.matchesAt_iff h c atBol n r
  unfold Considered
  simp only [hslot, h.atLineEnd_iff]

theorem Caseless.looksAt_iff (usesReject : Bool) (c : Nat) (atBol : Bool) (n r : Nat) :
    G.LooksAt usesReject c atBol u n r ↔ G.LooksAt usesReject c atBol v n r := by
  unfold LooksAt
  split_ifs
  · unfold Collected LawfulAt
    simp only [hG.matchesAt_iff h, h.atLineEnd_iff]
  · exact hG.considered_iff h c atBol n r

theorem Caseless.cutAt_iff (usesReject : Bool) (c : Nat) (atBol : Bool) (r total len : Nat) :
    G.CutAt usesReject c atBol u r total len ↔ G.CutAt usesReject c atBol v r total len := by
  unfold CutAt
  simp only [hG.headsAt_iff h]

omit h

/-- The match at a position of two buffers. -/
theorem Caseless.bodyMatch_eq {t : Tables} {usesReject : Bool} (ht : t.Implements G)
    (ha : t.yyAccept.isSome = usesReject) (he : t.yyRuleEol.isSome = usesReject) {c : Nat}
    (hc : c < G.condNames.length) {buf buf' : List Byte} (hbuf : SameCase buf buf') (mb : Nat)
    (atBol : Bool) : bodyMatch t buf mb c atBol = bodyMatch t buf' mb c atBol := by
  have hlooks := hG.looksAt_iff (hbuf.drop mb) usesReject c atBol
  cases hm : bodyMatch t buf mb c atBol with
  | none =>
      rw [bodyMatch_eq_none_iff ht ha he hc] at hm
      exact ((bodyMatch_eq_none_iff ht ha he hc).2 fun n r hl ↦ hm n r ((hlooks n r).2 hl)).symm
  | some m =>
      have hof := bodyMatch_spec ht ha he hc hm
      have hbest := hof.best
      have hcand : candidates (G.LooksAt usesReject c atBol (buf.drop mb)) =
          candidates (G.LooksAt usesReject c atBol (buf'.drop mb)) :=
        Set.ext fun x ↦ hlooks _ _
      rw [hcand] at hbest
      cases hm' : bodyMatch t buf' mb c atBol with
      | none =>
          rw [bodyMatch_eq_none_iff ht ha he hc] at hm'
          exact absurd (cand_mem_candidates.1 hbest.1) (hm' _ _)
      | some m' =>
          have hof' := bodyMatch_spec ht ha he hc hm'
          obtain ⟨htotal, hrule⟩ := hof'.eq hbest
          have hcut := hof'.cut
          rw [htotal, hrule, ← hG.cutAt_iff (hbuf.drop mb)] at hcut
          have hlen := hof.cut.unique hcut
          cases m
          cases m'
          simp only at htotal hrule hlen
          rw [htotal, hrule, hlen]

end Grammar

/-! ## Runs -/

/-- The same rules and lengths, and text that is equal up to case. -/
def Event.SameCase : Event → Event → Prop
  | .token r own text, .token r' own' text' =>
      r = r' ∧ LexCpp.SameCase own own' ∧ LexCpp.SameCase text text'
  | .echo b, .echo b' => lower b = lower b'
  | .jam, .jam | .eof, .eof => True
  | _, _ => False

namespace Lexer

/-- Two scanners at the same position of buffers that are equal up to case. -/
structure SameCase (s s' : Lexer) : Prop where
  data : LexCpp.SameCase s.data s'.data
  textSave : lower s.textSave = lower s'.textSave
  eq : s' = { s with data := s'.data, textSave := s'.textSave }

namespace SameCase

variable {s s' : Lexer}

theorem init {d d' : List Byte} (h : LexCpp.SameCase d d') : SameCase (init d) (init d') := by
  refine ⟨h.append rfl, rfl, ?_⟩
  unfold Lexer.init
  rw [h.length_eq]

theorem textUnseal (h : SameCase s s') : SameCase s.textUnseal s'.textUnseal := by
  obtain ⟨hdata, hsave, heq⟩ := h
  unfold Lexer.textUnseal
  rw [heq]
  simp only
  split_ifs
  · exact ⟨hdata.set hsave _, hsave, rfl⟩
  · exact ⟨hdata, hsave, rfl⟩

theorem bufEnd (h : SameCase s s') : s'.bufEnd = s.bufEnd := by rw [h.eq]

theorem bufPos (h : SameCase s s') : s'.bufPos = s.bufPos := by rw [h.eq]

theorem start (h : SameCase s s') : s'.start = s.start := by rw [h.eq]

theorem atBol (h : SameCase s s') : s'.atBol = s.atBol := by rw [h.eq]

theorem buf (h : SameCase s s') : LexCpp.SameCase s.buf s'.buf := by
  unfold Lexer.buf
  rw [h.bufEnd]
  exact h.data.take _

theorem yytext (h : SameCase s s') : LexCpp.SameCase s.yytext s'.yytext := by
  have htext : s'.text = s.text := by rw [h.eq]
  have hleng : s'.leng = s.leng := by rw [h.eq]
  unfold Lexer.yytext
  rw [htext, hleng]
  exact (h.data.drop _).take _

theorem accept (h : SameCase s s') (m : Match) : SameCase (s.accept m) (s'.accept m) := by
  obtain ⟨hdata, -, heq⟩ := h
  have hset := fun n ↦ hdata.set (rfl : lower 0 = lower 0) n
  unfold Lexer.accept
  rw [heq]
  refine ⟨hset _, hdata.lower_getD _, ?_⟩
  simp only [(hset _).getElem?_eq_newline_iff]

theorem act (h : SameCase s s') (e : Effect) : SameCase (s.act e) (s'.act e) := by
  obtain ⟨hdata, hsave, heq⟩ := h
  unfold Lexer.act
  rw [heq]
  simp only
  split_ifs
  · exact ⟨hdata, hsave, rfl⟩
  · exact ⟨hdata, hsave, rfl⟩
  · exact ⟨hdata, hsave, rfl⟩

theorem echo (h : SameCase s s') : s.echo.1.SameCase s'.echo.1 ∧ SameCase s.echo.2 s'.echo.2 := by
  obtain ⟨hdata, hsave, heq⟩ := h
  have hb := hdata.lower_getD s.bufPos
  have hnl : s.data.getD s.bufPos 0 = newline ↔ s'.data.getD s.bufPos 0 = newline := by
    rw [← lower_eq_newline, hb, lower_eq_newline]
  unfold Lexer.echo
  rw [heq]
  refine ⟨hb, hdata, hsave, ?_⟩
  simp only [hnl]

theorem atEof (h : SameCase s s') : SameCase s.atEof.2 s'.atEof.2 := by
  obtain ⟨hdata, -, heq⟩ := h
  unfold Lexer.atEof
  rw [heq]
  exact ⟨hdata, rfl, rfl⟩

variable {G : Grammar} {t : Tables} {usesReject : Bool}

theorem iterate (h : SameCase s s') (hG : G.Caseless) (ht : t.Implements G)
    (ha : t.yyAccept.isSome = usesReject) (he : t.yyRuleEol.isSome = usesReject)
    (hok : s.Ok G.condNames.length) (nodefault : Bool) (e : Effect) :
    (s.iterate t nodefault e).1.SameCase (s'.iterate t nodefault e).1 ∧
      SameCase (s.iterate t nodefault e).2 (s'.iterate t nodefault e).2 := by
  have hu := h.textUnseal
  have hmatch := hG.bodyMatch_eq ht ha he (c := s.textUnseal.start)
    (by rw [start_textUnseal]; exact hok.start_lt) hu.buf s.textUnseal.bufPos s.textUnseal.atBol
  unfold Lexer.iterate
  simp only
  rw [hu.bufEnd, hu.bufPos, hu.start, hu.atBol, ← hmatch]
  by_cases hend : s.textUnseal.bufEnd ≤ s.textUnseal.bufPos
  · rw [if_pos hend, if_pos hend]
    exact ⟨trivial, hu.atEof⟩
  · rw [if_neg hend, if_neg hend]
    cases bodyMatch t s.textUnseal.buf s.textUnseal.bufPos s.textUnseal.start
        s.textUnseal.atBol with
    | none =>
        cases nodefault with
        | true => exact ⟨trivial, hu⟩
        | false => exact hu.echo
    | some m =>
        refine ⟨⟨rfl, (hu.buf.drop _).take _, (hu.accept m).yytext⟩, (hu.accept m).act e⟩

/-- Both scanners go through the same iterations. -/
theorem run (h : SameCase s s') (hG : G.Caseless) (ht : t.Implements G)
    (ha : t.yyAccept.isSome = usesReject) (he : t.yyRuleEol.isSome = usesReject)
    (hok : s.Ok G.condNames.length) (nodefault : Bool) (es : List Effect)
    (hes : ∀ e ∈ es, ∀ c ∈ e.start, c < G.condNames.length) :
    List.Forall₂ Event.SameCase (s.run t nodefault es).1 (s'.run t nodefault es).1 := by
  induction es generalizing s s' with
  | nil => exact .nil
  | cons e es ih =>
      obtain ⟨hev, hstep⟩ := h.iterate hG ht ha he hok nodefault e
      obtain ⟨hok', -⟩ := hok.iterate t nodefault (hes e List.mem_cons_self)
      exact .cons hev (ih hstep hok' fun e' he' ↦ hes e' (List.mem_cons_of_mem e he'))

end SameCase

theorem ok_init {nconds : Nat} (h : 0 < nconds) (d : List Byte) : (init d).Ok nconds :=
  ⟨by simp [init], h⟩

end Lexer

/-- **Case-insensitive patterns cannot see case.**  With `case_insensitive` set, a class of a
tree has both cases of a letter or neither, and the language of the tree is blind to case;
scanners generated from such patterns take buffers equal up to case apart alike. -/
theorem caseless_blind :
    (∀ (fuel : Nat) (env : ParseEnv) (src : List Byte) (t : Node) (diags : List Diag),
      env.ci = true → parseRegex fuel env src = some (some t, diags) →
        (∀ s ∈ t.classes, ∀ b, s.test (otherCase b) = s.test b) ∧
          ∀ u v, SameCase u v → (u ∈ t.lang ↔ v ∈ t.lang)) ∧
    ∀ G : Grammar, 0 < G.condNames.length → G.ReadCaseless →
      ∀ (std : StdSort Nat) (mode : CompressMode) (usesReject : Bool),
        ∃ dfa t, generate std mode usesReject G.nfa = some (dfa, t) ∧
          ∀ (d d' : List Byte), SameCase d d' → ∀ (nodefault : Bool) (es : List Effect),
            (∀ e ∈ es, ∀ c ∈ e.start, c < G.condNames.length) →
              List.Forall₂ Event.SameCase ((Lexer.init d).run t nodefault es).1
                ((Lexer.init d').run t nodefault es).1 := by
  refine ⟨fun fuel env src t diags hci ht ↦ ?_, fun G hpos hread std mode usesReject ↦ ?_⟩
  · have hcaseless := parseRegex_caseless hci ht
    exact ⟨hcaseless, fun u v huv ↦ hcaseless.mem_lang_iff huv⟩
  · obtain ⟨dfa, t, hgen, ht, ha, he⟩ := G.exists_tables std mode usesReject
    refine ⟨dfa, t, hgen, fun d d' hd nodefault es hes ↦ ?_⟩
    exact (Lexer.SameCase.init hd).run hread.caseless ht ha he (Lexer.ok_init hpos d) nodefault es hes

/-- `[^a]` with `case_insensitive` set, on a letter in both cases. -/
theorem caseless_blind_negated :
    ∃ t diags, parseRegex 1 { macros := fun _ ↦ none, ci := true } [91, 94, 97, 93] =
      some (some t, diags) ∧ ([66] ∈ t.lang ↔ [98] ∈ t.lang) := by
  obtain ⟨t, diags, h⟩ : ∃ t diags, parseRegex 1 { macros := fun _ ↦ none, ci := true }
      [91, 94, 97, 93] = some (some t, diags) := by
    refine ⟨.cls (ByteSet.addAll {} ((List.finRange 256).filter fun b ↦ b ≠ 97 ∧ b ≠ 65)), [], ?_⟩
    decide +kernel
  exact ⟨t, diags, h, (caseless_blind.1 1 _ _ t diags rfl h).2 [66] [98] (by decide)⟩

end LexCpp
