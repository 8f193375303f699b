import LexCpp.Regex.Pattern
import LexCpp.Scanner.Progress

/-!
# Where trailing context splits a match

A rule `r/s` matches a word of `r` followed by a word of `s`.  Its text is cut off after the
word of `r`: from the end if all words of `s` have one length, else at the marker, which can
only be met at one place if all words of `r` have one length.
-/

namespace LexCpp

open Munch Computability

section Trees

variable {r s : Node}

/-- Only the anchor of the head is at the root. -/
theorem unwrapAnchors_concat {a b : Node} (ha : a ≠ .anchorBOL) (hb : b ≠ .anchorEOL)
    (bol : Bool) : unwrapAnchors (Node.withBol bol (.concat a b)) = (.concat a b, bol, false) := by
  have heol : unwrapEol (.concat a b) = (.concat a b, false) := by
    unfold unwrapEol
    split
    · rename_i heq
      exact absurd (Node.concat.inj heq).2 hb
    · rfl
  have hbol : unwrapBol (Node.withBol bol (.concat a b)) = (.concat a b, bol) := by
    cases bol with
    | true => rfl
    | false =>
        change unwrapBol (.concat a b) = (.concat a b, false)
        unfold unwrapBol
        split
        · rename_i heq
          exact absurd (Node.concat.inj heq).1 ha
        · rfl
  unfold unwrapAnchors
  rw [hbol]
  simp only
  rw [heol]

theorem Node.Plain.ne_anchorBOL (h : r.Plain) : r ≠ .anchorBOL := by
  rintro rfl
  exact absurd h.1 (by decide)

theorem Node.Plain.ne_anchorEOL (h : r.Plain) : r ≠ .anchorEOL := by
  rintro rfl
  exact absurd h.1 (by decide)

theorem unwrapAnchors_fixedTree (hr : r.Plain) (hs : s.Plain) (bol eol : Bool) :
    unwrapAnchors (Node.withBol bol (fixedTree r s eol)) = (fixedTree r s eol, bol, false) := by
  cases eol with
  | false => exact unwrapAnchors_concat hr.ne_anchorBOL hs.ne_anchorEOL bol
  | true => exact unwrapAnchors_concat (by simp) (by simp [Node.newlineNode]) bol

theorem unwrapAnchors_markedTree (hr : r.Plain) (bol eol : Bool) :
    unwrapAnchors (Node.withBol bol (markedTree r s eol)) = (markedTree r s eol, bol, false) := by
  cases eol with
  | false => exact unwrapAnchors_concat hr.ne_anchorBOL (by simp) bol
  | true => exact unwrapAnchors_concat hr.ne_anchorBOL (by simp) bol

theorem followed_withEol (hs : s.Plain) (eol : Bool) : (Node.withEol eol s).followed =
    if eol then .concat (.concat s .anchorEOL) .newlineNode else s := by
  unfold Node.followed
  rw [Node.peekIsEolAnchor_withEol hs]
  cases eol with
  | false => rfl
  | true => rfl

/-- A word of `r`, and then a word of `s` with its newline. -/
theorem lang_fixedTree (hs : s.Plain) (eol : Bool) :
    (fixedTree r s eol).lang = r.lang * (Node.withEol eol s).followed.lang := by
  rw [followed_withEol hs]
  cases eol with
  | false => rfl
  | true =>
      calc
        r.lang * s.lang * Node.newlineNode.lang = r.lang * (s.lang * 1 * Node.newlineNode.lang) := by
          rw [mul_one, mul_assoc]

theorem lang_markedTree (hs : s.Plain) (eol : Bool) :
    (markedTree r s eol).lang = r.lang * (Node.withEol eol s).followed.lang := by
  rw [followed_withEol hs]
  cases eol with
  | false =>
      calc
        r.lang * (1 * s.lang) = r.lang * s.lang := by rw [one_mul]
  | true =>
      calc
        r.lang * (1 * s.lang * Node.newlineNode.lang) =
            r.lang * (s.lang * 1 * Node.newlineNode.lang) := by rw [one_mul, mul_one]

/-- The marker comes right after the head. -/
theorem heads_markedTree (hr : r.Plain) (hs : s.Plain) (eol : Bool)
    (C : ByteSet → Language Byte) : (markedTree r s eol).heads C = r.denote C := by
  have hr0 := Node.heads_eq_zero (C := C) hr.2
  have hs0 := Node.heads_eq_zero (C := C) hs.2
  cases eol with
  | false =>
      calc
        r.heads C + r.denote C * (1 + 1 * s.heads C) = r.denote C := by
          rw [hr0, hs0, mul_zero, add_zero, mul_one, zero_add]
  | true =>
      calc
        r.heads C + r.denote C * (1 + 1 * s.heads C + 1 * s.denote C * 0) = r.denote C := by
          rw [hr0, hs0, mul_zero, mul_zero, add_zero, add_zero, mul_one, zero_add]

end Trees

/-! ## Lengths -/

theorem Node.exists_exactLength {t : Node} (hfit : t.lengthsFit = true) (h : 0 ≤ t.fixedLength) :
    ∃ n, t.exactLength = some n ∧ t.fixedLength = n := by
  rw [Node.fixedLength_eq hfit] at h ⊢
  cases hn : t.exactLength with
  | none =>
      rw [hn] at h
      exact absurd h (by decide)
  | some n => exact ⟨n, rfl, rfl⟩

/-- The fixed length of `s` with its newline is what `parse_pattern` records. -/
theorem exactLength_followed {s : Node} (hs : s.Plain) {eol : Bool}
    (hfit : (Node.withEol eol s).followed.lengthsFit = true) (h : 0 ≤ s.fixedLength) :
    ∃ n : Nat, (Node.withEol eol s).followed.exactLength = some n ∧
      int32 (s.fixedLength + if eol then 1 else 0) = n := by
  have hlt := fun {n} ↦ Node.exactLength_lt (n := n) hfit
  rw [followed_withEol hs] at hfit hlt ⊢
  cases eol with
  | false =>
      simp only [Bool.false_eq_true, if_false] at hfit hlt ⊢
      obtain ⟨n, hn, hlen⟩ := Node.exists_exactLength hfit h
      refine ⟨n, hn, ?_⟩
      rw [hlen, add_zero]
      exact int32_natCast (hlt hn)
  | true =>
      simp only [if_true] at hfit hlt ⊢
      have hs' : s.lengthsFit = true := by
        simp only [Node.lengthsFit, Node.all, Bool.and_eq_true] at hfit
        exact hfit.1.2.1.2
      obtain ⟨n, hn, hlen⟩ := Node.exists_exactLength hs' h
      have hn' : (Node.concat (.concat s .anchorEOL) .newlineNode).exactLength = some (n + 1) := by
        simp only [Node.exactLength, Node.newlineNode, hn]
        rfl
      refine ⟨n + 1, hn', ?_⟩
      rw [hlen]
      exact int32_natCast (hlt hn')

/-- The words of a tree of fixed length, among the first bytes of a text. -/
theorem eq_of_take_mem {L : Language Byte} {n : Nat} (hL : ∀ w ∈ L, w.length = n)
    {rest : List Byte} {j : Nat} (hj : j ≤ rest.length) (hw : rest.take j ∈ L) : j = n := by
  rw [← hL _ hw, List.length_take, min_eq_left hj]

/-! ## The cut -/

variable {G : Grammar} {c : Nat} {atBol : Bool} {rest : List Byte}

/-- A match that is cut after its head. -/
theorem mem_of_cut {R S : Language Byte} {total len : Nat} {u v : List Byte} (hu : u ∈ R)
    (hv : v ∈ S) (huv : u ++ v = rest.take total) (hlen : len = u.length) :
    len ≤ total ∧ rest.take len ∈ R ∧ (rest.take total).drop len ∈ S := by
  have hle : len ≤ total := by
    have := congrArg List.length huv
    rw [List.length_append, List.length_take] at this
    omega
  refine ⟨hle, ?_, ?_⟩
  · have htake : rest.take len = u := by
      rw [← min_eq_left hle, ← List.take_take, ← huv, hlen, List.take_left]
    exact htake ▸ hu
  · rw [← huv, hlen, List.drop_left]
    exact hv

/-- What a rule reads is what its tree means, if no class is empty. -/
theorem Grammar.MatchesAt.mem_lang {n k : Nat} (h : G.MatchesAt c atBol rest n k) {spec : RuleSpec}
    (hk : G.rules[k]? = some spec) (hne : spec.body.classesNonempty = true) :
    rest.take n ∈ spec.body.lang ∧ spec.Active G.condExcl c atBol := by
  obtain ⟨-, spec', hk', hact, hw⟩ := h
  obtain rfl := Option.some.inj (hk.symm.trans hk')
  rw [Node.reads_eq_lang hne] at hw
  exact ⟨hw, hact⟩

/-- **A tail of fixed length** is taken off the end. -/
theorem cut_fixed {R S : Language Byte} {total len n : Nat} (hS : ∀ w ∈ S, w.length = n)
    (hw : rest.take total ∈ R * S) (htotal : total ≤ rest.length)
    (hlen : len = cutTrail n total) :
    len ≤ total ∧ rest.take len ∈ R ∧ (rest.take total).drop len ∈ S := by
  obtain ⟨u, hu, v, hv, huv⟩ := Language.mem_mul.1 hw
  refine mem_of_cut hu hv huv ?_
  have hsum := congrArg List.length huv
  rw [List.length_append, List.length_take, min_eq_left htotal, hS v hv] at hsum
  rw [hlen, cutTrail]
  split_ifs <;> omega

/-- **A head of fixed length**: the marker can only be met behind it. -/
theorem cut_marked {R S : Language Byte} {total len n k : Nat} {spec : RuleSpec}
    (hR : ∀ w ∈ R, w.length = n) (hk : G.rules[k]? = some spec)
    (hact : spec.Active G.condExcl c atBol) (hheads : spec.body.heads ByteSet.edgeLang = R)
    (htrail : G.trailLen k < 0) (hw : rest.take total ∈ R * S) (htotal : total ≤ rest.length)
    (hcut : G.CutAt false c atBol rest k total len) :
    len ≤ total ∧ rest.take len ∈ R ∧ (rest.take total).drop len ∈ S := by
  obtain ⟨u, hu, v, hv, huv⟩ := Language.mem_mul.1 hw
  refine mem_of_cut hu hv huv ?_
  have hsum := congrArg List.length huv
  rw [List.length_append, List.length_take, min_eq_left htotal] at hsum
  have hmark : ∀ j, G.HeadsAt c atBol rest k j ↔ j ≤ rest.length ∧ rest.take j ∈ R := by
    intro j
    refine and_congr_right fun _ ↦ ?_
    constructor
    · rintro ⟨spec', hk', -, hj⟩
      obtain rfl := Option.some.inj (hk.symm.trans hk')
      exact hheads ▸ hj
    · exact fun hj ↦ ⟨spec, hk, hact, hheads.symm ▸ hj⟩
  have hhead : G.HeadsAt c atBol rest k u.length := by
    refine (hmark _).2 ⟨by omega, ?_⟩
    have htake : rest.take u.length = u := by
      rw [← min_eq_left (a := u.length) (b := total) (by omega), ← List.take_take, ← huv,
        List.take_left]
    exact htake.symm ▸ hu
  rw [Grammar.CutAt, if_pos ⟨rfl, htrail⟩] at hcut
  rcases hcut with ⟨j, hj, hlen⟩ | ⟨hno, -⟩
  · obtain ⟨hj, hjR⟩ := (hmark j).1 hj.1
    rw [hlen, eq_of_take_mem hR hj hjR, ← hR u hu, if_pos (by omega)]
  · exact absurd hhead (hno _)

/-! ## Rules -/

theorem classesNonempty_withBol {t : Node} {bol : Bool} :
    (Node.withBol bol t).classesNonempty = t.classesNonempty := by
  cases bol with
  | false => rfl
  | true => rfl

theorem classesNonempty_withEol {t : Node} {eol : Bool} :
    (Node.withEol eol t).classesNonempty = t.classesNonempty := by
  cases eol with
  | false => rfl
  | true => simp [Node.withEol, Node.classesNonempty, Node.all]

theorem lengthsFit_withBol {t : Node} {bol : Bool} (h : (Node.withBol bol t).lengthsFit = true) :
    t.lengthsFit = true := by
  cases bol with
  | false => exact h
  | true =>
      simp only [Node.withBol, if_true, Node.lengthsFit, Node.all, Bool.and_eq_true] at h
      exact h.2

variable {r s : Node} {bol eol usesReject : Bool} {spec : RuleSpec} {k total len : Nat}

theorem classesNonempty_fixedTree (hr : r.classesNonempty = true) (hs : s.classesNonempty = true) :
    (fixedTree r s eol).classesNonempty = true := by
  have hnl : Node.newlineNode.classesNonempty = true := by decide
  unfold Node.classesNonempty at *
  cases eol with
  | false => simp [fixedTree, Node.all, hr, hs]
  | true => simp [fixedTree, Node.all, hr, hs, hnl]

theorem classesNonempty_markedTree (hr : r.classesNonempty = true)
    (hs : s.classesNonempty = true) : (markedTree r s eol).classesNonempty = true := by
  have hnl : Node.newlineNode.classesNonempty = true := by decide
  unfold Node.classesNonempty at *
  cases eol with
  | false => simp [markedTree, Node.all, hr, hs]
  | true => simp [markedTree, Node.all, hr, hs, hnl]

/-- The rule of a pattern with a tail of fixed length. -/
theorem split_fixed (hr : r.Plain) (hs : s.Plain) (hneR : r.classesNonempty = true)
    (hneS : s.classesNonempty = true) (hfit : (Node.withEol eol s).followed.lengthsFit = true)
    (hfixed : 0 ≤ s.fixedLength) (hk : G.rules[k]? = some spec)
    (hroot : spec.root = Node.withBol bol (fixedTree r s eol))
    (htrail : G.trailLen k = int32 (s.fixedLength + if eol then 1 else 0))
    (hmatch : G.MatchesAt c atBol rest total k)
    (hcut : G.CutAt usesReject c atBol rest k total len) :
    len ≤ total ∧ rest.take len ∈ r.lang ∧
      (rest.take total).drop len ∈ (Node.withEol eol s).followed.lang := by
  have hbody : spec.body = fixedTree r s eol := by
    rw [RuleSpec.body, hroot, unwrapAnchors_fixedTree hr hs]
  obtain ⟨n, hn, htrailLen⟩ := exactLength_followed hs hfit hfixed
  have hne : spec.body.classesNonempty = true := hbody ▸ classesNonempty_fixedTree hneR hneS
  have hw := (hmatch.mem_lang hk hne).1
  rw [hbody, lang_fixedTree hs] at hw
  refine cut_fixed (n := n) (fun w hw ↦ Node.length_of_exactLength hn hw) hw hmatch.1 ?_
  rw [Grammar.CutAt, htrail, htrailLen] at hcut
  rwa [if_neg fun h ↦ h.2.not_ge (Int.natCast_nonneg n)] at hcut

/-- The rule of a pattern with a head of fixed length and a tail that varies. -/
theorem split_marked (hr : r.Plain) (hs : s.Plain) (hneR : r.classesNonempty = true)
    (hneS : s.classesNonempty = true) (hfit : r.lengthsFit = true) (hfixed : 0 ≤ r.fixedLength)
    (hk : G.rules[k]? = some spec) (hroot : spec.root = Node.withBol bol (markedTree r s eol))
    (htrail : G.trailLen k = -1) (hmatch : G.MatchesAt c atBol rest total k)
    (hcut : G.CutAt false c atBol rest k total len) :
    len ≤ total ∧ rest.take len ∈ r.lang ∧
      (rest.take total).drop len ∈ (Node.withEol eol s).followed.lang := by
  have hbody : spec.body = markedTree r s eol := by
    rw [RuleSpec.body, hroot, unwrapAnchors_markedTree hr]
  obtain ⟨n, hn, -⟩ := Node.exists_exactLength hfit hfixed
  have hne : spec.body.classesNonempty = true := hbody ▸ classesNonempty_markedTree hneR hneS
  obtain ⟨hw, hact⟩ := hmatch.mem_lang hk hne
  rw [hbody, lang_markedTree hs] at hw
  have hheads : spec.body.heads ByteSet.edgeLang = r.lang := by
    rw [hbody, heads_markedTree hr hs, ← Node.reads_eq_lang hneR]
    rfl
  exact cut_marked (fun w hw ↦ Node.length_of_exactLength hn hw) hk hact hheads
    (htrail ▸ (by decide : (-1 : Int) < 0)) hw hmatch.1 hcut

/-- **Trailing context splits a match.**  A pattern `r/s` is read without an error and
without the warning that both parts vary in length; `s` does not start with `^`.  Whenever
either body selects the rule, its text is a word of `r`, and what it gives back is a word of
`s`, with a newline for a final `$`. -/
theorem trailing_context_splits {fuel : Nat} {env : ParseEnv} {src : List Byte}
    {p : ParsedPattern} {diags : List Diag} (hp : parsePattern fuel env src = some (p, diags))
    (hslash : 0 ≤ findTopLevelSlash src) (hok : Diag.ok diags = true)
    (hwarn : ⟨.warning, env.loc, dangerousMsg⟩ ∉ diags)
    (hbol : (src.drop ((findTopLevelSlash src).toNat + 1)).getD 0 0 ≠ chr '^') :
    ∃ r rDiags s sDiags,
      parseRegex fuel env (src.take (findTopLevelSlash src).toNat) = some (some r, rDiags) ∧
      parseRegex fuel env (src.drop ((findTopLevelSlash src).toNat + 1)) =
        some (some s, sDiags) ∧
      (r.classesNonempty = true → s.classesNonempty = true → r.lengthsFit = true →
        s.followed.lengthsFit = true →
        ∀ (G : Grammar) (k : Nat) (spec : RuleSpec), G.rules[k]? = some spec →
          p.tree = some spec.root → spec.trailLen = p.trailLen →
          ∀ (std : StdSort Nat) (mode : CompressMode) (usesReject : Bool),
            (usesReject = true → ∀ j, 0 ≤ G.trailLen j) →
            ∃ dfa t, generate std mode usesReject G.nfa = some (dfa, t) ∧
              ∀ c < G.condNames.length, ∀ (atBol : Bool) (buf : List Byte) (mb : Nat),
                mb < buf.length → (usesReject = true → buf.length < 2147483648) →
                ∀ m ∈ bodyMatch t buf mb c atBol, m.rule = k →
                  (m.len ≤ m.total ∧ (buf.drop mb).take m.len ∈ r.lang ∧
                    ((buf.drop mb).take m.total).drop m.len ∈ s.followed.lang) ∧
                  ∀ (lx : Lexer) (nodefault : Bool) (e : Effect), lx.At buf mb c atBol →
                    (∃ yytext, (lx.iterate t nodefault e).1 =
                      .token k ((buf.drop mb).take m.len) yytext) ∧
                    (lx.iterate t nodefault e).2.bufPos = mb + m.len) := by
  obtain ⟨bol, r, eol, s, rDiags, sDiags, hr, hs, hparseR, hparseS, hshape⟩ :=
    parsePattern_trail hp hslash hok hwarn hbol
  refine ⟨_, rDiags, _, sDiags, hparseR, hparseS, ?_⟩
  intro hneR hneS hfitR hfitS G k spec hk htree htrail std mode usesReject hreject
  obtain ⟨dfa, t, hgen, ht, ha, he⟩ := G.exists_tables std mode usesReject
  refine ⟨dfa, t, hgen, fun c hc atBol buf mb hmb hbuf m hm hrule ↦ ⟨?_, fun lx nodefault e hlx ↦ ?_⟩⟩
  · have hof := bodyMatch_spec ht ha he hc hm
    have hlook : G.LooksAt usesReject c atBol (buf.drop mb) m.total m.rule :=
      cand_mem_candidates.1 hof.best.1
    have hmatch : G.MatchesAt c atBol (buf.drop mb) m.total k := by
      refine hrule ▸ (hlook.lawfulAt fun h ↦ ?_).2.1
      rw [List.length_drop]
      exact (Nat.sub_le _ _).trans_lt (hbuf h)
    have hcut := hof.cut
    rw [hrule] at hcut
    have htrailLen : G.trailLen k = p.trailLen := by
      rw [Grammar.trailLen, hk]
      exact htrail
    rw [Node.lang_withBol]
    rw [classesNonempty_withBol] at hneR
    rw [classesNonempty_withEol] at hneS
    rcases hshape with ⟨hfixed, htree', htrail'⟩ | ⟨-, hfixed, htree', htrail'⟩
    · exact split_fixed hr hs hneR hneS hfitS hfixed hk
        (Option.some.inj (htree.symm.trans htree')) (htrailLen.trans htrail') hmatch hcut
    · have hneg : G.trailLen k = -1 := htrailLen.trans htrail'
      cases usesReject with
      | true => exact absurd (hneg ▸ hreject rfl k) (by decide)
      | false =>
          exact split_marked hr hs hneR hneS (lengthsFit_withBol hfitR) hfixed hk
            (Option.some.inj (htree.symm.trans htree')) hneg hmatch hcut
  · rw [Lexer.bufPos_iterate hlx hmb, hlx.iterate_eq hmb, hm]
    subst hrule
    exact ⟨⟨_, rfl⟩, rfl⟩

/-- No macros. -/
def plainEnv : ParseEnv := { macros := fun _ ↦ none }

/-- The rule `a/b*$`. -/
def tailRule : RuleSpec :=
  { root := markedTree (.cls (ByteSet.add {} 97)) (.star (.cls (ByteSet.add {} 98))) true
    trailLen := -1 }

/-- On `abb` and a newline the text is `a`, and the rest is given back. -/
theorem trailing_context_splits_tail :
    parsePattern 2 plainEnv [97, 47, 98, 42, 36] =
      some ({ tree := some tailRule.root, trailLen := -1 }, []) ∧
    ∃ r rDiags, parseRegex 2 plainEnv [97] = some (some r, rDiags) ∧
      ∃ dfa t, generate (.insertion Nat) .fullEc false (Grammar.nfa { rules := [tailRule] }) =
        some (dfa, t) ∧
        bodyMatch t [97, 98, 98, newline] 0 0 true = some ⟨0, 4, 1⟩ ∧ [97] ∈ r.lang := by
  have hp : parsePattern 2 plainEnv [97, 47, 98, 42, 36] =
      some ({ tree := some tailRule.root, trailLen := -1 }, []) := by decide +kernel
  have hslash : findTopLevelSlash [97, 47, 98, 42, 36] = 1 := by decide
  obtain ⟨r, rDiags, s, sDiags, hr, hs, h⟩ :=
    trailing_context_splits hp (by rw [hslash]; decide) rfl (by simp) (by rw [hslash]; decide)
  rw [hslash] at hr hs
  have hr' : parseRegex 2 plainEnv [97] = some (some (.cls (ByteSet.add {} 97)), []) := by
    decide +kernel
  have hs' : parseRegex 2 plainEnv [98, 42, 36] =
      some (some (.concat (.star (.cls (ByteSet.add {} 98))) .anchorEOL), []) := by decide +kernel
  obtain ⟨rfl, rfl⟩ : .cls (ByteSet.add {} 97) = r ∧ [] = rDiags := by
    simpa using hr'.symm.trans hr
  obtain ⟨rfl, rfl⟩ : .concat (.star (.cls (ByteSet.add {} 98))) .anchorEOL = s ∧ [] = sDiags := by
    simpa using hs'.symm.trans hs
  obtain ⟨dfa, t, hgen, hsplit⟩ := h (by decide) (by decide) (by decide) (by decide)
    { rules := [tailRule] } 0 tailRule rfl rfl rfl (.insertion Nat) .fullEc false (by simp)
  have hmatch : ∀ g ∈ generate (.insertion Nat) .fullEc false (Grammar.nfa { rules := [tailRule] }),
      bodyMatch g.2 [97, 98, 98, newline] 0 0 true = some ⟨0, 4, 1⟩ := by decide +kernel
  have hm := hmatch (dfa, t) hgen
  exact ⟨hp, _, _, hr', dfa, t, hgen, hm,
    (hsplit 0 (by decide) true _ 0 (by decide) (by simp) _ hm rfl).1.2.1⟩

end LexCpp
