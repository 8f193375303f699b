import LexCpp.Scanner.Lexer

/-!
# Trailing context

What the two bodies leave of a match, in terms of the grammar: the rule is the best of
those a body looks at, and its text ends where the trailing context begins, as far as the
table of trailing-context lengths or the last marker says.
-/

namespace LexCpp

open Munch

namespace Grammar

variable (G : Grammar)

/-- The matches that a body looks at. -/
def LooksAt (usesReject : Bool) (c : Nat) (atBol : Bool) (rest : List Byte) (n r : Nat) : Prop :=
  if usesReject then Collected G c atBol rest n r else Considered G c atBol rest n r

/-- What trailing context leaves of the first `total` of the bytes left.  If it varies in
length, that is what comes before the last marker of the rule, unless the marker is met
behind the match. -/
def CutAt (usesReject : Bool) (c : Nat) (atBol : Bool) (rest : List Byte) (r total len : Nat) :
    Prop :=
  if usesReject = false ∧ G.trailLen r < 0 then
    (∃ j, IsGreatest {j | G.HeadsAt c atBol rest r j} j ∧ len = if j ≤ total then j else total) ∨
      ((∀ j, ¬ G.HeadsAt c atBol rest r j) ∧ len = total)
  else len = cutTrail (G.trailLen r) total

end Grammar

/-- A match is the best of those looked at, and is cut where its trailing context begins. -/
structure Match.Of (G : Grammar) (usesReject : Bool) (c : Nat) (atBol : Bool) (rest : List Byte)
    (m : Match) : Prop where
  best : IsGreatest (candidates (G.LooksAt usesReject c atBol rest)) (cand m.total m.rule)
  cut : G.CutAt usesReject c atBol rest m.rule m.total m.len

section Spec

variable {t : Tables} {G : Grammar} {c : Nat}

/-- The position of a marker, as a length. -/
theorem cutBoundary_spec {P : Nat → Prop} {bp : Int} {mb total : Nat}
    (h : GreatestOr (fun p ↦ ∃ n, p = mb + n ∧ P n) bp) :
    (∃ j, IsGreatest {j | P j} j ∧ cutBoundary bp mb total = if j ≤ total then j else total) ∨
      ((∀ j, ¬ P j) ∧ cutBoundary bp mb total = total) := by
  rcases h with ⟨rfl, hno⟩ | ⟨p, rfl, ⟨n, rfl, hn⟩, hmax⟩
  · exact Or.inr ⟨fun j hj ↦ hno _ ⟨j, rfl, hj⟩, if_neg fun h ↦ h.1 rfl⟩
  · refine Or.inl ⟨n, ⟨hn, fun j hj ↦ ?_⟩, ?_⟩
    · have := hmax ⟨j, rfl, hj⟩
      omega
    · unfold cutBoundary
      split_ifs <;> omega

/-- **The match of `yy_lex_body`.** -/
theorem lexMatch_spec (ht : t.Implements G) (hc : c < G.condNames.length) {buf : List Byte}
    {mb : Nat} {atBol : Bool} {m : Match} (h : lexMatch t buf mb c atBol = some m) :
    m.Of G false c atBol (buf.drop mb) := by
  have hbest := isGreatest_of_lexMatch ht hc h
  have hlt : m.rule < t.yyRuleTrailLen.length := by
    have hM : Considered G c atBol (buf.drop mb) m.total m.rule := cand_mem_candidates.1 hbest.1
    refine lt_of_lt_of_le ?_ ht.length_rules
    rcases hM with hM | hM
    · exact hM.2.1.2.lt
    · exact hM.1.2.1.2.lt
  refine ⟨hbest, ?_⟩
  unfold lexMatch at h
  simp only at h
  rw [Option.ite_none_left_eq_some, Option.some.injEq] at h
  obtain ⟨hpos, rfl⟩ := h
  have hrule : ((scanFrom t buf mb c atBol).select buf mb).rule =
      ((((scanFrom t buf mb c atBol).select buf mb).rule.toNat : Nat) : Int) :=
    (Int.toNat_of_nonneg (not_lt.1 hpos)).symm
  unfold Grammar.CutAt
  simp only
  rw [hrule, ht.ruleTrailLen, ← hrule]
  by_cases hvar : G.trailLen ((scanFrom t buf mb c atBol).select buf mb).rule.toNat < 0
  · have hsome := ht.boundary_isSome _ hvar
    rw [if_pos ⟨trivial, hvar⟩, if_pos ⟨hsome, hvar⟩]
    exact cutBoundary_spec ((scanFrom_spec ht hc buf mb atBol).boundary hsome _ hlt)
  · rw [if_neg fun h ↦ hvar h.2, if_neg fun h ↦ hvar h.2]

/-- **The first match of `yy_lex_body_reject`.** -/
theorem rejectMatch_spec (ht : t.Implements G) (ha : t.yyAccept.isSome) (he : t.yyRuleEol.isSome)
    (hc : c < G.condNames.length) {buf : List Byte} {mb : Nat} {atBol : Bool} {m : Match}
    (h : rejectMatch t buf mb c atBol = some m) : m.Of G true c atBol (buf.drop mb) := by
  have hbest := rejectTaken_isBest ht ha he hc buf mb atBol
  unfold rejectMatch at h
  simp only at h
  rw [Option.ite_none_left_eq_some, Option.some.injEq] at h
  obtain ⟨hpos, rfl⟩ := h
  rw [not_or] at hpos
  have hrule : ((((rejectSelect t buf mb c atBol).rule.toNat : Nat)) : Int) =
      (rejectSelect t buf mb c atBol).rule := Int.toNat_of_nonneg (not_lt.1 hpos.1)
  have htaken : rejectTaken t buf mb c atBol =
      some ((rejectSelect t buf mb c atBol).rule.toNat, (rejectSelect t buf mb c atBol).len) :=
    if_neg (not_or.2 hpos)
  constructor
  · rcases hbest with ⟨hnone, -⟩ | ⟨r, L, hsome, hg⟩
    · exact absurd (htaken.symm.trans hnone) (Option.some_ne_none _)
    · obtain ⟨rfl, rfl⟩ := Prod.mk.inj (Option.some.inj (htaken.symm.trans hsome))
      exact hg
  · rw [Grammar.CutAt, if_neg (by simp), ← ht.ruleTrailLen, hrule]

/-- **The match of whichever body was generated.** -/
theorem bodyMatch_spec {usesReject : Bool} (ht : t.Implements G)
    (ha : t.yyAccept.isSome = usesReject) (he : t.yyRuleEol.isSome = usesReject)
    (hc : c < G.condNames.length) {buf : List Byte} {mb : Nat} {atBol : Bool} {m : Match}
    (h : bodyMatch t buf mb c atBol = some m) : m.Of G usesReject c atBol (buf.drop mb) := by
  unfold bodyMatch at h
  cases usesReject with
  | true =>
      rw [if_pos ha] at h
      exact rejectMatch_spec ht ha he hc h
  | false =>
      rw [if_neg (by simp [ha])] at h
      exact lexMatch_spec ht hc h

/-- The default rule is taken where there is nothing to look at. -/
theorem bodyMatch_eq_none_iff {usesReject : Bool} (ht : t.Implements G)
    (ha : t.yyAccept.isSome = usesReject) (he : t.yyRuleEol.isSome = usesReject)
    (hc : c < G.condNames.length) {buf : List Byte} {mb : Nat} {atBol : Bool} :
    bodyMatch t buf mb c atBol = none ↔
      ∀ n r, ¬ G.LooksAt usesReject c atBol (buf.drop mb) n r := by
  unfold bodyMatch Grammar.LooksAt
  cases usesReject with
  | true =>
      simp only [if_pos ha, if_true]
      have htaken : rejectMatch t buf mb c atBol = none ↔ rejectTaken t buf mb c atBol = none := by
        unfold rejectMatch rejectTaken
        simp only [ite_eq_left_iff, reduceCtorEq, imp_false]
      rw [htaken]
      rcases rejectTaken_isBest ht ha he hc buf mb atBol with ⟨hnone, hno⟩ | ⟨r, L, hsome, hg⟩
      · exact iff_of_true hnone hno
      · rw [hsome]
        exact iff_of_false (Option.some_ne_none _) fun h ↦ h _ _ (cand_mem_candidates.1 hg.1)
  | false =>
      rw [if_neg (by simp [ha])]
      simp only [Bool.false_eq_true, if_false]
      exact lexMatch_eq_none_iff ht hc buf mb atBol

end Spec

/-- A best match determines rule and length. -/
theorem Match.Of.eq {G : Grammar} {usesReject : Bool} {c : Nat} {atBol : Bool} {rest : List Byte}
    {m : Match} (h : m.Of G usesReject c atBol rest) {n r : Nat}
    (hg : IsGreatest (candidates (G.LooksAt usesReject c atBol rest)) (cand n r)) :
    m.total = n ∧ m.rule = r :=
  cand_inj.1 (h.best.unique hg)

theorem Grammar.LooksAt.pos {G : Grammar} {usesReject : Bool} {c : Nat} {atBol : Bool}
    {rest : List Byte} {n r : Nat} (h : G.LooksAt usesReject c atBol rest n r) : 0 < n := by
  unfold Grammar.LooksAt at h
  split_ifs at h
  · exact h.1
  · exact h.elim And.left fun h ↦ h.1.1

/-- What a body looks at matches; `yy_lex_body_reject` keeps lengths in an `int`. -/
theorem Grammar.LooksAt.lawfulAt {G : Grammar} {usesReject : Bool} {c : Nat} {atBol : Bool}
    {rest : List Byte} (hrest : usesReject = true → rest.length < 2147483648) {n r : Nat}
    (h : G.LooksAt usesReject c atBol rest n r) : 0 < n ∧ LawfulAt G c atBol rest n r := by
  cases usesReject with
  | false => exact Considered.lawfulAt h
  | true =>
      obtain ⟨hpos, m, hm, hL⟩ := h
      have hlt := lt_of_le_of_lt hm.1.1 (hrest rfl)
      rw [int32_natCast hlt, Nat.cast_inj] at hL
      exact ⟨hpos, hL ▸ hm⟩

/-- Rule and length of the match are the best of those looked at. -/
theorem bodyMatch_isBest {t : Tables} {G : Grammar} {usesReject : Bool} (ht : t.Implements G)
    (ha : t.yyAccept.isSome = usesReject) (he : t.yyRuleEol.isSome = usesReject) {c : Nat}
    (hc : c < G.condNames.length) (buf : List Byte) (mb : Nat) (atBol : Bool) :
    IsBest (G.LooksAt usesReject c atBol (buf.drop mb))
      ((bodyMatch t buf mb c atBol).map fun m ↦ (m.rule, m.total)) := by
  cases hm : bodyMatch t buf mb c atBol with
  | none => exact Or.inl ⟨rfl, (bodyMatch_eq_none_iff ht ha he hc).1 hm⟩
  | some m => exact Or.inr ⟨m.rule, m.total, rfl, (bodyMatch_spec ht ha he hc hm).best⟩

/-- The cut is determined. -/
theorem Grammar.CutAt.unique {G : Grammar} {usesReject : Bool} {c : Nat} {atBol : Bool}
    {rest : List Byte} {r total len len' : Nat} (h : G.CutAt usesReject c atBol rest r total len)
    (h' : G.CutAt usesReject c atBol rest r total len') : len = len' := by
  unfold Grammar.CutAt at h h'
  split_ifs at h h'
  · rcases h with ⟨j, hj, rfl⟩ | ⟨hno, rfl⟩
    · rcases h' with ⟨j', hj', rfl⟩ | ⟨hno, -⟩
      · obtain rfl := hj.unique hj'
        rfl
      · exact absurd hj.1 (hno j)
    · rcases h' with ⟨j', hj', -⟩ | ⟨-, rfl⟩
      · exact absurd hj'.1 (hno j')
      · rfl
  · rw [h, h']

end LexCpp
