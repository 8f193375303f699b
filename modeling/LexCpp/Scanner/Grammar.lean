import LexCpp.Automata.Munch
import LexCpp.Nfa.Rules
import LexCpp.Scanner.Tables

/-!
# Tables of a grammar

From the start conditions and rules of a `.l` file to the tables, and what the tables
say in the end: after a word, `yy_accept_normal`, `yy_accept_eol` and the two pools hold
the rules that match the word, and the rules whose head it is.
-/

namespace LexCpp

open Munch

/-- After `n` of the bytes left comes a newline, or the end of the buffer. -/
def AtLineEnd (rest : List Byte) (n : Nat) : Prop := ∀ b ∈ rest[n]?, b = newline

instance (rest : List Byte) (n : Nat) : Decidable (AtLineEnd rest n) :=
  inferInstanceAs (Decidable (∀ b ∈ rest[n]?, b = newline))

/-- What a scanner is generated from: the start conditions, `INITIAL` first, and the
rules. -/
structure Grammar where
  condNames : List String := ["INITIAL"]
  condExcl : List Bool := [false]
  rules : List RuleSpec
deriving DecidableEq, Repr

namespace Grammar

def nfa (G : Grammar) : NFA := NFA.buildNfa G.condNames G.condExcl G.rules

/-- Rule `j` is active and its pattern, the trailing context included, matches the
word. -/
def Matches (G : Grammar) (c : Nat) (atBol : Bool) (j : Nat) (w : List Byte) : Prop :=
  ∃ r, G.rules[j]? = some r ∧ r.Active G.condExcl c atBol ∧ w ∈ r.body.reads

/-- Rule `j` is active and its pattern can have its marker after the word. -/
def Heads (G : Grammar) (c : Nat) (atBol : Bool) (j : Nat) (w : List Byte) : Prop :=
  ∃ r, G.rules[j]? = some r ∧ r.Active G.condExcl c atBol ∧ w ∈ r.body.heads ByteSet.edgeLang

/-- Whether rule `j` ends in `$`. -/
def eol (G : Grammar) (j : Nat) : Bool := (G.rules[j]?.map RuleSpec.eol).getD false

/-- The trailing-context length of rule `j`; `-1` if it varies. -/
def trailLen (G : Grammar) (j : Nat) : Int := (G.rules[j]?.map RuleSpec.trailLen).getD 0

/-! ### Matches at a position -/

/-- Rule `r` matches the first `n` of the bytes left. -/
def MatchesAt (G : Grammar) (c : Nat) (atBol : Bool) (rest : List Byte) (n r : Nat) : Prop :=
  n ≤ rest.length ∧ G.Matches c atBol r (rest.take n)

/-- The marker of rule `r` is met after the first `n` of the bytes left. -/
def HeadsAt (G : Grammar) (c : Nat) (atBol : Bool) (rest : List Byte) (r n : Nat) : Prop :=
  n ≤ rest.length ∧ G.Heads c atBol r (rest.take n)

/-- The matches of the rules with `$`, or of those without, the line end aside. -/
def SlotAt (G : Grammar) (eol : Bool) (c : Nat) (atBol : Bool) (rest : List Byte) (n r : Nat) :
    Prop := G.MatchesAt c atBol rest n r ∧ G.eol r = eol

theorem realizes (G : Grammar) :
    G.nfa.Realizes G.condNames.length G.condExcl G.rules :=
  NFA.buildNfa_realizes G.condNames G.condExcl G.rules

theorem Matches.lt {G : Grammar} {c : Nat} {atBol : Bool} {j : Nat} {w : List Byte}
    (h : G.Matches c atBol j w) : j < G.rules.length := by
  obtain ⟨r, hr, -⟩ := h
  exact (List.getElem?_eq_some_iff.1 hr).1

end Grammar

/-- **What the tables of a grammar say.** -/
structure Tables.Implements (t : Tables) (G : Grammar) : Prop where
  entry_nonneg : ∀ c < G.condNames.length, ∀ b, 0 ≤ t.entry c b
  jam : ∀ c < G.condNames.length, ∀ b w, t.follow (t.entry c b) w < 0 → ∀ j,
    ¬ G.Matches c b j w ∧ ¬ G.Heads c b j w
  acceptNormal : ∀ c < G.condNames.length, ∀ b w, 0 ≤ t.follow (t.entry c b) w →
    LeastOr (fun j ↦ G.Matches c b j w ∧ G.eol j = false)
      (t.acceptNormal (t.follow (t.entry c b) w))
  acceptEol : ∀ c < G.condNames.length, ∀ b w, 0 ≤ t.follow (t.entry c b) w →
    LeastOr (fun j ↦ G.Matches c b j w ∧ G.eol j = true)
      (t.acceptEol (t.follow (t.entry c b) w))
  acceptRow : t.yyAccept.isSome → ∀ c < G.condNames.length, ∀ b w,
    0 ≤ t.follow (t.entry c b) w → ∀ r,
      r ∈ t.acceptRow (t.follow (t.entry c b) w) ↔ ∃ j : Nat, r = j ∧ G.Matches c b j w
  boundaryRow : t.yyBoundary.isSome → ∀ c < G.condNames.length, ∀ b w,
    0 ≤ t.follow (t.entry c b) w → ∀ r,
      r ∈ t.boundaryRow (t.follow (t.entry c b) w) ↔ ∃ j : Nat, r = j ∧ G.Heads c b j w
  ruleTrailLen : ∀ j : Nat, t.ruleTrailLen j = G.trailLen j
  ruleEol : t.yyRuleEol.isSome → ∀ j : Nat, t.ruleEol j = G.eol j
  boundary_isSome : ∀ j, G.trailLen j < 0 → t.yyBoundary.isSome
  length_rules : G.rules.length ≤ t.yyRuleTrailLen.length

/-! ## From the automaton to the grammar -/

theorem IsLeastRule.leastOr {P : Int → Prop} {Q : Nat → Prop} {x : Int} (h : IsLeastRule P x)
    (hPQ : ∀ r, P r ↔ ∃ j : Nat, r = j ∧ Q j) : LeastOr Q x := by
  rcases h with ⟨hx, hle⟩ | ⟨rfl, hno⟩
  · obtain ⟨j, rfl, hj⟩ := (hPQ x).1 hx
    refine Or.inr ⟨j, rfl, hj, fun k hk ↦ ?_⟩
    exact_mod_cast hle k ((hPQ k).2 ⟨k, rfl, hk⟩)
  · exact Or.inl ⟨rfl, fun j hj ↦ hno j ((hPQ j).2 ⟨j, rfl, hj⟩)⟩

namespace Grammar

variable {G : Grammar}

theorem exists_condStart {c : Nat} (hc : c < G.condNames.length) :
    ∃ cs, G.nfa.condStarts[c]? = some cs :=
  ⟨_, List.getElem?_eq_getElem (by rwa [G.realizes.length_condStarts])⟩

/-- The rules a word is accepted for, among the accepts of the states it reaches. -/
theorem mem_list_iff {c : Nat} {cs : CondStart} (hcs : G.nfa.condStarts[c]? = some cs) {b : Bool}
    {w : List Byte} {p : AcceptPair}
    (h : G.nfa.IsAcceptOf {q | w ∈ G.nfa.auto.between (cs.entry b) q} p) (r : Int) :
    r ∈ p.list ↔ ∃ j : Nat, r = j ∧ G.Matches c b j w := by
  have hacc : ∀ j : Nat, G.nfa.Accepts (cs.entry b) j w ↔ G.Matches c b j w := fun j ↦
    G.realizes.accepts c cs b hcs j w
  rw [h.mem_list]
  constructor
  · rintro ⟨hr, q, hq, hqr⟩
    lift r to Nat using hr
    exact ⟨r, rfl, (hacc r).1 ⟨q, hq, hqr⟩⟩
  · rintro ⟨j, rfl, hj⟩
    obtain ⟨q, hq, hqr⟩ := (hacc j).2 hj
    exact ⟨Int.natCast_nonneg j, q, hq, hqr⟩

theorem mem_boundary_iff {c : Nat} {cs : CondStart} (hcs : G.nfa.condStarts[c]? = some cs)
    {b : Bool} {w : List Byte} {p : AcceptPair}
    (h : G.nfa.IsAcceptOf {q | w ∈ G.nfa.auto.between (cs.entry b) q} p) (r : Int) :
    r ∈ p.boundary ↔ ∃ j : Nat, r = j ∧ G.Heads c b j w := by
  rw [h.mem_boundary]
  exact exists_congr fun j ↦ and_congr_right fun _ ↦ G.realizes.marks c cs b hcs j w

theorem isEol_natCast (j : Nat) : G.nfa.isEol j = G.eol j := by
  rw [NFA.isEol, Int.toNat_natCast]
  exact G.realizes.ruleEol j

/-- Tables that describe the automaton of a grammar implement the grammar. -/
theorem implements_of_describes {t : Tables} (h : t.Describes G.nfa) : t.Implements G := by
  have hslot : ∀ {c : Nat} {cs : CondStart}, G.nfa.condStarts[c]? = some cs → ∀ {b w p},
      G.nfa.IsAcceptOf {q | w ∈ G.nfa.auto.between (cs.entry b) q} p → ∀ e r,
      (r ∈ p.list ∧ G.nfa.isEol r = e) ↔ ∃ j : Nat, r = j ∧ G.Matches c b j w ∧ G.eol j = e := by
    intro c cs hcs b w p hp e r
    rw [mem_list_iff hcs hp]
    constructor
    · rintro ⟨⟨j, rfl, hj⟩, he⟩
      exact ⟨j, rfl, hj, (isEol_natCast j).symm.trans he⟩
    · rintro ⟨j, rfl, hj, he⟩
      exact ⟨⟨j, rfl, hj⟩, (isEol_natCast j).trans he⟩
  constructor
  · intro c hc b
    obtain ⟨cs, hcs⟩ := exists_condStart hc
    exact h.entry_nonneg c cs b hcs
  · intro c hc b w hw j
    obtain ⟨cs, hcs⟩ := exists_condStart hc
    have hno := (h.jam_iff c cs b hcs w).1 hw
    refine ⟨fun hM ↦ ?_, fun hH ↦ ?_⟩
    · obtain ⟨q, hq, -⟩ := (G.realizes.accepts c cs b hcs j w).2 hM
      exact hno q hq
    · obtain ⟨q, -, hq⟩ := (G.realizes.marks c cs b hcs j w).2 hH
      exact hno q hq
  · intro c hc b w hw
    obtain ⟨cs, hcs⟩ := exists_condStart hc
    obtain ⟨p, hp, hrow⟩ := h.hasRow c cs b hcs w hw
    rw [hrow.normal]
    exact hp.normal.leastOr (hslot hcs hp false)
  · intro c hc b w hw
    obtain ⟨cs, hcs⟩ := exists_condStart hc
    obtain ⟨p, hp, hrow⟩ := h.hasRow c cs b hcs w hw
    rw [hrow.eol]
    exact hp.eol.leastOr (hslot hcs hp true)
  · intro hsome c hc b w hw r
    obtain ⟨cs, hcs⟩ := exists_condStart hc
    obtain ⟨p, hp, hrow⟩ := h.hasRow c cs b hcs w hw
    rw [hrow.list hsome]
    exact mem_list_iff hcs hp r
  · intro hsome c hc b w hw r
    obtain ⟨cs, hcs⟩ := exists_condStart hc
    obtain ⟨p, hp, hrow⟩ := h.hasRow c cs b hcs w hw
    rw [hrow.boundary hsome]
    exact mem_boundary_iff hcs hp r
  · intro j
    rw [Tables.ruleTrailLen, h.yyRuleTrailLen_eq, Int.toNat_natCast, getD_emitArray]
    exact G.realizes.ruleTrail j
  · exact fun he j ↦ (h.ruleEol_eq he j).trans (G.realizes.ruleEol j)
  · intro j hj
    have hget : G.nfa.ruleTrail.getD j 0 < 0 := (G.realizes.ruleTrail j).symm ▸ hj
    have hlt : j < G.nfa.ruleTrail.length := by
      by_contra hge
      rw [List.getD_eq_default _ _ (not_lt.1 hge)] at hget
      exact absurd hget (lt_irrefl 0)
    rw [List.getD_eq_getElem _ _ hlt] at hget
    rw [h.boundary_isSome, List.any_eq_true]
    exact ⟨_, List.getElem_mem hlt, by simpa using hget⟩
  · rw [h.yyRuleTrailLen_eq, ← G.realizes.length_ruleBol, ← G.realizes.wf.length_ruleTrail]
    exact length_le_emitArray _ _

/-- **Every grammar gets its tables**, in every mode. -/
theorem exists_tables (G : Grammar) (std : StdSort Nat) (mode : CompressMode) (usesReject : Bool) :
    ∃ dfa t, generate std mode usesReject G.nfa = some (dfa, t) ∧ t.Implements G ∧
      t.yyAccept.isSome = usesReject ∧ t.yyRuleEol.isSome = usesReject := by
  obtain ⟨dfa, t, hgen, hd, ha, he, -⟩ :=
    exists_generate G.realizes.wf.inRange std mode usesReject
  exact ⟨dfa, t, hgen, implements_of_describes hd, ha, he⟩

theorem implements_of_generate {std : StdSort Nat} {mode : CompressMode} {usesReject : Bool}
    {dfa : DFA} {t : Tables} (h : generate std mode usesReject G.nfa = some (dfa, t)) :
    t.Implements G ∧ t.yyAccept.isSome = usesReject ∧ t.yyRuleEol.isSome = usesReject := by
  obtain ⟨dfa', t', hgen, ht⟩ := G.exists_tables std mode usesReject
  obtain ⟨rfl, rfl⟩ := Prod.mk.inj (Option.some.inj (hgen.symm.trans h))
  exact ht

end Grammar

end LexCpp
