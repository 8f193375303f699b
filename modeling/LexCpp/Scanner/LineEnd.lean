import LexCpp.Scanner.More
import LexCpp.Scanner.Split

/-!
# The two spellings of a line end

`r$` and `r/\n` match at the same places of a text whose lines all end in a newline.  But
`r$` competes with the other rules by the length of `r`, and only if no `$` rule has a
longer match that the scan looks at in its place, while `r/\n` has the newline to its length.
So they differ exactly where that newline decides (`Grammar.NewlineDecides`).
-/

namespace LexCpp

open Munch

/-- `r$`, as `parse_top` puts it together. -/
def eolSpelling (bol : Bool) (r : Node) (sites : RuleSites) : RuleSpec :=
  { root := Node.withBol bol (Node.withEol true r), sites := sites }

/-- `r/\n`, as `parse_pattern` puts it together. -/
def newlineSpelling (bol : Bool) (r : Node) (sites : RuleSites) : RuleSpec :=
  let out := (joinTrail {} (Node.withBol bol r) .newlineNode).1
  { root := out.tree.getD .empty, sites := sites, trailLen := out.trailLen }

/-- The grammar with another pattern for rule `k`. -/
def Grammar.respell (G : Grammar) (k : Nat) (spec : RuleSpec) : Grammar :=
  { G with rules := G.rules.set k spec }

/-- The rule of a match and the length of its text. -/
def Match.token (m : Match) : Nat × Nat := (m.rule, m.len)

/-- Rule `k` matches up to the end of the line, and is the best with the newline counted, but
not without: it matches nothing but the newline, or a match of another rule has the same
length or that of the newline too, or the longest match of a `$` rule goes on behind the
line. -/
def Grammar.NewlineDecides (G : Grammar) (usesReject : Bool) (k c : Nat) (atBol : Bool)
    (line rest : List Byte) : Prop :=
  (G.Matches c atBol k line ∧ ∀ n j, j ≠ k → G.LooksAt usesReject c atBol rest n j →
      cand n j < cand (line.length + 1) k) ∧
    ¬ ((G.Matches c atBol k line ∧ 0 < line.length ∧
        (usesReject = false → ∀ n j, j ≠ k → G.SlotAt true c atBol rest n j → n ≤ line.length)) ∧
      ∀ n j, j ≠ k → G.LooksAt usesReject c atBol rest n j → cand n j < cand line.length k)

/-! ## One rule replaced -/

section Respell

variable {G : Grammar} {k c : Nat} {atBol : Bool} {spec : RuleSpec} {rest : List Byte}

theorem getElem?_respell {j : Nat} (hj : j ≠ k) : (G.respell k spec).rules[j]? = G.rules[j]? :=
  List.getElem?_set_ne hj.symm

theorem matches_respell {j : Nat} (hj : j ≠ k) {w : List Byte} :
    (G.respell k spec).Matches c atBol j w ↔ G.Matches c atBol j w := by
  unfold Grammar.Matches
  rw [getElem?_respell hj]
  rfl

theorem heads_respell {j : Nat} (hj : j ≠ k) {w : List Byte} :
    (G.respell k spec).Heads c atBol j w ↔ G.Heads c atBol j w := by
  unfold Grammar.Heads
  rw [getElem?_respell hj]
  rfl

theorem eol_respell {j : Nat} (hj : j ≠ k) : (G.respell k spec).eol j = G.eol j := by
  unfold Grammar.eol
  rw [getElem?_respell hj]

theorem trailLen_respell {j : Nat} (hj : j ≠ k) :
    (G.respell k spec).trailLen j = G.trailLen j := by
  unfold Grammar.trailLen
  rw [getElem?_respell hj]

theorem slotAt_respell {j n : Nat} (hj : j ≠ k) {eol : Bool} :
    (G.respell k spec).SlotAt eol c atBol rest n j ↔ G.SlotAt eol c atBol rest n j := by
  unfold Grammar.SlotAt Grammar.MatchesAt
  rw [matches_respell hj, eol_respell hj]

theorem cutAt_respell {j total len : Nat} (hj : j ≠ k) {usesReject : Bool} :
    (G.respell k spec).CutAt usesReject c atBol rest j total len ↔
      G.CutAt usesReject c atBol rest j total len := by
  unfold Grammar.CutAt Grammar.HeadsAt
  rw [trailLen_respell hj]
  simp only [heads_respell hj]

end Respell

/-! ## The two spellings -/

section Spellings

variable {G : Grammar} {k c : Nat} {atBol bol : Bool} {r : Node} {sites : RuleSites}

theorem newlineSpelling_eq (hr : r.Plain) : newlineSpelling bol r sites =
    { root := Node.withBol bol (fixedTree r .newlineNode false), sites := sites, trailLen := 1 } := by
  have hnl : Node.newlineNode.Plain := Node.plain_cls _
  have hjoin : joinTrail {} (Node.withBol bol (Node.withEol false r))
      (Node.withEol false .newlineNode) = _ := joinTrail_eq hr hnl
  unfold newlineSpelling
  rw [show Node.withEol false r = r from rfl,
    show Node.withEol false Node.newlineNode = Node.newlineNode from rfl] at hjoin
  rw [hjoin]
  rfl

theorem unwrapAnchors_eolSpelling (hr : r.Plain) :
    unwrapAnchors (eolSpelling bol r sites).root = (r, bol, true) := by
  have hbol : unwrapBol (Node.withBol bol (.concat r .anchorEOL)) = (.concat r .anchorEOL, bol) := by
    cases bol with
    | true => rfl
    | false =>
        change unwrapBol (.concat r .anchorEOL) = (.concat r .anchorEOL, false)
        unfold unwrapBol
        split
        · rename_i heq
          exact absurd (Node.concat.inj heq).1 hr.ne_anchorBOL
        · rfl
  change unwrapAnchors (Node.withBol bol (.concat r .anchorEOL)) = _
  unfold unwrapAnchors
  rw [hbol]
  rfl

theorem unwrapAnchors_newlineSpelling (hr : r.Plain) :
    unwrapAnchors (newlineSpelling bol r sites).root = (.concat r .newlineNode, bol, false) := by
  rw [newlineSpelling_eq hr]
  exact unwrapAnchors_fixedTree hr (Node.plain_cls _) bol false

/-- What `r/\n` reads. -/
theorem mem_reads_newline {w : List Byte} :
    w ∈ (Node.concat r .newlineNode).reads ↔ ∃ u ∈ r.reads, w = u ++ [newline] := by
  have hnl : Node.newlineNode.reads = {w | w = [newline]} := by
    change (ByteSet.add {} newline).edgeLang = _
    rw [ByteSet.edgeLang_of_nonempty (by decide)]
    ext w
    rw [ByteSet.mem_lang]
    constructor
    · rintro ⟨b, hb, rfl⟩
      rw [ByteSet.test_add, ByteSet.test_default, Bool.false_or, decide_eq_true_iff] at hb
      exact hb ▸ rfl
    · rintro rfl
      exact ⟨newline, by decide, rfl⟩
  change w ∈ r.reads * Node.newlineNode.reads ↔ _
  rw [Language.mem_mul, hnl]
  constructor
  · rintro ⟨u, hu, v, rfl, rfl⟩
    exact ⟨u, hu, rfl⟩
  · rintro ⟨u, hu, rfl⟩
    exact ⟨u, hu, [newline], rfl, rfl⟩

/-- Rule `k` is `r$`. -/
theorem matches_eolSpelling (hr : r.Plain) (hk : G.rules[k]? = some (eolSpelling bol r sites))
    {w : List Byte} : G.Matches c atBol k w ↔
      (sites.ActiveIn G.condExcl c ∧ (bol = true → atBol = true)) ∧ w ∈ r.reads := by
  have hun : unwrapAnchors (eolSpelling bol r sites).root = (r, bol, true) :=
    unwrapAnchors_eolSpelling hr
  unfold Grammar.Matches RuleSpec.Active RuleSpec.bol RuleSpec.body
  rw [hk]
  constructor
  · rintro ⟨spec, hspec, hact, hw⟩
    obtain rfl := Option.some.inj hspec
    rw [hun] at hact hw
    exact ⟨hact, hw⟩
  · rintro ⟨hact, hw⟩
    refine ⟨_, rfl, ?_⟩
    rw [hun]
    exact ⟨hact, hw⟩

theorem getElem?_respell_self {spec : RuleSpec} (hk : G.rules[k]? = some spec) (spec' : RuleSpec) :
    (G.respell k spec').rules[k]? = some spec' :=
  List.getElem?_set_self (List.getElem?_eq_some_iff.1 hk).1

/-- Rule `k` is `r/\n`. -/
theorem matches_newlineSpelling (hr : r.Plain)
    (hk : G.rules[k]? = some (eolSpelling bol r sites)) {w : List Byte} :
    (G.respell k (newlineSpelling bol r sites)).Matches c atBol k w ↔
      ∃ u, w = u ++ [newline] ∧ G.Matches c atBol k u := by
  have hun : unwrapAnchors (newlineSpelling bol r sites).root =
      (.concat r .newlineNode, bol, false) := unwrapAnchors_newlineSpelling hr
  simp only [matches_eolSpelling hr hk]
  unfold Grammar.Matches RuleSpec.Active RuleSpec.bol RuleSpec.body
  rw [getElem?_respell_self hk]
  constructor
  · rintro ⟨spec, hspec, hact, hw⟩
    obtain rfl := Option.some.inj hspec
    rw [hun] at hact hw
    obtain ⟨u, hu, rfl⟩ := mem_reads_newline.1 hw
    exact ⟨u, rfl, hact, hu⟩
  · rintro ⟨u, rfl, hact, hu⟩
    refine ⟨_, rfl, ?_⟩
    rw [hun]
    exact ⟨hact, mem_reads_newline.2 ⟨u, hu, rfl⟩⟩

theorem eol_eolSpelling (hr : r.Plain) (hk : G.rules[k]? = some (eolSpelling bol r sites)) :
    G.eol k = true := by
  unfold Grammar.eol
  rw [hk]
  change RuleSpec.eol (eolSpelling bol r sites) = true
  rw [RuleSpec.eol, unwrapAnchors_eolSpelling hr]

theorem eol_newlineSpelling (hr : r.Plain) (hk : G.rules[k]? = some (eolSpelling bol r sites)) :
    (G.respell k (newlineSpelling bol r sites)).eol k = false := by
  unfold Grammar.eol
  rw [getElem?_respell_self hk]
  change RuleSpec.eol (newlineSpelling bol r sites) = false
  rw [RuleSpec.eol, unwrapAnchors_newlineSpelling hr]

end Spellings

/-! ## Matches on a line -/

section Line

variable {line more : List Byte}

theorem take_line : (line ++ newline :: more).take line.length = line := List.take_left

theorem getElem?_line : (line ++ newline :: more)[line.length]? = some newline := by
  rw [List.getElem?_append_right (le_refl _), Nat.sub_self]
  rfl

/-- Before the end of the line there is no newline. -/
theorem ne_newline_of_lt (hline : newline ∉ line) {n : Nat} (hn : n < line.length) :
    (line ++ newline :: more)[n]? ≠ some newline := by
  rw [List.getElem?_append_left hn]
  exact fun h ↦ hline (List.mem_of_getElem? h)

theorem atLineEnd_line : AtLineEnd (line ++ newline :: more) line.length := by
  intro b hb
  rw [getElem?_line] at hb
  exact (Option.some.inj hb).symm

theorem le_of_atLineEnd (hline : newline ∉ line) {n : Nat}
    (h : AtLineEnd (line ++ newline :: more) n) : line.length ≤ n := by
  by_contra hlt
  have hn := not_le.1 hlt
  cases hget : (line ++ newline :: more)[n]? with
  | none =>
      rw [List.getElem?_append_left hn, List.getElem?_eq_none_iff] at hget
      exact hlt hget
  | some b => exact ne_newline_of_lt hline hn (h b hget ▸ hget)

/-- A word without a newline ends on the line. -/
theorem le_of_take {n : Nat} (h : newline ∉ (line ++ newline :: more).take n) : n ≤ line.length := by
  by_contra hlt
  refine h (List.mem_of_getElem? (i := line.length) ?_)
  rw [List.getElem?_take_of_lt (not_le.1 hlt), getElem?_line]

/-- A word that ends in its only newline is the line. -/
theorem eq_line_of_take (hline : newline ∉ line) {n : Nat} {u : List Byte} (hu : newline ∉ u)
    (hn : n ≤ (line ++ newline :: more).length)
    (h : (line ++ newline :: more).take n = u ++ [newline]) : n = line.length + 1 ∧ u = line := by
  have hlen := congrArg List.length h
  rw [List.length_take, min_eq_left hn, List.length_append, List.length_singleton] at hlen
  have hle : u.length ≤ line.length := by
    have htake : (line ++ newline :: more).take u.length = u := by
      have := congrArg (List.take u.length) h
      rwa [List.take_take, min_eq_left (by omega), List.take_left] at this
    have htake' : newline ∉ (line ++ newline :: more).take u.length := by rwa [htake]
    exact le_of_take htake'
  have hge : line.length ≤ u.length := by
    have hend : AtLineEnd (line ++ newline :: more) u.length := by
      intro b hb
      have hget := congrArg (fun l ↦ l[u.length]?) h
      simp only [List.getElem?_take_of_lt (show u.length < n by omega)] at hget
      rw [hb, List.getElem?_append_right (le_refl _), Nat.sub_self] at hget
      exact Option.some.inj hget
    exact le_of_atLineEnd hline hend
  have heq := le_antisymm hle hge
  refine ⟨by omega, ?_⟩
  have := congrArg (List.take u.length) h
  rwa [List.take_take, min_eq_left (by omega), List.take_left, heq, take_line, eq_comm] at this

end Line

/-! ## What the scan looks at -/

section Looks

variable {G : Grammar} {k c : Nat} {atBol bol : Bool} {r : Node} {sites : RuleSites}
  {line more : List Byte} {usesReject : Bool} {n : Nat}

theorem matchesAt_eolSpelling_le (hr : r.Plain)
    (hk : G.rules[k]? = some (eolSpelling bol r sites)) (hnl : ∀ w ∈ r.reads, newline ∉ w)
    (h : G.MatchesAt c atBol (line ++ newline :: more) n k) : n ≤ line.length :=
  le_of_take (hnl _ ((matches_eolSpelling hr hk).1 h.2).2)

theorem matchesAt_line (h : G.Matches c atBol k line) :
    G.MatchesAt c atBol (line ++ newline :: more) line.length k := by
  refine ⟨by rw [List.length_append]; exact Nat.le_add_right _ _, ?_⟩
  rwa [take_line]

/-- `r$` at a line end. -/
theorem lawfulAt_eolSpelling (hr : r.Plain) (hk : G.rules[k]? = some (eolSpelling bol r sites))
    (hnl : ∀ w ∈ r.reads, newline ∉ w) (hline : newline ∉ line) :
    G.MatchesAt c atBol (line ++ newline :: more) n k ∧ AtLineEnd (line ++ newline :: more) n ↔
      n = line.length ∧ G.Matches c atBol k line := by
  constructor
  · rintro ⟨hM, hend⟩
    obtain rfl := le_antisymm (matchesAt_eolSpelling_le hr hk hnl hM) (le_of_atLineEnd hline hend)
    refine ⟨rfl, ?_⟩
    have := hM.2
    rwa [take_line] at this
  · rintro ⟨rfl, hM⟩
    exact ⟨matchesAt_line hM, atLineEnd_line⟩

/-- `r/\n` with its newline. -/
theorem matchesAt_newlineSpelling (hr : r.Plain)
    (hk : G.rules[k]? = some (eolSpelling bol r sites)) (hnl : ∀ w ∈ r.reads, newline ∉ w)
    (hline : newline ∉ line) :
    (G.respell k (newlineSpelling bol r sites)).MatchesAt c atBol (line ++ newline :: more) n k ↔
      n = line.length + 1 ∧ G.Matches c atBol k line := by
  unfold Grammar.MatchesAt
  rw [matches_newlineSpelling hr hk]
  constructor
  · rintro ⟨hn, u, hu, hM⟩
    have hu' := hnl _ ((matches_eolSpelling hr hk).1 hM).2
    obtain ⟨rfl, rfl⟩ := eq_line_of_take hline hu' hn hu
    exact ⟨rfl, hM⟩
  · rintro ⟨rfl, hM⟩
    refine ⟨by simp, line, ?_, hM⟩
    rw [List.take_append, List.take_of_length_le (Nat.le_succ _), Nat.add_sub_cancel_left]
    rfl

/-- Of the other rules the scan looks at the same matches. -/
theorem looksAt_respell (hr : r.Plain) (hk : G.rules[k]? = some (eolSpelling bol r sites))
    (hnl : ∀ w ∈ r.reads, newline ∉ w) (hline : newline ∉ line) {j : Nat} (hj : j ≠ k) :
    (G.respell k (newlineSpelling bol r sites)).LooksAt usesReject c atBol
        (line ++ newline :: more) n j ↔
      G.LooksAt usesReject c atBol (line ++ newline :: more) n j := by
  cases usesReject with
  | true =>
      unfold Grammar.LooksAt Collected Grammar.LawfulAt Grammar.MatchesAt
      simp only [if_true, matches_respell hj, eol_respell hj]
  | false =>
      unfold Grammar.LooksAt Considered
      simp only [Bool.false_eq_true, if_false, slotAt_respell hj]
      refine or_congr_right (and_congr_right fun _ ↦ and_congr_right fun hend ↦ ?_)
      constructor
      · intro h n' j' hslot
        by_cases hj' : j' = k
        · subst hj'
          exact (matchesAt_eolSpelling_le hr hk hnl hslot.1).trans (le_of_atLineEnd hline hend)
        · exact h n' j' ((slotAt_respell hj').2 hslot)
      · intro h n' j' hslot
        by_cases hj' : j' = k
        · subst hj'
          exact absurd ((eol_newlineSpelling hr hk).symm.trans hslot.2) (by decide)
        · exact h n' j' ((slotAt_respell hj').1 hslot)

/-- Where the scan looks at `r$`. -/
theorem looksAt_eolSpelling (hr : r.Plain) (hk : G.rules[k]? = some (eolSpelling bol r sites))
    (hnl : ∀ w ∈ r.reads, newline ∉ w) (hline : newline ∉ line)
    (hlen : usesReject = true → (line ++ newline :: more).length < 2147483648) :
    G.LooksAt usesReject c atBol (line ++ newline :: more) n k ↔ n = line.length ∧
      G.Matches c atBol k line ∧ 0 < line.length ∧
        (usesReject = false → ∀ n j, j ≠ k →
          G.SlotAt true c atBol (line ++ newline :: more) n j → n ≤ line.length) := by
  have heol := eol_eolSpelling hr hk
  cases usesReject with
  | true =>
      constructor
      · intro h
        obtain ⟨hpos, hM, hend⟩ := h.lawfulAt hlen
        obtain ⟨rfl, hM'⟩ := (lawfulAt_eolSpelling hr hk hnl hline).1 ⟨hM, hend heol⟩
        exact ⟨rfl, hM', hpos, fun h ↦ absurd h (by decide)⟩
      · rintro ⟨rfl, hM, hpos, -⟩
        refine ⟨hpos, line.length, ⟨matchesAt_line hM, fun _ ↦ atLineEnd_line⟩, ?_⟩
        refine (int32_natCast ?_).symm
        have hat : G.MatchesAt c atBol (line ++ newline :: more) line.length k := matchesAt_line hM
        exact lt_of_le_of_lt hat.1 (hlen rfl)
  | false =>
      unfold Grammar.LooksAt Considered
      simp only [Bool.false_eq_true, if_false, true_implies]
      constructor
      · rintro (⟨-, -, he⟩ | ⟨⟨hpos, hM, -⟩, hend, hmax⟩)
        · exact absurd (heol.symm.trans he) (by decide)
        · obtain ⟨rfl, hM'⟩ := (lawfulAt_eolSpelling hr hk hnl hline).1 ⟨hM, hend⟩
          exact ⟨rfl, hM', hpos, fun n j _ ↦ hmax n j⟩
      · rintro ⟨rfl, hM, hpos, hmax⟩
        refine Or.inr ⟨⟨hpos, matchesAt_line hM, heol⟩, atLineEnd_line, fun n j hslot ↦ ?_⟩
        by_cases hj : j = k
        · subst hj
          exact matchesAt_eolSpelling_le hr hk hnl hslot.1
        · exact hmax n j hj hslot

/-- Where the scan looks at `r/\n`. -/
theorem looksAt_newlineSpelling (hr : r.Plain)
    (hk : G.rules[k]? = some (eolSpelling bol r sites)) (hnl : ∀ w ∈ r.reads, newline ∉ w)
    (hline : newline ∉ line)
    (hlen : usesReject = true → (line ++ newline :: more).length < 2147483648) :
    (G.respell k (newlineSpelling bol r sites)).LooksAt usesReject c atBol
        (line ++ newline :: more) n k ↔ n = line.length + 1 ∧ G.Matches c atBol k line := by
  have heol := eol_newlineSpelling hr hk
  constructor
  · exact fun h ↦ (matchesAt_newlineSpelling hr hk hnl hline).1 (h.lawfulAt hlen).2.1
  · rintro ⟨rfl, hM⟩
    have hat : (G.respell k (newlineSpelling bol r sites)).MatchesAt c atBol
        (line ++ newline :: more) (line.length + 1) k :=
      (matchesAt_newlineSpelling hr hk hnl hline).2 ⟨rfl, hM⟩
    cases usesReject with
    | true =>
        refine ⟨Nat.succ_pos _, _, ⟨hat, fun h ↦ absurd (heol.symm.trans h) (by decide)⟩, ?_⟩
        exact (int32_natCast (lt_of_le_of_lt hat.1 (hlen rfl))).symm
    | false => exact Or.inl ⟨Nat.succ_pos _, hat, heol⟩

end Looks

/-! ## One position -/

section Position

variable {G : Grammar} {k c : Nat} {bol usesReject : Bool} {r : Node} {sites : RuleSites}
  {line more buf : List Byte} {t t' : Tables}

theorem trailLen_eolSpelling (hk : G.rules[k]? = some (eolSpelling bol r sites)) :
    G.trailLen k = 0 := by
  unfold Grammar.trailLen
  rw [hk]
  rfl

theorem trailLen_newlineSpelling (hr : r.Plain)
    (hk : G.rules[k]? = some (eolSpelling bol r sites)) :
    (G.respell k (newlineSpelling bol r sites)).trailLen k = 1 := by
  unfold Grammar.trailLen
  rw [getElem?_respell_self hk, newlineSpelling_eq hr]
  rfl

/-- A match of `r$` up to the line end, and of `r/\n`, leaves the line. -/
theorem len_of_cutAt {atBol : Bool} {rest : List Byte} {total len : Nat}
    (hcut : G.CutAt usesReject c atBol rest k total len) :
    (G.trailLen k = 0 → len = total) ∧ (G.trailLen k = 1 → 0 < total → len = total - 1) := by
  unfold Grammar.CutAt at hcut
  constructor
  · intro h
    rw [h, if_neg (by simp), cutTrail, if_neg (by simp)] at hcut
    exact hcut
  · intro h hpos
    rw [h, if_neg (by simp), cutTrail, if_pos ⟨by decide, by omega⟩] at hcut
    exact hcut

/-- **The spellings at one position** give the same rule and the same text, unless the newline
decides. -/
theorem token_eq_iff (hr : r.Plain) (hk : G.rules[k]? = some (eolSpelling bol r sites))
    (hnl : ∀ w ∈ r.reads, newline ∉ w) (ht : t.Implements G)
    (ha : t.yyAccept.isSome = usesReject) (he : t.yyRuleEol.isSome = usesReject)
    (ht' : t'.Implements (G.respell k (newlineSpelling bol r sites)))
    (ha' : t'.yyAccept.isSome = usesReject) (he' : t'.yyRuleEol.isSome = usesReject)
    (hc : c < G.condNames.length) (atBol : Bool) {mb : Nat}
    (hbuf : buf.drop mb = line ++ newline :: more) (hline : newline ∉ line)
    (hlen : usesReject = true → buf.length < 2147483648) :
    (bodyMatch t buf mb c atBol).map Match.token = (bodyMatch t' buf mb c atBol).map Match.token ↔
      ¬ G.NewlineDecides usesReject k c atBol line (buf.drop mb) := by
  have hlen' : usesReject = true → (line ++ newline :: more).length < 2147483648 := by
    intro h
    rw [← hbuf, List.length_drop]
    exact (Nat.sub_le _ _).trans_lt (hlen h)
  have hspec : ∀ m, bodyMatch t buf mb c atBol = some m →
      m.Of G usesReject c atBol (buf.drop mb) := fun _ ↦ bodyMatch_spec ht ha he hc
  have hspec' : ∀ m, bodyMatch t' buf mb c atBol = some m →
      m.Of (G.respell k (newlineSpelling bol r sites)) usesReject c atBol (buf.drop mb) :=
    fun _ ↦ bodyMatch_spec ht' ha' he' hc
  have hbest := bodyMatch_isBest ht ha he hc buf mb atBol
  have hbest' := bodyMatch_isBest ht' ha' he' hc buf mb atBol
  rw [hbuf] at hbest hbest' hspec hspec' ⊢
  have hwin (n : Nat) : G.LooksAt usesReject c atBol (line ++ newline :: more) n k ↔ _ :=
    looksAt_eolSpelling hr hk hnl hline hlen'
  have hwin' (n : Nat) : (G.respell k (newlineSpelling bol r sites)).LooksAt usesReject c atBol
      (line ++ newline :: more) n k ↔ _ :=
    looksAt_newlineSpelling hr hk hnl hline hlen'
  have hrivals : ∀ n j, (j ≠ k ∧ (G.respell k (newlineSpelling bol r sites)).LooksAt usesReject c
      atBol (line ++ newline :: more) n j) ↔
      j ≠ k ∧ G.LooksAt usesReject c atBol (line ++ newline :: more) n j := fun n j ↦
    and_congr_right fun hj ↦ looksAt_respell hr hk hnl hline hj
  unfold Grammar.NewlineDecides
  rcases hbest.cases_single hwin with ⟨hA, ho⟩ | ⟨hA, ho⟩
  · -- `r$` wins, and so does `r/\n`
    rcases hbest'.cases_single hwin' with ⟨hA', ho'⟩ | ⟨hA', -⟩
    · obtain ⟨m, hm, hmo⟩ := Option.map_eq_some_iff.1 ho
      obtain ⟨m', hm', hmo'⟩ := Option.map_eq_some_iff.1 ho'
      obtain ⟨hrule, htotal⟩ := Prod.mk.inj hmo
      obtain ⟨hrule', htotal'⟩ := Prod.mk.inj hmo'
      have hcut := (hspec m hm).cut
      have hcut' := (hspec' m' hm').cut
      rw [hrule, htotal] at hcut
      rw [hrule', htotal'] at hcut'
      have hlen := (len_of_cutAt hcut).1 (trailLen_eolSpelling hk)
      have hlen' := (len_of_cutAt hcut').2 (trailLen_newlineSpelling hr hk) (Nat.succ_pos _)
      rw [hm, hm']
      refine iff_of_true ?_ fun h ↦ h.2 hA
      simp only [Option.map_some, Match.token, hrule, hrule', hlen, hlen', Nat.add_sub_cancel]
    · refine absurd ⟨hA.1.1, fun n j hj hlook ↦ ?_⟩ hA'
      have hlt := hA.2 n j hj ((looksAt_respell hr hk hnl hline hj).1 hlook)
      refine hlt.trans (cand_lt_cand.2 (Or.inl (Nat.lt_succ_self _)))
  · rcases hbest'.cases_single hwin' with ⟨hA', ho'⟩ | ⟨hA', ho'⟩
    · -- only `r/\n` wins
      have hdec : G.Matches c atBol k line ∧ ∀ n j, j ≠ k →
          G.LooksAt usesReject c atBol (line ++ newline :: more) n j →
            cand n j < cand (line.length + 1) k :=
        ⟨hA'.1, fun n j hj hlook ↦ hA'.2 n j hj ((looksAt_respell hr hk hnl hline hj).2 hlook)⟩
      refine iff_of_false (fun heq ↦ ?_) (not_not.2 ⟨hdec, hA⟩)
      obtain ⟨m', hm', hmo'⟩ := Option.map_eq_some_iff.1 ho'
      rw [hm', Option.map_some] at heq
      obtain ⟨m, hm, htoken⟩ := Option.map_eq_some_iff.1 heq
      have hrule : m.rule = k := (Prod.mk.inj htoken).1.trans (Prod.mk.inj hmo').1
      rcases ho with ⟨hnone, -⟩ | ⟨j, n, hsome, hg⟩
      · rw [hm] at hnone
        exact absurd hnone (Option.some_ne_none _)
      · rw [hm, Option.map_some] at hsome
        obtain ⟨rfl, -⟩ := Prod.mk.inj (Option.some.inj hsome)
        exact (cand_mem_candidates.1 hg.1).1 hrule
    · -- another rule wins, or none
      have heq := ho.unique (ho'.congr hrivals)
      refine iff_of_true ?_ fun h ↦ hA' ⟨h.1.1, fun n j hj hlook ↦
        h.1.2 n j hj ((looksAt_respell hr hk hnl hline hj).1 hlook)⟩
      cases hm : bodyMatch t buf mb c atBol with
      | none =>
          rw [hm, Option.map_none, eq_comm, Option.map_eq_none_iff] at heq
          rw [heq]
      | some m =>
          rw [hm, Option.map_some, eq_comm] at heq
          obtain ⟨m', hm', hmo⟩ := Option.map_eq_some_iff.1 heq
          obtain ⟨hrule, htotal⟩ := Prod.mk.inj hmo
          have hj : m.rule ≠ k := by
            rcases ho with ⟨hnone, -⟩ | ⟨j, n, hsome, hg⟩
            · rw [hm] at hnone
              exact absurd hnone (Option.some_ne_none _)
            · rw [hm, Option.map_some] at hsome
              obtain ⟨rfl, -⟩ := Prod.mk.inj (Option.some.inj hsome)
              exact (cand_mem_candidates.1 hg.1).1
          have hcut' := (hspec' m' hm').cut
          rw [hrule, htotal, cutAt_respell hj] at hcut'
          rw [hm', Option.map_some, Option.map_some, Match.token, Match.token, hrule,
            (hspec m hm).cut.unique hcut']

end Position

/-! ## Runs -/

/-- At the position the text is not too long for an `int`, and the newline does not decide. -/
def Lexer.SpellingsAgree (t : Tables) (G : Grammar) (usesReject : Bool) (k : Nat) (s : Lexer)
    (_ : Effect) : Prop :=
  s.bufPos < s.bufEnd →
    (∀ m ∈ bodyMatch t s.textUnseal.buf s.bufPos s.start s.atBol, s.textLen m < 2147483648) ∧
      ∀ line more, s.textUnseal.buf.drop s.bufPos = line ++ newline :: more → newline ∉ line →
        ¬ G.NewlineDecides usesReject k s.start s.atBol line (line ++ newline :: more)

/-- Every line of a text ends with a newline. -/
def LinesEnd (bytes : List Byte) : Prop := ∀ b ∈ bytes.getLast?, b = newline

/-- What is left of such a text starts with a line. -/
theorem LinesEnd.exists_line {bytes : List Byte} (h : LinesEnd bytes) {p : Nat}
    (hp : p < bytes.length) :
    ∃ line more, bytes.drop p = line ++ newline :: more ∧ newline ∉ line := by
  have hmem : newline ∈ bytes.drop p := by
    have hne : bytes.drop p ≠ [] := by
      rw [Ne, List.drop_eq_nil_iff]
      exact hp.not_ge
    have hlast : (bytes.drop p).getLast? = bytes.getLast? := by
      rw [List.getLast?_drop, if_neg hp.not_ge]
    have hget := List.getLast?_eq_some_getLast hne
    rw [← h _ (hlast ▸ hget)]
    exact List.getLast_mem hne
  obtain ⟨line, more, heq, hline⟩ := List.eq_append_cons_of_mem hmem
  exact ⟨line, more, heq, hline⟩

section Runs

variable {G : Grammar} {k : Nat} {bol usesReject : Bool} {r : Node} {sites : RuleSites}
  {t t' : Tables}

/-- Both scanners go on alike from equal tokens. -/
theorem Lexer.At.iterate_congr {s : Lexer} {buf : List Byte} {mb c : Nat} {atBol : Bool}
    (h : s.At buf mb c atBol) (hmb : mb < buf.length)
    (heq : (bodyMatch t buf mb c atBol).map Match.token =
      (bodyMatch t' buf mb c atBol).map Match.token) (nodefault : Bool) (e : Effect) :
    s.iterate t nodefault e = s.iterate t' nodefault e := by
  rw [h.iterate_eq hmb, h.iterate_eq hmb]
  cases hm : bodyMatch t buf mb c atBol with
  | none =>
      rw [hm, Option.map_none, eq_comm, Option.map_eq_none_iff] at heq
      rw [heq]
  | some m =>
      rw [hm, Option.map_some, eq_comm] at heq
      obtain ⟨m', hm', htoken⟩ := Option.map_eq_some_iff.1 heq
      obtain ⟨hrule, hlen⟩ := Prod.mk.inj htoken
      have haccept : s.textUnseal.accept m' = s.textUnseal.accept m := by
        unfold Lexer.accept
        rw [hlen]
      rw [hm']
      simp only
      rw [hrule, hlen, haccept]

/-- **One run**, over a text whose lines end in a newline. -/
theorem Lexer.Intact.run_eq (hr : r.Plain) (hk : G.rules[k]? = some (eolSpelling bol r sites))
    (hnl : ∀ w ∈ r.reads, newline ∉ w) (ht : t.Implements G)
    (ha : t.yyAccept.isSome = usesReject) (he : t.yyRuleEol.isSome = usesReject)
    (ht' : t'.Implements (G.respell k (newlineSpelling bol r sites)))
    (ha' : t'.yyAccept.isSome = usesReject) (he' : t'.yyRuleEol.isSome = usesReject)
    (nodefault : Bool) {bytes : List Byte} (hlines : LinesEnd bytes)
    (hlen : usesReject = true → bytes.length < 2147483648) (es : List Effect)
    (hes : ∀ e ∈ es, ∀ c ∈ e.start, c < G.condNames.length) {s : Lexer}
    (h : s.bufPos < s.bufEnd → s.Intact bytes G.condNames.length)
    (halong : s.Along (Lexer.SpellingsAgree t G usesReject k) t nodefault es) :
    s.run t nodefault es = s.run t' nodefault es := by
  induction es generalizing s with
  | nil => rfl
  | cons e es ih =>
      obtain ⟨hagree, halong⟩ := halong
      have ih := fun {s} ↦ @ih (fun e' he' ↦ hes e' (List.mem_cons_of_mem e he')) s
      rw [Lexer.run, Lexer.run]
      rcases Nat.lt_or_ge s.bufPos s.bufEnd with hlt | hge
      · have hs := h hlt
        obtain ⟨hfit, hagree⟩ := hagree hlt
        have hmb : s.bufPos < bytes.length := hs.bufEnd_eq ▸ hlt
        rw [hs.buf_eq] at hfit hagree
        obtain ⟨line, more, hrest, hline⟩ := hlines.exists_line hmb
        have htoken := (token_eq_iff hr hk hnl ht ha he ht' ha' he' hs.start_lt s.atBol hrest
          hline hlen).2 (hrest ▸ hagree line more hrest hline)
        have hiter := hs.at.iterate_congr hmb htoken nodefault e
        have hnext : (s.iterate t nodefault e).2.bufPos < (s.iterate t nodefault e).2.bufEnd →
            (s.iterate t nodefault e).2.Intact bytes G.condNames.length := by
          intro _
          rw [hs.at.iterate_eq hmb]
          cases hm : bodyMatch t bytes s.bufPos s.start s.atBol with
          | some m =>
              have hin : s.bufPos + m.len ≤ s.bufEnd := by
                obtain ⟨hle, htotal⟩ := Session.len_le (bodyMatch_spec ht ha he hs.start_lt hm)
                rw [List.length_drop, ← hs.bufEnd_eq] at htotal
                omega
              exact hs.act hin (hfit m hm) (hes e List.mem_cons_self)
          | none =>
              cases nodefault with
              | true => exact hs.textUnseal
              | false => exact hs.echo hlt
        rw [← hiter]
        simp only
        rw [ih hnext halong]
      · rw [Lexer.iterate_of_le hge] at halong ⊢
        rw [Lexer.iterate_of_le hge]
        simp only
        refine congrArg (fun p : List Event × Lexer ↦ (s.textUnseal.atEof.1 :: p.1, p.2))
          (ih (fun hlt ↦ ?_) halong)
        have hpos : s.textUnseal.atEof.2.bufPos = s.bufPos := Lexer.bufPos_textUnseal s
        have hend : s.textUnseal.atEof.2.bufEnd = s.bufEnd := Lexer.bufEnd_textUnseal s
        rw [hpos, hend] at hlt
        exact absurd hge hlt.not_ge

end Runs

/-- **`r$` and `r/\n`.**  Replacing the one by the other leaves rules and texts as they were,
at every position exactly if the newline does not decide, and in every run over a text whose
lines end in a newline if it never does.  The patterns are those of a regex `r` that matches
no newline. -/
theorem eol_newline_agree_iff (G : Grammar) (k : Nat) {bol : Bool} {r : Node} {sites : RuleSites}
    (hr : r.Plain) (hk : G.rules[k]? = some (eolSpelling bol r sites))
    (hnl : ∀ w ∈ r.reads, newline ∉ w) (std : StdSort Nat) (mode : CompressMode)
    (usesReject : Bool) :
    ∃ dfa t dfa' t', generate std mode usesReject G.nfa = some (dfa, t) ∧
      generate std mode usesReject (G.respell k (newlineSpelling bol r sites)).nfa =
        some (dfa', t') ∧
      (∀ c < G.condNames.length, ∀ (atBol : Bool) (buf : List Byte) (mb : Nat)
        (line more : List Byte), buf.drop mb = line ++ newline :: more → newline ∉ line →
        (usesReject = true → buf.length < 2147483648) →
          ((bodyMatch t buf mb c atBol).map Match.token =
              (bodyMatch t' buf mb c atBol).map Match.token ↔
            ¬ G.NewlineDecides usesReject k c atBol line (buf.drop mb))) ∧
      ∀ (nodefault : Bool) (bytes : List Byte), LinesEnd bytes →
        (usesReject = true → bytes.length < 2147483648) → ∀ es : List Effect,
          (∀ e ∈ es, ∀ c ∈ e.start, c < G.condNames.length) → 0 < G.condNames.length →
            (Lexer.init bytes).Along (Lexer.SpellingsAgree t G usesReject k) t nodefault es →
              (Lexer.init bytes).run t nodefault es = (Lexer.init bytes).run t' nodefault es := by
  obtain ⟨dfa, t, hgen, ht, ha, he⟩ := G.exists_tables std mode usesReject
  obtain ⟨dfa', t', hgen', ht', ha', he'⟩ :=
    (G.respell k (newlineSpelling bol r sites)).exists_tables std mode usesReject
  refine ⟨dfa, t, dfa', t', hgen, hgen', fun c hc atBol buf mb line more hbuf hline hlen ↦ ?_,
    fun nodefault bytes hlines hlen es hes hconds halong ↦ ?_⟩
  · exact token_eq_iff hr hk hnl ht ha he ht' ha' he' hc atBol hbuf hline hlen
  · exact Lexer.Intact.run_eq hr hk hnl ht ha he ht' ha' he' nodefault hlines hlen es hes
      (fun _ ↦ Lexer.init_intact hconds bytes) halong

/-- The rule `a$` alone. -/
def onlyEol : Grammar := { rules := [eolSpelling false (.cls (ByteSet.add {} 97)) {}] }

/-- Without another rule the newline never decides at the start of a line that is not empty. -/
theorem not_newlineDecides_onlyEol {line rest : List Byte} (hline : line ≠ []) :
    ¬ onlyEol.NewlineDecides false 0 0 true line rest := by
  have hnone : ∀ j, j ≠ 0 → ∀ w, ¬ onlyEol.Matches 0 true j w := by
    intro j hj w h
    exact hj (Nat.lt_one_iff.1 h.lt)
  rintro ⟨⟨hM, -⟩, hno⟩
  refine hno ⟨⟨hM, List.length_pos_iff.2 hline, fun _ n j hj hslot ↦ ?_⟩, fun n j hj hlook ↦ ?_⟩
  · exact absurd hslot.1.2 (hnone j hj _)
  · exact absurd (hlook.lawfulAt (by simp)).2.1.2 (hnone j hj _)

/-- One `a$`, in either spelling. -/
theorem eol_newline_agree_onlyEol :
    ∃ dfa t dfa' t', generate (.insertion Nat) .fullEc false onlyEol.nfa = some (dfa, t) ∧
      generate (.insertion Nat) .fullEc false
        (onlyEol.respell 0 (newlineSpelling false (.cls (ByteSet.add {} 97)) {})).nfa =
          some (dfa', t') ∧
      (Lexer.init [97, newline]).run t false [{}] = (Lexer.init [97, newline]).run t' false [{}] := by
  have hnl : ∀ w ∈ (Node.cls (ByteSet.add {} 97)).reads, newline ∉ w := by
    intro w hw
    have hw' : w ∈ (ByteSet.add {} 97).lang := by
      rwa [← ByteSet.edgeLang_of_nonempty (s := ByteSet.add {} 97) (by decide)]
    obtain ⟨b, hb, rfl⟩ := hw'
    rw [ByteSet.test_add, ByteSet.test_default, Bool.false_or, decide_eq_true_iff] at hb
    rw [← hb]
    decide
  obtain ⟨dfa, t, dfa', t', hgen, hgen', -, hrun⟩ :=
    @eol_newline_agree_iff onlyEol 0 false _ {} (Node.plain_cls _) rfl hnl
      (.insertion Nat) .fullEc false
  have hfit : ∀ g ∈ generate (.insertion Nat) .fullEc false onlyEol.nfa,
      ∀ m ∈ bodyMatch g.2 (Lexer.init [97, newline]).textUnseal.buf 0 0 true,
        (Lexer.init [97, newline]).textLen m < 2147483648 := by
    decide +kernel
  have hlines : LinesEnd [97, newline] := fun b hb ↦ (Option.some.inj hb).symm
  have halong : (Lexer.init [97, newline]).Along
      (Lexer.SpellingsAgree t onlyEol false 0) t false [{}] := by
    refine ⟨fun _ ↦ ⟨hfit (dfa, t) hgen, fun line more heq _ ↦ ?_⟩, trivial⟩
    refine not_newlineDecides_onlyEol fun hnil ↦ ?_
    subst hnil
    exact absurd (List.cons.inj heq).1 (by decide)
  refine ⟨dfa, t, dfa', t', hgen, hgen', ?_⟩
  exact hrun false _ hlines (by simp) [{}] (by simp) (by simp [onlyEol]) halong

/-- The rules `a` and `a$`. -/
def letterEol : Grammar :=
  { rules := [{ root := .cls (ByteSet.add {} 97) },
      eolSpelling false (.cls (ByteSet.add {} 97)) {}] }

/-- Behind `a`, the rule `a$` loses and `a/\n` wins. -/
theorem token_letterEol :
    ((generate (.insertion Nat) .fullEc false letterEol.nfa).map fun g ↦
        (bodyMatch g.2 [97, newline] 0 0 true).map Match.token) = some (some (0, 1)) ∧
    ((generate (.insertion Nat) .fullEc false
        (letterEol.respell 1 (newlineSpelling false (.cls (ByteSet.add {} 97)) {})).nfa).map
          fun g ↦ (bodyMatch g.2 [97, newline] 0 0 true).map Match.token) = some (some (1, 1)) := by
  constructor
  · decide +kernel
  · decide +kernel

end LexCpp
