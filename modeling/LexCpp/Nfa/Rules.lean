import LexCpp.Nfa.Compile

/-!
# Adding rules

`init_nfa`, `connect_to_conds`, `add_rule_to_nfa` and `add_eof_rule` of `nfa.cpp`.

Every condition has two entry states that no edge enters.  Adding a rule compiles
its body into a closed region of its own and links the entries of its conditions to
it, so what an entry accepts afterwards is what it accepted before and the new
rule's words (`accepts_addRuleToNfa`).  Everything said about a list of rules is
that one equation, folded.
-/

namespace LexCpp

open Computability

/-- Where a rule applies; no condition and no `<*>` means the default. -/
structure RuleSites where
  conds : List Nat := []
  anyState : Bool := false
deriving DecidableEq, Repr

/-- The `^` that `parse_top` puts at the root. -/
def unwrapBol : Node → Node × Bool
  | .concat .anchorBOL b => (b, true)
  | t => (t, false)

/-- The `$` that `parse_top` puts at the root. -/
def unwrapEol : Node → Node × Bool
  | .concat a .anchorEOL => (a, true)
  | t => (t, false)

/-- Strip the anchors from the root, and say which were there. -/
def unwrapAnchors (root : Node) : Node × Bool × Bool :=
  let (root, bol) := unwrapBol root
  let (body, eol) := unwrapEol root
  (body, bol, eol)

theorem all_unwrapBol {p : Node → Bool} {t : Node} (h : t.all p = true) :
    (unwrapBol t).1.all p = true := by
  unfold unwrapBol
  split
  · simp only [Node.all, Bool.and_eq_true] at h
    exact h.2
  · exact h

theorem all_unwrapEol {p : Node → Bool} {t : Node} (h : t.all p = true) :
    (unwrapEol t).1.all p = true := by
  unfold unwrapEol
  split
  · simp only [Node.all, Bool.and_eq_true] at h
    exact h.1.2
  · exact h

/-- Whatever holds all over a tree holds all over its body. -/
theorem all_unwrapAnchors {p : Node → Bool} {t : Node} (h : t.all p = true) :
    (unwrapAnchors t).1.all p = true := all_unwrapEol (all_unwrapBol h)

namespace NFA

/-! ## Sites -/

/-- The conditions a rule is linked to: all for `<*>`; `INITIAL` and the inclusive
ones by default; else the listed ones. -/
def siteConds (nfa : NFA) (sites : RuleSites) : List Nat :=
  if sites.anyState then List.range nfa.condStarts.length
  else if sites.conds.isEmpty then
    (List.range nfa.condStarts.length).filter fun i ↦ i == 0 || !nfa.condExcl.getD i false
  else sites.conds

/-- The edges of `link`: always from the BOL entry, and from the normal one unless
the rule starts with `^`. -/
def linkEdges (nfa : NFA) (entry : Nat) (onlyBol : Bool) (cond : Nat) : List (Nat × Nat) :=
  match nfa.condStarts[cond]? with
  | none => []
  | some cs => if onlyBol then [(cs.bol, entry)] else [(cs.bol, entry), (cs.normal, entry)]

def connectToConds (nfa : NFA) (entry : Nat) (onlyBol : Bool) (sites : RuleSites) : NFA :=
  nfa.addEpsAll ((nfa.siteConds sites).flatMap (nfa.linkEdges entry onlyBol))

/-! ## Building -/

def addCondStart (nfa : NFA) : NFA :=
  let (n, nfa) := nfa.newState
  let (b, nfa) := nfa.newState
  { nfa with condStarts := nfa.condStarts ++ [⟨n, b⟩] }

def initNfa (condNames : List String) (condExcl : List Bool) : NFA :=
  condNames.foldl (fun nfa _ ↦ nfa.addCondStart)
    { condNames := condNames, condExcl := condExcl, eofRules := condNames.map fun _ ↦ [] }

def setAccept (nfa : NFA) (i : Nat) (rule : Nat) : NFA :=
  { nfa with states := nfa.states.modify i fun st ↦ { st with acceptRule := rule } }

/-- Lengthen the per-rule vectors until they have an entry for `rule`. -/
def growRules (nfa : NFA) (rule : Nat) : NFA :=
  let n := rule + 1 - nfa.ruleBol.length
  { nfa with
    ruleBol := nfa.ruleBol ++ List.replicate n false
    ruleEol := nfa.ruleEol ++ List.replicate n false
    ruleTrail := nfa.ruleTrail ++ List.replicate n 0
    ruleBoundaryStates := nfa.ruleBoundaryStates ++ List.replicate n [] }

/-- The marker states among those from `pre` up to `post`. -/
def boundariesIn (nfa : NFA) (pre post : Nat) : List Nat :=
  (List.range' pre (post - pre)).filter fun i ↦ (nfa.state i).isBoundary

/-- Enter a rule's flags, trail length and markers under its id. -/
def recordRule (nfa : NFA) (rule : Nat) (bol eol : Bool) (trailLen : Int) (pre : Nat) : NFA :=
  { nfa with
    ruleBol := nfa.ruleBol.set rule bol
    ruleEol := nfa.ruleEol.set rule eol
    ruleTrail := nfa.ruleTrail.set rule trailLen
    ruleBoundaryStates := nfa.ruleBoundaryStates.modify rule
      (· ++ nfa.boundariesIn pre nfa.states.length) }

def addRuleToNfa (nfa : NFA) (root : Node) (rule : Nat) (sites : RuleSites) (trailLen : Int) :
    NFA :=
  let (body, bol, eol) := unwrapAnchors root
  let pre := nfa.states.length
  let (f, nfa) := compile body nfa
  let nfa := ((nfa.setAccept f.e rule).growRules rule).recordRule rule bol eol trailLen pre
  nfa.connectToConds f.s bol sites

/-- An end-of-file rule only enters the per-condition lists. -/
def addEofRule (nfa : NFA) (rule : Nat) (sites : RuleSites) : NFA :=
  { nfa with
    eofRules := (nfa.siteConds sites).foldl (fun rs c ↦ rs.modify c (· ++ [rule])) nfa.eofRules }

/-! ## Linking -/

theorem mem_linkEdges {nfa : NFA} {entry : Nat} {onlyBol : Bool} {c x y : Nat} :
    (x, y) ∈ nfa.linkEdges entry onlyBol c ↔ y = entry ∧
      ∃ cs b, nfa.condStarts[c]? = some cs ∧ (onlyBol = true → b = true) ∧ x = cs.entry b := by
  unfold linkEdges
  cases hc : nfa.condStarts[c]? with
  | none => simp
  | some cs =>
      simp only [Option.some.injEq, exists_and_left, exists_eq_left']
      cases onlyBol <;> simp [CondStart.entry, and_comm, or_comm, and_or_left]

/-- The entries a rule is linked to. -/
def linkedEntries (nfa : NFA) (onlyBol : Bool) (sites : RuleSites) : Set Nat :=
  {x | ∃ c ∈ nfa.siteConds sites, ∃ cs b, nfa.condStarts[c]? = some cs ∧
    (onlyBol = true → b = true) ∧ x = cs.entry b}

theorem mem_linkEdges_siteConds {nfa : NFA} {entry : Nat} {onlyBol : Bool} {sites : RuleSites}
    {x y : Nat} : (x, y) ∈ (nfa.siteConds sites).flatMap (nfa.linkEdges entry onlyBol) ↔
      x ∈ nfa.linkedEntries onlyBol sites ∧ y = entry := by
  rw [List.mem_flatMap]
  constructor
  · rintro ⟨c, hc, h⟩
    obtain ⟨hy, hx⟩ := mem_linkEdges.1 h
    exact ⟨⟨c, hc, hx⟩, hy⟩
  · rintro ⟨⟨c, hc, hx⟩, hy⟩
    exact ⟨c, hc, mem_linkEdges.2 ⟨hy, hx⟩⟩

/-! ## Well-formed automata -/

/-- What `init_nfa` establishes and every later rule keeps: ids in range, distinct
condition entries that no edge enters, recorded markers in range. -/
structure Wf (nfa : NFA) : Prop where
  inRange : nfa.InRange
  starts : ∀ (c : Nat) (cs : CondStart), nfa.condStarts[c]? = some cs → cs = ⟨2 * c, 2 * c + 1⟩
  entry_notMem : ∀ (c : Nat) (cs : CondStart) (b : Bool), nfa.condStarts[c]? = some cs →
    ∀ x l, cs.entry b ∉ nfa.auto.step x l
  markers : ∀ ms ∈ nfa.ruleBoundaryStates, ∀ m ∈ ms, m < nfa.states.length
  length_ruleEol : nfa.ruleEol.length = nfa.ruleBol.length
  length_ruleTrail : nfa.ruleTrail.length = nfa.ruleBol.length
  length_boundaries : nfa.ruleBoundaryStates.length = nfa.ruleBol.length

theorem Wf.entry_inj {nfa : NFA} (h : nfa.Wf) {c c' : Nat} {cs cs' : CondStart} {b b' : Bool}
    (hc : nfa.condStarts[c]? = some cs) (hc' : nfa.condStarts[c']? = some cs')
    (he : cs.entry b = cs'.entry b') : c = c' ∧ b = b' := by
  rw [h.starts c cs hc, h.starts c' cs' hc'] at he
  cases b <;> cases b' <;> simp [CondStart.entry] at he ⊢ <;> omega

theorem Wf.marker_lt {nfa : NFA} (h : nfa.Wf) {j m : Nat}
    (hm : m ∈ nfa.ruleBoundaryStates.getD j []) : m < nfa.states.length := by
  rcases Nat.lt_or_ge j nfa.ruleBoundaryStates.length with hj | hj
  · rw [List.getD_eq_getElem _ _ hj] at hm
    exact h.markers _ (List.getElem_mem hj) m hm
  · rw [List.getD_eq_default _ _ hj] at hm
    cases hm

/-! ## One more rule -/

/-- From the entry, the words that lead to an accept of rule `j`. -/
def Accepts (nfa : NFA) (p : Nat) (j : Int) (w : List Byte) : Prop :=
  ∃ q, w ∈ nfa.auto.between p q ∧ (nfa.state q).acceptRule = j

/-- From the entry, the words that lead to a marker of rule `j`. -/
def Marks (nfa : NFA) (p : Nat) (j : Nat) (w : List Byte) : Prop :=
  ∃ m ∈ nfa.ruleBoundaryStates.getD j [], w ∈ nfa.auto.between p m

/-! ### The parts of the enlarged automaton -/

section AddRule

variable {nfa : NFA} {root : Node} {rule : Nat} {sites : RuleSites} {trailLen : Int}

/-- The fragment `add_rule_to_nfa` compiles, and the automaton right after it. -/
def ruleFrag (nfa : NFA) (root : Node) : Frag × NFA := compile (unwrapAnchors root).1 nfa

theorem ruleFrag_compiled (nfa : NFA) (root : Node) :
    Compiled nfa (nfa.ruleFrag root).2 (nfa.ruleFrag root).1 (unwrapAnchors root).1.reads
      ((unwrapAnchors root).1.heads ByteSet.edgeLang) := compile_compiles _ nfa

/-- The automaton after the compile with the rule entered, before it is linked. -/
def ruleRecorded (nfa : NFA) (root : Node) (rule : Nat) (trailLen : Int) : NFA :=
  (((nfa.ruleFrag root).2.setAccept (nfa.ruleFrag root).1.e rule).growRules rule).recordRule rule
    (unwrapAnchors root).2.1 (unwrapAnchors root).2.2 trailLen nfa.states.length

theorem addRuleToNfa_eq (nfa : NFA) (root : Node) (rule : Nat) (sites : RuleSites)
    (trailLen : Int) : nfa.addRuleToNfa root rule sites trailLen =
      (nfa.ruleRecorded root rule trailLen).connectToConds (nfa.ruleFrag root).1.s
        (unwrapAnchors root).2.1 sites := rfl

theorem length_ruleRecorded : (nfa.ruleRecorded root rule trailLen).states.length =
    (nfa.ruleFrag root).2.states.length := by
  simp [ruleRecorded, recordRule, growRules, setAccept]

theorem state_ruleRecorded (q : Nat) : (nfa.ruleRecorded root rule trailLen).state q =
    if (nfa.ruleFrag root).1.e = q then { (nfa.ruleFrag root).2.state q with acceptRule := rule }
    else (nfa.ruleFrag root).2.state q := by
  have he := (ruleFrag_compiled nfa root).exit_mem.2
  by_cases h : (nfa.ruleFrag root).1.e = q
  · subst h
    simp [ruleRecorded, recordRule, growRules, setAccept, state, he]
  · simp [ruleRecorded, recordRule, growRules, setAccept, state, h]

theorem auto_ruleRecorded : (nfa.ruleRecorded root rule trailLen).auto =
    (nfa.ruleFrag root).2.auto := by
  refine congrArg (fun s ↦ (⟨s, ∅, ∅⟩ : εNFA Byte Nat)) ?_
  ext p l q
  rw [state_ruleRecorded]
  split_ifs <;> rfl

theorem condStarts_ruleRecorded : (nfa.ruleRecorded root rule trailLen).condStarts =
    nfa.condStarts := (ruleFrag_compiled nfa root).extend.condStarts_eq

theorem condExcl_ruleRecorded : (nfa.ruleRecorded root rule trailLen).condExcl = nfa.condExcl :=
  (ruleFrag_compiled nfa root).extend.condExcl_eq

theorem siteConds_ruleRecorded : (nfa.ruleRecorded root rule trailLen).siteConds sites =
    nfa.siteConds sites := by
  simp only [siteConds, condStarts_ruleRecorded, condExcl_ruleRecorded]

theorem linkedEntries_ruleRecorded (onlyBol : Bool) :
    (nfa.ruleRecorded root rule trailLen).linkedEntries onlyBol sites =
      nfa.linkedEntries onlyBol sites := by
  simp only [linkedEntries, siteConds_ruleRecorded, condStarts_ruleRecorded]

theorem Wf.linkedEntries_lt (h : nfa.Wf) {onlyBol : Bool} {x : Nat}
    (hx : x ∈ nfa.linkedEntries onlyBol sites) : x < nfa.states.length := by
  obtain ⟨c, -, cs, b, hcs, -, rfl⟩ := hx
  exact h.inRange.entry_lt hcs b

/-- The edges `connect_to_conds` adds start at states of the vector. -/
theorem Wf.link_source_lt (h : nfa.Wf) : ∀ e ∈ ((nfa.ruleRecorded root rule trailLen).siteConds
    sites).flatMap ((nfa.ruleRecorded root rule trailLen).linkEdges (nfa.ruleFrag root).1.s
      (unwrapAnchors root).2.1), e.1 < (nfa.ruleRecorded root rule trailLen).states.length := by
  rintro ⟨x, y⟩ he
  have hx := (mem_linkEdges_siteConds.1 he).1
  rw [linkedEntries_ruleRecorded] at hx
  rw [length_ruleRecorded]
  exact lt_of_lt_of_le (h.linkedEntries_lt hx) (ruleFrag_compiled nfa root).extend.length_le

theorem length_addRuleToNfa : (nfa.addRuleToNfa root rule sites trailLen).states.length =
    (nfa.ruleFrag root).2.states.length := by
  rw [addRuleToNfa_eq, connectToConds, length_addEpsAll, length_ruleRecorded]

/-- Nothing in the new fragment leads to an entry. -/
theorem Wf.entry_notMem_ruleFrag (h : nfa.Wf) {c : Nat} {cs : CondStart}
    (hcs : nfa.condStarts[c]? = some cs) (b : Bool) (y : Nat) (l : Option Byte) :
    cs.entry b ∉ (nfa.ruleFrag root).2.auto.step y l := by
  have hc := ruleFrag_compiled nfa root
  have hlt := h.inRange.entry_lt hcs b
  intro hy
  rcases Nat.lt_or_ge y nfa.states.length with hy' | hy'
  · rw [hc.extend.step_eq hy'] at hy
    exact h.entry_notMem c cs b hcs y l hy
  · rcases Nat.lt_or_ge y (nfa.ruleFrag root).2.states.length with hy'' | hy''
    · have := (hc.closed y ⟨hy', hy''⟩ l hy).1
      omega
    · rw [step_eq_empty (state_eq_default hy'')] at hy
      exact hy.elim

/-- The result is the compiled automaton with the linked entries attached to the
new fragment. -/
theorem Wf.attach_addRuleToNfa (h : nfa.Wf) : εNFA.Attach (nfa.ruleFrag root).2.auto
    (nfa.addRuleToNfa root rule sites trailLen).auto
    (nfa.linkedEntries (unwrapAnchors root).2.1 sites) (nfa.ruleFrag root).1.s := by
  have hc := ruleFrag_compiled nfa root
  constructor
  · rintro x ⟨c, -, cs, b, hcs, -, rfl⟩ y l
    exact h.entry_notMem_ruleFrag hcs b y l
  · intro hs
    have := h.linkedEntries_lt hs
    have := hc.entry_mem.1
    omega
  · intro x l y
    rw [addRuleToNfa_eq, connectToConds, mem_step_addEpsAll _ _ h.link_source_lt,
      auto_ruleRecorded, mem_linkEdges_siteConds, linkedEntries_ruleRecorded]

theorem Wf.acceptRule_addRuleToNfa (h : nfa.Wf) (q : Nat) :
    ((nfa.addRuleToNfa root rule sites trailLen).state q).acceptRule =
      if (nfa.ruleFrag root).1.e = q then (rule : Int)
      else ((nfa.ruleFrag root).2.state q).acceptRule := by
  rw [addRuleToNfa_eq, connectToConds, (state_addEpsAll _ _ h.link_source_lt q).1,
    state_ruleRecorded]
  split_ifs <;> rfl

theorem condStarts_addRuleToNfa :
    (nfa.addRuleToNfa root rule sites trailLen).condStarts = nfa.condStarts := by
  rw [addRuleToNfa_eq, connectToConds, condStarts_addEpsAll, condStarts_ruleRecorded]

theorem condExcl_addRuleToNfa :
    (nfa.addRuleToNfa root rule sites trailLen).condExcl = nfa.condExcl := by
  rw [addRuleToNfa_eq, connectToConds, condExcl_addEpsAll, condExcl_ruleRecorded]

theorem ruleBoundaryStates_addRuleToNfa :
    (nfa.addRuleToNfa root rule sites trailLen).ruleBoundaryStates =
      (nfa.ruleRecorded root rule trailLen).ruleBoundaryStates := by
  rw [addRuleToNfa_eq, connectToConds, ruleBoundaryStates_addEpsAll]

/-! ### What the entries read afterwards -/

/-- From an entry, old states are reached as before and new ones through the link. -/
theorem Wf.mem_between_addRuleToNfa (h : nfa.Wf) {p q : Nat} (hp : p < nfa.states.length)
    {w : List Byte} :
    w ∈ (nfa.addRuleToNfa root rule sites trailLen).auto.between p q ↔
      (q < nfa.states.length ∧ w ∈ nfa.auto.between p q) ∨
      (q ∈ added nfa (nfa.ruleFrag root).2 ∧
        p ∈ nfa.linkedEntries (unwrapAnchors root).2.1 sites ∧
        w ∈ (nfa.ruleFrag root).2.auto.between (nfa.ruleFrag root).1.s q) := by
  have hc := ruleFrag_compiled nfa root
  have hold : (nfa.ruleFrag root).2.auto.between p q = nfa.auto.between p q :=
    εNFA.between_congr h.inRange.closed (fun x hx l ↦ hc.extend.step_eq hx l) hp q
  rw [h.attach_addRuleToNfa.mem_between, hold]
  constructor
  · rintro (hw | ⟨hp', hw⟩)
    · exact Or.inl ⟨h.inRange.closed.mem_of_mem_between hp hw, hw⟩
    · exact Or.inr ⟨hc.closed.mem_of_mem_between hc.entry_mem hw, hp', hw⟩
  · exact Or.imp And.right And.right

/-- Which entries a rule is linked to. -/
theorem Wf.entry_mem_linkedEntries (h : nfa.Wf) {c : Nat} {cs : CondStart} {b onlyBol : Bool}
    (hcs : nfa.condStarts[c]? = some cs) : cs.entry b ∈ nfa.linkedEntries onlyBol sites ↔
      c ∈ nfa.siteConds sites ∧ (onlyBol = true → b = true) := by
  constructor
  · rintro ⟨c', hc', cs', b', hcs', hb, he⟩
    obtain ⟨rfl, rfl⟩ := h.entry_inj hcs hcs' he
    exact ⟨hc', hb⟩
  · rintro ⟨hc, hb⟩
    exact ⟨c, hc, cs, b, hcs, hb, rfl⟩

/-- **One more rule.**  An entry accepts what it accepted before, and the new rule's
words if the rule is linked to it. -/
theorem Wf.accepts_addRuleToNfa (h : nfa.Wf) {c : Nat} {cs : CondStart} {b : Bool}
    (hcs : nfa.condStarts[c]? = some cs) {j : Nat} {w : List Byte} :
    (nfa.addRuleToNfa root rule sites trailLen).Accepts (cs.entry b) j w ↔
      nfa.Accepts (cs.entry b) j w ∨ (j = rule ∧ c ∈ nfa.siteConds sites ∧
        ((unwrapAnchors root).2.1 = true → b = true) ∧ w ∈ (unwrapAnchors root).1.reads) := by
  have hc := ruleFrag_compiled nfa root
  have hp := h.inRange.entry_lt hcs b
  have hacc : ∀ q, ((nfa.addRuleToNfa root rule sites trailLen).state q).acceptRule =
      if (nfa.ruleFrag root).1.e = q then (rule : Int)
      else ((nfa.ruleFrag root).2.state q).acceptRule := h.acceptRule_addRuleToNfa
  have hlink : cs.entry b ∈ nfa.linkedEntries (unwrapAnchors root).2.1 sites ↔
      c ∈ nfa.siteConds sites ∧ ((unwrapAnchors root).2.1 = true → b = true) :=
    h.entry_mem_linkedEntries hcs
  unfold Accepts
  simp only [h.mem_between_addRuleToNfa hp, hacc]
  constructor
  · rintro ⟨q, ⟨hq, hw⟩ | ⟨hq, hl, hw⟩, hj⟩
    · have he := hc.exit_mem.1
      rw [if_neg (by omega), hc.extend.state_eq hq] at hj
      exact Or.inl ⟨q, hw, hj⟩
    · split_ifs at hj with he
      · rw [← he, hc.between_exit] at hw
        obtain ⟨hl, hb⟩ := hlink.1 hl
        exact Or.inr ⟨by omega, hl, hb, hw⟩
      · have := hc.noAccept q hq
        omega
  · rintro (⟨q, hw, hj⟩ | ⟨rfl, hl, hb, hw⟩)
    · have hq := h.inRange.closed.mem_of_mem_between hp hw
      have he := hc.exit_mem.1
      rw [Set.mem_Iio] at hq
      refine ⟨q, Or.inl ⟨hq, hw⟩, ?_⟩
      rw [if_neg (by omega), hc.extend.state_eq hq, hj]
    · refine ⟨(nfa.ruleFrag root).1.e, Or.inr ⟨hc.exit_mem, hlink.2 ⟨hl, hb⟩, ?_⟩, if_pos rfl⟩
      rwa [hc.between_exit]

/-- Padding with defaults and updating one entry, seen entry by entry. -/
theorem getD_modify_replicate {α : Type*} (l : List α) (d : α) (f : α → α) (i j : Nat) :
    ((l ++ List.replicate (i + 1 - l.length) d).modify i f).getD j d =
      if i = j then f (l.getD j d) else l.getD j d := by
  have hpad : ∀ n k, (l ++ List.replicate n d).getD k d = l.getD k d := by
    intro n k
    rcases Nat.lt_or_ge k l.length with hk | hk
    · exact List.getD_append l _ d k hk
    · rw [List.getD_append_right l _ d k hk, List.getD_eq_getElem?_getD,
        List.getElem?_getD_replicate_default_eq, List.getD_eq_default l d hk]
  rw [List.getD_eq_getElem?_getD, List.getElem?_modify, ← hpad (i + 1 - l.length) j]
  by_cases hij : i = j
  · subst hij
    have hi : i < (l ++ List.replicate (i + 1 - l.length) d).length := by
      simp
      omega
    rw [List.getD_eq_getElem _ _ hi, List.getElem?_eq_getElem hi]
    simp
  · simp [hij]

theorem getD_ruleBoundaryStates_ruleRecorded (h : nfa.Wf) (j : Nat) :
    (nfa.ruleRecorded root rule trailLen).ruleBoundaryStates.getD j [] =
      nfa.ruleBoundaryStates.getD j [] ++
        if rule = j then (nfa.ruleRecorded root rule trailLen).boundariesIn nfa.states.length
          (nfa.ruleRecorded root rule trailLen).states.length else [] := by
  have hlist : (nfa.ruleRecorded root rule trailLen).ruleBoundaryStates =
      (nfa.ruleBoundaryStates ++ List.replicate (rule + 1 - nfa.ruleBoundaryStates.length) []).modify
        rule (· ++ (nfa.ruleRecorded root rule trailLen).boundariesIn nfa.states.length
          (nfa.ruleRecorded root rule trailLen).states.length) := by
    rw [h.length_boundaries, ← (ruleFrag_compiled nfa root).extend.ruleBol_eq,
      ← (ruleFrag_compiled nfa root).extend.ruleBoundaryStates_eq]
    rfl
  rw [hlist, getD_modify_replicate]
  split_ifs
  · rfl
  · rw [List.append_nil]

theorem mem_boundariesIn {i : Nat} : i ∈ (nfa.ruleRecorded root rule trailLen).boundariesIn
    nfa.states.length (nfa.ruleRecorded root rule trailLen).states.length ↔
      i ∈ added nfa (nfa.ruleFrag root).2 ∧ ((nfa.ruleFrag root).2.state i).isBoundary = true := by
  have := (ruleFrag_compiled nfa root).extend.length_le
  have hb : ((nfa.ruleRecorded root rule trailLen).state i).isBoundary =
      ((nfa.ruleFrag root).2.state i).isBoundary := by
    rw [state_ruleRecorded]
    split_ifs <;> rfl
  rw [boundariesIn, List.mem_filter, List.mem_range'_1, hb, mem_added, length_ruleRecorded]
  refine and_congr_left fun _ ↦ ?_
  omega

/-- The new rule's markers are met at its heads; the others' as before. -/
theorem Wf.marks_addRuleToNfa (h : nfa.Wf) {c : Nat} {cs : CondStart} {b : Bool}
    (hcs : nfa.condStarts[c]? = some cs) {j : Nat} {w : List Byte} :
    (nfa.addRuleToNfa root rule sites trailLen).Marks (cs.entry b) j w ↔
      nfa.Marks (cs.entry b) j w ∨ (j = rule ∧ c ∈ nfa.siteConds sites ∧
        ((unwrapAnchors root).2.1 = true → b = true) ∧
        w ∈ (unwrapAnchors root).1.heads ByteSet.edgeLang) := by
  have hc := ruleFrag_compiled nfa root
  have hp := h.inRange.entry_lt hcs b
  have hlink : cs.entry b ∈ nfa.linkedEntries (unwrapAnchors root).2.1 sites ↔
      c ∈ nfa.siteConds sites ∧ ((unwrapAnchors root).2.1 = true → b = true) :=
    h.entry_mem_linkedEntries hcs
  unfold Marks
  rw [ruleBoundaryStates_addRuleToNfa, getD_ruleBoundaryStates_ruleRecorded h]
  simp only [h.mem_between_addRuleToNfa hp, List.mem_append]
  rw [← hc.between_marker w]
  have hnew : ∀ m, m ∈ (if rule = j then (nfa.ruleRecorded root rule trailLen).boundariesIn
      nfa.states.length (nfa.ruleRecorded root rule trailLen).states.length else []) ↔
      j = rule ∧ m ∈ added nfa (nfa.ruleFrag root).2 ∧
        ((nfa.ruleFrag root).2.state m).isBoundary = true := by
    intro m
    split_ifs with hj
    · rw [mem_boundariesIn]
      simp [hj]
    · simp [Ne.symm hj]
  constructor
  · rintro ⟨m, hm | hm, ⟨hm', hw⟩ | ⟨hm', hl, hw⟩⟩
    · exact Or.inl ⟨m, hm, hw⟩
    · have := h.marker_lt hm
      have := hm'.1
      omega
    · have := ((hnew m).1 hm).2.1.1
      omega
    · obtain ⟨hj, hm, hbd⟩ := (hnew m).1 hm
      obtain ⟨hl, hb⟩ := hlink.1 hl
      exact Or.inr ⟨hj, hl, hb, m, hm, hbd, hw⟩
  · rintro (⟨m, hm, hw⟩ | ⟨hj, hl, hb, m, hm, hbd, hw⟩)
    · exact ⟨m, Or.inl hm, Or.inl ⟨h.marker_lt hm, hw⟩⟩
    · exact ⟨m, Or.inr ((hnew m).2 ⟨hj, hm, hbd⟩), Or.inr ⟨hm, hlink.2 ⟨hl, hb⟩, hw⟩⟩

/-- Adding a rule keeps the automaton well-formed. -/
theorem Wf.addRuleToNfa (h : nfa.Wf) (root : Node) (rule : Nat) (sites : RuleSites)
    (trailLen : Int) : (nfa.addRuleToNfa root rule sites trailLen).Wf := by
  have hc := ruleFrag_compiled nfa root
  have hatt : εNFA.Attach (nfa.ruleFrag root).2.auto
      (nfa.addRuleToNfa root rule sites trailLen).auto
      (nfa.linkedEntries (unwrapAnchors root).2.1 sites) (nfa.ruleFrag root).1.s :=
    h.attach_addRuleToNfa
  have hlen : (nfa.addRuleToNfa root rule sites trailLen).states.length =
      (nfa.ruleFrag root).2.states.length := length_addRuleToNfa
  have hle := hc.extend.length_le
  constructor
  · refine InRange.of_step (fun p l q hq ↦ ?_) fun cs hcs ↦ ?_
    · rw [hlen]
      rcases (hatt.step_iff p l q).1 hq with hq | ⟨-, -, rfl⟩
      · rcases Nat.lt_or_ge p nfa.states.length with hp | hp
        · rw [hc.extend.step_eq hp] at hq
          exact lt_of_lt_of_le (h.inRange.lt_of_mem_step hq) hle
        · rcases Nat.lt_or_ge p (nfa.ruleFrag root).2.states.length with hp' | hp'
          · exact (hc.closed p ⟨hp, hp'⟩ l hq).2
          · rw [step_eq_empty (state_eq_default hp')] at hq
            exact hq.elim
      · exact hc.entry_mem.2
    · rw [condStarts_addRuleToNfa] at hcs
      have := h.inRange.starts cs hcs
      omega
  · rw [condStarts_addRuleToNfa]
    exact h.starts
  · rw [condStarts_addRuleToNfa]
    intro c cs b hcs x l hx
    rcases (hatt.step_iff x l _).1 hx with hx | ⟨-, -, hx⟩
    · exact h.entry_notMem_ruleFrag hcs b x l hx
    · have := h.inRange.entry_lt hcs b
      have := hc.entry_mem.1
      omega
  · rw [ruleBoundaryStates_addRuleToNfa, hlen]
    intro ms hms m hm
    obtain ⟨j, hj⟩ := List.mem_iff_getElem?.1 hms
    have hget : (nfa.ruleRecorded root rule trailLen).ruleBoundaryStates.getD j [] = ms := by
      rw [List.getD_eq_getElem?_getD, hj, Option.getD_some]
    rw [← hget, getD_ruleBoundaryStates_ruleRecorded h, List.mem_append] at hm
    rcases hm with hm | hm
    · exact lt_of_lt_of_le (h.marker_lt hm) hle
    · split_ifs at hm
      · exact (mem_boundariesIn.1 hm).1.2
      · cases hm
  · rw [addRuleToNfa_eq, connectToConds, addEpsAll_eq, ruleRecorded]
    simp only [recordRule, growRules, setAccept, List.length_set, List.length_append,
      List.length_replicate, hc.extend.ruleEol_eq, hc.extend.ruleBol_eq, h.length_ruleEol]
  · rw [addRuleToNfa_eq, connectToConds, addEpsAll_eq, ruleRecorded]
    simp only [recordRule, growRules, setAccept, List.length_set, List.length_append,
      List.length_replicate, hc.extend.ruleTrail_eq, hc.extend.ruleBol_eq, h.length_ruleTrail]
  · rw [addRuleToNfa_eq, connectToConds, addEpsAll_eq, ruleRecorded]
    simp only [recordRule, growRules, setAccept, List.length_set, List.length_modify,
      List.length_append, List.length_replicate, hc.extend.ruleBoundaryStates_eq,
      hc.extend.ruleBol_eq, h.length_boundaries]

theorem length_ruleBol_addRuleToNfa :
    (nfa.addRuleToNfa root rule sites trailLen).ruleBol.length =
      nfa.ruleBol.length + (rule + 1 - nfa.ruleBol.length) := by
  rw [addRuleToNfa_eq, connectToConds, addEpsAll_eq, ruleRecorded]
  simp only [recordRule, growRules, setAccept, List.length_set, List.length_append,
    List.length_replicate, (ruleFrag_compiled nfa root).extend.ruleBol_eq]

theorem Wf.ruleEol_addRuleToNfa (h : nfa.Wf) (j : Nat) :
    (nfa.addRuleToNfa root rule sites trailLen).ruleEol.getD j false =
      if rule = j then (unwrapAnchors root).2.2 else nfa.ruleEol.getD j false := by
  have hc := ruleFrag_compiled nfa root
  rw [addRuleToNfa_eq, connectToConds, addEpsAll_eq, ruleRecorded]
  simp only [recordRule, growRules, setAccept, hc.extend.ruleEol_eq, hc.extend.ruleBol_eq,
    ← h.length_ruleEol, List.set_eq_modify, getD_modify_replicate]

theorem Wf.ruleTrail_addRuleToNfa (h : nfa.Wf) (j : Nat) :
    (nfa.addRuleToNfa root rule sites trailLen).ruleTrail.getD j 0 =
      if rule = j then trailLen else nfa.ruleTrail.getD j 0 := by
  have hc := ruleFrag_compiled nfa root
  rw [addRuleToNfa_eq, connectToConds, addEpsAll_eq, ruleRecorded]
  simp only [recordRule, growRules, setAccept, hc.extend.ruleTrail_eq, hc.extend.ruleBol_eq,
    ← h.length_ruleTrail, List.set_eq_modify, getD_modify_replicate]

end AddRule

/-! ## The empty automaton -/

section Init

variable {condNames : List String} {condExcl : List Bool}

theorem states_foldl_addCondStart (names : List String) {nfa : NFA} (hs : nfa.states = [])
    (hc : nfa.condStarts = []) :
    (names.foldl (fun nfa _ ↦ nfa.addCondStart) nfa) =
      { nfa with
        states := List.replicate (2 * names.length) {}
        condStarts := (List.range names.length).map fun i ↦ ⟨2 * i, 2 * i + 1⟩ } := by
  induction names using List.reverseRecOn with
  | nil => simp [← hs, ← hc]
  | append_singleton names a ih =>
      rw [List.foldl_concat, ih]
      simp [addCondStart, newState, List.range_succ, Nat.mul_add, List.replicate_add]

theorem initNfa_eq (condNames : List String) (condExcl : List Bool) :
    initNfa condNames condExcl =
      { states := List.replicate (2 * condNames.length) {}
        condStarts := (List.range condNames.length).map fun i ↦ ⟨2 * i, 2 * i + 1⟩
        condNames := condNames, condExcl := condExcl, eofRules := condNames.map fun _ ↦ [] } :=
  states_foldl_addCondStart condNames rfl rfl

theorem state_initNfa (i : Nat) : (initNfa condNames condExcl).state i = {} := by
  rw [initNfa_eq, state, List.getD_eq_getElem?_getD, List.getElem?_getD_replicate_default_eq]

theorem initNfa_wf : (initNfa condNames condExcl).Wf := by
  have hstarts : ∀ (c : Nat) (cs : CondStart), (initNfa condNames condExcl).condStarts[c]? =
      some cs → c < condNames.length ∧ cs = ⟨2 * c, 2 * c + 1⟩ := by
    intro c cs h
    rw [initNfa_eq] at h
    obtain ⟨hc, hcs⟩ := List.getElem?_eq_some_iff.1 h
    rw [List.length_map, List.length_range] at hc
    exact ⟨hc, by simpa using hcs.symm⟩
  constructor
  · refine InRange.of_step (fun p l q hq ↦ ?_) fun cs hcs ↦ ?_
    · rw [step_eq_empty (state_initNfa p)] at hq
      exact hq.elim
    · obtain ⟨c, hc⟩ := List.mem_iff_getElem?.1 hcs
      obtain ⟨hc, rfl⟩ := hstarts c cs hc
      have : (initNfa condNames condExcl).states.length = 2 * condNames.length := by
        simp [initNfa_eq]
      simp only [this]
      omega
  · exact fun c cs h ↦ (hstarts c cs h).2
  · intro c cs b _ x l h
    rw [step_eq_empty (state_initNfa x)] at h
    exact h
  · rw [initNfa_eq]
    simp
  · rw [initNfa_eq]
  · rw [initNfa_eq]
    rfl
  · rw [initNfa_eq]
    rfl

end Init

end NFA

/-! ## Lists of rules -/

/-- What `add_rule_to_nfa` is called with for one rule. -/
structure RuleSpec where
  root : Node
  sites : RuleSites := {}
  trailLen : Int := 0
deriving DecidableEq, Repr

/-- Whether the sites include condition `c`: by default `INITIAL` and the inclusive
conditions, all of them for `<*>`, else those listed. -/
def RuleSites.ActiveIn (sites : RuleSites) (condExcl : List Bool) (c : Nat) : Prop :=
  sites.anyState = true ∨ c ∈ sites.conds ∨
    (sites.conds = [] ∧ (c = 0 ∨ condExcl.getD c false = false))

instance (sites : RuleSites) (condExcl : List Bool) (c : Nat) :
    Decidable (sites.ActiveIn condExcl c) :=
  inferInstanceAs (Decidable (_ ∨ _ ∨ _))

namespace RuleSpec

def bol (r : RuleSpec) : Bool := (unwrapAnchors r.root).2.1

def eol (r : RuleSpec) : Bool := (unwrapAnchors r.root).2.2

def body (r : RuleSpec) : Node := (unwrapAnchors r.root).1

theorem body_classesNonempty (r : RuleSpec) (h : r.root.classesNonempty = true) :
    r.body.classesNonempty = true := all_unwrapAnchors h

/-- A rule is active in its conditions, a `^` rule only at the beginning of a line. -/
def Active (r : RuleSpec) (condExcl : List Bool) (c : Nat) (atBol : Bool) : Prop :=
  r.sites.ActiveIn condExcl c ∧ (r.bol = true → atBol = true)

instance (r : RuleSpec) (condExcl : List Bool) (c : Nat) (atBol : Bool) :
    Decidable (r.Active condExcl c atBol) :=
  inferInstanceAs (Decidable (_ ∧ _))

end RuleSpec

namespace NFA

/-- Add the rules of a list under consecutive ids. -/
def addRules (nfa : NFA) (rule : Nat) : List RuleSpec → NFA
  | [] => nfa
  | r :: rs => (nfa.addRuleToNfa r.root rule r.sites r.trailLen).addRules (rule + 1) rs

def buildNfa (condNames : List String) (condExcl : List Bool) (rules : List RuleSpec) : NFA :=
  (initNfa condNames condExcl).addRules 0 rules

theorem mem_siteConds {nfa : NFA} {sites : RuleSites} {c : Nat}
    (hc : c < nfa.condStarts.length) :
    c ∈ nfa.siteConds sites ↔ sites.ActiveIn nfa.condExcl c := by
  unfold siteConds RuleSites.ActiveIn
  split_ifs with h₁ h₂
  · simp [h₁, hc]
  · rw [List.isEmpty_iff] at h₂
    simp [h₁, h₂, hc]
  · rw [List.isEmpty_iff] at h₂
    simp [h₁, h₂]

theorem addRules_concat (nfa : NFA) (rule : Nat) (rules : List RuleSpec) (r : RuleSpec) :
    nfa.addRules rule (rules ++ [r]) =
      (nfa.addRules rule rules).addRuleToNfa r.root (rule + rules.length) r.sites r.trailLen := by
  induction rules generalizing nfa rule with
  | nil => rfl
  | cons r' rs ih =>
      have : rule + 1 + rs.length = rule + (r' :: rs).length := by
        rw [List.length_cons]
        omega
      rw [← this]
      exact ih _ _

/-- What an automaton has to say about a list of rules: from every entry it accepts
rule `j` exactly on the words of rule `j`, if that rule is active there, and meets
rule `j`'s markers exactly at its heads. -/
structure Realizes (nfa : NFA) (nconds : Nat) (condExcl : List Bool) (rules : List RuleSpec) :
    Prop where
  wf : nfa.Wf
  length_condStarts : nfa.condStarts.length = nconds
  condExcl_eq : nfa.condExcl = condExcl
  accepts : ∀ (c : Nat) (cs : CondStart) (b : Bool), nfa.condStarts[c]? = some cs → ∀ j w,
    nfa.Accepts (cs.entry b) (j : Nat) w ↔
      ∃ r, rules[j]? = some r ∧ r.Active condExcl c b ∧ w ∈ r.body.reads
  marks : ∀ (c : Nat) (cs : CondStart) (b : Bool), nfa.condStarts[c]? = some cs → ∀ j w,
    nfa.Marks (cs.entry b) j w ↔
      ∃ r, rules[j]? = some r ∧ r.Active condExcl c b ∧ w ∈ r.body.heads ByteSet.edgeLang
  ruleEol : ∀ j, nfa.ruleEol.getD j false = (rules[j]?.map RuleSpec.eol).getD false
  ruleTrail : ∀ j, nfa.ruleTrail.getD j 0 = (rules[j]?.map RuleSpec.trailLen).getD 0
  length_ruleBol : nfa.ruleBol.length = rules.length

theorem initNfa_realizes (condNames : List String) (condExcl : List Bool) :
    (initNfa condNames condExcl).Realizes condNames.length condExcl [] := by
  constructor
  · exact initNfa_wf
  · simp [initNfa_eq]
  · rw [initNfa_eq]
  · intro c cs b _ j w
    simp [Accepts, state_initNfa]
  · intro c cs b _ j w
    simp [Marks, initNfa_eq]
  · intro j
    simp [initNfa_eq]
  · intro j
    simp [initNfa_eq]
  · rw [initNfa_eq]
    rfl

theorem getElem?_concat_eq_some {α : Type*} {l : List α} {a b : α} {j : Nat} :
    (l ++ [a])[j]? = some b ↔ l[j]? = some b ∨ (j = l.length ∧ b = a) := by
  rw [List.getElem?_append]
  split_ifs with h
  · rw [iff_self_or]
    omega
  · rw [List.getElem?_eq_none (l := l) (by omega)]
    simp only [List.getElem?_singleton, reduceCtorEq, false_or]
    split_ifs with h'
    · simp only [Option.some.injEq, eq_comm (a := a)]
      exact ⟨fun hb ↦ ⟨by omega, hb⟩, And.right⟩
    · simp only [false_iff]
      omega

theorem Realizes.addRuleToNfa {nfa : NFA} {nconds : Nat} {condExcl : List Bool}
    {rules : List RuleSpec} (h : nfa.Realizes nconds condExcl rules) (r : RuleSpec) :
    (nfa.addRuleToNfa r.root rules.length r.sites r.trailLen).Realizes nconds condExcl
      (rules ++ [r]) := by
  have hactive : ∀ {c : Nat} {cs : CondStart} {b : Bool}, nfa.condStarts[c]? = some cs →
      (r.Active condExcl c b ↔ c ∈ nfa.siteConds r.sites ∧ (r.bol = true → b = true)) := by
    intro c cs b hcs
    rw [mem_siteConds (List.getElem?_eq_some_iff.1 hcs).1, h.condExcl_eq]
    rfl
  constructor
  · exact h.wf.addRuleToNfa _ _ _ _
  · rw [condStarts_addRuleToNfa, h.length_condStarts]
  · rw [condExcl_addRuleToNfa, h.condExcl_eq]
  · intro c cs b hcs j w
    rw [condStarts_addRuleToNfa] at hcs
    rw [h.wf.accepts_addRuleToNfa hcs, h.accepts c cs b hcs]
    simp only [getElem?_concat_eq_some, or_and_right, exists_or]
    refine or_congr_right ?_
    constructor
    · rintro ⟨hj, hc, hb, hw⟩
      exact ⟨r, ⟨hj, rfl⟩, (hactive hcs).2 ⟨hc, hb⟩, hw⟩
    · rintro ⟨_, ⟨hj, rfl⟩, ha, hw⟩
      exact ⟨hj, ((hactive hcs).1 ha).1, ((hactive hcs).1 ha).2, hw⟩
  · intro c cs b hcs j w
    rw [condStarts_addRuleToNfa] at hcs
    rw [h.wf.marks_addRuleToNfa hcs, h.marks c cs b hcs]
    simp only [getElem?_concat_eq_some, or_and_right, exists_or]
    refine or_congr_right ?_
    constructor
    · rintro ⟨hj, hc, hb, hw⟩
      exact ⟨r, ⟨hj, rfl⟩, (hactive hcs).2 ⟨hc, hb⟩, hw⟩
    · rintro ⟨_, ⟨hj, rfl⟩, ha, hw⟩
      exact ⟨hj, ((hactive hcs).1 ha).1, ((hactive hcs).1 ha).2, hw⟩
  · intro j
    rw [h.wf.ruleEol_addRuleToNfa, h.ruleEol]
    split_ifs with hj
    · simp [← hj, RuleSpec.eol]
    · rcases Nat.lt_or_ge j rules.length with hlt | hge
      · rw [List.getElem?_append_left hlt]
      · rw [List.getElem?_eq_none hge, List.getElem?_eq_none (by simp; omega)]
  · intro j
    rw [h.wf.ruleTrail_addRuleToNfa, h.ruleTrail]
    split_ifs with hj
    · simp [← hj]
    · rcases Nat.lt_or_ge j rules.length with hlt | hge
      · rw [List.getElem?_append_left hlt]
      · rw [List.getElem?_eq_none hge, List.getElem?_eq_none (by simp; omega)]
  · rw [length_ruleBol_addRuleToNfa, h.length_ruleBol, List.length_append, List.length_singleton]
    omega

/-- The automaton of a list of rules realizes it. -/
theorem buildNfa_realizes (condNames : List String) (condExcl : List Bool)
    (rules : List RuleSpec) :
    (buildNfa condNames condExcl rules).Realizes condNames.length condExcl rules := by
  unfold buildNfa
  induction rules using List.reverseRecOn with
  | nil => exact initNfa_realizes condNames condExcl
  | append_singleton rules r ih =>
      rw [addRules_concat, Nat.zero_add]
      exact ih.addRuleToNfa r

/-- Only rules of the list are accepted. -/
theorem buildNfa_acceptRule_lt (condNames : List String) (condExcl : List Bool) (rules : List RuleSpec)
    (q : Nat) : ((buildNfa condNames condExcl rules).state q).acceptRule < rules.length := by
  induction rules using List.reverseRecOn generalizing q with
  | nil =>
      change ((initNfa condNames condExcl).state q).acceptRule < 0
      rw [state_initNfa]
      decide
  | append_singleton rules r ih =>
      have hwf := (buildNfa_realizes condNames condExcl rules).wf
      have hc := ruleFrag_compiled (buildNfa condNames condExcl rules) r.root
      have hbuild : buildNfa condNames condExcl (rules ++ [r]) =
          (buildNfa condNames condExcl rules).addRuleToNfa r.root rules.length r.sites r.trailLen := by
        rw [buildNfa, addRules_concat, Nat.zero_add]
        rfl
      rw [hbuild, hwf.acceptRule_addRuleToNfa, List.length_append, List.length_singleton, Nat.cast_succ]
      split_ifs
      · exact Int.lt_succ _
      · rcases Nat.lt_or_ge q (buildNfa condNames condExcl rules).states.length with hq | hq
        · rw [hc.extend.state_eq hq]
          exact (ih q).trans (Int.lt_succ _)
        · rcases Nat.lt_or_ge q ((buildNfa condNames condExcl rules).ruleFrag r.root).2.states.length with hq' | hq'
          · rw [hc.noAccept q ⟨hq, hq'⟩]
            omega
          · rw [state_eq_default hq']
            change (-1 : Int) < _
            omega

/-! ## Every automaton built so far -/

/-- The automata reached from `init_nfa` by `add_rule_to_nfa`. -/
inductive Built : NFA → Prop
  | init (condNames : List String) (condExcl : List Bool) : Built (initNfa condNames condExcl)
  | addRule {nfa : NFA} (root : Node) (rule : Nat) (sites : RuleSites) (trailLen : Int) :
      Built nfa → Built (nfa.addRuleToNfa root rule sites trailLen)

theorem Built.wf {nfa : NFA} (h : nfa.Built) : nfa.Wf := by
  induction h with
  | init => exact initNfa_wf
  | addRule root rule sites trailLen _ ih => exact ih.addRuleToNfa root rule sites trailLen

/-- **Thompson's construction in a shared automaton.**  Whatever has been built so
far, compiling a tree gives a fragment that reads the tree's language, that nothing
enters and nothing leaves, and that is not connected to the older states; so a
further rule leaves what the entries accept for the other rules alone. -/
theorem Built.compile_preserves_language {nfa : NFA} (h : nfa.Built) {t : Node}
    (ht : t.classesNonempty = true) :
    (∀ w, w ∈ (compile t nfa).2.auto.between (compile t nfa).1.s (compile t nfa).1.e ↔
      w ∈ t.lang) ∧
    (∀ i, ∀ e ∈ ((compile t nfa).2.state i).out, e.target ≠ (compile t nfa).1.s) ∧
    ((compile t nfa).2.state (compile t nfa).1.e).out = [] ∧
    (∀ i < nfa.states.length, (compile t nfa).2.state i = nfa.state i) ∧
    (∀ i, nfa.states.length ≤ i → ∀ e ∈ ((compile t nfa).2.state i).out,
      nfa.states.length ≤ e.target) ∧
    (∀ root rule sites trailLen, ∀ j ≠ rule, ∀ (c : Nat) (cs : CondStart) (b : Bool),
      nfa.condStarts[c]? = some cs →
        (nfa.addRuleToNfa root rule sites trailLen).condStarts[c]? = some cs ∧
        ∀ w, (nfa.addRuleToNfa root rule sites trailLen).Accepts (cs.entry b) (j : Nat) w ↔
          nfa.Accepts (cs.entry b) j w) := by
  have hc := compile_compiles t nfa
  have hle := hc.extend.length_le
  refine ⟨fun w ↦ ?_, fun i e he hs ↦ ?_, ?_, fun i hi ↦ hc.extend.state_eq hi,
    fun i hi e he ↦ ?_, fun root rule sites trailLen j hj c cs b hcs ↦ ⟨?_, fun w ↦ ?_⟩⟩
  · rw [hc.between_exit, Node.reads_eq_lang ht]
  · obtain ⟨l, hl⟩ := exists_target_mem_step he
    rw [hs] at hl
    rcases Nat.lt_or_ge i nfa.states.length with hi | hi
    · rw [hc.extend.step_eq hi] at hl
      have := h.wf.inRange.lt_of_mem_step hl
      have := hc.entry_mem.1
      omega
    · rcases Nat.lt_or_ge i (compile t nfa).2.states.length with hi' | hi'
      · exact hc.entry_step i ⟨hi, hi'⟩ l hl
      · rw [step_eq_empty (state_eq_default hi')] at hl
        exact hl
  · refine List.eq_nil_iff_forall_not_mem.2 fun e he ↦ ?_
    obtain ⟨l, hl⟩ := exists_target_mem_step he
    rw [hc.exit_step] at hl
    exact hl
  · obtain ⟨l, hl⟩ := exists_target_mem_step he
    rcases Nat.lt_or_ge i (compile t nfa).2.states.length with hi' | hi'
    · exact (hc.closed i ⟨hi, hi'⟩ l hl).1
    · rw [step_eq_empty (state_eq_default hi')] at hl
      exact hl.elim
  · rwa [condStarts_addRuleToNfa]
  · rw [h.wf.accepts_addRuleToNfa hcs, or_iff_left]
    exact fun hr ↦ hj hr.1

/-- A star of a bounded repetition of an alternation, compiled into an automaton that
already holds a rule. -/
theorem Built.compile_preserves_language_nested :
    ((initNfa ["INITIAL"] [false]).addRuleToNfa (.cls (ByteSet.add {} 98)) 0 {} 0).Built ∧
    (Node.star (.rep 1 2 (.alt (.cls (ByteSet.add {} 97)) .empty))).classesNonempty = true ∧
    ∀ w, w ∈ (compile (.star (.rep 1 2 (.alt (.cls (ByteSet.add {} 97)) .empty)))
        ((initNfa ["INITIAL"] [false]).addRuleToNfa (.cls (ByteSet.add {} 98)) 0 {} 0)).2.auto.between
        (compile (.star (.rep 1 2 (.alt (.cls (ByteSet.add {} 97)) .empty)))
          ((initNfa ["INITIAL"] [false]).addRuleToNfa (.cls (ByteSet.add {} 98)) 0 {} 0)).1.s
        (compile (.star (.rep 1 2 (.alt (.cls (ByteSet.add {} 97)) .empty)))
          ((initNfa ["INITIAL"] [false]).addRuleToNfa (.cls (ByteSet.add {} 98)) 0 {} 0)).1.e ↔
      w ∈ (Node.star (.rep 1 2 (.alt (.cls (ByteSet.add {} 97)) .empty))).lang :=
  have hbuilt := Built.addRule (.cls (ByteSet.add {} 98)) 0 {} 0 (Built.init ["INITIAL"] [false])
  ⟨hbuilt, by decide, (hbuilt.compile_preserves_language (by decide)).1⟩

end NFA

end LexCpp
