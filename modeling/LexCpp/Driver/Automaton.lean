import LexCpp.Scanner.Grammar
import LexCpp.Source.Actions

/-!
# The automaton of a file

`main` adds pattern rules and `<<EOF>>` rules to one automaton, in the order of the file.  A rule for
the end of the input only enters the lists of its conditions, so the automaton is that of a grammar:
the pattern rules, in order, with the sites and the tree of each (`nfa_eq`).
-/

namespace LexCpp

namespace NFA

/-! ## Apart from the lists -/

/-- The automaton with other lists of rules for the end of the input. -/
def withEof (nfa : NFA) (l : List (List Nat)) : NFA := { nfa with eofRules := l }

/-- A step of the compiler does not look at the lists. -/
def EofBlind {α : Type} (x : StateM NFA α) : Prop :=
  ∀ nfa l, x (nfa.withEof l) = ((x nfa).1, (x nfa).2.withEof l)

namespace EofBlind

variable {α β : Type}

theorem ret (a : α) : EofBlind (pure a : StateM NFA α) := fun _ _ ↦ rfl

theorem bind {x : StateM NFA α} {f : α → StateM NFA β} (hx : EofBlind x)
    (hf : ∀ a, EofBlind (f a)) : EofBlind (x >>= f) := by
  intro nfa l
  change f (x (nfa.withEof l)).1 (x (nfa.withEof l)).2 = _
  rw [hx nfa l]
  exact hf _ _ l

theorem state : EofBlind newState := fun _ _ ↦ rfl

/-- An edge is added, or a flag set. -/
theorem step {f : NFA → NFA} (hf : ∀ nfa l, f (nfa.withEof l) = (f nfa).withEof l) :
    EofBlind (modify f : StateM NFA PUnit) :=
  fun nfa l ↦ Prod.ext rfl (hf nfa l)

theorem eps (p q : Nat) : EofBlind (modify (·.addEps p q) : StateM NFA PUnit) :=
  step fun _ _ ↦ rfl

theorem compileClass (on : ByteSet) : EofBlind (compileClass on) :=
  state.bind fun _ ↦ state.bind fun _ ↦ (step fun _ _ ↦ rfl).bind fun _ ↦ ret _

theorem compileEmpty : EofBlind compileEmpty :=
  state.bind fun _ ↦ state.bind fun _ ↦ (eps _ _).bind fun _ ↦ ret _

theorem compileBoundary : EofBlind compileBoundary :=
  state.bind fun _ ↦ state.bind fun _ ↦ (step fun _ _ ↦ rfl).bind fun _ ↦ (eps _ _).bind fun _ ↦ ret _

variable {ca cb : StateM NFA Frag}

theorem compileConcat (ha : EofBlind ca) (hb : EofBlind cb) : EofBlind (compileConcat ca cb) :=
  ha.bind fun _ ↦ hb.bind fun _ ↦ (eps _ _).bind fun _ ↦ ret _

theorem compileAlt (ha : EofBlind ca) (hb : EofBlind cb) : EofBlind (compileAlt ca cb) :=
  ha.bind fun _ ↦ hb.bind fun _ ↦ state.bind fun _ ↦ state.bind fun _ ↦ (eps _ _).bind fun _ ↦
    (eps _ _).bind fun _ ↦ (eps _ _).bind fun _ ↦ (eps _ _).bind fun _ ↦ ret _

theorem compileStar (ha : EofBlind ca) : EofBlind (compileStar ca) :=
  ha.bind fun _ ↦ state.bind fun _ ↦ state.bind fun _ ↦ (eps _ _).bind fun _ ↦ (eps _ _).bind fun _ ↦
    (eps _ _).bind fun _ ↦ (eps _ _).bind fun _ ↦ ret _

theorem compilePlus (ha : EofBlind ca) : EofBlind (compilePlus ca) :=
  ha.bind fun _ ↦ state.bind fun _ ↦ state.bind fun _ ↦ (eps _ _).bind fun _ ↦ (eps _ _).bind fun _ ↦
    (eps _ _).bind fun _ ↦ ret _

theorem compileQuestion (ha : EofBlind ca) : EofBlind (compileQuestion ca) :=
  ha.bind fun _ ↦ state.bind fun _ ↦ state.bind fun _ ↦ (eps _ _).bind fun _ ↦ (eps _ _).bind fun _ ↦
    (eps _ _).bind fun _ ↦ ret _

theorem append (head : Option Frag) (f : Frag) : EofBlind (append head f) := by
  cases head with
  | none => exact ret f
  | some h => exact (eps _ _).bind fun _ ↦ ret _

theorem appendCopies (ha : EofBlind ca) (n : Nat) (head : Option Frag) :
    EofBlind (appendCopies ca n head) := by
  induction n generalizing head with
  | zero => exact ret head
  | succ n ih => exact ha.bind fun f ↦ (append head f).bind fun h ↦ ih (some h)

theorem orEmpty (head : Option Frag) : EofBlind (orEmpty head) := by
  cases head with
  | none => exact compileEmpty
  | some f => exact ret f

theorem compileRepeat (ha : EofBlind ca) (lo hi : Nat) : EofBlind (compileRepeat ca lo hi) := by
  refine (ha.appendCopies lo none).bind fun head ↦ ?_
  by_cases h : hi = kInf
  · rw [if_pos h]
    exact (ha.compileStar.appendCopies 1 head).bind orEmpty
  · rw [if_neg h]
    exact (ha.compileQuestion.appendCopies _ head).bind orEmpty

theorem compile (root : Node) : EofBlind (compile root) := by
  induction root with
  | empty | anchorBOL | anchorEOL => exact compileEmpty
  | cls s => exact compileClass s
  | trailBoundary => exact compileBoundary
  | concat a b iha ihb => exact iha.compileConcat ihb
  | alt a b iha ihb => exact iha.compileAlt ihb
  | star a ih => exact ih.compileStar
  | plus a ih => exact ih.compilePlus
  | question a ih => exact ih.compileQuestion
  | rep lo hi a ih => exact ih.compileRepeat lo hi

end EofBlind

theorem addEpsAll_withEof (nfa : NFA) (l : List (List Nat)) (es : List (Nat × Nat)) :
    (nfa.withEof l).addEpsAll es = (nfa.addEpsAll es).withEof l := by
  induction es generalizing nfa with
  | nil => rfl
  | cons e es ih => exact ih (nfa.addEps e.1 e.2)

/-- A rule is added in the same way whatever the lists are. -/
theorem addRuleToNfa_withEof (nfa : NFA) (l : List (List Nat)) (root : Node) (rule : Nat)
    (sites : RuleSites) (trailLen : Int) : (nfa.withEof l).addRuleToNfa root rule sites trailLen =
      (nfa.addRuleToNfa root rule sites trailLen).withEof l := by
  have hfrag : (nfa.withEof l).ruleFrag root = ((nfa.ruleFrag root).1, (nfa.ruleFrag root).2.withEof l) :=
    EofBlind.compile _ nfa l
  have hrecorded : (nfa.withEof l).ruleRecorded root rule trailLen =
      (nfa.ruleRecorded root rule trailLen).withEof l := by
    unfold ruleRecorded
    rw [hfrag]
    rfl
  rw [addRuleToNfa_eq, addRuleToNfa_eq, hfrag, hrecorded, connectToConds, connectToConds,
    ← addEpsAll_withEof]
  rfl

theorem addRules_withEof (nfa : NFA) (l : List (List Nat)) (rule : Nat) (rs : List RuleSpec) :
    (nfa.withEof l).addRules rule rs = (nfa.addRules rule rs).withEof l := by
  induction rs generalizing nfa rule with
  | nil => rfl
  | cons r rs ih =>
      rw [addRules, addRules, addRuleToNfa_withEof]
      exact ih _ _

end NFA

namespace LexFile

/-! ## The grammar -/

/-- What `main` passes to `add_rule_to_nfa` for a pattern rule. -/
def ruleSpec (fuel : Nat) (f : LexFile) (r : Rule) : Option RuleSpec := do
  let sites ← f.sites r
  let env : ParseEnv := { macros := f.resolver, ci := f.options.caseInsensitive, loc := r.loc }
  match parsePattern fuel env r.pattern with
  | some (⟨some tree, trailLen, _⟩, diags) =>
      if Diag.ok diags then some { root := tree, sites, trailLen } else none
  | _ => none

def condNameStrings (f : LexFile) : List String :=
  "INITIAL" :: f.conds.map fun sc ↦ String.ofList (sc.name.map fun b ↦ Char.ofNat b.val)

def condExcl (f : LexFile) : List Bool := false :: f.conds.map fun sc ↦ sc.exclusive

/-- The start conditions and the pattern rules of a file. -/
def grammar (fuel : Nat) (f : LexFile) : Option Grammar := do
  let rules ← (f.rules.filter fun r ↦ !r.eof).mapM (f.ruleSpec fuel)
  return { condNames := f.condNameStrings, condExcl := f.condExcl, rules }

variable {fuel : Nat} {f : LexFile}

/-- The loop of `main` over a rule more. -/
theorem addRules_cons {r : Rule} {rs : List Rule} {i k : Nat} {nfa nfa' : NFA}
    (h : f.addRules fuel (r :: rs) i k nfa = some nfa') :
    (r.eof = true ∧ ∃ sites, f.sites r = some sites ∧
      f.addRules fuel rs (i + 1) k (nfa.addEofRule i sites) = some nfa') ∨
    (r.eof = false ∧ ∃ spec, f.ruleSpec fuel r = some spec ∧
      f.addRules fuel rs (i + 1) (k + 1)
        (nfa.addRuleToNfa spec.root k spec.sites spec.trailLen) = some nfa') := by
  obtain ⟨sites, hsites, h⟩ := Option.bind_eq_some_iff.1 h
  cases heof : r.eof with
  | true =>
      rw [if_pos heof] at h
      exact Or.inl ⟨rfl, sites, hsites, h⟩
  | false =>
      rw [if_neg (heof ▸ Bool.false_ne_true)] at h
      dsimp only at h
      refine Or.inr ⟨rfl, ?_⟩
      rcases hp : parsePattern fuel
          { macros := f.resolver, ci := f.options.caseInsensitive, loc := r.loc } r.pattern with
        _ | ⟨⟨_ | tree, trailLen, eol⟩, diags⟩
      · rw [hp] at h
        exact (Option.some_ne_none nfa' h.symm).elim
      · rw [hp] at h
        exact (Option.some_ne_none nfa' h.symm).elim
      · rw [hp] at h
        dsimp only at h
        split_ifs at h with hok
        refine ⟨{ root := tree, sites, trailLen }, ?_, h⟩
        rw [ruleSpec, hsites]
        dsimp only [Option.bind_eq_bind, Option.bind_some]
        rw [hp]
        exact if_pos hok

/-- Lists aside, the rules from here on are added as `addRules` adds them. -/
theorem addRules_eq {rs : List Rule} {i k : Nat} {nfa nfa' : NFA}
    (h : f.addRules fuel rs i k nfa = some nfa') :
    ∃ specs, (rs.filter fun r ↦ !r.eof).mapM (f.ruleSpec fuel) = some specs ∧
      nfa' = (nfa.addRules k specs).withEof nfa'.eofRules := by
  induction rs generalizing i k nfa with
  | nil =>
      obtain rfl := Option.some.inj h
      exact ⟨[], rfl, rfl⟩
  | cons r rs ih =>
      rcases addRules_cons h with ⟨heof, sites, -, h⟩ | ⟨heof, spec, hspec, h⟩
      · obtain ⟨specs, hspecs, heq⟩ := ih h
        refine ⟨specs, ?_, ?_⟩
        · rw [List.filter_cons_of_neg (by rw [heof]; exact Bool.false_ne_true)]
          exact hspecs
        · have hblind := NFA.addRules_withEof nfa
            ((nfa.siteConds sites).foldl (fun rs c ↦ rs.modify c (· ++ [i])) nfa.eofRules) k specs
          have hlists := congrArg (NFA.withEof · nfa'.eofRules) hblind
          exact heq.trans hlists
      · obtain ⟨specs, hspecs, heq⟩ := ih h
        refine ⟨spec :: specs, ?_, heq⟩
        rw [List.filter_cons_of_pos (by rw [heof]; rfl), List.mapM_cons, hspec, hspecs]
        rfl

/-- **The automaton of a file is that of its grammar**, the lists of `<<EOF>>` rules aside. -/
theorem nfa_eq {nfa : NFA} (h : f.nfa fuel = some nfa) :
    ∃ G, f.grammar fuel = some G ∧ nfa = G.nfa.withEof nfa.eofRules := by
  obtain ⟨specs, hspecs, heq⟩ := addRules_eq h
  refine ⟨⟨f.condNameStrings, f.condExcl, specs⟩, ?_, heq⟩
  rw [grammar, hspecs]
  rfl

/-- Tables that describe the automaton describe it without the lists. -/
theorem describes_withEof {t : Tables} {nfa : NFA} {l : List (List Nat)}
    (h : t.Describes (nfa.withEof l)) : t.Describes nfa :=
  ⟨h.entry_nonneg, h.jam_iff, fun c cs b hcs w hw ↦ by
    obtain ⟨p, hp, hrow⟩ := h.hasRow c cs b hcs w hw
    exact ⟨p, ⟨hp.list_sorted, hp.mem_list, hp.normal, hp.eol, hp.boundary_sorted, hp.mem_boundary⟩,
      hrow⟩, h.yyRuleTrailLen_eq, h.yyRuleEol_eq, h.boundary_isSome⟩

/-- **The tables of a file implement its grammar.** -/
theorem implements_grammar {nfa : NFA} (h : f.nfa fuel = some nfa) (std : StdSort Nat)
    (mode : CompressMode) (usesReject : Bool) : ∃ G dfa t, f.grammar fuel = some G ∧
      generate std mode usesReject nfa = some (dfa, t) ∧ t.Implements G ∧
        t.yyAccept.isSome = usesReject ∧ t.yyRuleEol.isSome = usesReject := by
  obtain ⟨G, hG, heq⟩ := nfa_eq h
  have hrange : (G.nfa.withEof nfa.eofRules).InRange :=
    ⟨G.realizes.wf.inRange.edges, G.realizes.wf.inRange.starts⟩
  rw [← heq] at hrange
  obtain ⟨dfa, t, hgen, hdescribes, haccept, heol, -⟩ := exists_generate hrange std mode usesReject
  rw [heq] at hdescribes
  exact ⟨G, dfa, t, hG, hgen, Grammar.implements_of_describes (describes_withEof hdescribes),
    haccept, heol⟩

/-! ## Rules for the end of the input -/

/-- The first `<<EOF>>` rule that is active in a condition. -/
def eofRule (f : LexFile) (c : Nat) : Option Nat :=
  f.rules.findIdx? fun r ↦ r.eof && (f.sites r).any fun sites ↦ decide (sites.ActiveIn f.condExcl c)

/-- What an `<<EOF>>` rule does to the list of a condition. -/
theorem head_addEofRule {nfa : NFA} {sites : RuleSites} {i c : Nat} (hc : c < nfa.condStarts.length)
    (hlen : nfa.eofRules.length = nfa.condStarts.length) :
    (nfa.addEofRule i sites).eofRules.length = nfa.condStarts.length ∧
      ((nfa.addEofRule i sites).eofRules.getD c []).head? =
        (nfa.eofRules.getD c []).head?.or (if sites.ActiveIn nfa.condExcl c then some i else none) := by
  have hfold : ∀ (conds : List Nat) (rules : List (List Nat)), rules.length = nfa.condStarts.length →
      (conds.foldl (fun rs c ↦ rs.modify c (· ++ [i])) rules).length = nfa.condStarts.length ∧
        ((conds.foldl (fun rs c ↦ rs.modify c (· ++ [i])) rules).getD c []).head? =
          (rules.getD c []).head?.or (if c ∈ conds then some i else none) := by
    intro conds
    induction conds with
    | nil =>
        intro rules hrules
        refine ⟨hrules, ?_⟩
        rw [if_neg List.not_mem_nil, Option.or_none]
        rfl
    | cons d conds ih =>
        intro rules hrules
        have hlt : c < rules.length := hc.trans_eq hrules.symm
        have hlength : (rules.modify d (· ++ [i])).length = rules.length := List.length_modify ..
        obtain ⟨hlength', hhead⟩ := ih (rules.modify d (· ++ [i])) (hlength.trans hrules)
        refine ⟨hlength', hhead.trans ?_⟩
        rw [List.getD_eq_getElem _ _ (hlt.trans_eq hlength.symm), List.getElem_modify,
          List.getD_eq_getElem _ _ hlt]
        rcases eq_or_ne d c with rfl | hdc
        · rw [if_pos rfl, if_pos List.mem_cons_self, List.head?_append, Option.or_assoc]
          rfl
        · rw [if_neg hdc]
          congr 1
          exact if_congr ⟨List.mem_cons_of_mem d, fun h ↦ (List.mem_cons.1 h).resolve_left hdc.symm⟩
            rfl rfl
  obtain ⟨hlength, hhead⟩ := hfold (nfa.siteConds sites) nfa.eofRules hlen
  refine ⟨hlength, hhead.trans ?_⟩
  rw [if_congr (NFA.mem_siteConds hc) rfl rfl]

/-- What the loop enters for a condition, after what is there. -/
theorem head_addRules {rs : List Rule} {i k c : Nat} {nfa nfa' : NFA}
    (h : f.addRules fuel rs i k nfa = some nfa') (hc : c < nfa.condStarts.length)
    (hlen : nfa.eofRules.length = nfa.condStarts.length) (hexcl : nfa.condExcl = f.condExcl) :
    (nfa'.eofRules.getD c []).head? = (nfa.eofRules.getD c []).head?.or
      ((rs.findIdx? fun r ↦ r.eof && (f.sites r).any fun sites ↦
        decide (sites.ActiveIn f.condExcl c)).map (i + ·)) := by
  induction rs generalizing i k nfa with
  | nil =>
      obtain rfl := Option.some.inj h
      rw [List.findIdx?_nil, Option.map_none, Option.or_none]
  | cons r rs ih =>
      have hshift : ∀ o : Option Nat, (o.map (i + 1 + ·)) = (o.map (· + 1)).map (i + ·) := by
        intro o
        rw [Option.map_map]
        congr 1
        funext k
        exact Nat.add_right_comm i 1 k
      rw [List.findIdx?_cons]
      rcases addRules_cons h with ⟨heof, sites, hsites, h⟩ | ⟨heof, spec, -, h⟩
      · obtain ⟨hlength, hhead⟩ := @head_addEofRule nfa sites i c hc hlen
        rw [ih h hc hlength hexcl, hhead, hexcl, Option.or_assoc, heof, hsites, Bool.true_and,
          Option.any_some]
        by_cases hactive : sites.ActiveIn f.condExcl c
        · rw [if_pos hactive, decide_eq_true hactive]
          rfl
        · rw [if_neg hactive, decide_eq_false hactive, Option.none_or, hshift]
          rfl
      · have hstarts : (nfa.addRuleToNfa spec.root k spec.sites spec.trailLen).condStarts =
            nfa.condStarts := NFA.condStarts_addRuleToNfa
        rw [ih h (hstarts ▸ hc) (by rw [eofRules_addRuleToNfa, hlen, hstarts])
          ((NFA.condExcl_addRuleToNfa ..).trans hexcl), eofRules_addRuleToNfa, heof, Bool.false_and,
          hshift]
        rfl

/-- **Each condition gets its first `<<EOF>>` rule.** -/
theorem head_eofRules {nfa : NFA} (h : f.nfa fuel = some nfa) {c : Nat}
    (hc : c < f.conds.length + 1) : (nfa.eofRules.getD c []).head? = f.eofRule c := by
  have hinit : NFA.initNfa f.condNameStrings f.condExcl =
      { states := List.replicate (2 * f.condNameStrings.length) {}
        condStarts := (List.range f.condNameStrings.length).map fun i ↦ ⟨2 * i, 2 * i + 1⟩
        condNames := f.condNameStrings, condExcl := f.condExcl
        eofRules := f.condNameStrings.map fun _ ↦ [] } := NFA.initNfa_eq _ _
  have hrun : f.addRules fuel f.rules 0 0 (NFA.initNfa f.condNameStrings f.condExcl) = some nfa := h
  have hnames : f.condNameStrings.length = f.conds.length + 1 := by
    rw [condNameStrings, List.length_cons, List.length_map]
  have hhead := head_addRules hrun (c := c)
    (by rw [hinit, List.length_map, List.length_range, hnames]; exact hc)
    (by rw [hinit, List.length_map, List.length_map, List.length_range]) (by rw [hinit])
  have hnil : ((NFA.initNfa f.condNameStrings f.condExcl).eofRules.getD c []).head? = none := by
    rw [hinit, List.getD_eq_getElem _ _ (by rw [List.length_map, hnames]; exact hc), List.getElem_map]
    rfl
  rw [hhead, hnil, Option.none_or, eofRule]
  exact (congrArg (Option.map · _) (funext fun k ↦ Nat.zero_add k)).trans Option.map_id'

end LexFile

end LexCpp
