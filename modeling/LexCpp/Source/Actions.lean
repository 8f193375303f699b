import LexCpp.Control.Switch
import LexCpp.Nfa.Rules
import LexCpp.Regex.Pattern
import LexCpp.Source.Reader

/-!
# Shared actions

The rules of a file as `main` adds them to the automaton, and the switches that `emit_c` writes
for their actions.  Pattern rules and `<<EOF>>` rules get switches of their own, so an action `|`
reaches the next one only if both are of pattern rules (`sharedAction_iff`).
-/

namespace LexCpp

/-! ## The automaton of a file -/

namespace LexFile

/-- `cond_id`: a later condition of the name takes the place of an earlier one. -/
def condId (f : LexFile) (name : List Byte) : Option Nat :=
  match f.conds.reverse.findIdx? fun sc ↦ sc.name = name with
  | some k => some (f.conds.length - k)
  | none => if name = ascii "INITIAL" then some 0 else none

/-- `resolver`: the last definition of the name, in parentheses. -/
def resolver (f : LexFile) (name : List Byte) : Option (List Byte) :=
  (f.defs.reverse.find? fun d ↦ d.1 = name).map fun d ↦ chr '(' :: d.2 ++ [chr ')']

def sites (f : LexFile) (r : Rule) : Option RuleSites := do
  return { conds := ← r.conds.mapM f.condId, anyState := r.anyState }

/-- The loop of `main` over the rules, from rule `i` on. -/
def addRules (fuel : Nat) (f : LexFile) : List Rule → Nat → Nat → NFA → Option NFA
  | [], _, _, nfa => some nfa
  | r :: rs, i, nfaRuleId, nfa => do
      let sites ← f.sites r
      if r.eof then
        addRules fuel f rs (i + 1) nfaRuleId (nfa.addEofRule i sites)
      else
        let env : ParseEnv := { macros := f.resolver, ci := f.options.caseInsensitive, loc := r.loc }
        match parsePattern fuel env r.pattern with
        | some (⟨some tree, trailLen, _⟩, diags) =>
            if Diag.ok diags then
              addRules fuel f rs (i + 1) (nfaRuleId + 1) (nfa.addRuleToNfa tree nfaRuleId sites trailLen)
            else none
        | _ => none

/-- The automaton of a file, if there is no error. -/
def nfa (fuel : Nat) (f : LexFile) : Option NFA :=
  let name (sc : StartCond) := String.ofList (sc.name.map fun b ↦ Char.ofNat b.val)
  f.addRules fuel f.rules 0 0
    (NFA.initNfa ("INITIAL" :: f.conds.map name) (false :: f.conds.map fun sc ↦ sc.exclusive))

/-! ## Emitted switches -/

/-- The numbers of the pattern rules, from this one on. -/
def nfaIds : Int → List Rule → List Int
  | _, [] => []
  | total, r :: rs => if r.eof then -1 :: nfaIds total rs else total :: nfaIds (total + 1) rs

/-- `make_rule_map`. -/
def makeRuleMap (f : LexFile) : List Int := nfaIds 0 f.rules

def isPipe (r : Rule) : Bool := r.action = ascii "|"

/-- `resolve_pipe_targets`. -/
def resolvePipeTargets (f : LexFile) : List Nat :=
  (List.range f.rules.length).map fun i ↦
    let j := i + ((f.rules.drop i).takeWhile isPipe).length
    if f.rules.length ≤ j then i else j

end LexFile

/-- Code in an emitted switch. -/
inductive Emitted where
  /-- The action of a rule. -/
  | action (rule : Nat) (text : List Byte)
  /-- `yyterminate();` -/
  | terminate
  | nothing
deriving DecidableEq, Repr

namespace LexFile

/-- The cases of the pattern rules, from rule `i` on. -/
def actionCases : Nat → List (Rule × Int) → List (Int × Option Emitted)
  | _, [] => []
  | i, (r, id) :: rs =>
      if r.eof then actionCases (i + 1) rs
      else (id, if isPipe r then none else some (.action i r.action)) :: actionCases (i + 1) rs

def actionSwitch (f : LexFile) : Switch Int Emitted :=
  ⟨actionCases 0 (f.rules.zip f.makeRuleMap), .nothing⟩

/-- `emit_action_dispatch`, the switch of `yy_lex_body`. -/
def emitActionDispatch (f : LexFile) : Switch Int Emitted := f.actionSwitch

/-- The switch of `yy_lex_body_reject`. -/
def rejectDispatch (f : LexFile) : Switch Int Emitted := f.actionSwitch

/-- `emit_eof_dispatch`: the first `<<EOF>>` rule of the condition. -/
def emitEofDispatch (f : LexFile) (nfa : NFA) : Switch Nat Emitted :=
  ⟨(List.range nfa.condStarts.length).map fun c ↦ (c, some <|
    match (nfa.eofRules.getD c []).head? with
    | none => .terminate
    | some i => .action i (f.rules.getD i {}).action), .terminate⟩

/-! ## What is executed -/

/-- What makes a rule fire: `yy_rule` has its number, in one of the bodies, or it is the rule for the
end of the input in a condition. -/
inductive Firing where
  | matched (reject : Bool) (yyRule : Int)
  | atEnd (yyStart : Nat)

/-- The rule at this index fires. -/
def Fires (f : LexFile) (nfa : NFA) (i : Nat) : Firing → Prop
  | .matched _ yyRule => f.makeRuleMap[i]? = some yyRule ∧ ∀ r, f.rules[i]? = some r → r.eof = false
  | .atEnd yyStart => yyStart < nfa.condStarts.length ∧ (nfa.eofRules.getD yyStart []).head? = some i

/-- The code that is run then. -/
def executed (f : LexFile) (nfa : NFA) : Firing → Emitted
  | .matched false yyRule => f.emitActionDispatch.run yyRule
  | .matched true yyRule => f.rejectDispatch.run yyRule
  | .atEnd yyStart => (f.emitEofDispatch nfa).run yyStart

/-- The first rule at or after this index with code of its own. -/
def nextAction (f : LexFile) (i : Nat) : Option Rule := (f.rules.drop i).find? fun r ↦ !isPipe r

/-! ### Pattern rules -/

theorem length_nfaIds (total : Int) (rs : List Rule) : (nfaIds total rs).length = rs.length := by
  induction rs generalizing total with
  | nil => rfl
  | cons r rs ih =>
      rw [nfaIds]
      split_ifs
      · rw [List.length_cons, ih, List.length_cons]
      · rw [List.length_cons, ih, List.length_cons]

theorem nfaIds_append (total : Int) (rs rs' : List Rule) : nfaIds total (rs ++ rs') =
    nfaIds total rs ++ nfaIds (total + rs.countP fun r ↦ !r.eof) rs' := by
  induction rs generalizing total with
  | nil => rw [List.nil_append, List.countP_nil, Nat.cast_zero, add_zero]; rfl
  | cons r rs ih =>
      rw [List.cons_append, nfaIds, nfaIds]
      cases hr : r.eof with
      | true => rw [if_pos rfl, if_pos rfl, ih, List.countP_cons_of_neg (by rw [hr]; decide), List.cons_append]
      | false =>
          rw [if_neg nofun, if_neg nofun, ih, List.countP_cons_of_pos (by rw [hr]; rfl), List.cons_append,
            Nat.cast_succ, add_assoc, add_comm (1 : Int)]

theorem actionCases_append (i : Nat) (rs rs' : List (Rule × Int)) :
    actionCases i (rs ++ rs') = actionCases i rs ++ actionCases (i + rs.length) rs' := by
  induction rs generalizing i with
  | nil => rfl
  | cons r rs ih =>
      rw [List.cons_append, actionCases, actionCases, ih, List.length_cons, Nat.add_right_comm, ← Nat.add_assoc]
      cases r.1.eof with
      | true => rfl
      | false => rfl

/-- The labels are the numbers that are given out. -/
theorem label_lt (i : Nat) (total : Int) (rs : List Rule) :
    ∀ c ∈ actionCases i (rs.zip (nfaIds total rs)), total ≤ c.1 ∧ c.1 < total + rs.countP fun r ↦ !r.eof := by
  induction rs generalizing i total with
  | nil => exact fun c hc ↦ absurd hc List.not_mem_nil
  | cons r rs ih =>
      intro c hc
      rw [nfaIds] at hc
      cases hr : r.eof with
      | true =>
          rw [hr, if_pos rfl, List.zip_cons_cons, actionCases, if_pos hr] at hc
          rw [List.countP_cons_of_neg (by rw [hr]; decide)]
          exact ih _ _ c hc
      | false =>
          rw [hr, if_neg nofun, List.zip_cons_cons, actionCases, if_neg (by rw [hr]; nofun)] at hc
          rw [List.countP_cons_of_pos (by rw [hr]; rfl), Nat.cast_succ]
          rcases List.mem_cons.1 hc with rfl | hc
          · exact ⟨le_rfl, by omega⟩
          · obtain ⟨hle, hlt⟩ := ih _ _ c hc
            exact ⟨by omega, by omega⟩

/-- The first body is that of the first pattern rule with code of its own. -/
theorem findSome?_actionCases (i : Nat) (total : Int) (rs : List Rule) :
    (actionCases i (rs.zip (nfaIds total rs))).findSome? Prod.snd =
      (rs.findIdx? fun r ↦ !r.eof && !isPipe r).map fun k ↦ .action (i + k) (rs.getD k {}).action := by
  induction rs generalizing i total with
  | nil => rfl
  | cons r rs ih =>
      have hshift : ∀ o : Option Nat, (o.map fun k ↦ Emitted.action (i + 1 + k) (rs.getD k {}).action) =
          (o.map (· + 1)).map fun k ↦ .action (i + k) ((r :: rs).getD k {}).action := by
        intro o
        rw [Option.map_map]
        congr 1
        funext k
        change _ = Emitted.action (i + (k + 1)) (rs.getD k {}).action
        rw [Nat.add_assoc, Nat.add_comm 1]
      rw [nfaIds, List.findIdx?_cons]
      cases hr : r.eof with
      | true =>
          rw [if_pos rfl, List.zip_cons_cons, actionCases, if_pos hr, ih, hshift]
          rfl
      | false =>
          rw [if_neg nofun, List.zip_cons_cons, actionCases, if_neg (by rw [hr]; nofun), List.findSome?_cons]
          cases hpipe : isPipe r with
          | true =>
              rw [if_pos rfl, ih, hshift]
              rfl
          | false => rfl

/-- A pattern rule runs the code of the first pattern rule at or after it that has some. -/
theorem run_actionSwitch {f : LexFile} {i : Nat} {r : Rule} {yyRule : Int} (hr : f.rules[i]? = some r)
    (heof : r.eof = false) (hid : f.makeRuleMap[i]? = some yyRule) :
    f.actionSwitch.run yyRule = (((f.rules.drop i).findIdx? fun r ↦ !r.eof && !isPipe r).map fun k ↦
      .action (i + k) ((f.rules.drop i).getD k {}).action).getD .nothing := by
  obtain ⟨hlt, hget⟩ := List.getElem?_eq_some_iff.1 hr
  have hdrop : f.rules.drop i = r :: f.rules.drop (i + 1) := by rw [List.drop_eq_getElem_cons hlt, hget]
  have hrules : f.rules = f.rules.take i ++ r :: f.rules.drop (i + 1) := by
    rw [← hdrop, List.take_append_drop]
  have hlen : (f.rules.take i).length = i := List.length_take_of_le hlt.le
  generalize f.rules.take i = pre at hrules hlen
  generalize f.rules.drop (i + 1) = post at hrules hdrop
  have hne : ¬ (r.eof = true) := by rw [heof]; nofun
  have hids : f.makeRuleMap = nfaIds 0 pre ++ nfaIds (0 + pre.countP fun r ↦ !r.eof) (r :: post) := by
    rw [makeRuleMap, hrules, nfaIds_append]
  have hfirst : 0 + ((pre.countP fun r ↦ !r.eof : Nat) : Int) = yyRule := by
    rw [hids, List.getElem?_append_right (by rw [length_nfaIds, hlen]), length_nfaIds, hlen, Nat.sub_self,
      nfaIds, if_neg hne] at hid
    exact Option.some.inj hid
  have hbefore : ∀ c ∈ actionCases 0 (pre.zip (nfaIds 0 pre)), c.1 ≠ yyRule := fun c hc ↦
    hfirst ▸ ((label_lt 0 0 pre c hc).2).ne
  have hcases : f.rules.zip f.makeRuleMap = pre.zip (nfaIds 0 pre) ++ (r :: post).zip (nfaIds yyRule (r :: post)) := by
    rw [hids, hfirst, hrules, List.zip_append (length_nfaIds 0 pre).symm]
  rw [actionSwitch, hcases, actionCases_append, Switch.run_append hbefore, hdrop, ← findSome?_actionCases i yyRule,
    List.length_zip, length_nfaIds, min_self, hlen, Nat.zero_add, nfaIds, if_neg hne, List.zip_cons_cons, actionCases,
    if_neg hne, Switch.run_cons]

/-! ### Rules for the end of the input -/

theorem eofRules_addRuleToNfa (nfa : NFA) (root : Node) (rule : Nat) (sites : RuleSites) (trailLen : Int) :
    (nfa.addRuleToNfa root rule sites trailLen).eofRules = nfa.eofRules := by
  obtain ⟨new, hnew⟩ := (NFA.ruleFrag_compiled nfa root).extend
  rw [NFA.addRuleToNfa_eq, NFA.connectToConds, NFA.addEpsAll_eq]
  change (nfa.ruleFrag root).2.eofRules = _
  rw [hnew]

theorem mem_eofRules_addEofRule {nfa : NFA} {rule : Nat} {sites : RuleSites} {c i : Nat}
    (hi : i ∈ (nfa.addEofRule rule sites).eofRules.getD c []) : i = rule ∨ i ∈ nfa.eofRules.getD c [] := by
  have hmodify : ∀ rules : List (List Nat), ∀ c', i ∈ (rules.modify c' (· ++ [rule])).getD c [] →
      i = rule ∨ i ∈ rules.getD c [] := by
    intro rules c' hi
    rw [List.getD_eq_getElem?_getD, List.getElem?_modify] at hi
    rw [List.getD_eq_getElem?_getD]
    cases hc : rules[c]? with
    | none =>
        rw [hc] at hi
        exact absurd hi List.not_mem_nil
    | some l =>
        rw [hc] at hi
        change i ∈ if c' = c then l ++ [rule] else l at hi
        split_ifs at hi
        · rcases List.mem_append.1 hi with hi | hi
          · exact Or.inr hi
          · exact Or.inl (List.mem_singleton.1 hi)
        · exact Or.inr hi
  have hfold : ∀ (conds : List Nat) (rules : List (List Nat)),
      i ∈ (conds.foldl (fun rs c ↦ rs.modify c (· ++ [rule])) rules).getD c [] →
        i = rule ∨ i ∈ rules.getD c [] := by
    intro conds
    induction conds with
    | nil => exact fun rules hi ↦ Or.inr hi
    | cons c' conds ih =>
        intro rules hi
        rcases ih _ hi with hi | hi
        · exact Or.inl hi
        · exact hmodify rules c' hi
  exact hfold _ _ hi

/-- The lists hold the indices of `<<EOF>>` rules. -/
def ListsEof (f : LexFile) (nfa : NFA) : Prop :=
  ∀ c, ∀ i ∈ nfa.eofRules.getD c [], ∃ r, f.rules[i]? = some r ∧ r.eof = true

theorem addRules_listsEof {fuel : Nat} {f : LexFile} {rs : List Rule} {i nfaRuleId : Nat} {nfa nfa' : NFA}
    (hrs : f.rules.drop i = rs) (h : f.ListsEof nfa) (hnfa' : f.addRules fuel rs i nfaRuleId nfa = some nfa') :
    f.ListsEof nfa' := by
  induction rs generalizing i nfaRuleId nfa with
  | nil =>
      obtain rfl := Option.some.inj hnfa'
      exact h
  | cons r rs ih =>
      have hi : f.rules[i]? = some r := by rw [← List.head?_drop, hrs]; rfl
      have hdrop : f.rules.drop (i + 1) = rs := by rw [← List.tail_drop, hrs]; rfl
      obtain ⟨sites, -, hnfa'⟩ := Option.bind_eq_some_iff.1 hnfa'
      split_ifs at hnfa' with heof
      · refine ih hdrop (fun c j hj ↦ ?_) hnfa'
        rcases mem_eofRules_addEofRule hj with rfl | hj
        · exact ⟨r, hi, heof⟩
        · exact h c j hj
      · dsimp only at hnfa'
        split at hnfa'
        · split_ifs at hnfa'
          refine ih hdrop (fun c j hj ↦ ?_) hnfa'
          rw [eofRules_addRuleToNfa] at hj
          exact h c j hj
        · exact absurd hnfa' (by rintro ⟨⟩)

theorem nfa_listsEof {fuel : Nat} {f : LexFile} {nfa : NFA} (h : f.nfa fuel = some nfa) : f.ListsEof nfa := by
  have hrun : f.addRules fuel f.rules 0 0 _ = some nfa := h
  refine addRules_listsEof List.drop_zero (fun c i hi ↦ ?_) hrun
  have hnil : ∀ names : List String, (names.map fun _ ↦ ([] : List Nat)).getD c [] = [] := fun names ↦ by
    rw [List.getD_eq_getElem?_getD, List.getElem?_map]
    cases names[c]? with
    | none => rfl
    | some _ => rfl
  rw [NFA.initNfa_eq, hnil] at hi
  exact absurd hi List.not_mem_nil

/-! ## The right code -/

/-- The code that is run is that of the rule `resolve_pipe_targets` gives, the first at or after this
one with code of its own. -/
def RunsTarget (f : LexFile) (nfa : NFA) (i : Nat) (e : Firing) : Prop :=
  ∃ j r, f.resolvePipeTargets[i]? = some j ∧ f.rules[j]? = some r ∧ f.nextAction i = some r ∧
    f.executed nfa e = .action j r.action

theorem resolvePipeTargets_eq {f : LexFile} {i : Nat} {pipes rest : List Rule} {r : Rule}
    (hdrop : f.rules.drop i = pipes ++ r :: rest) (hpipes : ∀ r' ∈ pipes, isPipe r' = true)
    (hr : isPipe r = false) :
    f.resolvePipeTargets[i]? = some (i + pipes.length) ∧ f.rules[i + pipes.length]? = some r := by
  have hget : f.rules[i + pipes.length]? = some r := by
    rw [← List.getElem?_drop, hdrop, List.getElem?_append_right le_rfl, Nat.sub_self]
    rfl
  have hlt := (List.getElem?_eq_some_iff.1 hget).1
  have htake : (f.rules.drop i).takeWhile isPipe = pipes := by
    rw [hdrop, List.takeWhile_append_of_pos hpipes, List.takeWhile_cons_of_neg (by rw [hr]; nofun), List.append_nil]
  refine ⟨?_, hget⟩
  rw [resolvePipeTargets, List.getElem?_map, List.getElem?_range ((Nat.le_add_right _ _).trans_lt hlt)]
  change some (if _ then _ else _) = _
  rw [htake, if_neg (not_le.2 hlt)]

/-- A shared action reaches the right code if and only if the rule has code of its own, or it and the
next rule with code are both pattern rules. -/
theorem sharedAction_iff {fuel : Nat} {f : LexFile} {nfa : NFA} (hnfa : f.nfa fuel = some nfa) {i : Nat} {r : Rule}
    (hr : f.rules[i]? = some r) (hnext : f.nextAction i ≠ none) {e : Firing} (he : f.Fires nfa i e) :
    f.RunsTarget nfa i e ↔
      isPipe r = false ∨ r.eof = false ∧ ∀ r' ∈ f.nextAction i, r'.eof = false := by
  obtain ⟨r', hr'⟩ := Option.ne_none_iff_exists'.1 hnext
  obtain ⟨hown, pipes, rest, hdrop, hpipes⟩ := List.find?_eq_some_iff_append.1 hr'
  rw [Bool.not_eq_true'] at hown
  have hpipes' : ∀ r'' ∈ pipes, isPipe r'' = true := fun r'' h ↦ by simpa using hpipes r'' h
  obtain ⟨htarget, hget⟩ := resolvePipeTargets_eq hdrop hpipes' hown
  have hruns : f.RunsTarget nfa i e ↔ f.executed nfa e = .action (i + pipes.length) r'.action := by
    refine ⟨?_, fun h ↦ ⟨_, r', htarget, hget, hr', h⟩⟩
    rintro ⟨j, r'', hj, -, hnext', h⟩
    obtain rfl := Option.some.inj (htarget.symm.trans hj)
    obtain rfl := Option.some.inj (hr'.symm.trans hnext')
    exact h
  have hhead : f.rules.drop i = r :: f.rules.drop (i + 1) := by
    obtain ⟨hlt, heq⟩ := List.getElem?_eq_some_iff.1 hr
    rw [List.drop_eq_getElem_cons hlt, heq]
  -- the rule has code of its own just if it is the first that has
  have hfirst : isPipe r = false ↔ pipes = [] := by
    rw [hhead] at hdrop
    cases pipes with
    | nil =>
        obtain rfl := (List.cons.inj hdrop).1
        exact ⟨fun _ ↦ rfl, fun _ ↦ hown⟩
    | cons r₁ pipes =>
        obtain rfl := (List.cons.inj hdrop).1
        exact ⟨fun h ↦ absurd (hpipes' r List.mem_cons_self) (by rw [h]; nofun), nofun⟩
  have hsame : pipes = [] → r = r' := by
    rintro rfl
    rw [hhead] at hdrop
    exact (List.cons.inj hdrop).1
  rw [hruns, hr']
  cases e with
  | matched reject yyRule =>
      obtain ⟨hid, heof⟩ := he
      have heof := heof r hr
      have hrun : f.executed nfa (.matched reject yyRule) = f.actionSwitch.run yyRule := by
        cases reject with
        | false => rfl
        | true => rfl
      have hnone : pipes.findIdx? (fun r ↦ !r.eof && !isPipe r) = none :=
        List.findIdx?_eq_none_iff.2 fun r'' h ↦ by rw [hpipes' r'' h, Bool.not_true, Bool.and_false]
      rw [hrun, run_actionSwitch hr heof hid, hdrop, List.findIdx?_append, hnone, Option.none_or, List.findIdx?_cons,
        hown]
      cases hkind : r'.eof with
      | false =>
          refine ⟨fun _ ↦ Or.inr ⟨heof, ?_⟩, fun _ ↦ ?_⟩
          · rintro _ ⟨⟩
            exact hkind
          · have hnth : (pipes ++ r' :: rest).getD pipes.length {} = r' := by
              rw [List.getD_eq_getElem?_getD, List.getElem?_append_right le_rfl, Nat.sub_self]
              rfl
            change Emitted.action (i + (0 + pipes.length)) ((pipes ++ r' :: rest).getD (0 + pipes.length) {}).action = _
            rw [Nat.zero_add, hnth]
      | true =>
          refine ⟨fun h ↦ ?_, fun h ↦ ?_⟩
          · -- a later rule, or none
            cases hlater : rest.findIdx? fun r ↦ !r.eof && !isPipe r with
            | none =>
                rw [hlater] at h
                exact absurd h nofun
            | some k =>
                rw [hlater] at h
                have hindex := (Emitted.action.inj h).1
                change i + (k + 1 + pipes.length) = _ at hindex
                omega
          · rcases h with h | ⟨-, h⟩
            · rw [← hsame (hfirst.1 h), heof] at hkind
              exact absurd hkind nofun
            · exact absurd (hkind.symm.trans (h r' rfl)) nofun
  | atEnd yyStart =>
      obtain ⟨hlt, heofRule⟩ := he
      obtain ⟨r₁, hr₁, heof⟩ := nfa_listsEof hnfa yyStart i (List.mem_of_mem_head? heofRule)
      obtain rfl := Option.some.inj (hr.symm.trans hr₁)
      have hrun : f.executed nfa (.atEnd yyStart) = .action i r.action := by
        rw [executed, emitEofDispatch, Switch.run_map (List.mem_range.2 hlt), heofRule]
        change Emitted.action i (f.rules.getD i {}).action = _
        rw [List.getD_eq_getElem?_getD, hr]
        rfl
      rw [hrun, heof, hfirst]
      refine ⟨fun h ↦ Or.inl ?_, fun h ↦ ?_⟩
      · have hindex := (Emitted.action.inj h).1
        exact List.length_eq_zero_iff.1 (by omega)
      · have hnil := h.resolve_right fun h' ↦ absurd h'.1 nofun
        rw [hsame hnil, hnil]
        rfl

/-- A rule that shares the action of the next, and a rule for the end of the input. -/
def sharing : LexFile := { rules := [
  { pattern := ascii "a", action := ascii "|" }, { pattern := ascii "b", action := ascii "b();" },
  { action := ascii "end();", eof := true }] }

/-- The same with the rule for the end of the input in between. -/
def sharingEof : LexFile := { rules := [
  { pattern := ascii "a", action := ascii "|" }, { action := ascii "end();", eof := true },
  { pattern := ascii "b", action := ascii "b();" }] }

theorem sharedAction_pattern :
    ∃ nfa, sharing.nfa 2 = some nfa ∧ sharing.RunsTarget nfa 0 (.matched false 0) := by
  have hsome : (sharing.nfa 2).isSome = true := by decide +kernel
  obtain ⟨nfa, hnfa⟩ := Option.isSome_iff_exists.1 hsome
  have hfires : sharing.Fires nfa 0 (.matched false 0) := by
    refine ⟨rfl, ?_⟩
    rintro r ⟨⟩
    rfl
  exact ⟨nfa, hnfa, (sharedAction_iff hnfa rfl (by decide) hfires).2 (Or.inr ⟨rfl, by decide⟩)⟩

/-- The first rule is to share the action for the end of the input, and gets that of the last. -/
theorem sharedAction_lost : ∃ nfa, sharingEof.nfa 2 = some nfa ∧
    sharingEof.Fires nfa 0 (.matched false 0) ∧ sharingEof.nextAction 0 ≠ none ∧
      ¬ sharingEof.RunsTarget nfa 0 (.matched false 0) := by
  have hsome : (sharingEof.nfa 2).isSome = true := by decide +kernel
  obtain ⟨nfa, hnfa⟩ := Option.isSome_iff_exists.1 hsome
  refine ⟨nfa, hnfa, ⟨rfl, ?_⟩, by decide, ?_⟩
  · rintro r ⟨⟩
    rfl
  · rintro ⟨j, r, hj, -, -, hrun⟩
    obtain rfl := Option.some.inj hj
    exact absurd (Emitted.action.inj hrun).1 (by decide)

end LexFile

end LexCpp
