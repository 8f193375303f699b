import LexCpp.Control.While
import LexCpp.Data.SortUnique
import LexCpp.Nfa.Basic

/-!
# Sets of NFA states

`eps_closure`, `step` and `accept_for` of `dfa.cpp`.  A set of states is the ascending
list of its members.

The closure is a depth-first search with a stack.  Its state keeps three views of one
set, the flags `seen`, the list `set` and the stack `work` of members whose ε-edges
are still to be followed; `ClosureInv` ties them together, and the number of states
not yet seen plus the height of the stack goes down with every round.
-/

namespace LexCpp

/-- A set of NFA states. -/
abbrev StateSet := List Nat

namespace NFA

/-! ## Closure -/

/-- The locals of `eps_closure`; the top of the stack comes first. -/
structure ClosureState where
  seen : List Bool
  work : List Nat
  set : StateSet

/-- The body of the edge loop. -/
def closureEdge (s : ClosureState) (e : NFAEdge) : ClosureState :=
  if e.on.empty && !s.seen.getD e.target false then
    { seen := s.seen.set e.target true, work := e.target :: s.work, set := s.set ++ [e.target] }
  else s

/-- Pop a state and follow its edges. -/
def closureBody (nfa : NFA) (s : ClosureState) : Option ClosureState :=
  match s.work with
  | [] => none
  | p :: work => some ((nfa.state p).out.foldl closureEdge { s with work := work })

def epsClosure (nfa : NFA) (set : StateSet) : Option StateSet :=
  let seen := set.foldl (fun seen p ↦ seen.set p true) (List.replicate nfa.states.length false)
  (whileFuel (fun s ↦ !s.work.isEmpty) nfa.closureBody (nfa.states.length + set.length + 1)
    { seen := seen, work := set.reverse, set := set }).map fun s ↦ sortUnique s.set

def step (nfa : NFA) (set : StateSet) (byte : Byte) : Option StateSet :=
  nfa.epsClosure (set.flatMap fun p ↦
    ((nfa.state p).out.filter fun e ↦ !e.on.empty && e.on.test byte).map NFAEdge.target)

/-! ### The search -/

section Closure

variable {nfa : NFA} {init : StateSet}

/-- What the search keeps: the flags and the list agree, and what has been found is
reachable. -/
structure ClosureInv (nfa : NFA) (init : StateSet) (s : ClosureState) : Prop where
  length_seen : s.seen.length = nfa.states.length
  seen_iff : ∀ p, s.seen.getD p false = true ↔ p ∈ s.set
  init_subset : ∀ p ∈ init, p ∈ s.set
  sound : ∀ p ∈ s.set, p ∈ nfa.auto.εClosure {q | q ∈ init}
  work_subset : ∀ p ∈ s.work, p ∈ s.set

/-- Every member has had its ε-edges followed, except those in `pending`. -/
def FollowedExcept (nfa : NFA) (pending : List Nat) (s : ClosureState) : Prop :=
  ∀ p ∈ s.set, p ∈ pending ∨ ∀ q ∈ nfa.auto.step p none, q ∈ s.set

/-- What is left to do. -/
def closureMeasure (s : ClosureState) : Nat := s.seen.count false + s.work.length

theorem closureMeasure_mk (seen : List Bool) (work : List Nat) (set : StateSet) :
    closureMeasure ⟨seen, work, set⟩ = seen.count false + work.length := rfl

theorem getD_set_true (l : List Bool) {p : Nat} (hp : p < l.length) (q : Nat) :
    (l.set p true).getD q false = true ↔ l.getD q false = true ∨ q = p := by
  by_cases h : q = p
  · subst h
    simp [hp]
  · simp [List.getElem?_set_ne (Ne.symm h), h]

theorem count_false_set_true (l : List Bool) {p : Nat} (hp : p < l.length)
    (h : l.getD p false = false) : (l.set p true).count false + 1 = l.count false := by
  have hget : l[p] = false := by simpa [hp] using h
  have hpos : 0 < l.count false := List.count_pos_iff.2 (hget ▸ List.getElem_mem hp)
  rw [List.count_set hp, hget]
  simp
  omega

/-- Following edges to reachable states: what is found is pushed on the stack and
appended to the set, and the measure stays. -/
theorem ClosureInv.foldl_closureEdge (es : List NFAEdge) {s : ClosureState}
    (h : ClosureInv nfa init s) (hlt : ∀ e ∈ es, e.target < nfa.states.length)
    (hr : ∀ e ∈ es, e.on.empty = true → e.target ∈ nfa.auto.εClosure {q | q ∈ init}) :
    ClosureInv nfa init (es.foldl closureEdge s) ∧
      (∃ new, (es.foldl closureEdge s).set = s.set ++ new ∧
        (es.foldl closureEdge s).work = new.reverse ++ s.work) ∧
      (∀ e ∈ es, e.on.empty = true → e.target ∈ (es.foldl closureEdge s).set) ∧
      closureMeasure (es.foldl closureEdge s) = closureMeasure s := by
  induction es generalizing s with
  | nil => exact ⟨h, ⟨[], by simp, by simp⟩, by simp, rfl⟩
  | cons e es ih =>
      have hlt' := fun e' he' ↦ hlt e' (List.mem_cons_of_mem e he')
      have hr' := fun e' he' ↦ hr e' (List.mem_cons_of_mem e he')
      have he := hlt e List.mem_cons_self
      rw [List.foldl_cons]
      by_cases hnew : (e.on.empty && !s.seen.getD e.target false) = true
      · -- an unseen target: mark it, push it, append it
        have hstep : closureEdge s e =
            ⟨s.seen.set e.target true, e.target :: s.work, s.set ++ [e.target]⟩ := if_pos hnew
        rw [Bool.and_eq_true, Bool.not_eq_true'] at hnew
        have hcount := count_false_set_true s.seen (h.length_seen ▸ he) hnew.2
        have hs : ClosureInv nfa init (closureEdge s e) := by
          rw [hstep]
          constructor
          · rw [List.length_set, h.length_seen]
          · intro p
            rw [getD_set_true _ (h.length_seen ▸ he), h.seen_iff]
            simp
          · exact fun p hp ↦ List.mem_append_left _ (h.init_subset p hp)
          · intro p hp
            rcases List.mem_append.1 hp with hp | hp
            · exact h.sound p hp
            · rw [List.mem_singleton.1 hp]
              exact hr e List.mem_cons_self hnew.1
          · intro p hp
            rcases List.mem_cons.1 hp with rfl | hp
            · simp
            · exact List.mem_append_left _ (h.work_subset p hp)
        obtain ⟨hinv, ⟨new, hset, hwork⟩, hall, hm⟩ := ih hs hlt' hr'
        refine ⟨hinv, ⟨e.target :: new, ?_, ?_⟩, ?_, ?_⟩
        · rw [hset, hstep]
          simp
        · rw [hwork, hstep]
          simp
        · intro e' he' hε
          rcases List.mem_cons.1 he' with rfl | he'
          · rw [hset, hstep]
            simp
          · exact hall e' he' hε
        · rw [hm, hstep, closureMeasure_mk, closureMeasure, List.length_cons]
          omega
      · -- a labelled edge or a seen target: nothing happens
        have hstep : closureEdge s e = s := if_neg hnew
        rw [hstep]
        obtain ⟨hinv, ⟨new, hset, hwork⟩, hall, hm⟩ := ih h hlt' hr'
        refine ⟨hinv, ⟨new, hset, hwork⟩, ?_, hm⟩
        intro e' he' hε
        rcases List.mem_cons.1 he' with rfl | he'
        · rw [Bool.and_eq_true, not_and, Bool.not_eq_true', Bool.not_eq_false] at hnew
          rw [hset]
          exact List.mem_append_left _ ((h.seen_iff _).1 (hnew hε))
        · exact hall e' he' hε

theorem mem_step_none {p q : Nat} :
    q ∈ nfa.auto.step p none ↔ ∃ e ∈ (nfa.state p).out, e.on.empty = true ∧ e.target = q := by
  simp only [mem_auto_step, NFAEdge.fires, and_comm]

/-- One round pops a state and leaves it followed. -/
theorem ClosureInv.closureBody (hn : nfa.InRange) {s : ClosureState} (h : ClosureInv nfa init s)
    (hf : FollowedExcept nfa s.work s) (hw : (!s.work.isEmpty) = true) :
    ∃ s', nfa.closureBody s = some s' ∧ (ClosureInv nfa init s' ∧ FollowedExcept nfa s'.work s') ∧
      closureMeasure s' < closureMeasure s := by
  obtain ⟨seen, work, set⟩ := s
  cases work with
  | nil => simp at hw
  | cons p work =>
      have hp : p ∈ set := h.work_subset p List.mem_cons_self
      have h₀ : ClosureInv nfa init ⟨seen, work, set⟩ :=
        ⟨h.length_seen, h.seen_iff, h.init_subset, h.sound,
          fun q hq ↦ h.work_subset q (List.mem_cons_of_mem p hq)⟩
      have hlt : ∀ e ∈ (nfa.state p).out, e.target < nfa.states.length := by
        intro e he
        obtain ⟨l, hl⟩ := exists_target_mem_step he
        exact hn.lt_of_mem_step hl
      have hr : ∀ e ∈ (nfa.state p).out, e.on.empty = true →
          e.target ∈ nfa.auto.εClosure {q | q ∈ init} := fun e he hε ↦
        εNFA.εClosure.step p e.target (mem_step_none.2 ⟨e, he, hε, rfl⟩) (h.sound p hp)
      obtain ⟨hinv, ⟨new, hset, hwork⟩, hall, hm⟩ := h₀.foldl_closureEdge _ hlt hr
      refine ⟨_, rfl, ⟨hinv, ?_⟩, ?_⟩
      · intro q hq
        rw [hset] at hq
        rw [hwork]
        rcases List.mem_append.1 hq with hq | hq
        · rcases hf q hq with hq | hq
          · rcases List.mem_cons.1 hq with rfl | hq
            · right
              intro q' hq'
              obtain ⟨e, he, hε, rfl⟩ := mem_step_none.1 hq'
              exact hall e he hε
            · exact Or.inl (List.mem_append_right _ hq)
          · right
            intro q' hq'
            rw [hset]
            exact List.mem_append_left _ (hq q' hq')
        · exact Or.inl (List.mem_append_left _ (List.mem_reverse.2 hq))
      · rw [hm, closureMeasure, closureMeasure, List.length_cons]
        exact Nat.lt_succ_self _

/-- The flags at the start are those of the given set. -/
theorem getD_foldl_set (set : StateSet) (seen : List Bool) (h : ∀ p ∈ set, p < seen.length)
    (q : Nat) : (set.foldl (fun seen p ↦ seen.set p true) seen).getD q false = true ↔
      seen.getD q false = true ∨ q ∈ set := by
  induction set generalizing seen with
  | nil => simp
  | cons p set ih =>
      rw [List.foldl_cons, ih _ fun p' hp' ↦ by
        rw [List.length_set]; exact h p' (List.mem_cons_of_mem p hp'),
        getD_set_true _ (h p List.mem_cons_self), List.mem_cons, or_assoc]

theorem length_foldl_set (set : StateSet) (seen : List Bool) :
    (set.foldl (fun seen p ↦ seen.set p true) seen).length = seen.length := by
  induction set generalizing seen with
  | nil => rfl
  | cons p set ih => rw [List.foldl_cons, ih, List.length_set]

/-- **The closure.**  The search ends, and finds the ε-closure in ascending order. -/
theorem exists_epsClosure (hn : nfa.InRange) (init : StateSet)
    (hset : ∀ p ∈ init, p < nfa.states.length) :
    ∃ out, nfa.epsClosure init = some out ∧ out.SortedLT ∧
      ∀ p, p ∈ out ↔ p ∈ nfa.auto.εClosure {q | q ∈ init} := by
  set seen := init.foldl (fun seen p ↦ seen.set p true) (List.replicate nfa.states.length false)
    with hseen
  have hlen : seen.length = nfa.states.length := by
    rw [hseen, length_foldl_set, List.length_replicate]
  have hinv : ClosureInv nfa init ⟨seen, init.reverse, init⟩ := by
    refine ⟨hlen, fun p ↦ ?_, fun p hp ↦ hp, fun p hp ↦ εNFA.εClosure.base p hp,
      fun p hp ↦ List.mem_reverse.1 hp⟩
    rw [hseen, getD_foldl_set _ _ (by simpa using hset), List.getD_eq_getElem?_getD,
      List.getElem?_getD_replicate_default_eq]
    simp
  have hmeasure : closureMeasure ⟨seen, init.reverse, init⟩ <
      nfa.states.length + init.length + 1 := by
    have := List.count_le_length (a := false) (l := seen)
    rw [closureMeasure_mk, List.length_reverse]
    omega
  obtain ⟨s, hrun, ⟨hs, hf⟩, hdone⟩ := exists_whileFuel
    (fun s ↦ ClosureInv nfa init s ∧ FollowedExcept nfa s.work s) closureMeasure
    (fun s hs hw ↦ hs.1.closureBody hn hs.2 hw)
    (s := ⟨seen, init.reverse, init⟩) ⟨hinv, fun p hp ↦ Or.inl (List.mem_reverse.2 hp)⟩ hmeasure
  refine ⟨sortUnique s.set, ?_, sortedLT_sortUnique _, fun p ↦ ?_⟩
  · rw [epsClosure, ← hseen, hrun, Option.map_some]
  · rw [mem_sortUnique]
    refine ⟨hs.sound p, fun hp ↦ ?_⟩
    induction hp with
    | base p hp => exact hs.init_subset p hp
    | step p q hq _ ih =>
        rw [Bool.not_eq_false', List.isEmpty_iff] at hdone
        rcases hf p ih with hp | hp
        · simp [hdone] at hp
        · exact hp q hq

/-- **The step.**  One step ends, and finds the states reached by the byte. -/
theorem exists_step (hn : nfa.InRange) (set : StateSet) (a : Byte) :
    ∃ out, nfa.step set a = some out ∧ out.SortedLT ∧
      ∀ p, p ∈ out ↔ p ∈ nfa.auto.stepSet {q | q ∈ set} a := by
  have htarget : ∀ p, p ∈ (set.flatMap fun p ↦ ((nfa.state p).out.filter fun e ↦
      !e.on.empty && e.on.test a).map NFAEdge.target) ↔ ∃ q ∈ set, p ∈ nfa.auto.step q (some a) := by
    intro p
    simp only [List.mem_flatMap, List.mem_map, List.mem_filter, mem_auto_step, NFAEdge.fires]
    exact exists_congr fun q ↦ and_congr_right fun _ ↦ exists_congr fun e ↦ by tauto
  obtain ⟨out, hout, hsorted, hmem⟩ := exists_epsClosure hn
    (set.flatMap fun p ↦ ((nfa.state p).out.filter fun e ↦
      !e.on.empty && e.on.test a).map NFAEdge.target) fun p hp ↦ by
      obtain ⟨q, -, hq⟩ := (htarget p).1 hp
      exact hn.lt_of_mem_step hq
  refine ⟨out, hout, hsorted, fun p ↦ ?_⟩
  rw [hmem, εNFA.mem_εClosure_iff_exists, εNFA.mem_stepSet_iff]
  constructor
  · rintro ⟨t, ht, hp⟩
    obtain ⟨q, hq, ht⟩ := (htarget t).1 ht
    exact ⟨q, hq, (εNFA.mem_εClosure_iff_exists _).2 ⟨t, ht, hp⟩⟩
  · rintro ⟨q, hq, hp⟩
    obtain ⟨t, ht, hp⟩ := (εNFA.mem_εClosure_iff_exists _).1 hp
    exact ⟨t, (htarget t).2 ⟨q, hq, ht⟩, hp⟩

end Closure

end NFA

/-! ## Accepts and markers of a set -/

/-- What a set of NFA states accepts: the least rule without and with `$`, all rules
in ascending order, and the rules with a marker in the set. -/
structure AcceptPair where
  normal : Int := -1
  eol : Int := -1
  list : List Int := []
  boundary : List Int := []
deriving DecidableEq, Repr

/-- Keep the smaller rule; a negative slot is free. -/
def keepLeast (slot r : Int) : Int := if slot < 0 || r < slot then r else slot

/-- Enter a rule into one of the two slots. -/
def AcceptPair.addRule (isEol : Int → Bool) (p : AcceptPair) (r : Int) : AcceptPair :=
  if isEol r then { p with eol := keepLeast p.eol r }
  else { p with normal := keepLeast p.normal r }

namespace NFA

/-- Whether a rule ends in `$`. -/
def isEol (nfa : NFA) (r : Int) : Bool := nfa.ruleEol.getD r.toNat false

/-- The rules that have a marker in the set, in the order of their ids. -/
def boundaryRules (nfa : NFA) (set : StateSet) : List Int :=
  ((List.range nfa.ruleBoundaryStates.length).filter fun r ↦
    (nfa.ruleBoundaryStates.getD r []).any fun m ↦ set.elem m).map Int.ofNat

def acceptFor (nfa : NFA) (set : StateSet) : AcceptPair :=
  let rules := sortUnique ((set.map fun s ↦ (nfa.state s).acceptRule).filter fun r ↦ 0 ≤ r)
  let p := rules.foldl (AcceptPair.addRule nfa.isEol) {}
  { p with list := rules, boundary := nfa.boundaryRules set }

end NFA

/-- `x` is the least element of `P`, or `-1` if `P` has none. -/
def IsLeastRule (P : Int → Prop) (x : Int) : Prop :=
  (P x ∧ ∀ r, P r → x ≤ r) ∨ (x = -1 ∧ ∀ r, ¬ P r)

theorem IsLeastRule.congr {P Q : Int → Prop} {x : Int} (h : IsLeastRule P x)
    (hPQ : ∀ r, P r ↔ Q r) : IsLeastRule Q x := by
  rcases h with ⟨hx, hle⟩ | ⟨hx, hno⟩
  · exact Or.inl ⟨(hPQ x).1 hx, fun r hr ↦ hle r ((hPQ r).2 hr)⟩
  · exact Or.inr ⟨hx, fun r hr ↦ hno r ((hPQ r).2 hr)⟩

theorem IsLeastRule.unique {P : Int → Prop} {x y : Int} (hx : IsLeastRule P x)
    (hy : IsLeastRule P y) : x = y := by
  rcases hx with ⟨hx, hxle⟩ | ⟨rfl, hno⟩ <;> rcases hy with ⟨hy, hyle⟩ | ⟨rfl, hno'⟩
  · exact le_antisymm (hxle y hy) (hyle x hx)
  · exact absurd hx (hno' x)
  · exact absurd hy (hno y)
  · rfl

theorem IsLeastRule.nonneg_iff {P : Int → Prop} {x : Int} (h : IsLeastRule P x)
    (hP : ∀ r, P r → 0 ≤ r) : 0 ≤ x ↔ P x := by
  rcases h with ⟨hx, -⟩ | ⟨rfl, hno⟩
  · exact ⟨fun _ ↦ hx, hP x⟩
  · exact ⟨fun h ↦ absurd h (by omega), fun h ↦ absurd h (hno _)⟩

theorem isLeastRule_foldl_keepLeast (l : List Int) (h : ∀ r ∈ l, 0 ≤ r) :
    IsLeastRule (· ∈ l) (l.foldl keepLeast (-1)) := by
  induction l using List.reverseRecOn with
  | nil => exact Or.inr ⟨rfl, by simp⟩
  | append_singleton l a ih =>
      rw [List.foldl_concat]
      have ha := h a (by simp)
      rcases ih (fun r hr ↦ h r (by simp [hr])) with ⟨hx, hle⟩ | ⟨hx, hno⟩
      · have h0 := h _ (List.mem_append_left [a] hx)
        refine Or.inl ?_
        simp only [keepLeast, Bool.or_eq_true, decide_eq_true_eq, List.mem_append,
          List.mem_singleton]
        split_ifs with hlt
        · refine ⟨Or.inr rfl, fun r hr ↦ ?_⟩
          rcases hr with hr | rfl
          · have := hle r hr
            omega
          · exact le_refl _
        · refine ⟨Or.inl hx, fun r hr ↦ ?_⟩
          rcases hr with hr | rfl
          · exact hle r hr
          · omega
      · refine Or.inl ?_
        simp only [hx, keepLeast, List.mem_append, List.mem_singleton]
        refine ⟨Or.inr rfl, fun r hr ↦ ?_⟩
        rcases hr with hr | rfl
        · exact absurd hr (hno r)
        · exact le_refl _

/-- The two slots are filled independently. -/
theorem AcceptPair.foldl_addRule (isEol : Int → Bool) (l : List Int) (p : AcceptPair) :
    l.foldl (AcceptPair.addRule isEol) p =
      { p with
        normal := (l.filter fun r ↦ !isEol r).foldl keepLeast p.normal
        eol := (l.filter isEol).foldl keepLeast p.eol } := by
  induction l generalizing p with
  | nil => rfl
  | cons r l ih =>
      rw [List.foldl_cons, ih, AcceptPair.addRule]
      cases h : isEol r <;> simp [h]

namespace NFA

/-- What a set of states accepts, as a whole. -/
structure IsAcceptOf (nfa : NFA) (S : Set Nat) (p : AcceptPair) : Prop where
  list_sorted : p.list.SortedLT
  mem_list : ∀ r, r ∈ p.list ↔ 0 ≤ r ∧ ∃ q ∈ S, (nfa.state q).acceptRule = r
  normal : IsLeastRule (fun r ↦ r ∈ p.list ∧ nfa.isEol r = false) p.normal
  eol : IsLeastRule (fun r ↦ r ∈ p.list ∧ nfa.isEol r = true) p.eol
  boundary_sorted : p.boundary.SortedLT
  mem_boundary : ∀ r, r ∈ p.boundary ↔
    ∃ j : Nat, r = j ∧ ∃ m ∈ nfa.ruleBoundaryStates.getD j [], m ∈ S

/-- A set accepts one thing. -/
theorem IsAcceptOf.unique {nfa : NFA} {S : Set Nat} {p p' : AcceptPair} (h : nfa.IsAcceptOf S p)
    (h' : nfa.IsAcceptOf S p') : p = p' := by
  have hlist : p.list = p'.list := h.list_sorted.eq_of_mem_iff h'.list_sorted fun r ↦ by
    rw [h.mem_list, h'.mem_list]
  have hboundary : p.boundary = p'.boundary :=
    h.boundary_sorted.eq_of_mem_iff h'.boundary_sorted fun r ↦ by
      rw [h.mem_boundary, h'.mem_boundary]
  have hnormal : p.normal = p'.normal := h.normal.unique (hlist ▸ h'.normal)
  have heol : p.eol = p'.eol := h.eol.unique (hlist ▸ h'.eol)
  cases p
  cases p'
  simp_all only

theorem isAcceptOf_acceptFor (nfa : NFA) (set : StateSet) :
    nfa.IsAcceptOf {q | q ∈ set} (nfa.acceptFor set) := by
  have hmem : ∀ r, r ∈ (nfa.acceptFor set).list ↔
      0 ≤ r ∧ ∃ q ∈ set, (nfa.state q).acceptRule = r := by
    intro r
    simp [acceptFor, and_comm]
  have hslots := AcceptPair.foldl_addRule nfa.isEol (nfa.acceptFor set).list {}
  constructor
  · exact sortedLT_sortUnique _
  · exact hmem
  · change IsLeastRule _ ((nfa.acceptFor set).list.foldl (AcceptPair.addRule nfa.isEol) {}).normal
    rw [hslots]
    refine (isLeastRule_foldl_keepLeast _ fun r hr ↦ ?_).congr fun r ↦ ?_
    · exact ((hmem r).1 (List.mem_of_mem_filter hr)).1
    · simp
  · change IsLeastRule _ ((nfa.acceptFor set).list.foldl (AcceptPair.addRule nfa.isEol) {}).eol
    rw [hslots]
    refine (isLeastRule_foldl_keepLeast _ fun r hr ↦ ?_).congr fun r ↦ ?_
    · exact ((hmem r).1 (List.mem_of_mem_filter hr)).1
    · simp
  · refine List.sortedLT_iff_pairwise.2 (List.Pairwise.map _ (fun a b h ↦ ?_)
      (List.pairwise_lt_range.filter _))
    exact Int.ofNat_lt.2 h
  · intro r
    change r ∈ nfa.boundaryRules set ↔ _
    simp only [boundaryRules, List.mem_map, List.mem_filter, List.mem_range, List.any_eq_true,
      List.elem_eq_mem, decide_eq_true_eq, Set.mem_ofPred_eq]
    constructor
    · rintro ⟨j, ⟨-, hm⟩, rfl⟩
      exact ⟨j, rfl, hm⟩
    · rintro ⟨j, rfl, m, hm, hS⟩
      refine ⟨j, ⟨?_, m, hm, hS⟩, rfl⟩
      by_contra hj
      rw [List.getD_eq_default _ _ (Nat.le_of_not_lt hj)] at hm
      cases hm

end NFA

end LexCpp
