import LexCpp.Automata.Thompson
import LexCpp.Regex.Syntax

/-!
# The NFA and its elementary updates

The data of `nfa.hpp` and the three updates everything in `nfa.cpp` is made of:
`new_state`, `add_eps` and `add_class`.  State ids are positions in the state
vector.  `NFA.auto` is the same edges seen as an ε-automaton.
-/

namespace LexCpp

/-- An edge; an empty byte set makes it an ε-edge. -/
structure NFAEdge where
  target : Nat
  on : ByteSet := {}
deriving DecidableEq, Repr

structure NFAState where
  out : List NFAEdge := []
  acceptRule : Int := -1
  isBoundary : Bool := false
deriving DecidableEq, Repr

/-- Per-condition start states: the "normal" and the "BOL" entry point. -/
structure CondStart where
  normal : Nat
  bol : Nat
deriving DecidableEq, Repr

/-- One entry point of a condition. -/
def CondStart.entry (cs : CondStart) (bol : Bool) : Nat := if bol then cs.bol else cs.normal

/-- The automaton shared by all rules.  Index 0 of the per-condition vectors is
`INITIAL`. -/
structure NFA where
  states : List NFAState := []
  condStarts : List CondStart := []
  condNames : List String := []
  condExcl : List Bool := []
  ruleBol : List Bool := []
  ruleEol : List Bool := []
  ruleTrail : List Int := []
  eofRules : List (List Nat) := []
  ruleBoundaryStates : List (List Nat) := []
deriving DecidableEq, Repr

/-- The states between which a compiled tree is read. -/
structure Frag where
  s : Nat
  e : Nat
deriving DecidableEq, Repr

/-- Whether the edge can be taken silently, or by reading a byte. -/
def NFAEdge.fires (e : NFAEdge) : Option Byte → Bool
  | none => e.on.empty
  | some b => !e.on.empty && e.on.test b

theorem NFAEdge.fires_some (e : NFAEdge) (b : Byte) : e.fires (some b) = e.on.test b := by
  cases h : e.on.test b with
  | false => simp [fires, h]
  | true => simp [fires, h, ByteSet.empty_eq_false_of_test h]

/-- Every edge can be taken somehow. -/
theorem NFAEdge.exists_fires (e : NFAEdge) : ∃ l, e.fires l = true := by
  cases h : e.on.empty with
  | true => exact ⟨none, h⟩
  | false =>
      by_contra hno
      rw [not_exists] at hno
      have : e.on.empty = true := ByteSet.empty_iff.2 fun b ↦ by
        have := hno (some b)
        rwa [fires_some, Bool.not_eq_true] at this
      rw [h] at this
      cases this

/-- The words an edge reads are those of its label. -/
theorem NFAEdge.mem_edgeLang_iff (e : NFAEdge) {w : List Byte} :
    w ∈ e.on.edgeLang ↔ ∃ l : Option Byte, w = l.toList ∧ e.fires l = true := by
  rw [Option.exists]
  cases h : e.on.empty with
  | true =>
      have hno : ∀ b, e.on.test b = false := ByteSet.empty_iff.1 h
      simp [ByteSet.edgeLang, h, fires, Language.mem_one]
  | false =>
      rw [ByteSet.edgeLang_of_nonempty h, ByteSet.mem_lang]
      simp [fires, h, and_comm]

namespace NFA

def state (nfa : NFA) (i : Nat) : NFAState := nfa.states.getD i {}

/-- The edges of the NFA as an ε-automaton over state ids. -/
def auto (nfa : NFA) : εNFA Byte Nat where
  step p l := {q | ∃ e ∈ (nfa.state p).out, e.target = q ∧ e.fires l = true}
  start := ∅
  accept := ∅

theorem mem_auto_step {nfa : NFA} {p q : Nat} {l : Option Byte} :
    q ∈ nfa.auto.step p l ↔ ∃ e ∈ (nfa.state p).out, e.target = q ∧ e.fires l = true := Iff.rfl

/-- A state beyond the vector has no edges. -/
theorem state_eq_default {nfa : NFA} {i : Nat} (h : nfa.states.length ≤ i) :
    nfa.state i = {} := by
  simp [state, List.getElem?_eq_none h]

theorem exists_target_mem_step {nfa : NFA} {p : Nat} {e : NFAEdge} (he : e ∈ (nfa.state p).out) :
    ∃ l, e.target ∈ nfa.auto.step p l := by
  obtain ⟨l, hl⟩ := e.exists_fires
  exact ⟨l, e, he, rfl, hl⟩

theorem step_eq_empty {nfa : NFA} {i : Nat} (h : nfa.state i = {}) (l : Option Byte) :
    nfa.auto.step i l = ∅ := by
  ext y
  simp [mem_auto_step, h]

/-! ## Updates -/

def newState (nfa : NFA) : Nat × NFA :=
  (nfa.states.length, { nfa with states := nfa.states ++ [{}] })

theorem modify_append_right {α : Type*} (f : α → α) (l l' : List α) (k : Nat) :
    (l ++ l').modify (l.length + k) f = l ++ l'.modify k f :=
  List.modifyTailIdx_add (List.modifyHead f) k l l'

/-- Append an edge to the edges of state `p`. -/
def pushEdge (nfa : NFA) (p : Nat) (e : NFAEdge) : NFA :=
  { nfa with states := nfa.states.modify p fun st ↦ { st with out := st.out ++ [e] } }

def addEps (nfa : NFA) (p q : Nat) : NFA := nfa.pushEdge p { target := q }

def addClass (nfa : NFA) (p q : Nat) (on : ByteSet) : NFA := nfa.pushEdge p { target := q, on := on }

@[simp] theorem newState_fst (nfa : NFA) : nfa.newState.1 = nfa.states.length := rfl

@[simp] theorem length_newState (nfa : NFA) :
    nfa.newState.2.states.length = nfa.states.length + 1 := by
  simp [newState]

@[simp] theorem state_newState (nfa : NFA) (i : Nat) : nfa.newState.2.state i = nfa.state i := by
  rcases Nat.lt_trichotomy i nfa.states.length with h | rfl | h
  · simp [state, newState, List.getElem?_append_left h]
  · simp [state, newState]
  · rw [state_eq_default h.le, state_eq_default (by rw [length_newState]; exact h)]

/-- A new state has no edges and receives none. -/
@[simp] theorem auto_newState (nfa : NFA) : nfa.newState.2.auto = nfa.auto := by
  simp [auto]

@[simp] theorem length_pushEdge (nfa : NFA) (p : Nat) (e : NFAEdge) :
    (nfa.pushEdge p e).states.length = nfa.states.length := by simp [pushEdge]

theorem state_pushEdge (nfa : NFA) {p : Nat} (e : NFAEdge) (hp : p < nfa.states.length) (i : Nat) :
    (nfa.pushEdge p e).state i =
      if p = i then { nfa.state i with out := (nfa.state i).out ++ [e] } else nfa.state i := by
  by_cases h : p = i
  · subst h
    simp [state, pushEdge, hp]
  · simp [state, pushEdge, h]

theorem mem_step_pushEdge (nfa : NFA) {p : Nat} (e : NFAEdge) (hp : p < nfa.states.length)
    {x y : Nat} {l : Option Byte} : y ∈ (nfa.pushEdge p e).auto.step x l ↔
      y ∈ nfa.auto.step x l ∨ (e.fires l = true ∧ x = p ∧ y = e.target) := by
  rw [mem_auto_step, mem_auto_step, state_pushEdge nfa e hp]
  by_cases h : p = x
  · subst h
    simp only [if_true, List.mem_append, List.mem_singleton, or_and_right, exists_or,
      exists_eq_left, true_and]
    exact or_congr_right ⟨fun ⟨h₁, h₂⟩ ↦ ⟨h₂, h₁.symm⟩, fun ⟨h₁, h₂⟩ ↦ ⟨h₂.symm, h₁⟩⟩
  · simp [h, Ne.symm h]

/-! ## Batches of ε-edges -/

/-- Add the ε-edges of a list in order. -/
def addEpsAll (nfa : NFA) (es : List (Nat × Nat)) : NFA :=
  es.foldl (fun nfa e ↦ nfa.addEps e.1 e.2) nfa

@[simp] theorem length_addEpsAll (nfa : NFA) (es : List (Nat × Nat)) :
    (nfa.addEpsAll es).states.length = nfa.states.length := by
  induction es generalizing nfa with
  | nil => rfl
  | cons e es ih => exact (ih (nfa.addEps e.1 e.2)).trans (length_pushEdge _ _ _)

/-- ε-edges change nothing but the states. -/
theorem addEpsAll_eq (nfa : NFA) (es : List (Nat × Nat)) :
    nfa.addEpsAll es = { nfa with states := (nfa.addEpsAll es).states } := by
  induction es generalizing nfa with
  | nil => rfl
  | cons e es ih => exact ih (nfa.addEps e.1 e.2)

theorem condStarts_addEpsAll (nfa : NFA) (es : List (Nat × Nat)) :
    (nfa.addEpsAll es).condStarts = nfa.condStarts := by rw [addEpsAll_eq]

theorem condExcl_addEpsAll (nfa : NFA) (es : List (Nat × Nat)) :
    (nfa.addEpsAll es).condExcl = nfa.condExcl := by rw [addEpsAll_eq]

theorem ruleEol_addEpsAll (nfa : NFA) (es : List (Nat × Nat)) :
    (nfa.addEpsAll es).ruleEol = nfa.ruleEol := by rw [addEpsAll_eq]

theorem ruleTrail_addEpsAll (nfa : NFA) (es : List (Nat × Nat)) :
    (nfa.addEpsAll es).ruleTrail = nfa.ruleTrail := by rw [addEpsAll_eq]

theorem ruleBoundaryStates_addEpsAll (nfa : NFA) (es : List (Nat × Nat)) :
    (nfa.addEpsAll es).ruleBoundaryStates = nfa.ruleBoundaryStates := by rw [addEpsAll_eq]

theorem mem_step_addEpsAll (nfa : NFA) (es : List (Nat × Nat))
    (hes : ∀ e ∈ es, e.1 < nfa.states.length) {x y : Nat} {l : Option Byte} :
    y ∈ (nfa.addEpsAll es).auto.step x l ↔
      y ∈ nfa.auto.step x l ∨ (l = none ∧ (x, y) ∈ es) := by
  induction es generalizing nfa with
  | nil => simp [addEpsAll]
  | cons e es ih =>
      have hlen : (nfa.addEps e.1 e.2).states.length = nfa.states.length := length_pushEdge _ _ _
      have hfire : ∀ l, NFAEdge.fires { target := e.2 } l = true ↔ l = none := by
        intro l
        cases l <;> simp [NFAEdge.fires, ByteSet.empty]
      have hstep := mem_step_pushEdge (x := x) (y := y) (l := l) nfa { target := e.2 }
        (hes e (by simp))
      rw [hfire] at hstep
      change y ∈ ((nfa.addEps e.1 e.2).addEpsAll es).auto.step x l ↔ _
      rw [ih (nfa.addEps e.1 e.2) (fun e he ↦ hlen ▸ hes e (by simp [he]))]
      change (y ∈ (nfa.pushEdge e.1 { target := e.2 }).auto.step x l ∨ _) ↔ _
      rw [hstep, List.mem_cons, Prod.ext_iff]
      simp only [and_or_left, or_assoc]

/-- ε-edges change neither accepts nor markers. -/
theorem state_addEpsAll (nfa : NFA) (es : List (Nat × Nat))
    (hes : ∀ e ∈ es, e.1 < nfa.states.length) (i : Nat) :
    ((nfa.addEpsAll es).state i).acceptRule = (nfa.state i).acceptRule ∧
      ((nfa.addEpsAll es).state i).isBoundary = (nfa.state i).isBoundary := by
  induction es generalizing nfa with
  | nil => exact ⟨rfl, rfl⟩
  | cons e es ih =>
      have hlen : (nfa.addEps e.1 e.2).states.length = nfa.states.length := length_pushEdge _ _ _
      have := ih (nfa.addEps e.1 e.2) (fun e he ↦ hlen ▸ hes e (by simp [he]))
      refine ⟨this.1.trans ?_, this.2.trans ?_⟩ <;>
        · rw [addEps, state_pushEdge nfa _ (hes e (by simp))]
          split_ifs <;> rfl

/-! ## Growth -/

/-- `nfa'` is `nfa` with new states behind the old ones and nothing else changed. -/
def Extends (nfa nfa' : NFA) : Prop := ∃ new, nfa' = { nfa with states := nfa.states ++ new }

namespace Extends

variable {nfa nfa' nfa'' : NFA}

theorem refl (nfa : NFA) : nfa.Extends nfa := ⟨[], by simp⟩

theorem trans (h : nfa.Extends nfa') (h' : nfa'.Extends nfa'') : nfa.Extends nfa'' := by
  obtain ⟨new, rfl⟩ := h
  obtain ⟨new', rfl⟩ := h'
  exact ⟨new ++ new', by simp⟩

theorem condStarts_eq (h : nfa.Extends nfa') : nfa'.condStarts = nfa.condStarts := by
  obtain ⟨new, rfl⟩ := h
  rfl

theorem condExcl_eq (h : nfa.Extends nfa') : nfa'.condExcl = nfa.condExcl := by
  obtain ⟨new, rfl⟩ := h
  rfl

theorem ruleBol_eq (h : nfa.Extends nfa') : nfa'.ruleBol = nfa.ruleBol := by
  obtain ⟨new, rfl⟩ := h
  rfl

theorem ruleEol_eq (h : nfa.Extends nfa') : nfa'.ruleEol = nfa.ruleEol := by
  obtain ⟨new, rfl⟩ := h
  rfl

theorem ruleTrail_eq (h : nfa.Extends nfa') : nfa'.ruleTrail = nfa.ruleTrail := by
  obtain ⟨new, rfl⟩ := h
  rfl

theorem ruleBoundaryStates_eq (h : nfa.Extends nfa') :
    nfa'.ruleBoundaryStates = nfa.ruleBoundaryStates := by
  obtain ⟨new, rfl⟩ := h
  rfl

theorem length_le (h : nfa.Extends nfa') : nfa.states.length ≤ nfa'.states.length := by
  obtain ⟨new, rfl⟩ := h
  simp

theorem state_eq (h : nfa.Extends nfa') {i : Nat} (hi : i < nfa.states.length) :
    nfa'.state i = nfa.state i := by
  obtain ⟨new, rfl⟩ := h
  simp [state, List.getElem?_append_left hi]

theorem step_eq (h : nfa.Extends nfa') {i : Nat} (hi : i < nfa.states.length) (l : Option Byte) :
    nfa'.auto.step i l = nfa.auto.step i l := by
  simp only [auto, h.state_eq hi]

theorem newState (h : nfa.Extends nfa') : nfa.Extends nfa'.newState.2 := by
  obtain ⟨new, rfl⟩ := h
  exact ⟨new ++ [({} : NFAState)], by simp [NFA.newState]⟩

/-- Edges out of new states leave the old ones alone. -/
theorem pushEdge (h : nfa.Extends nfa') {p : Nat} (hp : nfa.states.length ≤ p) (e : NFAEdge) :
    nfa.Extends (nfa'.pushEdge p e) := by
  obtain ⟨new, rfl⟩ := h
  obtain ⟨k, rfl⟩ := Nat.exists_eq_add_of_le hp
  exact ⟨new.modify k fun st ↦ { st with out := st.out ++ [e] }, by
    simp only [NFA.pushEdge, modify_append_right]⟩

theorem addEpsAll (h : nfa.Extends nfa') {es : List (Nat × Nat)}
    (hes : ∀ e ∈ es, nfa.states.length ≤ e.1) : nfa.Extends (nfa'.addEpsAll es) := by
  induction es generalizing nfa' with
  | nil => exact h
  | cons e es ih =>
      exact ih (h.pushEdge (hes e (by simp)) _) (fun e he ↦ hes e (by simp [he]))

end Extends

/-- Every edge and every start state points into the state vector. -/
structure InRange (nfa : NFA) : Prop where
  edges : ∀ st ∈ nfa.states, ∀ e ∈ st.out, e.target < nfa.states.length
  starts : ∀ c ∈ nfa.condStarts, c.normal < nfa.states.length ∧ c.bol < nfa.states.length

theorem InRange.of_step {nfa : NFA}
    (h : ∀ p l, ∀ q ∈ nfa.auto.step p l, q < nfa.states.length)
    (hs : ∀ c ∈ nfa.condStarts, c.normal < nfa.states.length ∧ c.bol < nfa.states.length) :
    nfa.InRange := by
  refine ⟨fun st hst e he ↦ ?_, hs⟩
  obtain ⟨p, hp⟩ := List.mem_iff_getElem?.1 hst
  have hstate : nfa.state p = st := by simp [state, hp]
  obtain ⟨l, hl⟩ := exists_target_mem_step (hstate ▸ he)
  exact h p l _ hl

theorem InRange.lt_of_mem_step {nfa : NFA} (h : nfa.InRange) {p q : Nat} {l : Option Byte}
    (hq : q ∈ nfa.auto.step p l) : q < nfa.states.length := by
  obtain ⟨e, he, rfl, -⟩ := mem_auto_step.1 hq
  rcases Nat.lt_or_ge p nfa.states.length with hp | hp
  · refine h.edges (nfa.state p) ?_ e he
    simp [state, List.getElem?_eq_getElem hp]
  · simp [state_eq_default hp] at he

/-- The states of an automaton in range form a closed region. -/
theorem InRange.closed {nfa : NFA} (h : nfa.InRange) :
    nfa.auto.Closed (Set.Iio nfa.states.length) := fun _ _ _ _ hy ↦ h.lt_of_mem_step hy

theorem InRange.entry_lt {nfa : NFA} (h : nfa.InRange) {c : Nat} {cs : CondStart}
    (hc : nfa.condStarts[c]? = some cs) (b : Bool) : cs.entry b < nfa.states.length := by
  have := h.starts cs (List.mem_of_getElem? hc)
  cases b
  · exact this.1
  · exact this.2

end NFA

end LexCpp
