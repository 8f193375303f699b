import LexCpp.Dfa.Closure
import LexCpp.Dfa.Eclass

/-!
# Subset construction

`build_dfa` and `compute_meta_classes` of `dfa.cpp`.

State 0 is the dead state; state `i + 1` stands for the `i`-th set of NFA states that
was met, `idToSet[i]`.  `BuildInv` says how the state vector, the hash index and the
list of sets hang together, with rows that are filled in lazily: an entry of a row is
`-1` until the row's turn comes, and every state is either done or still queued.
-/

namespace LexCpp

structure DFAState where
  next : List Int
  acceptNormal : Int := -1
  acceptEol : Int := -1
  acceptList : List Int := []
  boundaryRules : List Int := []
deriving DecidableEq, Repr

structure DFAStart where
  normal : Nat
  bol : Nat
deriving DecidableEq, Repr

structure DFA where
  states : List DFAState
  condStarts : List DFAStart
  eclasses : Eclasses
  nclasses : Nat
  metaIds : List Nat := []
  nmeta : Nat := 0
deriving DecidableEq, Repr

/-- One entry point of a condition. -/
def DFAStart.entry (s : DFAStart) (bol : Bool) : Nat := if bol then s.bol else s.normal

/-! ## Construction -/

/-- The locals of `build_dfa`.  The hash map is an association list. -/
structure DfaBuild where
  states : List DFAState
  index : List (StateSet × Nat) := []
  idToSet : List StateSet := []
  work : List Nat := []
  condStarts : List DFAStart := []

namespace DfaBuild

/-- The `get_state` lambda. -/
def getState (nfa : NFA) (nclasses : Nat) (set : StateSet) (b : DfaBuild) : Nat × DfaBuild :=
  match b.index.lookup set with
  | some id => (id, b)
  | none =>
      let id := b.states.length
      let ap := nfa.acceptFor set
      let s : DFAState :=
        { next := List.replicate nclasses (-1)
          acceptNormal := ap.normal
          acceptEol := ap.eol
          acceptList := ap.list
          boundaryRules := ap.boundary }
      (id, { b with
        states := b.states ++ [s]
        idToSet := b.idToSet ++ [set]
        index := (set, id) :: b.index })

/-- Seed the queue with the two starts of a condition. -/
def seedCond (nfa : NFA) (nclasses : Nat) (b : DfaBuild) (cs : CondStart) : Option DfaBuild := do
  let nSet ← nfa.epsClosure [cs.normal]
  let bSet ← nfa.epsClosure [cs.bol]
  let (nId, b) := getState nfa nclasses nSet b
  let (bId, b) := getState nfa nclasses bSet b
  return { b with condStarts := b.condStarts ++ [⟨nId, bId⟩], work := b.work ++ [nId, bId] }

/-- The state for a set met while filling a row; a new one is queued. -/
def getTarget (nfa : NFA) (nclasses : Nat) (n : StateSet) (b : DfaBuild) : Nat × DfaBuild :=
  match b.index.lookup n with
  | some target => (target, b)
  | none =>
      let (target, b) := getState nfa nclasses n b
      (target, { b with work := b.work ++ [target] })

/-- Fill in one entry of the row of state `id`, which stands for the set `cur`. -/
def fillClass (nfa : NFA) (nclasses : Nat) (reps : List Nat) (id : Nat) (cur : StateSet)
    (b : DfaBuild) (cl : Nat) : Option DfaBuild :=
  if h : reps.getD cl 0 < 256 then do
    let n ← nfa.step cur ⟨reps.getD cl 0, h⟩
    if n.isEmpty then return b
    else
      let (target, b) := getTarget nfa nclasses n b
      return { b with
        states := b.states.modify id fun st ↦ { st with next := st.next.set cl target } }
  else return b

/-- The set a state id stands for; the index `id - 1` of the dead state wraps around and
is out of bounds. -/
def setOf (b : DfaBuild) : Nat → Option StateSet
  | 0 => none
  | i + 1 => b.idToSet[i]?

/-- Pop a state and fill in its row. -/
def workBody (nfa : NFA) (nclasses : Nat) (reps : List Nat) (b : DfaBuild) : Option DfaBuild :=
  match b.work with
  | [] => none
  | id :: work =>
      let b := { b with work := work }
      match b.setOf id with
      | none => some b
      | some cur => (List.range nclasses).foldlM (fillClass nfa nclasses reps id cur) b

end DfaBuild

/-- The dead state. -/
def deadState (nclasses : Nat) : DFAState := { next := List.replicate nclasses (-1) }

/-- Classes with equal columns share a meta class: the id of the first such class, in
the order in which new columns turn up. -/
def computeMetaClasses (states : List DFAState) (nclasses : Nat) : List Nat × Nat :=
  let col := fun c ↦ states.map fun st ↦ st.next.getD c (-1)
  let (ids, seen) := (List.range nclasses).foldl (fun (acc : List Nat × List (List Int)) c ↦
    match acc.2.findIdx? (· == col c) with
    | some id => (acc.1 ++ [toUInt8 id], acc.2)
    | none => (acc.1 ++ [toUInt8 acc.2.length], acc.2 ++ [col c])) ([], [])
  (ids, seen.length)

/-- Enough rounds for every queue: two starts for each condition and one round for each
set of states. -/
def buildFuel (nfa : NFA) : Nat := 2 * nfa.condStarts.length + 2 ^ nfa.states.length + 1

/-- The byte classes of the DFA: refined ones, or every byte for itself. -/
def dfaEclasses (nfa : NFA) (useEclasses : Bool) : Option Eclasses :=
  if useEclasses then computeEclasses nfa else some Eclasses.identityEclasses

def buildDfa (nfa : NFA) (useEclasses computeMeta : Bool) : Option DFA := do
  let ec ← dfaEclasses nfa useEclasses
  let reps := classReps ec
  let b ← nfa.condStarts.foldlM (DfaBuild.seedCond nfa ec.nclasses)
    { states := [deadState ec.nclasses] }
  let b ← whileFuel (fun b ↦ !b.work.isEmpty) (DfaBuild.workBody nfa ec.nclasses reps)
    (buildFuel nfa) b
  let ids := if computeMeta then computeMetaClasses b.states ec.nclasses else ([], 0)
  return { states := b.states, condStarts := b.condStarts, eclasses := ec, nclasses := ec.nclasses,
           metaIds := ids.1, nmeta := ids.2 }

/-! ## The invariant -/

namespace DfaBuild

section Invariant

variable {nfa : NFA} {nclasses : Nat} {succ : StateSet → Nat → StateSet} {b b' : DfaBuild}

/-- The entry that a set calls for: dead, or the state of that set. -/
def Points (idToSet : List StateSet) (n : StateSet) (t : Int) : Prop :=
  (n = [] ∧ t = -1) ∨ (n ≠ [] ∧ ∃ i : Nat, idToSet[i]? = some n ∧ t = i + 1)

/-- A set that the construction may meet. -/
structure GoodSet (nfa : NFA) (set : StateSet) : Prop where
  sorted : set.SortedLT
  lt : ∀ p ∈ set, p < nfa.states.length
  ne_nil : set ≠ []

/-- How the state of a set looks: its accepts, and a row with entries that are right or
not yet filled in. -/
structure RowInv (nfa : NFA) (nclasses : Nat) (succ : StateSet → Nat → StateSet)
    (idToSet : List StateSet) (set : StateSet) (st : DFAState) : Prop where
  accept : (⟨st.acceptNormal, st.acceptEol, st.acceptList, st.boundaryRules⟩ : AcceptPair) =
    nfa.acceptFor set
  length_next : st.next.length = nclasses
  entry : ∀ cl < nclasses, st.next.getD cl (-1) = -1 ∨
    Points idToSet (succ set cl) (st.next.getD cl (-1))

/-- What the construction keeps. -/
structure BuildInv (nfa : NFA) (nclasses : Nat) (succ : StateSet → Nat → StateSet)
    (b : DfaBuild) : Prop where
  length_states : b.states.length = b.idToSet.length + 1
  head_states : b.states[0]? = some (deadState nclasses)
  index_iff : ∀ set id, b.index.lookup set = some id ↔ ∃ i, b.idToSet[i]? = some set ∧ id = i + 1
  nodup : b.idToSet.Nodup
  good : ∀ set ∈ b.idToSet, GoodSet nfa set
  row : ∀ i set, b.idToSet[i]? = some set →
    ∃ st, b.states[i + 1]? = some st ∧ RowInv nfa nclasses succ b.idToSet set st
  work_mem : ∀ id ∈ b.work, ∃ i set, id = i + 1 ∧ b.idToSet[i]? = some set

/-- The entries of state `i + 1` for the classes below `k` are filled in. -/
def FilledTo (succ : StateSet → Nat → StateSet) (k : Nat) (b : DfaBuild) (i : Nat) : Prop :=
  ∀ set st, b.idToSet[i]? = some set → b.states[i + 1]? = some st → ∀ cl < k,
    Points b.idToSet (succ set cl) (st.next.getD cl (-1))

theorem getElem?_mono {α : Type*} {l l' : List α} (h : l <+: l') {i : Nat} {x : α}
    (hx : l[i]? = some x) : l'[i]? = some x := by
  obtain ⟨m, rfl⟩ := h
  rw [List.getElem?_append_left (List.getElem?_eq_some_iff.1 hx).1, hx]

theorem Points.mono {l l' : List StateSet} (h : l <+: l') {n : StateSet} {t : Int}
    (hp : Points l n t) : Points l' n t :=
  hp.imp_right fun ⟨hn, i, hi, ht⟩ ↦ ⟨hn, i, getElem?_mono h hi, ht⟩

theorem RowInv.mono {l l' : List StateSet} (h : l <+: l') {set : StateSet} {st : DFAState}
    (hr : RowInv nfa nclasses succ l set st) : RowInv nfa nclasses succ l' set st :=
  ⟨hr.accept, hr.length_next, fun cl hcl ↦ (hr.entry cl hcl).imp_right (Points.mono h)⟩

/-! ### `get_state` -/

/-- What `get_state` returns: the id of the set, in a construction that has at most
gained that one set. -/
structure GotState (b b' : DfaBuild) (set : StateSet) (id : Nat) : Prop where
  idToSet : b.idToSet <+: b'.idToSet
  mem : ∃ i, id = i + 1 ∧ b'.idToSet[i]? = some set
  states : b.states <+: b'.states
  work : b'.work = b.work
  condStarts : b'.condStarts = b.condStarts
  length_le : b'.idToSet.length ≤ b.idToSet.length + 1
  fresh : ∀ i, b.idToSet.length ≤ i → i < b'.idToSet.length → id = i + 1

theorem BuildInv.lookup_eq_none (h : BuildInv nfa nclasses succ b) {set : StateSet}
    (hl : b.index.lookup set = none) : set ∉ b.idToSet := fun hmem ↦ by
  obtain ⟨i, hi⟩ := List.mem_iff_getElem?.1 hmem
  have := (h.index_iff set (i + 1)).2 ⟨i, hi, rfl⟩
  rw [hl] at this
  cases this

theorem BuildInv.getState (h : BuildInv nfa nclasses succ b) {set : StateSet}
    (hset : GoodSet nfa set) :
    BuildInv nfa nclasses succ (DfaBuild.getState nfa nclasses set b).2 ∧
      GotState b (DfaBuild.getState nfa nclasses set b).2 set
        (DfaBuild.getState nfa nclasses set b).1 := by
  unfold DfaBuild.getState
  cases hl : b.index.lookup set with
  | some id =>
      obtain ⟨i, hi, rfl⟩ := (h.index_iff set id).1 hl
      exact ⟨h, List.prefix_refl _, ⟨i, rfl, hi⟩, List.prefix_refl _, rfl, rfl, Nat.le_succ _,
        fun j hj hj' ↦ absurd hj (Nat.not_le.2 hj')⟩
  | none =>
      have hnew := h.lookup_eq_none hl
      have hpre : b.idToSet <+: b.idToSet ++ [set] := List.prefix_append _ _
      have hlen : (b.idToSet ++ [set]).length = b.idToSet.length + 1 := by simp
      have hget : ∀ i set', (b.idToSet ++ [set])[i]? = some set' ↔
          b.idToSet[i]? = some set' ∨ (i = b.idToSet.length ∧ set' = set) := fun i set' ↦ by
        rw [List.getElem?_append]
        split_ifs with hi
        · simp only [iff_self_or]
          omega
        · rw [List.getElem?_eq_none (Nat.le_of_not_lt hi), List.getElem?_singleton]
          by_cases hi' : i = b.idToSet.length
          · simp [hi', eq_comm]
          · rw [if_neg (by omega)]
            simp [hi']
      refine ⟨⟨?_, ?_, fun set' id ↦ ?_, ?_, ?_, fun i set' hi ↦ ?_, fun id hid ↦ ?_⟩,
        hpre, ⟨b.idToSet.length, h.length_states, (hget _ _).2 (Or.inr ⟨rfl, rfl⟩)⟩,
        List.prefix_append _ _, rfl, rfl, hlen.le, fun i hi hi' ↦ ?_⟩
      · simp [h.length_states]
      · exact getElem?_mono (List.prefix_append _ _) h.head_states
      · simp only [List.lookup_cons, hget, h.length_states]
        by_cases hs : set' = set
        · subst hs
          simp only [BEq.rfl, and_true, Option.some.injEq]
          constructor
          · rintro rfl
            exact ⟨_, Or.inr rfl, rfl⟩
          · rintro ⟨i, hi | rfl, rfl⟩
            · exact absurd (List.mem_of_getElem? hi) hnew
            · rfl
        · rw [beq_eq_false_iff_ne.2 hs]
          simp only [hs, and_false, or_false]
          exact h.index_iff set' id
      · exact List.nodup_append.2 ⟨h.nodup, List.nodup_singleton _, by
          rintro x hx y hy rfl
          exact hnew (List.mem_singleton.1 hy ▸ hx)⟩
      · intro set' hs
        rcases List.mem_append.1 hs with hs | hs
        · exact h.good set' hs
        · exact List.mem_singleton.1 hs ▸ hset
      · rcases (hget i set').1 hi with hi | ⟨rfl, rfl⟩
        · obtain ⟨st, hst, hrow⟩ := h.row i set' hi
          exact ⟨st, getElem?_mono (List.prefix_append _ _) hst, hrow.mono hpre⟩
        · refine ⟨_, by rw [← h.length_states]; exact List.getElem?_concat_length,
            ⟨rfl, List.length_replicate, fun cl _ ↦ Or.inl ?_⟩⟩
          rw [List.getD_eq_getElem?_getD, List.getElem?_getD_replicate_default_eq]
      · obtain ⟨i, set', rfl, hi⟩ := h.work_mem id hid
        exact ⟨i, set', rfl, getElem?_mono hpre hi⟩
      · change b.states.length = i + 1
        have := h.length_states
        rw [hlen] at hi'
        omega

theorem length_getState {set : StateSet}
    (hl : b.index.lookup set = none) :
    (DfaBuild.getState nfa nclasses set b).2.idToSet.length = b.idToSet.length + 1 := by
  rw [DfaBuild.getState, hl]
  simp

/-! ### Rows -/

/-- How far a step takes the construction: sets and queue grow at their ends, new states
are queued, and what has been filled in stays. -/
structure Grows (succ : StateSet → Nat → StateSet) (b b' : DfaBuild) : Prop where
  idToSet : b.idToSet <+: b'.idToSet
  condStarts : b'.condStarts = b.condStarts
  work : b.work <+: b'.work
  measure : b'.work.length + b.idToSet.length ≤ b'.idToSet.length + b.work.length
  fresh : ∀ i, b.idToSet.length ≤ i → i < b'.idToSet.length → i + 1 ∈ b'.work
  filled : ∀ i < b.idToSet.length, ∀ k, FilledTo succ k b i → FilledTo succ k b' i

theorem Grows.refl (b : DfaBuild) : Grows succ b b :=
  ⟨List.prefix_refl _, rfl, List.prefix_refl _, by omega, fun i h h' ↦ by omega, fun _ _ _ h ↦ h⟩

theorem Grows.trans {b'' : DfaBuild} (h : Grows succ b b') (h' : Grows succ b' b'') :
    Grows succ b b'' := by
  refine ⟨h.idToSet.trans h'.idToSet, h'.condStarts.trans h.condStarts, h.work.trans h'.work, ?_,
    fun i hi hi' ↦ ?_, fun i hi k hk ↦ ?_⟩
  · have := h.measure
    have := h'.measure
    omega
  · rcases Nat.lt_or_ge i b'.idToSet.length with hi'' | hi''
    · exact h'.work.subset (h.fresh i hi hi'')
    · exact h'.fresh i hi'' hi'
  · exact h'.filled i (Nat.lt_of_lt_of_le hi h.idToSet.length_le) k (h.filled i hi k hk)

/-- States that stay where they are keep what has been filled in. -/
theorem FilledTo.mono {k i : Nat} (hi : i < b.idToSet.length)
    (hlen : b.states.length = b.idToSet.length + 1) (hs : b.idToSet <+: b'.idToSet)
    (hst : b.states <+: b'.states) (h : FilledTo succ k b i) : FilledTo succ k b' i := by
  intro set st hset hstate cl hcl
  have hset' := List.getElem?_eq_getElem hi
  have hstate' := List.getElem?_eq_getElem (l := b.states) (i := i + 1) (by omega)
  have h₁ := getElem?_mono hs hset'
  have h₂ := getElem?_mono hst hstate'
  rw [hset] at h₁
  rw [hstate] at h₂
  cases h₁
  cases h₂
  exact (h _ _ hset' hstate' cl hcl).mono hs

theorem BuildInv.getTarget (h : BuildInv nfa nclasses succ b) {n : StateSet}
    (hn : GoodSet nfa n) :
    BuildInv nfa nclasses succ (DfaBuild.getTarget nfa nclasses n b).2 ∧
      Grows succ b (DfaBuild.getTarget nfa nclasses n b).2 ∧
      ∃ i, (DfaBuild.getTarget nfa nclasses n b).1 = i + 1 ∧
        (DfaBuild.getTarget nfa nclasses n b).2.idToSet[i]? = some n := by
  unfold DfaBuild.getTarget
  cases hl : b.index.lookup n with
  | some target =>
      obtain ⟨i, hi, rfl⟩ := (h.index_iff n target).1 hl
      exact ⟨h, Grows.refl b, i, rfl, hi⟩
  | none =>
      obtain ⟨hinv, hgot⟩ := h.getState hn
      have hlen : (DfaBuild.getState nfa nclasses n b).2.idToSet.length = b.idToSet.length + 1 :=
        length_getState hl
      obtain ⟨i, hid, hi⟩ := hgot.mem
      refine ⟨⟨hinv.length_states, hinv.head_states, hinv.index_iff, hinv.nodup, hinv.good, hinv.row,
        fun id hmem ↦ ?_⟩, ⟨hgot.idToSet, hgot.condStarts, ?_, ?_, fun j hj hj' ↦ ?_,
        fun j hj k hk ↦ FilledTo.mono (b := b) hj h.length_states hgot.idToSet hgot.states hk⟩,
        i, hid, hi⟩
      · rcases List.mem_append.1 hmem with hmem | hmem
        · exact hinv.work_mem id hmem
        · exact ⟨i, n, (List.mem_singleton.1 hmem).trans hid, hi⟩
      · rw [← hgot.work]
        exact List.prefix_append _ _
      · simp only [hgot.work, hlen, List.length_append, List.length_singleton]
        omega
      · rw [List.mem_append, List.mem_singleton]
        exact Or.inr (hgot.fresh j hj hj').symm

/-- What the class representatives and `step` compute. -/
structure SuccSpec (nfa : NFA) (nclasses : Nat) (reps : List Nat)
    (succ : StateSet → Nat → StateSet) : Prop where
  step : ∀ set, GoodSet nfa set → ∀ cl < nclasses, ∃ h : reps.getD cl 0 < 256,
    nfa.step set ⟨reps.getD cl 0, h⟩ = some (succ set cl)
  good : ∀ set, GoodSet nfa set → ∀ cl < nclasses, succ set cl ≠ [] → GoodSet nfa (succ set cl)

/-- The state vector after one entry has been set. -/
theorem getElem?_setEntry (states : List DFAState) (id cl : Nat) (t : Int) (j : Nat) :
    (states.modify id fun st ↦ { st with next := st.next.set cl t })[j]? =
      (states[j]?).map fun st ↦ if id = j then { st with next := st.next.set cl t } else st := by
  rw [List.getElem?_modify]
  by_cases h : id = j <;> simp [h]

/-- Setting an entry to what it calls for. -/
theorem BuildInv.setEntry (h : BuildInv nfa nclasses succ b) {i cl : Nat} {cur : StateSet}
    (hcur : b.idToSet[i]? = some cur) (hcl : cl < nclasses) {t : Int}
    (ht : Points b.idToSet (succ cur cl) t) :
    let b' : DfaBuild := { b with
      states := b.states.modify (i + 1) fun st ↦ { st with next := st.next.set cl t } }
    BuildInv nfa nclasses succ b' ∧ Grows succ b b' ∧
      (FilledTo succ cl b i → FilledTo succ (cl + 1) b' i) := by
  intro b'
  have hentry : ∀ st : DFAState, st.next.length = nclasses → ∀ cl',
      (st.next.set cl t).getD cl' (-1) = if cl' = cl then t else st.next.getD cl' (-1) := by
    intro st hlen cl'
    exact Eclasses.getD_set_eq st.next (hlen ▸ hcl) t cl'
  have hstates : ∀ j, b'.states[j]? = (b.states[j]?).map fun st ↦
      if i + 1 = j then { st with next := st.next.set cl t } else st :=
    getElem?_setEntry b.states (i + 1) cl t
  refine ⟨⟨?_, ?_, h.index_iff, h.nodup, h.good, fun j set hj ↦ ?_, h.work_mem⟩,
    ⟨List.prefix_refl _, rfl, List.prefix_refl _, (Nat.add_comm _ _).le,
      fun j hj hj' ↦ absurd hj (Nat.not_le.2 hj'), fun j hj k hk set st hset hst cl' hcl' ↦ ?_⟩, fun hk set st hset hst cl' hcl' ↦ ?_⟩
  · simp only [b', List.length_modify, h.length_states]
  · rw [hstates, h.head_states]
    rfl
  · obtain ⟨st, hst, hrow⟩ := h.row j set hj
    refine ⟨_, by rw [hstates, hst, Option.map_some], ?_⟩
    split_ifs with hij
    · obtain rfl : i = j := by omega
      obtain rfl : cur = set := by rw [hcur] at hj; exact Option.some.inj hj
      refine ⟨hrow.accept, by rw [List.length_set, hrow.length_next], fun cl' hcl' ↦ ?_⟩
      rw [hentry st hrow.length_next]
      split_ifs with hc
      · exact Or.inr (hc ▸ ht)
      · exact hrow.entry cl' hcl'
    · exact hrow
  · obtain ⟨st₀, hst₀, hrow⟩ := h.row j set hset
    rw [hstates, hst₀, Option.map_some, Option.some.injEq] at hst
    have hold := hk set st₀ hset hst₀ cl' hcl'
    rw [← hst]
    split_ifs with hij
    · obtain rfl : i = j := by omega
      obtain rfl : cur = set := by rw [hcur] at hset; exact Option.some.inj hset
      simp only [hentry st₀ hrow.length_next]
      split_ifs with hc
      · exact hc ▸ ht
      · exact hold
    · exact hold
  · obtain ⟨st₀, hst₀, hrow⟩ := h.row i set hset
    obtain rfl : cur = set := by rw [hcur] at hset; exact Option.some.inj hset
    rw [hstates, hst₀, Option.map_some, if_pos rfl, Option.some.injEq] at hst
    rw [← hst]
    simp only [hentry st₀ hrow.length_next]
    split_ifs with hc
    · exact hc ▸ ht
    · exact hk cur st₀ hset hst₀ cl' (by omega)

/-- One entry of a row. -/
theorem BuildInv.fillClass {reps : List Nat} (hs : SuccSpec nfa nclasses reps succ)
    (h : BuildInv nfa nclasses succ b) {i cl : Nat} {cur : StateSet}
    (hcur : b.idToSet[i]? = some cur) (hcl : cl < nclasses) :
    ∃ b', DfaBuild.fillClass nfa nclasses reps (i + 1) cur b cl = some b' ∧
      BuildInv nfa nclasses succ b' ∧ Grows succ b b' ∧
      (FilledTo succ cl b i → FilledTo succ (cl + 1) b' i) := by
  have hgood := h.good cur (List.mem_of_getElem? hcur)
  obtain ⟨hrep, hstep⟩ := hs.step cur hgood cl hcl
  rw [DfaBuild.fillClass, dif_pos hrep, hstep, Option.bind_eq_bind, Option.bind_some]
  by_cases hnil : succ cur cl = []
  · refine ⟨b, by simp [hnil], h, Grows.refl b, fun hk set st hset hst cl' hcl' ↦ ?_⟩
    obtain rfl : cur = set := by rw [hcur] at hset; exact Option.some.inj hset
    rcases Nat.lt_succ_iff_lt_or_eq.1 hcl' with hcl' | rfl
    · exact hk cur st hset hst cl' hcl'
    · obtain ⟨st', hst', hrow⟩ := h.row i cur hset
      obtain rfl : st' = st := by rw [hst'] at hst; exact Option.some.inj hst
      rcases hrow.entry cl' hcl with he | he
      · exact Or.inl ⟨hnil, he⟩
      · exact he
  · obtain ⟨hinv, hgrow, j, hid, hj⟩ := h.getTarget (hs.good cur hgood cl hcl hnil)
    obtain ⟨hinv', hgrow', hfill⟩ := hinv.setEntry (getElem?_mono hgrow.idToSet hcur) hcl
      (t := ((DfaBuild.getTarget nfa nclasses (succ cur cl) b).1 : Int))
      (Or.inr ⟨hnil, j, hj, by rw [hid]; rfl⟩)
    refine ⟨_, ?_, hinv', hgrow.trans hgrow', fun hk ↦ hfill (hgrow.filled i
      (List.getElem?_eq_some_iff.1 hcur).1 cl hk)⟩
    rw [if_neg (by simpa using hnil)]
    rfl

/-- A whole row. -/
theorem BuildInv.fillRow {reps : List Nat} (hs : SuccSpec nfa nclasses reps succ)
    (h : BuildInv nfa nclasses succ b) {i : Nat} {cur : StateSet}
    (hcur : b.idToSet[i]? = some cur) {k : Nat} (hk : k ≤ nclasses) :
    ∃ b', (List.range k).foldlM (DfaBuild.fillClass nfa nclasses reps (i + 1) cur) b = some b' ∧
      BuildInv nfa nclasses succ b' ∧ Grows succ b b' ∧ FilledTo succ k b' i := by
  induction k with
  | zero => exact ⟨b, rfl, h, Grows.refl b, fun _ _ _ _ cl hcl ↦ absurd hcl (Nat.not_lt_zero _)⟩
  | succ k ih =>
      obtain ⟨b₁, hrun, hinv, hgrow, hfill⟩ := ih (Nat.le_of_succ_le hk)
      obtain ⟨b₂, hrun', hinv', hgrow', hfill'⟩ := hinv.fillClass hs
        (getElem?_mono hgrow.idToSet hcur) hk
      refine ⟨b₂, ?_, hinv', hgrow.trans hgrow', hfill' hfill⟩
      rw [List.range_succ, List.foldlM_append, hrun]
      simpa using hrun'

/-! ### The queue -/

/-- A state is queued or its row is done. -/
def QueuedOrDone (nclasses : Nat) (succ : StateSet → Nat → StateSet) (b : DfaBuild) : Prop :=
  ∀ i < b.idToSet.length, i + 1 ∈ b.work ∨ FilledTo succ nclasses b i

theorem QueuedOrDone.grows (h : QueuedOrDone nclasses succ b) (hg : Grows succ b b') :
    QueuedOrDone nclasses succ b' := by
  intro i hi
  rcases Nat.lt_or_ge i b.idToSet.length with hi' | hi'
  · exact (h i hi').imp (hg.work.subset ·) (hg.filled i hi' nclasses)
  · exact Or.inl (hg.fresh i hi' hi)

/-- Sets of states that are met are few. -/
theorem BuildInv.length_idToSet_le (h : BuildInv nfa nclasses succ b) :
    b.idToSet.length ≤ 2 ^ nfa.states.length := by
  have hinj : Set.InjOn List.toFinset {set | set ∈ b.idToSet} := by
    intro l hl l' hl' he
    refine (h.good l hl).sorted.eq_of_mem_iff (h.good l' hl').sorted fun x ↦ ?_
    rw [← List.mem_toFinset, he, List.mem_toFinset]
  have hnodup : (b.idToSet.map List.toFinset).Nodup := h.nodup.map_on fun x hx y hy ↦ hinj hx hy
  have hsub : (b.idToSet.map List.toFinset).toFinset ⊆
      (Finset.range nfa.states.length).powerset := by
    intro S hS
    rw [List.mem_toFinset, List.mem_map] at hS
    obtain ⟨l, hl, rfl⟩ := hS
    rw [Finset.mem_powerset]
    intro p hp
    exact Finset.mem_range.2 ((h.good l hl).lt p (List.mem_toFinset.1 hp))
  have hcard := Finset.card_le_card hsub
  rwa [List.toFinset_card_of_nodup hnodup, List.length_map, Finset.card_powerset,
    Finset.card_range] at hcard

/-- Rounds left. -/
def buildMeasure (nfa : NFA) (b : DfaBuild) : Nat :=
  b.work.length + (2 ^ nfa.states.length - b.idToSet.length)

/-- One round of the queue. -/
theorem BuildInv.workBody {reps : List Nat} (hs : SuccSpec nfa nclasses reps succ)
    (h : BuildInv nfa nclasses succ b) (hd : QueuedOrDone nclasses succ b)
    (hw : (!b.work.isEmpty) = true) :
    ∃ b', DfaBuild.workBody nfa nclasses reps b = some b' ∧
      (BuildInv nfa nclasses succ b' ∧ QueuedOrDone nclasses succ b' ∧
        b'.condStarts = b.condStarts ∧ b.idToSet <+: b'.idToSet) ∧
      buildMeasure nfa b' < buildMeasure nfa b := by
  unfold DfaBuild.workBody
  cases hwork : b.work with
  | nil => simp [hwork] at hw
  | cons id work =>
      obtain ⟨i, cur, rfl, hcur⟩ := h.work_mem id (by simp [hwork])
      have h₀ : BuildInv nfa nclasses succ { b with work := work } :=
        ⟨h.length_states, h.head_states, h.index_iff, h.nodup, h.good, h.row,
          fun id hid ↦ h.work_mem id (by simp [hwork, hid])⟩
      have hset : setOf { b with work := work } (i + 1) = some cur := hcur
      obtain ⟨b', hrun, hinv, hgrow, hfill⟩ := h₀.fillRow hs hcur (Nat.le_refl nclasses)
      simp only [hset]
      refine ⟨b', hrun, ⟨hinv, fun j hj ↦ ?_, hgrow.condStarts, hgrow.idToSet⟩, ?_⟩
      · rcases Nat.lt_or_ge j b.idToSet.length with hj' | hj'
        · rcases hd j hj' with hq | hq
          · rw [hwork] at hq
            rcases List.mem_cons.1 hq with he | hq
            · obtain rfl : j = i := by omega
              exact Or.inr hfill
            · exact Or.inl (hgrow.work.subset hq)
          · exact Or.inr (hgrow.filled j hj' nclasses hq)
        · exact Or.inl (hgrow.fresh j hj' hj)
      · have hm := hgrow.measure
        have hle := hinv.length_idToSet_le
        simp only at hm
        rw [buildMeasure, buildMeasure, hwork, List.length_cons]
        omega

/-! ### The seeds -/

/-- The start of a condition stands for the closures of its entries. -/
def StartOk (nfa : NFA) (idToSet : List StateSet) (cs : CondStart) (ds : DFAStart) : Prop :=
  ∀ bol, ∃ i set, ds.entry bol = i + 1 ∧ idToSet[i]? = some set ∧
    ∀ p, p ∈ set ↔ p ∈ nfa.auto.εClosure {cs.entry bol}

theorem StartOk.mono {l l' : List StateSet} (h : l <+: l') {cs : CondStart} {ds : DFAStart}
    (hs : StartOk nfa l cs ds) : StartOk nfa l' cs ds := fun bol ↦ by
  obtain ⟨i, set, he, hi, hset⟩ := hs bol
  exact ⟨i, set, he, getElem?_mono h hi, hset⟩

theorem exists_closure_singleton (hn : nfa.InRange) {p : Nat} (hp : p < nfa.states.length) :
    ∃ set, nfa.epsClosure [p] = some set ∧ GoodSet nfa set ∧
      ∀ q, q ∈ set ↔ q ∈ nfa.auto.εClosure {p} := by
  obtain ⟨set, hrun, hsorted, hmem⟩ := NFA.exists_epsClosure hn [p] (by simpa using hp)
  have hinit : {q | q ∈ [p]} = ({p} : Set Nat) := by
    ext q
    simp
  rw [hinit] at hmem
  have hp' : p ∈ set := (hmem p).2 (εNFA.εClosure.base p rfl)
  refine ⟨set, hrun, ⟨hsorted, fun q hq ↦ ?_, List.ne_nil_of_mem hp'⟩, hmem⟩
  exact hn.closed.mem_of_mem_between hp (εNFA.mem_between.2 (by
    rw [εNFA.evalFrom_nil]
    exact (hmem q).1 hq))

/-- What seeding keeps. -/
structure SeedInv (nfa : NFA) (nclasses : Nat) (succ : StateSet → Nat → StateSet)
    (css : List CondStart) (b : DfaBuild) : Prop where
  inv : BuildInv nfa nclasses succ b
  queued : QueuedOrDone nclasses succ b
  starts : List.Forall₂ (StartOk nfa b.idToSet) css b.condStarts
  length_work : b.work.length = 2 * css.length

theorem SeedInv.seedCond (hn : nfa.InRange) {css : List CondStart}
    (h : SeedInv nfa nclasses succ css b) {cs : CondStart}
    (hcs : cs.normal < nfa.states.length ∧ cs.bol < nfa.states.length) :
    ∃ b', DfaBuild.seedCond nfa nclasses b cs = some b' ∧
      SeedInv nfa nclasses succ (css ++ [cs]) b' := by
  obtain ⟨nSet, hnrun, hngood, hnmem⟩ := exists_closure_singleton hn hcs.1
  obtain ⟨bSet, hbrun, hbgood, hbmem⟩ := exists_closure_singleton hn hcs.2
  obtain ⟨hinv₁, hgot₁⟩ := h.inv.getState hngood
  obtain ⟨hinv₂, hgot₂⟩ := hinv₁.getState hbgood
  set r₁ := DfaBuild.getState nfa nclasses nSet b
  set r₂ := DfaBuild.getState nfa nclasses bSet r₁.2
  obtain ⟨i, hi, hin⟩ := hgot₁.mem
  obtain ⟨j, hj, hjn⟩ := hgot₂.mem
  have hin' := getElem?_mono hgot₂.idToSet hin
  have hwork : r₂.2.work = b.work := hgot₂.work.trans hgot₁.work
  have hset : b.idToSet <+: r₂.2.idToSet := hgot₁.idToSet.trans hgot₂.idToSet
  refine ⟨{ r₂.2 with condStarts := r₂.2.condStarts ++ [⟨r₁.1, r₂.1⟩],
                      work := r₂.2.work ++ [r₁.1, r₂.1] }, ?_, ?_, fun k hk ↦ ?_, ?_, ?_⟩
  · simp only [DfaBuild.seedCond, hnrun, hbrun, Option.bind_eq_bind, Option.bind_some]
    rfl
  · refine ⟨hinv₂.length_states, hinv₂.head_states, hinv₂.index_iff, hinv₂.nodup, hinv₂.good,
      hinv₂.row, fun id hid ↦ ?_⟩
    rcases List.mem_append.1 hid with hid | hid
    · exact hinv₂.work_mem id hid
    · rcases List.mem_cons.1 hid with rfl | hid
      · exact ⟨i, nSet, hi, hin'⟩
      · exact ⟨j, bSet, (List.mem_singleton.1 hid).trans hj, hjn⟩
  · -- a state is one of the new starts, or it was queued or done before
    simp only [List.mem_append, List.mem_cons, List.not_mem_nil, or_false]
    rcases Nat.lt_or_ge k r₁.2.idToSet.length with hk₁ | hk₁
    · rcases Nat.lt_or_ge k b.idToSet.length with hk₀ | hk₀
      · refine (h.queued k hk₀).imp (fun hq ↦ Or.inl (hwork ▸ hq)) fun hf ↦ ?_
        exact (hf.mono hk₀ h.inv.length_states hgot₁.idToSet hgot₁.states).mono hk₁
          hinv₁.length_states hgot₂.idToSet hgot₂.states
      · exact Or.inl (Or.inr (Or.inl (hgot₁.fresh k hk₀ hk₁).symm))
    · exact Or.inl (Or.inr (Or.inr (hgot₂.fresh k hk₁ hk).symm))
  · have hcond : r₂.2.condStarts = b.condStarts := hgot₂.condStarts.trans hgot₁.condStarts
    rw [hcond]
    refine List.rel_append (h.starts.imp fun _ _ ↦ StartOk.mono hset)
      (List.Forall₂.cons (fun bol ↦ ?_) List.Forall₂.nil)
    cases bol with
    | false => exact ⟨i, nSet, hi, hin', hnmem⟩
    | true => exact ⟨j, bSet, hj, hjn, hbmem⟩
  · simp only [hwork, h.length_work, List.length_append, List.length_cons, List.length_nil]
    omega

theorem SeedInv.foldlM_seedCond (hn : nfa.InRange) (css' : List CondStart) {css : List CondStart}
    (h : SeedInv nfa nclasses succ css b)
    (hcs : ∀ cs ∈ css', cs.normal < nfa.states.length ∧ cs.bol < nfa.states.length) :
    ∃ b', css'.foldlM (DfaBuild.seedCond nfa nclasses) b = some b' ∧
      SeedInv nfa nclasses succ (css ++ css') b' := by
  induction css' generalizing css b with
  | nil => exact ⟨b, rfl, by rwa [List.append_nil]⟩
  | cons cs css' ih =>
      obtain ⟨b₁, hrun, h₁⟩ := h.seedCond hn (hcs cs List.mem_cons_self)
      obtain ⟨b', hrun', h'⟩ := ih h₁ fun c hc ↦ hcs c (List.mem_cons_of_mem cs hc)
      refine ⟨b', ?_, by rwa [List.append_assoc] at h'⟩
      rw [List.foldlM_cons, hrun]
      exact hrun'

theorem seedInv_nil (nfa : NFA) (nclasses : Nat) (succ : StateSet → Nat → StateSet) :
    SeedInv nfa nclasses succ [] { states := [deadState nclasses] } :=
  ⟨⟨rfl, rfl, fun set id ↦ by simp, List.nodup_nil, by simp, fun i set h ↦ by simp at h, by simp⟩,
    fun i hi ↦ absurd hi (Nat.not_lt_zero i), List.Forall₂.nil, rfl⟩

end Invariant

end DfaBuild

end LexCpp
