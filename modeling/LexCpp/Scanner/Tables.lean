import LexCpp.Data.Pool
import LexCpp.Dfa.Compress

/-!
# The emitted tables

The tables that `emit_c` writes, in each of its three modes, and `YY_TRANSITION` over
them.

The modes start from different DFAs: `-f` has every byte for a class of its own, and the
order in which states are met depends on the classes.  So nothing can be said state by
state.  What every mode's tables have in common is what they say of words
(`Tables.Describes`): whether a word jams, and what the automaton accepts after it.
-/

namespace LexCpp

open DfaBuild

/-- `-f`, `-Cfe` and `-Cem`. -/
inductive CompressMode where
  | full
  | fullEc
  | compress
deriving DecidableEq, Repr

/-- Rows of rule ids behind offsets: `yy_accept_off` and `yy_accept_pool`, or
`yy_boundary_off` and `yy_boundary_pool`. -/
structure RulePool where
  off : List Nat
  pool : List Int
deriving DecidableEq, Repr

/-- The row of a state. -/
def RulePool.row (p : RulePool) (s : Int) : List Int := poolRow p.off p.pool s.toNat 0

/-- `yy_nxt`, dense or packed. -/
inductive Transitions where
  | dense (yyNxt : List (List Int))
  | packed (c : CompressedDFA)
deriving DecidableEq, Repr

/-- The tables of a generated scanner.  The ones in an `Option` are not always
emitted. -/
structure Tables where
  yyEc : List Nat
  yyNxt : Transitions
  yyMeta : Option (List Nat)
  yyAcceptNormal : List Int
  yyAcceptEol : List Int
  yyCondNormal : List Nat
  yyCondBol : List Nat
  yyRuleTrailLen : List Int
  yyRuleEol : Option (List Bool)
  yyBoundary : Option RulePool
  yyAccept : Option RulePool
deriving DecidableEq, Repr

/-! ## Emission -/

/-- One row of rule ids for each state; an empty pool gets a 0. -/
def emitPool (rows : List (List Int)) : RulePool :=
  let (off, pool) := pool rows
  { off := off, pool := if pool.isEmpty then [0] else pool }

/-- `append_int_array` never emits an empty array. -/
def emitArray {α : Type} (l : List α) (zero : α) : List α := if l.isEmpty then [zero] else l

/-- The rows of the DFA end to end, cut into `yy_nxt[nstates][nclasses]`. -/
def emitDense (dfa : DFA) : List (List Int) :=
  rows2d dfa.states.length dfa.nclasses
    (dfa.states.flatMap fun st ↦ (List.range dfa.nclasses).map fun i ↦ st.next.getD i (-1)) 0

/-- The table part of `emit_c`. -/
def emitTables (std : StdSort Nat) (mode : CompressMode) (usesReject : Bool) (nfa : NFA)
    (dfa : DFA) : Tables :=
  { yyEc := if mode = .full then bytes.map Fin.val else bytes.map dfa.eclasses.of
    yyNxt := if mode = .compress then .packed (compressDfa std dfa) else .dense (emitDense dfa)
    yyMeta :=
      if mode = .compress then
        some (if dfa.metaIds.isEmpty then List.range dfa.nclasses else dfa.metaIds)
      else none
    yyAcceptNormal := dfa.states.map DFAState.acceptNormal
    yyAcceptEol := dfa.states.map DFAState.acceptEol
    yyCondNormal := dfa.condStarts.map DFAStart.normal
    yyCondBol := dfa.condStarts.map DFAStart.bol
    yyRuleTrailLen := emitArray nfa.ruleTrail 0
    yyRuleEol := if usesReject then some (emitArray nfa.ruleEol false) else none
    yyBoundary :=
      if nfa.ruleTrail.any (· < 0) then some (emitPool (dfa.states.map DFAState.boundaryRules))
      else none
    yyAccept :=
      if usesReject then some (emitPool (dfa.states.map DFAState.acceptList)) else none }

/-- What `main` makes of an automaton: the DFA, and the tables of the mode. -/
def generate (std : StdSort Nat) (mode : CompressMode) (usesReject : Bool) (nfa : NFA) :
    Option (DFA × Tables) := do
  let dfa ← buildDfa nfa (mode != .full) (mode == .compress)
  return (dfa, emitTables std mode usesReject nfa dfa)

namespace Tables

/-! ## Lookups -/

/-- `YY_TRANSITION(s, b)`. -/
def transition (t : Tables) (s : Int) (b : Byte) : Int :=
  match t.yyNxt with
  | .dense yyNxt => (yyNxt.getD s.toNat []).getD (t.yyEc.getD b 0) (-1)
  | .packed c => c.lookup s.toNat (t.yyEc.getD b 0)

/-- The state a scan starts in: `yy_at_bol ? yy_cond_bol[c] : yy_cond_normal[c]`. -/
def entry (t : Tables) (c : Nat) (atBol : Bool) : Int :=
  (if atBol then t.yyCondBol else t.yyCondNormal).getD c 0

def acceptNormal (t : Tables) (s : Int) : Int := t.yyAcceptNormal.getD s.toNat (-1)

def acceptEol (t : Tables) (s : Int) : Int := t.yyAcceptEol.getD s.toNat (-1)

/-- The rules that end in a state, for the body with `REJECT`. -/
def acceptRow (t : Tables) (s : Int) : List Int := (t.yyAccept.map (·.row s)).getD []

/-- The rules with a marker in a state. -/
def boundaryRow (t : Tables) (s : Int) : List Int := (t.yyBoundary.map (·.row s)).getD []

def ruleTrailLen (t : Tables) (r : Int) : Int := t.yyRuleTrailLen.getD r.toNat 0

def ruleEol (t : Tables) (r : Int) : Bool := (t.yyRuleEol.getD []).getD r.toNat false

/-- The state after a word; a jam is a negative state that nothing leaves. -/
def follow (t : Tables) (s : Int) (w : List Byte) : Int :=
  w.foldl (fun s b ↦ if s < 0 then s else t.transition s b) s

@[simp] theorem follow_nil (t : Tables) (s : Int) : t.follow s [] = s := rfl

theorem follow_append (t : Tables) (s : Int) (v w : List Byte) :
    t.follow s (v ++ w) = t.follow (t.follow s v) w := List.foldl_append

theorem follow_of_neg (t : Tables) {s : Int} (hs : s < 0) (w : List Byte) :
    t.follow s w = s := by
  induction w with
  | nil => rfl
  | cons b w ih =>
      rw [follow, List.foldl_cons, if_pos hs]
      exact ih

theorem follow_concat (t : Tables) {s : Int} {w : List Byte} (h : 0 ≤ t.follow s w) (b : Byte) :
    t.follow s (w ++ [b]) = t.transition (t.follow s w) b := by
  rw [follow_append]
  exact if_neg (not_lt.2 h)

/-- What has not jammed had not jammed before. -/
theorem nonneg_follow_of_append {t : Tables} {s : Int} {v w : List Byte}
    (h : 0 ≤ t.follow s (v ++ w)) : 0 ≤ t.follow s v := by
  by_contra hv
  rw [follow_append, follow_of_neg t (not_le.1 hv)] at h
  exact hv h

/-- What the tables say of a state. -/
structure HasRow (t : Tables) (s : Int) (p : AcceptPair) : Prop where
  normal : t.acceptNormal s = p.normal
  eol : t.acceptEol s = p.eol
  list : t.yyAccept.isSome → t.acceptRow s = p.list
  boundary : t.yyBoundary.isSome → t.boundaryRow s = p.boundary

/-- **What tables have to say.**  From every entry, a word jams exactly if it reaches
no state of the automaton, and otherwise leads to the accepts of the states it
reaches. -/
structure Describes (t : Tables) (nfa : NFA) : Prop where
  entry_nonneg : ∀ (c : Nat) (cs : CondStart) (b : Bool), nfa.condStarts[c]? = some cs →
    0 ≤ t.entry c b
  jam_iff : ∀ (c : Nat) (cs : CondStart) (b : Bool), nfa.condStarts[c]? = some cs → ∀ w,
    t.follow (t.entry c b) w < 0 ↔ ∀ q, w ∉ nfa.auto.between (cs.entry b) q
  hasRow : ∀ (c : Nat) (cs : CondStart) (b : Bool), nfa.condStarts[c]? = some cs → ∀ w,
    0 ≤ t.follow (t.entry c b) w →
    ∃ p, nfa.IsAcceptOf {q | w ∈ nfa.auto.between (cs.entry b) q} p ∧
      t.HasRow (t.follow (t.entry c b) w) p
  yyRuleTrailLen_eq : t.yyRuleTrailLen = emitArray nfa.ruleTrail 0
  yyRuleEol_eq : ∀ l ∈ t.yyRuleEol, l = emitArray nfa.ruleEol false
  boundary_isSome : t.yyBoundary.isSome = nfa.ruleTrail.any (· < 0)

end Tables

/-! ## What is emitted is read back -/

section Emit

variable {std : StdSort Nat} {mode : CompressMode} {usesReject : Bool} {nfa : NFA} {dfa : DFA}
  {sets : List StateSet}

theorem row_emitPool (rows : List (List Int)) {s : Int} {row : List Int}
    (h : rows[s.toNat]? = some row) : (emitPool rows).row s = row := by
  have hpool : (emitPool rows).pool = (pool rows).2 ++ if (pool rows).2.isEmpty then [0] else [] := by
    rw [emitPool]
    by_cases hp : (pool rows).2.isEmpty = true
    · simp [List.isEmpty_iff.1 hp]
    · simp [hp]
  rw [RulePool.row, hpool]
  exact poolRow_pool rows 0 _ h

theorem isSome_ite_bool {α : Type} {x : α} {p : Bool} :
    (if p = true then some x else none).isSome = p := by
  cases p <;> rfl

theorem getD_emitArray {α : Type} (l : List α) (zero : α) (j : Nat) :
    (emitArray l zero).getD j zero = l.getD j zero := by
  rw [emitArray]
  split_ifs with h
  · rw [List.isEmpty_iff.1 h]
    cases j <;> rfl
  · rfl

theorem length_le_emitArray {α : Type} (l : List α) (zero : α) :
    l.length ≤ (emitArray l zero).length := by
  rw [emitArray]
  split_ifs with h
  · simp [List.isEmpty_iff.1 h]
  · exact le_refl _

/-- The classes of the DFA are those that were asked for. -/
theorem dfaEclasses_of_buildDfa {useEclasses computeMeta : Bool}
    (h : buildDfa nfa useEclasses computeMeta = some dfa) :
    dfaEclasses nfa useEclasses = some dfa.eclasses := by
  rw [buildDfa] at h
  simp only [Option.bind_eq_bind, Option.bind_eq_some_iff, Option.pure_def,
    Option.some.injEq] at h
  obtain ⟨ec, hec, b, -, b', -, rfl⟩ := h
  exact hec

/-- `yy_ec` holds the class of every byte. -/
theorem getD_yyEc (h : buildDfa nfa (mode != .full) (mode == .compress) = some dfa) (b : Byte) :
    (emitTables std mode usesReject nfa dfa).yyEc.getD b 0 = dfa.eclasses.of b := by
  have hget : ∀ f : Byte → Nat, (bytes.map f).getD b 0 = f b := by
    intro f
    rw [List.getD_eq_getElem _ _ (by simp [bytes]), List.getElem_map]
    simp [bytes]
  change (if mode = .full then bytes.map Fin.val else bytes.map dfa.eclasses.of).getD b 0 = _
  by_cases hm : mode = .full
  · subst hm
    have hec : some Eclasses.identityEclasses = some dfa.eclasses := dfaEclasses_of_buildDfa h
    rw [if_pos rfl, hget, ← Option.some.inj hec, Eclasses.of]
    exact (hget Fin.val).symm
  · rw [if_neg hm]
    exact hget _

/-- An entry of a row is dead or points to a state. -/
theorem DFA.Exact.entry_cases (h : DFA.Exact nfa dfa sets) {i : Nat} {set : StateSet}
    (hi : sets[i]? = some set) (b : Byte) :
    dfa.nextState ((i + 1 : Nat) : Int) b = -1 ∨ 0 < dfa.nextState ((i + 1 : Nat) : Int) b := by
  obtain ⟨n, -, hp⟩ := h.nextState_of_state hi b
  rcases hp with ⟨-, ht⟩ | ⟨-, j, -, ht⟩ <;> omega

/-- **`YY_TRANSITION` in every mode** looks up the row of the DFA. -/
theorem transition_emitTables (hb : buildDfa nfa (mode != .full) (mode == .compress) = some dfa)
    (h : DFA.Exact nfa dfa sets) {i : Nat} {set : StateSet} (hi : sets[i]? = some set) (b : Byte) :
    (emitTables std mode usesReject nfa dfa).transition ((i + 1 : Nat) : Int) b =
      dfa.nextState ((i + 1 : Nat) : Int) b := by
  have hlt : i + 1 < dfa.states.length := by
    rw [h.length_states]
    exact Nat.succ_lt_succ (List.getElem?_eq_some_iff.1 hi).1
  have hec : dfa.eclasses.of b < dfa.nclasses := by
    rw [h.nclasses_eq]
    exact h.valid.of_lt b
  have hnext : dfa.nextState ((i + 1 : Nat) : Int) b =
      ((dfa.states[i + 1]?.map DFAState.next).getD []).getD (dfa.eclasses.of b) (-1) := by
    rw [DFA.nextState, if_neg (by omega), Int.toNat_natCast]
  rw [Tables.transition, getD_yyEc hb]
  by_cases hm : mode = .compress
  · have hnxt : (emitTables std mode usesReject nfa dfa).yyNxt = .packed (compressDfa std dfa) :=
      if_pos hm
    have hcases := h.entry_cases hi b
    rw [hnxt]
    simp only [Int.toNat_natCast]
    rw [(compressDfa_lookup std dfa hlt hec).2.2.2, ← hnext]
    split_ifs with hlive
    · rfl
    · exact (hcases.resolve_right fun hpos ↦ hlive ⟨Nat.succ_ne_zero i, hpos⟩).symm
  · have hnxt : (emitTables std mode usesReject nfa dfa).yyNxt = .dense (emitDense dfa) :=
      if_neg hm
    let rowOf : DFAState → List Int := fun st ↦
      (List.range dfa.nclasses).map fun j ↦ st.next.getD j (-1)
    have hcols : ∀ row ∈ dfa.states.map rowOf, row.length = dfa.nclasses := by
      simp [rowOf]
    have hrow : (dfa.states.map rowOf)[i + 1]? = some (rowOf dfa.states[i + 1]) := by simp [hlt]
    rw [hnxt]
    simp only [Int.toNat_natCast]
    rw [hnext, emitDense, getD_rows2d _ _ _ hlt hec, List.flatMap_def,
      getD_flatten _ hcols 0 hrow hec]
    simp [rowOf, hlt, hec]

/-- The entry of a condition is the start of the DFA. -/
theorem entry_emitTables {c : Nat} {ds : DFAStart} (h : dfa.condStarts[c]? = some ds) (b : Bool) :
    (emitTables std mode usesReject nfa dfa).entry c b = ds.entry b := by
  rw [Tables.entry, emitTables]
  cases b <;> simp [h, DFAStart.entry]

/-- Running over the emitted tables is running over the DFA. -/
theorem follow_emitTables (hb : buildDfa nfa (mode != .full) (mode == .compress) = some dfa)
    (h : DFA.Exact nfa dfa sets) (hn : nfa.InRange) {cs : CondStart} {ds : DFAStart}
    (hs : StartOk nfa sets cs ds) (bol : Bool) (w : List Byte) :
    (emitTables std mode usesReject nfa dfa).follow (ds.entry bol) w =
      dfa.follow (ds.entry bol) w := by
  induction w using List.reverseRecOn with
  | nil => rfl
  | append_singleton w b ih =>
      have hdfa : dfa.follow (ds.entry bol) (w ++ [b]) =
          dfa.nextState (dfa.follow (ds.entry bol) w) b := List.foldl_concat ..
      rw [Tables.follow_append, ih, hdfa]
      change (if dfa.follow _ w < 0 then _ else _) = _
      rcases h.follow_cases hn hs bol w with ⟨hw, -⟩ | ⟨i, set, hw, hi, -⟩
      · rw [hw]
        rfl
      · rw [hw, if_neg (by omega), transition_emitTables hb h hi]

theorem Tables.Describes.ruleEol_eq {t : Tables} (h : t.Describes nfa) (he : t.yyRuleEol.isSome)
    (j : Nat) : t.ruleEol j = nfa.ruleEol.getD j false := by
  obtain ⟨l, hl⟩ := Option.isSome_iff_exists.1 he
  obtain rfl := h.yyRuleEol_eq l hl
  rw [ruleEol, hl, Option.getD_some, Int.toNat_natCast, getD_emitArray]

/-- The rows of a state are its accepts. -/
theorem hasRow_emitTables {s : Int} {st : DFAState} (h : dfa.states[s.toNat]? = some st) :
    (emitTables std mode usesReject nfa dfa).HasRow s st.accepts := by
  constructor
  · simp [Tables.acceptNormal, emitTables, DFAState.accepts, h]
  · simp [Tables.acceptEol, emitTables, DFAState.accepts, h]
  · intro hp
    simp only [emitTables, Option.isSome_ite, Tables.acceptRow] at hp ⊢
    rw [if_pos hp]
    exact row_emitPool _ (by simp [h, DFAState.accepts])
  · intro hp
    simp only [emitTables, Option.isSome_ite, Tables.boundaryRow] at hp ⊢
    rw [if_pos hp]
    exact row_emitPool _ (by simp [h, DFAState.accepts])

/-- **Generation succeeds**, and in every mode the tables describe the automaton. -/
theorem exists_generate (hn : nfa.InRange) (std : StdSort Nat) (mode : CompressMode)
    (usesReject : Bool) :
    ∃ dfa t, generate std mode usesReject nfa = some (dfa, t) ∧ t.Describes nfa ∧
      t.yyAccept.isSome = usesReject ∧ t.yyRuleEol.isSome = usesReject ∧
      ∀ (c : Nat) (cs : CondStart) (b : Bool), nfa.condStarts[c]? = some cs → ∀ w,
        0 ≤ t.follow (t.entry c b) w →
        ∃ st, dfa.states[(t.follow (t.entry c b) w).toNat]? = some st ∧
          nfa.IsAcceptOf {q | w ∈ nfa.auto.between (cs.entry b) q} st.accepts ∧
          t.HasRow (t.follow (t.entry c b) w) st.accepts := by
  obtain ⟨dfa, sets, hb, h⟩ := exists_buildDfa hn (mode != .full) (mode == .compress)
  have hstart : ∀ (c : Nat) (cs : CondStart), nfa.condStarts[c]? = some cs →
      ∃ ds, dfa.condStarts[c]? = some ds ∧ StartOk nfa sets cs ds := by
    intro c cs hcs
    obtain ⟨hc, rfl⟩ := List.getElem?_eq_some_iff.1 hcs
    have hc' : c < dfa.condStarts.length := h.starts.length_eq ▸ hc
    exact ⟨_, List.getElem?_eq_getElem hc', h.starts.get hc hc'⟩
  have hrun : ∀ (c : Nat) (cs : CondStart) (b : Bool), nfa.condStarts[c]? = some cs → ∀ w,
      ((emitTables std mode usesReject nfa dfa).follow
          ((emitTables std mode usesReject nfa dfa).entry c b) w = -1 ∧
        nfa.auto.evalFrom {cs.entry b} w = ∅) ∨
      ∃ i set st, (emitTables std mode usesReject nfa dfa).follow
          ((emitTables std mode usesReject nfa dfa).entry c b) w = (i + 1 : Nat) ∧
        sets[i]? = some set ∧ dfa.states[i + 1]? = some st ∧ st.accepts = nfa.acceptFor set ∧
        {q | q ∈ set} = nfa.auto.evalFrom {cs.entry b} w := by
    intro c cs b hcs w
    obtain ⟨ds, hds, hs⟩ := hstart c cs hcs
    rw [entry_emitTables hds, follow_emitTables hb h hn hs]
    refine (h.follow_cases hn hs b w).imp_right ?_
    rintro ⟨i, set, hw, hi, hset⟩
    obtain ⟨st, hst, hacc, -⟩ := h.row i set hi
    exact ⟨i, set, st, hw, hi, hst, hacc, hset⟩
  have hstate : ∀ (c : Nat) (cs : CondStart) (b : Bool), nfa.condStarts[c]? = some cs → ∀ w,
      0 ≤ (emitTables std mode usesReject nfa dfa).follow
        ((emitTables std mode usesReject nfa dfa).entry c b) w →
      ∃ st, dfa.states[((emitTables std mode usesReject nfa dfa).follow
          ((emitTables std mode usesReject nfa dfa).entry c b) w).toNat]? = some st ∧
        nfa.IsAcceptOf {q | w ∈ nfa.auto.between (cs.entry b) q} st.accepts ∧
        (emitTables std mode usesReject nfa dfa).HasRow
          ((emitTables std mode usesReject nfa dfa).follow
            ((emitTables std mode usesReject nfa dfa).entry c b) w) st.accepts := by
    intro c cs b hcs w hw
    rcases hrun c cs b hcs w with ⟨hw', -⟩ | ⟨i, set, st, hw', hi, hst, hacc, hset⟩
    · omega
    · have hst' : dfa.states[((emitTables std mode usesReject nfa dfa).follow
          ((emitTables std mode usesReject nfa dfa).entry c b) w).toNat]? = some st := by
        rw [hw']
        exact hst
      refine ⟨st, hst', ?_, hasRow_emitTables hst'⟩
      change nfa.IsAcceptOf (nfa.auto.evalFrom {cs.entry b} w) _
      rw [← hset, hacc]
      exact nfa.isAcceptOf_acceptFor set
  refine ⟨dfa, _, by rw [generate, hb]; rfl, ⟨fun c cs b hcs ↦ ?_, fun c cs b hcs w ↦ ?_,
    fun c cs b hcs w hw ↦ ?_, rfl, fun l hl ↦ ?_, isSome_ite_bool⟩, isSome_ite_bool,
    isSome_ite_bool, hstate⟩
  · obtain ⟨ds, hds, -⟩ := hstart c cs hcs
    rw [entry_emitTables hds]
    exact Int.natCast_nonneg _
  · rcases hrun c cs b hcs w with ⟨hw, he⟩ | ⟨i, set, st, hw, hi, -, -, hset⟩
    · rw [hw]
      refine iff_of_true (by omega) fun q hq ↦ ?_
      rw [εNFA.mem_between, he] at hq
      exact hq
    · rw [hw]
      refine iff_of_false (by omega) fun hno ↦ ?_
      obtain ⟨q, hq⟩ := List.exists_mem_of_ne_nil set (h.good set (List.mem_of_getElem? hi)).ne_nil
      have hq' : q ∈ nfa.auto.evalFrom {cs.entry b} w := hset ▸ hq
      exact hno q hq'
  · obtain ⟨st, -, hacc, hrow⟩ := hstate c cs b hcs w hw
    exact ⟨st.accepts, hacc, hrow⟩
  · have hl' : (if usesReject then some (emitArray nfa.ruleEol false) else none) = some l := hl
    split_ifs at hl'
    exact (Option.some.inj hl').symm

end Emit

end LexCpp
