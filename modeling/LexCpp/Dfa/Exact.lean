import LexCpp.Dfa.Build

/-!
# The DFA is exact

`build_dfa` ends, and following its rows from a start along a word leads to the state
that stands for the NFA states the word reaches: `-1` if there are none.  `DFA.Exact`
is the picture the queue leaves behind, `buildDfa_exact` what a run over it says.
-/

namespace LexCpp

open DfaBuild

/-! ## Following rows -/

/-- `next[ec[b]]`; from `-1` on the run stays there. -/
def DFA.nextState (dfa : DFA) (s : Int) (b : Byte) : Int :=
  if s < 0 then -1
  else ((dfa.states[s.toNat]?.map DFAState.next).getD []).getD (dfa.eclasses.of b) (-1)

/-- The state reached by following the bytes of a word. -/
def DFA.follow (dfa : DFA) (s : Int) (w : List Byte) : Int := w.foldl dfa.nextState s

/-- What a DFA state accepts. -/
def DFAState.accepts (st : DFAState) : AcceptPair :=
  ⟨st.acceptNormal, st.acceptEol, st.acceptList, st.boundaryRules⟩

/-! ## The picture after construction -/

/-- State `i + 1` stands for `sets[i]`: it has that set's accepts, and its entry for a
byte points to the state of the set the byte leads to. -/
structure DFA.Exact (nfa : NFA) (dfa : DFA) (sets : List StateSet) : Prop where
  length_states : dfa.states.length = sets.length + 1
  head_states : dfa.states[0]? = some (deadState dfa.nclasses)
  nodup : sets.Nodup
  good : ∀ set ∈ sets, GoodSet nfa set
  row : ∀ i set, sets[i]? = some set → ∃ st, dfa.states[i + 1]? = some st ∧
    st.accepts = nfa.acceptFor set ∧ st.next.length = dfa.nclasses ∧
    ∀ b, ∃ n, nfa.step set b = some n ∧ Points sets n (st.next.getD (dfa.eclasses.of b) (-1))
  starts : List.Forall₂ (StartOk nfa sets) nfa.condStarts dfa.condStarts
  nclasses_eq : dfa.nclasses = dfa.eclasses.nclasses
  valid : dfa.eclasses.Valid

namespace NFA

/-- Bytes that no edge tells apart lead to the same set. -/
theorem step_congr {nfa : NFA} {a b : Byte}
    (h : ∀ st ∈ nfa.states, ∀ e ∈ st.out, e.on.test a = e.on.test b) (set : StateSet) :
    nfa.step set a = nfa.step set b := by
  unfold step
  refine congrArg nfa.epsClosure (congrArg (List.flatMap · set) (funext fun p ↦ ?_))
  refine congrArg (List.map NFAEdge.target) (List.filter_congr fun e he ↦ ?_)
  rcases Nat.lt_or_ge p nfa.states.length with hp | hp
  · have hst : nfa.state p ∈ nfa.states := by
      rw [state, List.getD_eq_getElem _ _ hp]
      exact List.getElem_mem hp
    rw [h _ hst e he]
  · simp [state_eq_default hp] at he

end NFA

/-- The tables of byte classes `build_dfa` uses: either way two bytes of one class are
covered by the same edges. -/
theorem exists_eclasses (nfa : NFA) (useEclasses : Bool) :
    ∃ ec, dfaEclasses nfa useEclasses = some ec ∧
      ec.Valid ∧ ∀ b b', ec.of b = ec.of b' →
        ∀ st ∈ nfa.states, ∀ e ∈ st.out, e.on.test b = e.on.test b' := by
  cases useEclasses with
  | true =>
      obtain ⟨ec, hrun, hv, hsep⟩ := Eclasses.exists_computeEclasses nfa
      exact ⟨ec, hrun, hv, fun b b' ↦ (hsep b b').1⟩
  | false =>
      refine ⟨_, rfl, Eclasses.valid_identityEclasses, fun b b' h ↦ ?_⟩
      obtain rfl := Eclasses.valid_identityEclasses.injective (le_refl 256) h
      exact fun _ _ _ _ ↦ rfl

/-- The set a class leads to from a set. -/
def succSet (nfa : NFA) (reps : List Nat) (set : StateSet) (cl : Nat) : StateSet :=
  if h : reps.getD cl 0 < 256 then (nfa.step set ⟨reps.getD cl 0, h⟩).getD [] else []

theorem step_rep {nfa : NFA} {reps : List Nat} {set : StateSet} {cl : Nat} {b : Byte}
    (hb : reps.getD cl 0 = b.val) {out : StateSet} (hout : nfa.step set b = some out) :
    ∃ h : reps.getD cl 0 < 256, nfa.step set ⟨reps.getD cl 0, h⟩ = some out := by
  have hlt : reps.getD cl 0 < 256 := hb ▸ b.2
  have hrep : (⟨reps.getD cl 0, hlt⟩ : Byte) = b := Fin.ext hb
  exact ⟨hlt, hrep ▸ hout⟩

theorem succSet_eq {nfa : NFA} {reps : List Nat} {set : StateSet} {cl : Nat} {b : Byte}
    (hb : reps.getD cl 0 = b.val) {out : StateSet} (hout : nfa.step set b = some out) :
    succSet nfa reps set cl = out := by
  obtain ⟨hlt, hstep⟩ := step_rep hb hout
  rw [succSet, dif_pos hlt, hstep, Option.getD_some]

theorem succSpec_succSet {nfa : NFA} (hn : nfa.InRange) {ec : Eclasses} (hv : ec.Valid) :
    SuccSpec nfa ec.nclasses (classReps ec) (succSet nfa (classReps ec)) := by
  refine ⟨fun set _ cl hcl ↦ ?_, fun set _ cl hcl hne ↦ ?_⟩
  · obtain ⟨b, hb, -⟩ := hv.exists_classReps hcl
    obtain ⟨out, hout, -⟩ := NFA.exists_step hn set b
    rw [succSet_eq hb hout]
    exact step_rep hb hout
  · obtain ⟨b, hb, -⟩ := hv.exists_classReps hcl
    obtain ⟨out, hout, hsorted, hmem⟩ := NFA.exists_step hn set b
    rw [succSet_eq hb hout] at hne ⊢
    refine ⟨hsorted, fun p hp ↦ ?_, hne⟩
    obtain ⟨q, -, hq⟩ := (nfa.auto.mem_stepSet_iff).1 ((hmem p).1 hp)
    obtain ⟨t, ht, hp⟩ := (nfa.auto.mem_εClosure_iff_exists).1 hq
    exact hn.closed.mem_of_mem_between (hn.lt_of_mem_step ht) (εNFA.mem_between.2 (by
      rwa [εNFA.evalFrom_nil]))

/-- The entries of the classes of a valid table are the entries of the bytes. -/
theorem succSet_of {nfa : NFA} (hn : nfa.InRange) {ec : Eclasses} (hv : ec.Valid)
    (hsep : ∀ b b', ec.of b = ec.of b' →
      ∀ st ∈ nfa.states, ∀ e ∈ st.out, e.on.test b = e.on.test b') (set : StateSet) (b : Byte) :
    nfa.step set b = some (succSet nfa (classReps ec) set (ec.of b)) := by
  obtain ⟨r, hr, hrb⟩ := hv.exists_classReps (hv.of_lt b)
  obtain ⟨out, hout, -⟩ := NFA.exists_step hn set b
  rw [hout, succSet_eq hr ((NFA.step_congr (hsep r b hrb) set).trans hout)]

/-- **The construction ends**, and leaves the whole picture. -/
theorem exists_buildDfa {nfa : NFA} (hn : nfa.InRange) (useEclasses computeMeta : Bool) :
    ∃ dfa sets, buildDfa nfa useEclasses computeMeta = some dfa ∧ DFA.Exact nfa dfa sets := by
  obtain ⟨ec, hec, hv, hsep⟩ := exists_eclasses nfa useEclasses
  have hs := succSpec_succSet hn hv
  obtain ⟨b₀, hseed, h₀⟩ := (seedInv_nil nfa ec.nclasses
    (succSet nfa (classReps ec))).foldlM_seedCond hn nfa.condStarts hn.starts
  rw [List.nil_append] at h₀
  have hfuel : buildMeasure nfa b₀ < buildFuel nfa := by
    rw [buildMeasure, buildFuel, h₀.length_work]
    exact Nat.lt_succ_of_le (Nat.add_le_add_left (Nat.sub_le _ _) _)
  let I : DfaBuild → Prop := fun b ↦
    BuildInv nfa ec.nclasses (succSet nfa (classReps ec)) b ∧
      QueuedOrDone ec.nclasses (succSet nfa (classReps ec)) b ∧
      b.condStarts = b₀.condStarts ∧ b₀.idToSet <+: b.idToSet
  have hstep : ∀ b, I b → (!b.work.isEmpty) = true → ∃ b',
      DfaBuild.workBody nfa ec.nclasses (classReps ec) b = some b' ∧ I b' ∧
        buildMeasure nfa b' < buildMeasure nfa b := by
    intro b h hw
    rcases h with ⟨hinv, hd, hc, hp⟩
    obtain ⟨b', hrun, ⟨hinv', hd', hc', hp'⟩, hm⟩ := hinv.workBody hs hd hw
    exact ⟨b', hrun, ⟨hinv', hd', hc'.trans hc, hp.trans hp'⟩, hm⟩
  have h₁ : I b₀ := ⟨h₀.inv, h₀.queued, rfl, List.prefix_refl _⟩
  obtain ⟨b, hrun, ⟨hinv, hdone, hcond, hset⟩, hempty⟩ :=
    exists_whileFuel I (buildMeasure nfa) hstep h₁ hfuel
  rw [Bool.not_eq_false', List.isEmpty_iff] at hempty
  refine ⟨{ states := b.states, condStarts := b.condStarts, eclasses := ec, nclasses := ec.nclasses,
            metaIds := (if computeMeta then computeMetaClasses b.states ec.nclasses else ([], 0)).1
            nmeta := (if computeMeta then computeMetaClasses b.states ec.nclasses else ([], 0)).2 },
    b.idToSet, ?_, ⟨hinv.length_states, hinv.head_states, hinv.nodup, hinv.good,
    fun i set hi ↦ ?_, ?_, rfl, hv⟩⟩
  · simp only [buildDfa, hec, Option.bind_eq_bind, Option.bind_some, hseed, hrun]
    rfl
  · obtain ⟨st, hst, hrow⟩ := hinv.row i set hi
    refine ⟨st, hst, hrow.accept, hrow.length_next, fun a ↦ ⟨_, succSet_of hn hv hsep set a, ?_⟩⟩
    have hfilled := (hdone i (List.getElem?_eq_some_iff.1 hi).1).resolve_left (by simp [hempty])
    exact hfilled set st hi hst _ (hv.of_lt a)
  · rw [hcond]
    exact h₀.starts.imp fun _ _ ↦ StartOk.mono hset

/-! ## Runs -/

namespace DFA.Exact

variable {nfa : NFA} {dfa : DFA} {sets : List StateSet}

theorem nextState_of_state (h : DFA.Exact nfa dfa sets) {i : Nat} {set : StateSet}
    (hi : sets[i]? = some set) (b : Byte) :
    ∃ n, nfa.step set b = some n ∧ Points sets n (dfa.nextState ((i + 1 : Nat) : Int) b) := by
  obtain ⟨st, hst, -, -, hb⟩ := h.row i set hi
  obtain ⟨n, hn, hp⟩ := hb b
  refine ⟨n, hn, ?_⟩
  rw [DFA.nextState, if_neg (by omega), Int.toNat_natCast, hst]
  exact hp

/-- The state reached by a word stands for the NFA states the word reaches. -/
theorem follow_cases (h : DFA.Exact nfa dfa sets) (hn : nfa.InRange) {cs : CondStart}
    {ds : DFAStart} (hs : StartOk nfa sets cs ds) (bol : Bool) (w : List Byte) :
    (dfa.follow (ds.entry bol) w = -1 ∧ nfa.auto.evalFrom {cs.entry bol} w = ∅) ∨
    ∃ i set, dfa.follow (ds.entry bol) w = (i + 1 : Nat) ∧ sets[i]? = some set ∧
      {q | q ∈ set} = nfa.auto.evalFrom {cs.entry bol} w := by
  induction w using List.reverseRecOn with
  | nil =>
      obtain ⟨i, set, he, hi, hset⟩ := hs bol
      refine Or.inr ⟨i, set, congrArg Nat.cast he, hi, ?_⟩
      rw [εNFA.evalFrom_nil]
      exact Set.ext hset
  | append_singleton w a ih =>
      rw [DFA.follow, List.foldl_concat, εNFA.evalFrom_append_singleton]
      change (dfa.nextState (dfa.follow _ w) a = _ ∧ _) ∨ ∃ i set, dfa.nextState (dfa.follow _ w) a =
        _ ∧ _
      rcases ih with ⟨hw, he⟩ | ⟨i, set, hw, hi, hset⟩
      · rw [hw, he, εNFA.stepSet_empty]
        exact Or.inl ⟨rfl, rfl⟩
      · rw [hw, ← hset]
        obtain ⟨n, hstep, hp⟩ := h.nextState_of_state hi a
        obtain ⟨out, hout, -, hmem⟩ := NFA.exists_step hn set a
        obtain rfl : out = n := Option.some.inj (hout.symm.trans hstep)
        have hout' : {q | q ∈ out} = nfa.auto.stepSet {q | q ∈ set} a := Set.ext hmem
        rcases hp with ⟨rfl, ht⟩ | ⟨-, j, hj, ht⟩
        · refine Or.inl ⟨ht, ?_⟩
          rw [← hout']
          simp
        · exact Or.inr ⟨j, out, ht, hj, hout'⟩

/-- Distinct states stand for distinct sets. -/
theorem sets_inj (h : DFA.Exact nfa dfa sets) {i j : Nat} {set set' : StateSet}
    (hi : sets[i]? = some set) (hj : sets[j]? = some set') (he : ∀ q, q ∈ set ↔ q ∈ set') :
    i = j := by
  have hset : set = set' := (h.good set (List.mem_of_getElem? hi)).sorted.eq_of_mem_iff
    (h.good set' (List.mem_of_getElem? hj)).sorted he
  obtain ⟨hi', hi⟩ := List.getElem?_eq_some_iff.1 hi
  obtain ⟨hj', hj⟩ := List.getElem?_eq_some_iff.1 hj
  exact h.nodup.getElem_inj_iff.1 (hi.trans (hset.trans hj.symm))

end DFA.Exact

/-- **The subset construction is exact.**  It ends, and the state reached from an entry
by a word is `-1` exactly if the word reaches no NFA state, and else has the accepts
and the markers of the NFA states it reaches; each state other than the dead one
stands for a set of its own. -/
theorem buildDfa_exact {nfa : NFA} (hn : nfa.InRange) (useEclasses computeMeta : Bool) :
    ∃ (dfa : DFA) (sets : List StateSet), buildDfa nfa useEclasses computeMeta = some dfa ∧
      dfa.states.length = sets.length + 1 ∧
      (∀ (i j : Nat) (set set' : StateSet), sets[i]? = some set → sets[j]? = some set' →
        (∀ q, q ∈ set ↔ q ∈ set') → i = j) ∧
      dfa.condStarts.length = nfa.condStarts.length ∧
      ∀ (c : Nat) (cs : CondStart) (ds : DFAStart) (bol : Bool),
        nfa.condStarts[c]? = some cs → dfa.condStarts[c]? = some ds → ∀ w : List Byte,
        (dfa.follow (ds.entry bol) w = -1 ↔ ∀ q, w ∉ nfa.auto.between (cs.entry bol) q) ∧
        (dfa.follow (ds.entry bol) w ≠ -1 → ∃ (i : Nat) (set : StateSet) (st : DFAState),
          dfa.follow (ds.entry bol) w = (i + 1 : Nat) ∧ dfa.states[i + 1]? = some st ∧
          sets[i]? = some set ∧ (∀ q, q ∈ set ↔ w ∈ nfa.auto.between (cs.entry bol) q) ∧
          nfa.IsAcceptOf {q | w ∈ nfa.auto.between (cs.entry bol) q} st.accepts) := by
  obtain ⟨dfa, sets, hrun, h⟩ := exists_buildDfa hn useEclasses computeMeta
  refine ⟨dfa, sets, hrun, h.length_states, fun i j set set' hi hj ↦ h.sets_inj hi hj,
    h.starts.length_eq.symm, fun c cs ds bol hcs hds w ↦ ?_⟩
  have hs : StartOk nfa sets cs ds := by
    obtain ⟨hc, rfl⟩ := List.getElem?_eq_some_iff.1 hcs
    obtain ⟨hc', rfl⟩ := List.getElem?_eq_some_iff.1 hds
    exact h.starts.get hc hc'
  have hreach : {q | w ∈ nfa.auto.between (cs.entry bol) q} =
      nfa.auto.evalFrom {cs.entry bol} w := rfl
  rcases h.follow_cases hn hs bol w with ⟨hw, he⟩ | ⟨i, set, hw, hi, hset⟩
  · refine ⟨⟨fun _ q hq ↦ ?_, fun _ ↦ hw⟩, fun hne ↦ absurd hw hne⟩
    rw [εNFA.mem_between, he] at hq
    exact hq
  · obtain ⟨st, hst, hacc, -⟩ := h.row i set hi
    have hne := (h.good set (List.mem_of_getElem? hi)).ne_nil
    refine ⟨⟨fun hw' ↦ by omega, fun hno ↦ ?_⟩, fun _ ↦ ⟨i, set, st, hw, hst, hi, fun q ↦ ?_, ?_⟩⟩
    · obtain ⟨q, hq⟩ := List.exists_mem_of_ne_nil set hne
      have hq' : q ∈ nfa.auto.evalFrom {cs.entry bol} w := hset ▸ hq
      exact absurd hq' (hno q)
    · change q ∈ {q | q ∈ set} ↔ q ∈ nfa.auto.evalFrom {cs.entry bol} w
      rw [hset]
    · rw [hreach, ← hset, hacc]
      exact nfa.isAcceptOf_acceptFor set

/-- An automaton with a loop on byte 0 and an ε-edge to an accept. -/
theorem buildDfa_exact_loop :
    NFA.InRange { states := [⟨[⟨0, ⟨1⟩⟩, ⟨1, {}⟩], -1, false⟩, ⟨[], 0, true⟩]
                  condStarts := [⟨0, 1⟩]
                  ruleEol := [false], ruleBoundaryStates := [[1]] } ∧
    ∃ dfa : DFA, buildDfa { states := [⟨[⟨0, ⟨1⟩⟩, ⟨1, {}⟩], -1, false⟩, ⟨[], 0, true⟩]
                            condStarts := [⟨0, 1⟩]
                            ruleEol := [false], ruleBoundaryStates := [[1]] } true true = some dfa ∧
      dfa.condStarts.length = 1 :=
  have hn : NFA.InRange { states := [⟨[⟨0, ⟨1⟩⟩, ⟨1, {}⟩], -1, false⟩, ⟨[], 0, true⟩]
                          condStarts := [⟨0, 1⟩]
                          ruleEol := [false], ruleBoundaryStates := [[1]] } :=
    ⟨by decide, by decide⟩
  ⟨hn, (buildDfa_exact hn true true).imp fun _ ⟨_, hrun, _, _, hlen, _⟩ ↦ ⟨hrun, hlen⟩⟩

end LexCpp
