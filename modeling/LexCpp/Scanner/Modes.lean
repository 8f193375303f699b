import LexCpp.Scanner.Reject

/-!
# The three modes

The modes number their states differently, so their scanners are compared by a
bisimulation: two states agree if every word either jams from both or leads to equal
rows.  The scan loops of both bodies keep agreeing states in step, and so record and
select the same.
-/

namespace LexCpp

namespace Tables

/-- The tables that do not depend on the DFA are the same. -/
structure SameRules (t t' : Tables) : Prop where
  yyRuleTrailLen : t.yyRuleTrailLen = t'.yyRuleTrailLen
  yyRuleEol : t.yyRuleEol = t'.yyRuleEol
  yyBoundary : t.yyBoundary.isSome = t'.yyBoundary.isSome
  yyAccept : t.yyAccept.isSome = t'.yyAccept.isSome

/-- No word tells the two states apart. -/
structure Agree (t t' : Tables) (s s' : Int) : Prop where
  jam_iff : ∀ w, t.follow s w < 0 ↔ t'.follow s' w < 0
  hasRow : ∀ w, 0 ≤ t.follow s w →
    ∃ p, t.HasRow (t.follow s w) p ∧ t'.HasRow (t'.follow s' w) p

variable {t t' : Tables} {s s' : Int}

/-- The rows of two states that agree. -/
structure SameRow (t t' : Tables) (s s' : Int) : Prop where
  acceptNormal : t.acceptNormal s = t'.acceptNormal s'
  acceptEol : t.acceptEol s = t'.acceptEol s'
  acceptRow : t.acceptRow s = t'.acceptRow s'
  boundaryRow : t.boundaryRow s = t'.boundaryRow s'

theorem acceptRow_of_none (h : ¬ t.yyAccept.isSome) : t.acceptRow s = [] := by
  rw [acceptRow, Option.not_isSome_iff_eq_none.1 h]
  rfl

theorem boundaryRow_of_none (h : ¬ t.yyBoundary.isSome) : t.boundaryRow s = [] := by
  rw [boundaryRow, Option.not_isSome_iff_eq_none.1 h]
  rfl

theorem Agree.sameRow (hr : SameRules t t') (h : Agree t t' s s') (hs : 0 ≤ s) :
    SameRow t t' s s' := by
  obtain ⟨p, hp, hp'⟩ := h.hasRow [] hs
  rw [follow_nil] at hp hp'
  refine ⟨hp.normal.trans hp'.normal.symm, hp.eol.trans hp'.eol.symm, ?_, ?_⟩
  · by_cases ha : t.yyAccept.isSome
    · exact (hp.list ha).trans (hp'.list (hr.yyAccept ▸ ha)).symm
    · rw [acceptRow_of_none ha, acceptRow_of_none (hr.yyAccept ▸ ha)]
  · by_cases hb : t.yyBoundary.isSome
    · exact (hp.boundary hb).trans (hp'.boundary (hr.yyBoundary ▸ hb)).symm
    · rw [boundaryRow_of_none hb, boundaryRow_of_none (hr.yyBoundary ▸ hb)]

/-- **One byte** keeps states in agreement, or jams from both. -/
theorem Agree.transition (h : Agree t t' s s') (hs : 0 ≤ s) (hs' : 0 ≤ s') (b : Byte) :
    (t.transition s b < 0 ↔ t'.transition s' b < 0) ∧
      Agree t t' (t.transition s b) (t'.transition s' b) := by
  have hcons : ∀ w, t.follow s (b :: w) = t.follow (t.transition s b) w := fun w ↦ by
    rw [follow, List.foldl_cons, if_neg (not_lt.2 hs)]
    rfl
  have hcons' : ∀ w, t'.follow s' (b :: w) = t'.follow (t'.transition s' b) w := fun w ↦ by
    rw [follow, List.foldl_cons, if_neg (not_lt.2 hs')]
    rfl
  refine ⟨?_, fun w ↦ ?_, fun w hw ↦ ?_⟩
  · have hjam := h.jam_iff [b]
    rwa [hcons, hcons', follow_nil, follow_nil] at hjam
  · rw [← hcons, ← hcons']
    exact h.jam_iff (b :: w)
  · rw [← hcons] at hw
    rw [← hcons, ← hcons']
    exact h.hasRow (b :: w) hw

end Tables

open Tables

variable {t t' : Tables}

/-! ## Both scans in step -/

/-- Two scans that differ in the state only, by states that agree. -/
structure ScanAgree (t t' : Tables) (s s' : Scan) : Prop where
  agree : Tables.Agree t t' s.yyState s'.yyState
  nonneg : 0 ≤ s.yyState
  eq : s' = { s with yyState := s'.yyState }

theorem ScanAgree.nonneg' {s s' : Scan} (h : ScanAgree t t' s s') : 0 ≤ s'.yyState :=
  not_lt.1 (mt (h.agree.jam_iff []).2 (not_lt.2 h.nonneg))

theorem ScanAgree.record (hr : SameRules t t') {s s' : Scan} (h : ScanAgree t t' s s') (mb : Nat) :
    ScanAgree t t' (s.record t mb) (s'.record t' mb) := by
  have hrow := h.agree.sameRow hr h.nonneg
  refine ⟨h.agree, h.nonneg, ?_⟩
  rw [h.eq]
  simp only [Scan.record, Scan.recordBoundary, Scan.recordAccept, hrow.acceptNormal,
    hrow.acceptEol, hrow.boundaryRow, hr.yyBoundary]

theorem ScanAgree.loop (hr : SameRules t t') (mb : Nat) (l : List Byte) {s s' : Scan}
    (h : ScanAgree t t' s s') : ScanAgree t t' (Scan.loop t mb l s) (Scan.loop t' mb l s') := by
  induction l generalizing s s' with
  | nil => exact h
  | cons b l ih =>
      obtain ⟨hjam, hagree⟩ := h.agree.transition h.nonneg h.nonneg' b
      unfold Scan.loop
      simp only
      by_cases hneg : t.transition s.yyState b < 0
      · rwa [if_pos hneg, if_pos (hjam.1 hneg)]
      · rw [if_neg hneg, if_neg (mt hjam.2 hneg)]
        have hnew : ScanAgree t t' { s with yyState := t.transition s.yyState b, yyScan := s.yyScan + 1 }
            { s' with yyState := t'.transition s'.yyState b, yyScan := s'.yyScan + 1 } := by
          refine ⟨hagree, not_lt.1 hneg, ?_⟩
          rw [h.eq]
        exact ih (hnew.record hr mb)

/-- The scans of agreeing entries. -/
theorem scanFrom_agree (hr : SameRules t t') {c : Nat} {atBol : Bool}
    (h : Tables.Agree t t' (t.entry c atBol) (t'.entry c atBol)) (hs : 0 ≤ t.entry c atBol)
    (buf : List Byte) (mb : Nat) :
    ScanAgree t t' (scanFrom t buf mb c atBol) (scanFrom t' buf mb c atBol) := by
  have hstart : ScanAgree t t'
      { yyState := t.entry c atBol, yyScan := mb
        boundaryPos := List.replicate t.yyRuleTrailLen.length (-1) }
      { yyState := t'.entry c atBol, yyScan := mb
        boundaryPos := List.replicate t'.yyRuleTrailLen.length (-1) } := by
    refine ⟨h, hs, ?_⟩
    rw [hr.yyRuleTrailLen]
  exact (hstart.record hr mb).loop hr mb _

/-- Two scans with `REJECT` that differ in the state only, by states that agree. -/
structure RejectAgree (t t' : Tables) (s s' : RejectScan) : Prop where
  agree : Tables.Agree t t' s.yyState s'.yyState
  nonneg : 0 ≤ s.yyState
  eq : s' = { s with yyState := s'.yyState }

theorem RejectAgree.nonneg' {s s' : RejectScan} (h : RejectAgree t t' s s') : 0 ≤ s'.yyState :=
  not_lt.1 (mt (h.agree.jam_iff []).2 (not_lt.2 h.nonneg))

theorem RejectAgree.record (hr : SameRules t t') {s s' : RejectScan} (h : RejectAgree t t' s s')
    (buf : List Byte) (mb : Nat) :
    RejectAgree t t' (s.record t buf mb) (s'.record t' buf mb) := by
  have hrow := h.agree.sameRow hr h.nonneg
  refine ⟨h.agree, h.nonneg, ?_⟩
  rw [h.eq]
  simp only [RejectScan.record, RejectScan.collect, ruleEol, hrow.acceptRow, hr.yyRuleEol]

theorem RejectAgree.loop (hr : SameRules t t') (buf : List Byte) (mb : Nat) (l : List Byte)
    {s s' : RejectScan} (h : RejectAgree t t' s s') :
    RejectAgree t t' (RejectScan.loop t buf mb l s) (RejectScan.loop t' buf mb l s') := by
  induction l generalizing s s' with
  | nil => exact h
  | cons b l ih =>
      obtain ⟨hjam, hagree⟩ := h.agree.transition h.nonneg h.nonneg' b
      unfold RejectScan.loop
      simp only
      by_cases hneg : t.transition s.yyState b < 0
      · rwa [if_pos hneg, if_pos (hjam.1 hneg)]
      · rw [if_neg hneg, if_neg (mt hjam.2 hneg)]
        have hnew : RejectAgree t t'
            { s with yyState := t.transition s.yyState b, yyScan := s.yyScan + 1 }
            { s' with yyState := t'.transition s'.yyState b, yyScan := s'.yyScan + 1 } := by
          refine ⟨hagree, not_lt.1 hneg, ?_⟩
          rw [h.eq]
        exact ih (hnew.record hr buf mb)

theorem matchLens_agree (hr : SameRules t t') {c : Nat} {atBol : Bool}
    (h : Tables.Agree t t' (t.entry c atBol) (t'.entry c atBol)) (hs : 0 ≤ t.entry c atBol)
    (buf : List Byte) (mb : Nat) : matchLens t buf mb c atBol = matchLens t' buf mb c atBol := by
  have hstart : RejectAgree t t'
      { yyState := t.entry c atBol, yyScan := mb
        matchLens := List.replicate t.yyRuleTrailLen.length (-1) }
      { yyState := t'.entry c atBol, yyScan := mb
        matchLens := List.replicate t'.yyRuleTrailLen.length (-1) } := by
    refine ⟨h, hs, ?_⟩
    rw [hr.yyRuleTrailLen]
  exact (congrArg RejectScan.matchLens ((hstart.record hr buf mb).loop hr buf mb _).eq).symm

/-! ## The modes agree -/

/-- Tables that describe one automaton agree from every entry. -/
theorem Tables.Describes.agree {nfa : NFA} (h : t.Describes nfa) (h' : t'.Describes nfa) {c : Nat}
    {cs : CondStart} (hcs : nfa.condStarts[c]? = some cs) (b : Bool) :
    Tables.Agree t t' (t.entry c b) (t'.entry c b) := by
  have hjam : ∀ w, t.follow (t.entry c b) w < 0 ↔ t'.follow (t'.entry c b) w < 0 := fun w ↦
    (h.jam_iff c cs b hcs w).trans (h'.jam_iff c cs b hcs w).symm
  refine ⟨hjam, fun w hw ↦ ?_⟩
  obtain ⟨p, hp, hrow⟩ := h.hasRow c cs b hcs w hw
  obtain ⟨p', hp', hrow'⟩ := h'.hasRow c cs b hcs w (not_lt.1 (mt (hjam w).2 (not_lt.2 hw)))
  exact ⟨p, hrow, hp.unique hp' ▸ hrow'⟩

/-- A run that jams, jams at one byte. -/
theorem exists_jam {s : Int} {w : List Byte} (hs : 0 ≤ s) (hw : t.follow s w < 0) :
    ∃ n < w.length, 0 ≤ t.follow s (w.take n) ∧ t.follow s (w.take (n + 1)) < 0 := by
  induction w using List.reverseRecOn with
  | nil => exact absurd hw (not_lt.2 hs)
  | append_singleton w b ih =>
      by_cases hw' : t.follow s w < 0
      · obtain ⟨n, hn, h₁, h₂⟩ := ih hw'
        refine ⟨n, by simp; omega, ?_, ?_⟩
        · rwa [List.take_append_of_le_length hn.le]
        · rwa [List.take_append_of_le_length hn]
      · refine ⟨w.length, by simp, ?_, ?_⟩
        · rw [List.take_left' rfl]
          exact not_lt.1 hw'
        · rwa [List.take_of_length_le (by simp)]

/-- **The three modes scan identically.**  Every word either jams in all of them at the
same byte, or leaves them in states of equal accepts and markers; so all of them select
the same, with `REJECT` and without. -/
theorem modes_agree {nfa : NFA} (hn : nfa.InRange) (std : StdSort Nat) (usesReject : Bool) :
    ∃ (dfa : CompressMode → DFA) (t : CompressMode → Tables),
      (∀ m, generate std m usesReject nfa = some (dfa m, t m)) ∧
      ∀ c < nfa.condStarts.length, ∀ atBol : Bool,
        (∀ w : List Byte,
          (∃ n < w.length, ∀ m, 0 ≤ (t m).follow ((t m).entry c atBol) (w.take n) ∧
            (t m).follow ((t m).entry c atBol) (w.take (n + 1)) < 0) ∨
          ∃ p : AcceptPair, ∀ m, 0 ≤ (t m).follow ((t m).entry c atBol) w ∧
            (t m).HasRow ((t m).follow ((t m).entry c atBol) w) p ∧
            ∃ st, (dfa m).states[((t m).follow ((t m).entry c atBol) w).toNat]? = some st ∧
              st.accepts = p) ∧
        ∀ m m' (buf : List Byte) (mb : Nat),
          lexSelect (t m) buf mb c atBol = lexSelect (t m') buf mb c atBol ∧
          (scanFrom (t m) buf mb c atBol).boundaryPos =
            (scanFrom (t m') buf mb c atBol).boundaryPos ∧
          rejectSelect (t m) buf mb c atBol = rejectSelect (t m') buf mb c atBol := by
  choose dfa t hgen hd ha he hst using fun m ↦ exists_generate hn std m usesReject
  refine ⟨dfa, t, hgen, fun c hc atBol ↦ ?_⟩
  obtain ⟨cs, hcs⟩ : ∃ cs, nfa.condStarts[c]? = some cs := ⟨_, List.getElem?_eq_getElem hc⟩
  have hagree : ∀ m m', Tables.Agree (t m) (t m') ((t m).entry c atBol) ((t m').entry c atBol) :=
    fun m m' ↦ (hd m).agree (hd m') hcs atBol
  have hrules : ∀ m m', SameRules (t m) (t m') := by
    intro m m'
    refine ⟨(hd m).yyRuleTrailLen_eq.trans (hd m').yyRuleTrailLen_eq.symm, ?_,
      (hd m).boundary_isSome.trans (hd m').boundary_isSome.symm, (ha m).trans (ha m').symm⟩
    have hsome : (t m).yyRuleEol.isSome = (t m').yyRuleEol.isSome := (he m).trans (he m').symm
    cases hm : (t m).yyRuleEol with
    | none =>
        rw [hm, Option.isSome_none] at hsome
        exact (Option.isSome_eq_false_iff.1 hsome.symm |> Option.isNone_iff_eq_none.1).symm
    | some l =>
        obtain ⟨l', hm'⟩ := Option.isSome_iff_exists.1 (hsome ▸ Option.isSome_iff_exists.2 ⟨l, hm⟩)
        rw [hm', (hd m).yyRuleEol_eq l hm, (hd m').yyRuleEol_eq l' hm']
  refine ⟨fun w ↦ ?_, fun m m' buf mb ↦ ?_⟩
  · by_cases hjam : (t .full).follow ((t .full).entry c atBol) w < 0
    · obtain ⟨n, hn', h₁, h₂⟩ := exists_jam ((hd .full).entry_nonneg c cs atBol hcs) hjam
      refine Or.inl ⟨n, hn', fun m ↦ ⟨?_, ((hagree .full m).jam_iff _).1 h₂⟩⟩
      exact not_lt.1 (mt ((hagree .full m).jam_iff _).2 (not_lt.2 h₁))
    · have hnonneg : ∀ m, 0 ≤ (t m).follow ((t m).entry c atBol) w := fun m ↦
        not_lt.1 (mt ((hagree .full m).jam_iff w).2 hjam)
      obtain ⟨st, -, hacc, -⟩ := hst .full c cs atBol hcs w (hnonneg .full)
      refine Or.inr ⟨st.accepts, fun m ↦ ⟨hnonneg m, ?_⟩⟩
      obtain ⟨st', hst', hacc', hrow'⟩ := hst m c cs atBol hcs w (hnonneg m)
      have heq := hacc'.unique hacc
      exact ⟨heq ▸ hrow', st', hst', heq⟩
  · have hpos := (hd m).entry_nonneg c cs atBol hcs
    have hscan := (scanFrom_agree (hrules m m') (hagree m m') hpos buf mb).eq
    refine ⟨?_, ?_, congrArg findBest (matchLens_agree (hrules m m') (hagree m m') hpos buf mb)⟩
    · rw [lexSelect, lexSelect, hscan]
      rfl
    · rw [hscan]

/-- An automaton with a loop on byte 0 and an ε-edge to an accept. -/
theorem modes_agree_loop :
    NFA.InRange { states := [⟨[⟨0, ⟨1⟩⟩, ⟨1, {}⟩], -1, false⟩, ⟨[], 0, true⟩]
                  condStarts := [⟨0, 1⟩]
                  ruleEol := [false], ruleTrail := [0], ruleBoundaryStates := [[1]] } ∧
    ∃ t : CompressMode → Tables, ∀ m m' (buf : List Byte) (mb : Nat),
      lexSelect (t m) buf mb 0 true = lexSelect (t m') buf mb 0 true :=
  have hn : NFA.InRange { states := [⟨[⟨0, ⟨1⟩⟩, ⟨1, {}⟩], -1, false⟩, ⟨[], 0, true⟩]
                          condStarts := [⟨0, 1⟩]
                          ruleEol := [false], ruleTrail := [0], ruleBoundaryStates := [[1]] } :=
    ⟨by decide, by decide⟩
  have ⟨_, t, _, h⟩ := modes_agree hn (.insertion Nat) false
  ⟨hn, t, fun m m' buf mb ↦ ((h 0 (by decide) true).2 m m' buf mb).1⟩

end LexCpp
