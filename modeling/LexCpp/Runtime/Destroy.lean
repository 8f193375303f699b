import LexCpp.Runtime.Alike
import LexCpp.Runtime.Formed
import LexCpp.Runtime.StateStack

/-!
# After `yylex_destroy`

`yylex_destroy` frees the buffers and the stack of start conditions.  It leaves the rest of the
state as it is: the start condition, what `yy_state_stack_max` and `yy_state_stack_top` say of
the stack it has freed, an offset of `yymore`, `yyin`, the text that is still sealed, and
`yylineno`.
-/

namespace LexCpp

namespace Runtime

/-- `yyin` after the loop of `yylex_destroy`: it follows the buffers down the stack. -/
def yyinLeft (s : Runtime) : Option Nat :=
  match s.slot 0 with
  | none => s.yyin
  | some b => if s.current ≠ none ∧ 0 < s.bufferStackTop then (s.buf b).inputFile else s.yyin

/-- What `yylex_destroy` leaves as it is has not changed since the start, and the text, if it is
sealed, is not in a buffer that it frees. -/
structure AtStart (s : Runtime) : Prop where
  phase : s.phase = .outside
  start : s.start = 0
  stateStackMax : s.stateStackMax = 0
  stateStackTop : s.stateStackTop = 0
  moreOffset : s.moreOffset = 0
  yyinLeft : s.yyinLeft = none ∨ s.yyinLeft = some stdin
  text : ∀ b, s.SealedIn b →
    s.Live b ∧ (s.current ≠ none → ∀ i ≤ s.bufferStackTop, s.slot i ≠ some b)

variable {s : Runtime}

/-! ## The loop of `yylex_destroy` -/

/-- What popping changes. -/
theorem popBufferState_eq (s : Runtime) : ∃ heap stack top yyin, heap.length = s.heap.length ∧
    s.popBufferState =
      { s with heap := heap, bufferStack := stack, bufferStackTop := top, yyin := yyin } := by
  have hfreed : ∃ heap, heap.length = s.heap.length ∧
      s.deleteBuffer s.current = { s with heap := heap } := by
    cases s.current with
    | none => exact ⟨s.heap, rfl, rfl⟩
    | some b => exact ⟨_, length_modifyBuf, rfl⟩
  have hfollow : ∀ (s : Runtime) (b : Option Nat), ∃ yyin, s.followFile b = { s with yyin := yyin } := by
    intro s b
    cases b with
    | none => exact ⟨s.yyin, rfl⟩
    | some b => exact ⟨_, rfl⟩
  obtain ⟨heap, hlen, hfreed⟩ := hfreed
  unfold popBufferState
  split_ifs with hst
  · rw [hfreed]
    simp only
    split_ifs
    · obtain ⟨yyin, hyyin⟩ := hfollow
        { Runtime.setCurrent none { s with heap := heap } with bufferStackTop := s.bufferStackTop - 1 }
        (Runtime.current { Runtime.setCurrent none { s with heap := heap } with
          bufferStackTop := s.bufferStackTop - 1 })
      exact ⟨heap, _, _, yyin, hlen, hyyin⟩
    · exact ⟨heap, _, s.bufferStackTop, s.yyin, hlen, rfl⟩
  · exact ⟨s.heap, s.bufferStack, s.bufferStackTop, s.yyin, rfl, rfl⟩

theorem drain_eq (n : Nat) (s : Runtime) : ∃ heap stack top yyin, heap.length = s.heap.length ∧
    s.drain n =
      { s with heap := heap, bufferStack := stack, bufferStackTop := top, yyin := yyin } := by
  induction n generalizing s with
  | zero => exact ⟨s.heap, s.bufferStack, s.bufferStackTop, s.yyin, rfl, rfl⟩
  | succ n ih =>
      unfold drain
      split_ifs
      · obtain ⟨heap, stack, top, yyin, hlen, hpop⟩ := popBufferState_eq s
        obtain ⟨heap', stack', top', yyin', hlen', hdrain⟩ := ih s.popBufferState
        refine ⟨heap', stack', top', yyin', ?_, ?_⟩
        · rw [hlen', hpop]
          exact hlen
        · rw [hdrain, hpop]
      · exact ⟨s.heap, s.bufferStack, s.bufferStackTop, s.yyin, rfl, rfl⟩

theorem Live.popBufferState {b : Nat} (hb : s.Live b) (hcur : s.current ≠ some b) :
    s.popBufferState.Live b := by
  have hbuf : s.popBufferState.buf b = (s.deleteBuffer s.current).buf b := by
    unfold buf
    rw [heap_popBufferState]
  have hlen : s.popBufferState.heap.length = (s.deleteBuffer s.current).heap.length := by
    rw [heap_popBufferState]
  unfold Live
  rw [hbuf, hlen]
  cases hc : s.current with
  | none => exact hb
  | some c => exact hb.deleteBuffer fun he ↦ hcur (hc.trans (congrArg some he.symm))

theorem inputFile_popBufferState (s : Runtime) (b : Nat) :
    (s.popBufferState.buf b).inputFile = (s.buf b).inputFile := by
  have hbuf : s.popBufferState.buf b = (s.deleteBuffer s.current).buf b := by
    unfold buf
    rw [heap_popBufferState]
  rw [hbuf]
  cases s.current with
  | none => rfl
  | some c => exact field_modifyBuf fun _ ↦ rfl

/-- A buffer that is not on the stack is not freed. -/
theorem live_drain (n : Nat) {b : Nat} (hb : s.Live b)
    (hstack : ∀ i ≤ s.bufferStackTop, s.slot i ≠ some b) : (s.drain n).Live b := by
  induction n generalizing s with
  | zero => exact hb
  | succ n ih =>
      unfold drain
      split_ifs
      · obtain ⟨hslot, htop, -⟩ := Inv.popBufferState_frame s
        refine ih (hb.popBufferState fun hcur ↦ ?_) fun i hi he ↦ ?_
        · exact hstack _ le_rfl (current_eq_slot.symm.trans hcur)
        · exact hstack i (hi.trans htop) (hslot i b he)
      · exact hb

/-- Popping down to another buffer. -/
theorem popBufferState_of_succ {k c : Nat} (hst : s.bufferStack ≠ none)
    (htop : s.bufferStackTop = k + 1) (hc : s.slot k = some c) :
    s.popBufferState.bufferStack ≠ none ∧ s.popBufferState.bufferStackTop = k ∧
      (∀ i ≤ k, s.popBufferState.slot i = s.slot i) ∧
      s.popBufferState.yyin = (s.buf c).inputFile := by
  have hdel : (s.deleteBuffer s.current).bufferStack = s.bufferStack ∧
      (s.deleteBuffer s.current).bufferStackTop = k + 1 ∧
      (∀ i, (s.deleteBuffer s.current).slot i = s.slot i) ∧
      ((s.deleteBuffer s.current).buf c).inputFile = (s.buf c).inputFile := by
    cases s.current with
    | none => exact ⟨rfl, htop, fun _ ↦ rfl, rfl⟩
    | some b => exact ⟨rfl, htop, fun _ ↦ rfl, field_modifyBuf fun _ ↦ rfl⟩
  generalize hdeleted : s.deleteBuffer s.current = x at hdel
  obtain ⟨hst', htop', hslot, hfile⟩ := hdel
  have hslot' : ∀ i ≤ k, (x.setCurrent none).slot i = s.slot i := by
    intro i hi
    rw [slot_setCurrent_of_ne (by omega), hslot]
  have hpop : s.popBufferState = Runtime.followFile (some c)
      { x.setCurrent none with bufferStackTop := k } := by
    have hcur : Runtime.current { x.setCurrent none with bufferStackTop := k } = some c := by
      rw [current_eq_slot]
      exact (hslot' k le_rfl).trans hc
    have hpos : 0 < (x.setCurrent none).bufferStackTop := by
      change 0 < x.bufferStackTop
      omega
    have hpred : (x.setCurrent none).bufferStackTop - 1 = k := by
      change x.bufferStackTop - 1 = k
      omega
    unfold popBufferState
    rw [if_pos (Option.isSome_iff_ne_none.2 hst), hdeleted]
    simp only
    rw [if_pos hpos, hpred, hcur]
  rw [hpop]
  refine ⟨fun hnone ↦ hst ?_, rfl, hslot', hfile⟩
  rw [← hst']
  exact Option.map_eq_none_iff.1 hnone

/-- Popping the last buffer. -/
theorem popBufferState_of_zero (htop : s.bufferStackTop = 0) :
    s.popBufferState.current = none ∧ s.popBufferState.yyin = s.yyin := by
  have hdel : (s.deleteBuffer s.current).bufferStackTop = 0 ∧
      (s.deleteBuffer s.current).yyin = s.yyin := by
    cases s.current with
    | none => exact ⟨htop, rfl⟩
    | some b => exact ⟨htop, rfl⟩
  have hnone : ((s.deleteBuffer s.current).setCurrent none).current = none := by
    rw [Option.eq_none_iff_forall_ne_some]
    intro c hc
    cases current_setCurrent hc
  unfold popBufferState
  split_ifs with hst
  · simp only
    rw [if_neg]
    · exact ⟨hnone, hdel.2⟩
    · exact hdel.1.le.not_gt
  · refine ⟨?_, rfl⟩
    unfold current
    rw [Option.not_isSome_iff_eq_none.1 hst]

/-- `yyin` follows the buffers down to the lowest one. -/
theorem yyin_drain {k b : Nat} (hst : s.bufferStack ≠ none) (htop : s.bufferStackTop = k)
    (hslots : ∀ i ≤ k, s.slot i ≠ none) (hb : s.slot 0 = some b) :
    (s.drain (k + 1)).yyin = if 0 < k then (s.buf b).inputFile else s.yyin := by
  have hcur : s.current.isSome = true := by
    rw [current_eq_slot, htop]
    exact Option.isSome_iff_ne_none.2 (hslots k le_rfl)
  unfold drain
  rw [if_pos hcur]
  induction k generalizing s with
  | zero =>
      obtain ⟨hnone, hyyin⟩ := popBufferState_of_zero htop
      exact hyyin
  | succ k ih =>
      obtain ⟨c, hc⟩ := Option.ne_none_iff_exists'.1 (hslots k (Nat.le_succ k))
      obtain ⟨hst', htop', hslot', hyyin⟩ := popBufferState_of_succ hst htop hc
      have hcur' : s.popBufferState.current.isSome = true := by
        rw [current_eq_slot, htop', hslot' k le_rfl, hc]
        rfl
      have hslots' : ∀ i ≤ k, s.popBufferState.slot i ≠ none := by
        intro i hi
        rw [hslot' i hi]
        exact hslots i (hi.trans (Nat.le_succ k))
      have hb' : s.popBufferState.slot 0 = some b := (hslot' 0 (Nat.zero_le k)).trans hb
      unfold drain
      rw [if_pos hcur', ih hst' htop' hslots' hb' hcur', if_pos (Nat.succ_pos k)]
      split_ifs with hk
      · exact inputFile_popBufferState s b
      · obtain rfl : k = 0 := Nat.eq_zero_of_not_pos hk
        obtain rfl := Option.some.inj (hc.symm.trans hb)
        exact hyyin

/-- Where `yylex_destroy` leaves `yyin`. -/
theorem yyin_destroy (h : s.Formed) : s.destroy.yyin = s.yyinLeft := by
  have hdestroy : s.destroy.yyin = (s.drain (s.bufferStackTop + 1)).yyin := rfl
  rw [hdestroy]
  unfold yyinLeft
  by_cases hcur : s.current = none
  · have hdrain : s.drain (s.bufferStackTop + 1) = s := by
      unfold drain
      rw [hcur]
      rfl
    rw [hdrain]
    cases s.slot 0 with
    | none => rfl
    | some b => exact (if_neg fun hno ↦ hno.1 hcur).symm
  · have hst : s.bufferStack ≠ none := fun hnone ↦ hcur (by unfold current; rw [hnone])
    have hslots : ∀ i ≤ s.bufferStackTop, s.slot i ≠ none := by
      intro i hi
      rcases Nat.lt_or_eq_of_le hi with hi | rfl
      · exact h.below hst i hi
      · rw [← current_eq_slot]
        exact hcur
    obtain ⟨b, hb⟩ := Option.ne_none_iff_exists'.1 (hslots 0 (Nat.zero_le _))
    rw [yyin_drain hst rfl hslots hb, hb]
    simp only [and_iff_right hcur]

/-! ## A new start -/

/-- A destroyed scanner looks like a new one. -/
theorem AtStart.alike (h : s.AtStart) (hs : s.Formed) :
    Alike s.heap.length (s.yylineno - 1) s.destroy (fresh s.files) := by
  obtain ⟨heap, stack, top, yyin, hlen, hdrain⟩ := drain_eq (s.bufferStackTop + 1) s
  have hdestroy : s.destroy = { s with
      heap := heap, bufferStack := none, bufferStackTop := top, yyin := yyin
      stateStack := [], initDone := false } := by
    unfold destroy
    rw [hdrain]
  have hyyin : yyin = s.yyinLeft := by
    rw [← yyin_destroy hs, hdestroy]
  have hlive : ∀ b p, s.yytext = some (b, p) → s.textActive = true →
      b < s.heap.length ∧ (s.destroy.buf b).frees = 0 := by
    intro b p hp hact
    obtain ⟨hb, hstack⟩ := h.text b ⟨hact, p, hp⟩
    have hdrained : (s.drain (s.bufferStackTop + 1)).Live b := by
      by_cases hcur : s.current = none
      · unfold drain
        rw [hcur]
        exact hb
      · exact live_drain _ hb (hstack hcur)
    exact ⟨hb.1, hdrained.2⟩
  have htext : TextAlike s.heap.length s.destroy (fresh s.files) := by
    cases hact : s.textActive with
    | false =>
        have hact' : s.destroy.textActive = false := by rw [hdestroy]; exact hact
        exact Or.inl ⟨hact', fun h ↦ absurd h Bool.false_ne_true⟩
    | true =>
        refine Or.inr ⟨rfl, fun b p hp ↦ hlive b p ?_ hact⟩
        rw [hdestroy] at hp
        exact hp
  rw [hdestroy] at htext ⊢
  exact {
    length := hlen
    buf := fun b ↦ by
      rw [buf_of_length_le (s := fresh s.files) (Nat.zero_le b)]
      exact buf_of_length_le (hlen.le.trans (Nat.le_add_right _ _))
    files := fun f ↦ SameBytes.refl _
    stack := rfl
    known := fun b hb ↦ absurd hb List.not_mem_nil
    top := fun hst ↦ absurd rfl hst
    stateStack := rfl
    stateStackMax := h.stateStackMax
    stateStackTop := h.stateStackTop
    start := h.start
    moreOffset := h.moreOffset
    phase := h.phase
    yylineno := by
      change s.yylineno = 1 + (s.yylineno - 1)
      omega
    moreFlag := fun h ↦ by cases h
    yyleng := fun h ↦ by cases h
    yyin := by
      change yyin = none ∨ _
      rw [hyyin]
      exact h.yyinLeft.imp_right fun hy ↦ ⟨Or.inl rfl, hy, rfl⟩
    text := htext }

theorem AtStart.stackAllocated (h : s.AtStart) : s.destroy.StackAllocated := by
  have hcontrol : (s.drain (s.bufferStackTop + 1)).control = s.control := control_drain s _
  obtain ⟨hmax, htop⟩ := Prod.mk.inj (Prod.mk.inj (Prod.mk.inj hcontrol).2).2
  refine ⟨?_, ?_⟩
  · change 0 = (s.drain (s.bufferStackTop + 1)).stateStackMax
    rw [hmax, h.stateStackMax]
  · change (s.drain (s.bufferStackTop + 1)).stateStackTop ≤
      (s.drain (s.bufferStackTop + 1)).stateStackMax
    rw [htop, h.stateStackTop]
    exact Nat.zero_le _

/-- **A destroyed scanner starts anew**, if what `yylex_destroy` leaves as it is has not
changed: what is seen of it from then on is what is seen of a new one, with the lines counted
on.  Nor does it load or store outside of the stack of start conditions. -/
theorem destroy_starts_anew (G : Grammar) (std : StdSort Nat) (mode : CompressMode)
    (usesReject : Bool) :
    ∃ dfa t, generate std mode usesReject G.nfa = some (dfa, t) ∧
      ∀ (nodefault : Bool) (eofRule : Nat → Bool) (files : Nat → List (List Byte))
        (history : List Call) (s : Runtime) (obs : List Obs),
        run t nodefault eofRule history (fresh files) = some (s, obs) → s.AtStart →
          ∀ cs : List Call, Call.input ∉ cs →
            (run t nodefault eofRule (cs.map (Call.shift s.heap.length)) s.destroy).map Prod.snd =
                (run t nodefault eofRule cs (fresh s.files)).map (fun r ↦
                  r.2.map (Obs.addLines (s.yylineno - 1))) ∧
              (Call.destroy ∉ cs → ∀ r, run t nodefault eofRule
                (cs.map (Call.shift s.heap.length)) s.destroy = some r →
                  ∀ o ∈ r.2, o.inside = true) := by
  obtain ⟨dfa, t, hgen, -⟩ := G.exists_tables std mode usesReject
  refine ⟨dfa, t, hgen, fun nodefault eofRule files history s obs hrun hs cs hcs ↦ ⟨?_, ?_⟩⟩
  · have halike := hs.alike (run_formed hrun)
    have hread : ∀ c ∈ cs, ∀ s : Runtime, s.ReadsNoChunk c := by
      intro c hc s
      cases c with
      | input => exact absurd hc hcs
      | _ => trivial
    have hstep : ∀ x x' c, Alike s.heap.length (s.yylineno - 1) x x' → x'.ReadsNoChunk c →
        Observed.Matched (Alike s.heap.length (s.yylineno - 1)) (Obs.addLines (s.yylineno - 1))
          (x.step t nodefault eofRule (c.shift s.heap.length))
          (x'.step t nodefault eofRule c) := fun _ _ _ h hc ↦ h.step hc
    have hmatched := Observed.lockstep hstep halike (Observed.along_of_forall hread _)
    exact hmatched.seen
  · intro hdestroy r hr
    refine hs.stackAllocated.run (fun hmem ↦ hdestroy ?_) hr
    obtain ⟨c, hc, hshift⟩ := List.mem_map.1 hmem
    cases c with
    | destroy => exact hc
    | _ => cases hshift

theorem destroy_starts_anew_scan :
    ∃ dfa t, generate (.insertion Nat) .compress false letterRule.nfa = some (dfa, t) ∧
      (run t false (fun _ ↦ false) [.pushState 1, .popState]
        ((fresh fun _ ↦ []).scanBytes [97]).popBufferState.destroy).map Prod.snd =
          some [.stored true, .loaded true 0] := by
  obtain ⟨dfa, t, hgen, h⟩ := destroy_starts_anew letterRule (.insertion Nat) .compress false
  refine ⟨dfa, t, hgen, ?_⟩
  have hs : (((fresh fun _ ↦ []).scanBytes [97]).popBufferState).AtStart :=
    ⟨rfl, rfl, rfl, rfl, rfl, Or.inl rfl, fun b hb ↦ absurd hb.1 Bool.false_ne_true⟩
  obtain ⟨hseen, -⟩ := h false (fun _ ↦ false) (fun _ ↦ []) [.scanBytes [97], .popBufferState] _ []
    rfl hs [.pushState 1, .popState] (by decide)
  exact hseen

/-- `yy_push_state` has allocated a stack of 16, and `yylex_destroy` has freed it.  The next
`yy_push_state` believes it to be there, as in a new scanner it is. -/
theorem pushState_after_destroy :
    ((generate (.insertion Nat) .fullEc false letterRule.nfa).bind fun g ↦
      ((run g.2 false (fun _ ↦ false) [.pushState 0, .destroy, .pushState 0]
          (fresh fun _ ↦ [])).bind fun r ↦
        (run g.2 false (fun _ ↦ false) [.pushState 0] (fresh fun _ ↦ [])).map fun r' ↦
          (r.2, r'.2))) =
      some ([.stored true, .stored false], [.stored true]) := by
  decide +kernel

end Runtime

end LexCpp
