import LexCpp.Runtime.Frame
import LexCpp.Runtime.Kept

/-!
# The stack of start conditions

Until `yylex_destroy` frees it, the allocation of `yy_state_stack` is as large as
`yy_state_stack_max` says, and nothing is stored or loaded outside of it.
-/

namespace LexCpp

namespace Runtime

variable {s : Runtime}

/-- A load or a store of the stack of start conditions is inside its allocation. -/
def Obs.inside : Obs → Bool
  | .stored i => i
  | .loaded i _ => i
  | _ => true

/-- The allocation is as large as `yy_state_stack_max` says. -/
def StackAllocated (s : Runtime) : Prop :=
  s.stateStack.length = s.stateStackMax ∧ s.stateStackTop ≤ s.stateStackMax

theorem StackAllocated.of_control {s' : Runtime} (h : s.StackAllocated)
    (hc : s'.control.2 = s.control.2) : s'.StackAllocated := by
  obtain ⟨hstack, hmax, htop⟩ : s'.stateStack = s.stateStack ∧
      s'.stateStackMax = s.stateStackMax ∧ s'.stateStackTop = s.stateStackTop := by
    obtain ⟨h₁, h₂⟩ := Prod.mk.inj hc
    exact ⟨h₁, Prod.mk.inj h₂⟩
  unfold StackAllocated
  rw [hstack, hmax, htop]
  exact h

theorem inside_unsealed (s : Runtime) : ∀ o ∈ s.unsealed, o.inside = true := by
  intro o ho
  unfold unsealed at ho
  cases hy : s.yytext with
  | none => simp [hy] at ho
  | some bp =>
      simp only [hy] at ho
      split_ifs at ho
      · exact List.mem_singleton.1 ho ▸ rfl
      · exact absurd ho List.not_mem_nil

theorem inside_scan (s : Runtime) (t : Tables) (nodefault : Bool) (eofRule : Nat → Bool) (b : Nat) :
    (s.scan t nodefault eofRule b).1.control.2 = s.control.2 ∧
      ∀ o ∈ (s.scan t nodefault eofRule b).2, o.inside = true := by
  unfold scan
  by_cases hend : (s.buf b).bufEnd ≤ (s.buf b).pos
  · rw [if_pos hend]
    refine ⟨rfl, fun o ho ↦ ?_⟩
    simp only [atEnd] at ho
    split_ifs at ho
    · exact List.mem_singleton.1 ho ▸ rfl
    · simp only [List.mem_cons, List.not_mem_nil, or_false] at ho
      rcases ho with rfl | rfl <;> rfl
  · rw [if_neg hend]
    cases bodyMatch t (s.lexer b).buf (s.buf b).pos s.start (s.buf b).atBol with
    | some m => exact ⟨rfl, fun o ho ↦ List.mem_singleton.1 ho ▸ rfl⟩
    | none =>
        simp only
        split_ifs
        · exact ⟨rfl, fun o ho ↦ List.mem_singleton.1 ho ▸ rfl⟩
        · exact ⟨rfl, fun o ho ↦ List.mem_singleton.1 ho ▸ rfl⟩

theorem StackAllocated.pushState (h : s.StackAllocated) (c : Nat) :
    (s.pushState c).1 = true ∧ (s.pushState c).2.StackAllocated := by
  have hgrow : ∀ {s : Runtime}, s.stateStack.length = s.stateStackMax →
      s.stateStackTop < s.stateStackMax →
        decide (s.stateStackTop < s.stateStack.length) = true ∧
        StackAllocated { s with
          stateStack := s.stateStack.set s.stateStackTop s.start
          stateStackTop := s.stateStackTop + 1
          start := c } := by
    intro s hlen htop
    exact ⟨decide_eq_true (hlen ▸ htop), List.length_set.trans hlen, htop⟩
  obtain ⟨hlen, htop⟩ := h
  unfold Runtime.pushState
  simp only
  split_ifs with hfull
  · refine hgrow ?_ ?_
    · unfold growStateStack
      simp only [List.length_take, List.length_append, List.length_replicate]
      omega
    · unfold growStateStack
      simp only
      split_ifs <;> omega
  · exact hgrow hlen (not_le.1 hfull)

theorem StackAllocated.popState (h : s.StackAllocated) :
    s.popState.1 = true ∧ s.popState.2.StackAllocated := by
  obtain ⟨hlen, htop⟩ := h
  unfold Runtime.popState
  split_ifs with hzero
  · exact ⟨rfl, hlen, htop⟩
  · exact ⟨decide_eq_true (by omega), hlen, (Nat.sub_le _ 1).trans htop⟩

/-- What is called keeps the allocation, unless it destroys it. -/
theorem StackAllocated.callee (h : s.StackAllocated) {c : Call} (hc : c ≠ .destroy) :
    (s.callee c).1.StackAllocated ∧ ∀ o ∈ (s.callee c).2, o.inside = true := by
  have hnone : ∀ o ∈ ([] : List Obs), o.inside = true := fun o ho ↦ absurd ho List.not_mem_nil
  have hone : ∀ o : Obs, o.inside = true → ∀ o' ∈ [o], o'.inside = true :=
    fun o ho o' ho' ↦ List.mem_singleton.1 ho' ▸ ho
  have hkeeps : ∀ {s' : Runtime}, s'.control = s.control → s'.StackAllocated :=
    fun hs' ↦ h.of_control (congrArg Prod.snd hs')
  cases c with
  | pushState c => exact ⟨(h.pushState c).2, hone _ (h.pushState c).1⟩
  | popState => exact ⟨h.popState.2, hone _ h.popState.1⟩
  | topState =>
      rw [callee_topState]
      unfold topState
      split_ifs with hzero
      · exact ⟨h, hone _ rfl⟩
      · exact ⟨h, hone _ (decide_eq_true (by have := h.1; have := h.2; omega))⟩
  | deleteBuffer b => exact ⟨hkeeps (control_deleteBuffer s b), hnone⟩
  | flushBuffer b => exact ⟨hkeeps (control_flushBuffer s b), hnone⟩
  | switchToBuffer b => exact ⟨hkeeps (control_switchToBuffer s b), hnone⟩
  | pushBufferState b => exact ⟨hkeeps (control_pushBufferState s b), hnone⟩
  | popBufferState => exact ⟨hkeeps (control_popBufferState s), hnone⟩
  | scanBytes bytes => exact ⟨hkeeps (control_scanBytes s bytes), hnone⟩
  | scanBuffer base => exact ⟨hkeeps (control_scanBuffer s base), hnone⟩
  | restart file => exact ⟨hkeeps (control_restart s file), hnone⟩
  | input =>
      refine ⟨hkeeps (control_input s), fun o ho ↦ ?_⟩
      exact (List.mem_append.1 ho).elim (inside_unsealed s o) (hone _ rfl o)
  | unput c => exact ⟨hkeeps (control_unput s c), inside_unsealed s⟩
  | destroy => exact absurd rfl hc
  | _ => exact ⟨h, hnone⟩

theorem StackAllocated.step (h : s.StackAllocated) {t : Tables} {nodefault : Bool}
    {eofRule : Nat → Bool} {c : Call} (hc : c ≠ .destroy) {r : Runtime × List Obs}
    (hr : s.step t nodefault eofRule c = some r) :
    r.1.StackAllocated ∧ ∀ o ∈ r.2, o.inside = true := by
  have hcallee : (if s.CanCall c then some (s.callee c) else none) = some r →
      r.1.StackAllocated ∧ ∀ o ∈ r.2, o.inside = true := by
    intro hr
    rw [Option.ite_none_right_eq_some, Option.some.injEq] at hr
    obtain ⟨-, rfl⟩ := hr
    exact h.callee hc
  cases c with
  | yylex =>
      obtain ⟨-, hr⟩ := Option.ite_none_right_eq_some.1 hr
      obtain rfl := Option.some.inj hr
      refine ⟨h.of_control ?_, fun o ho ↦ absurd ho List.not_mem_nil⟩
      have hinit := congrArg Prod.snd
        (control_initDefaultBuffer { s with yyin := some (s.yyin.getD stdin) })
      exact hinit
  | iterate =>
      obtain ⟨-, hr⟩ := Option.ite_none_right_eq_some.1 hr
      obtain ⟨b, hb, rfl⟩ := Option.map_eq_some_iff.1 hr
      obtain ⟨hcontrol, hobs⟩ := inside_scan (s.textUnseal.autoRestart b) t nodefault eofRule b
      refine ⟨h.of_control (hcontrol.trans ?_), fun o ho ↦ ?_⟩
      · rw [control_autoRestart, control_textUnseal]
      · exact (List.mem_append.1 ho).elim (inside_unsealed s o) (hobs o)
  | leave returns =>
      unfold Runtime.step Runtime.leave at hr
      cases hp : s.phase with
      | action =>
          cases returns <;>
            (simp only [hp] at hr; obtain rfl := Option.some.inj hr
             exact ⟨h, fun o ho ↦ absurd ho List.not_mem_nil⟩)
      | eofAction =>
          cases returns with
          | true =>
              simp only [hp] at hr
              obtain rfl := Option.some.inj hr
              exact ⟨h, fun o ho ↦ absurd ho List.not_mem_nil⟩
          | false =>
              simp only [hp] at hr
              obtain rfl := Option.some.inj hr
              exact ⟨h, fun o ho ↦ List.mem_singleton.1 ho ▸ rfl⟩
      | outside => simp [hp] at hr
      | loopTop => simp [hp] at hr
      | exited => simp [hp] at hr
  | _ => exact hcallee hr

/-- As long as nothing is destroyed, every access is inside. -/
theorem StackAllocated.run (h : s.StackAllocated) {t : Tables} {nodefault : Bool}
    {eofRule : Nat → Bool} {cs : List Call} (hcs : Call.destroy ∉ cs) {r : Runtime × List Obs}
    (hr : run t nodefault eofRule cs s = some r) : ∀ o ∈ r.2, o.inside = true := by
  have hcs' : ∀ c ∈ cs, c ≠ Call.destroy := fun c hc he ↦ hcs (he ▸ hc)
  exact Observed.run_seen (I := StackAllocated) (C := fun c ↦ c ≠ Call.destroy)
    (Q := fun o ↦ o.inside = true) (fun _ _ _ hs hc hp ↦ hs.step hc hp) hcs' h hr

theorem fresh_stackAllocated (files : Nat → List (List Byte)) : (fresh files).StackAllocated :=
  ⟨rfl, le_rfl⟩

end Runtime

end LexCpp
