import LexCpp.Runtime.Frame
import LexCpp.Runtime.Yylex

/-!
# After an end of a buffer

An `<<EOF>>` action may leave the scanner with a buffer to read.  It is not read by the same
call of `yylex`: when the action falls out of the switch, the call returns.
-/

namespace LexCpp

namespace Runtime

/-- A match, or a byte that no rule matches. -/
def Obs.matched : Obs → Bool
  | .token .. | .echo _ => true
  | _ => false

/-- An `<<EOF>>` action falls out, and something is matched before `yylex` is called again. -/
def GoesOn (t : Tables) (nodefault : Bool) (eofRule : Nat → Bool) (s : Runtime) : Prop :=
  ∃ cs, Call.yylex ∉ cs ∧
    ∃ r ∈ run t nodefault eofRule (.leave false :: cs) s, ∃ o ∈ r.2, o.matched = true

/-! ## Outside of the scanner -/

theorem unsealed_not_matched (s : Runtime) : ∀ o ∈ s.unsealed, o.matched = false := by
  intro o ho
  unfold unsealed at ho
  cases hy : s.yytext with
  | none => simp [hy] at ho
  | some bp =>
      simp only [hy] at ho
      split_ifs at ho
      · exact List.mem_singleton.1 ho ▸ rfl
      · exact absurd ho List.not_mem_nil

/-- What is called does not match anything, and does not go back into the loop. -/
theorem callee_spec (s : Runtime) (c : Call) :
    ((s.callee c).1.phase = s.phase ∨ (s.callee c).1.phase = .exited) ∧
      ∀ o ∈ (s.callee c).2, o.matched = false := by
  have hnone : ∀ o ∈ ([] : List Obs), o.matched = false := fun o ho ↦ absurd ho List.not_mem_nil
  have hone : ∀ o : Obs, o.matched = false → ∀ o' ∈ [o], o'.matched = false :=
    fun o ho o' ho' ↦ List.mem_singleton.1 ho' ▸ ho
  cases c with
  | topState =>
      unfold callee
      cases s.topState with
      | none => exact ⟨Or.inr rfl, hone _ rfl⟩
      | some p => exact ⟨Or.inl rfl, hone _ rfl⟩
  | pushState c => exact ⟨Or.inl (phase_pushState s c), hone _ rfl⟩
  | popState => exact ⟨Or.inl (phase_popState s), hone _ rfl⟩
  | input =>
      refine ⟨Or.inl (phase_of_control (control_input s)), fun o ho ↦ ?_⟩
      exact (List.mem_append.1 ho).elim (unsealed_not_matched s o) (hone _ rfl o)
  | deleteBuffer b => exact ⟨Or.inl (phase_of_control (control_deleteBuffer s b)), hnone⟩
  | flushBuffer b => exact ⟨Or.inl (phase_of_control (control_flushBuffer s b)), hnone⟩
  | switchToBuffer b => exact ⟨Or.inl (phase_of_control (control_switchToBuffer s b)), hnone⟩
  | pushBufferState b => exact ⟨Or.inl (phase_of_control (control_pushBufferState s b)), hnone⟩
  | popBufferState => exact ⟨Or.inl (phase_of_control (control_popBufferState s)), hnone⟩
  | scanBytes bytes => exact ⟨Or.inl (phase_of_control (control_scanBytes s bytes)), hnone⟩
  | scanBuffer base => exact ⟨Or.inl (phase_of_control (control_scanBuffer s base)), hnone⟩
  | restart file => exact ⟨Or.inl (phase_of_control (control_restart s file)), hnone⟩
  | unput c => exact ⟨Or.inl (phase_of_control (control_unput s c)), unsealed_not_matched s⟩
  | destroy => exact ⟨Or.inl (phase_destroy s), hnone⟩
  | _ => exact ⟨Or.inl rfl, hnone⟩

/-- Outside of `yylex` nothing is matched before it is called. -/
theorem step_outside {t : Tables} {nodefault : Bool} {eofRule : Nat → Bool} {s : Runtime} {c : Call}
    (hs : s.phase = .outside ∨ s.phase = .exited) (hc : c ≠ .yylex) {r : Runtime × List Obs}
    (h : s.step t nodefault eofRule c = some r) :
    (r.1.phase = .outside ∨ r.1.phase = .exited) ∧ ∀ o ∈ r.2, o.matched = false := by
  have hcallee : ∀ c, (if s.CanCall c then some (s.callee c) else none) = some r →
        (r.1.phase = .outside ∨ r.1.phase = .exited) ∧ ∀ o ∈ r.2, o.matched = false := by
    intro c h
    rw [Option.ite_none_right_eq_some, Option.some.injEq] at h
    obtain ⟨-, rfl⟩ := h
    obtain ⟨hphase, hobs⟩ := callee_spec s c
    exact ⟨hphase.elim (fun h ↦ h ▸ hs) Or.inr, hobs⟩
  cases c with
  | yylex => exact absurd rfl hc
  | iterate =>
      unfold step at h
      rcases hs with hs | hs <;> simp [hs] at h
  | leave returns =>
      unfold step leave at h
      rcases hs with hs | hs <;> simp [hs] at h
  | _ => exact hcallee _ h

theorem run_outside {t : Tables} {nodefault : Bool} {eofRule : Nat → Bool} {cs : List Call}
    (hcs : Call.yylex ∉ cs) {s : Runtime} (hs : s.phase = .outside ∨ s.phase = .exited)
    {r : Runtime × List Obs} (h : run t nodefault eofRule cs s = some r) :
    ∀ o ∈ r.2, o.matched = false := by
  have hcs' : ∀ c ∈ cs, c ≠ Call.yylex := fun c hc he ↦ hcs (he ▸ hc)
  exact Observed.run_seen (I := fun s : Runtime ↦ s.phase = .outside ∨ s.phase = .exited)
    (C := fun c ↦ c ≠ Call.yylex) (Q := fun o ↦ o.matched = false)
    (fun _ _ _ hs hc hp ↦ step_outside hs hc hp) hcs' hs h

/-- **An `<<EOF>>` action that falls out ends the call.**  Whatever buffers it has put in
place of the exhausted one, in whichever run: they are left as they are, `yylex` returns, and
nothing is matched before it is called again. -/
theorem eofAction_ends_call (G : Grammar) (std : StdSort Nat) (mode : CompressMode)
    (usesReject : Bool) :
    ∃ dfa t, generate std mode usesReject G.nfa = some (dfa, t) ∧
      ∀ (nodefault : Bool) (eofRule : Nat → Bool) (files : Nat → List (List Byte))
        (cs : List Call) (s : Runtime) (obs : List Obs),
        run t nodefault eofRule cs (fresh files) = some (s, obs) → s.phase = .eofAction →
          s.step t nodefault eofRule (.leave false) =
            some ({ s with phase := .outside }, [.terminated]) ∧
          ¬ GoesOn t nodefault eofRule s := by
  obtain ⟨dfa, t, hgen, -⟩ := G.exists_tables std mode usesReject
  refine ⟨dfa, t, hgen, fun nodefault eofRule files cs s obs _ hphase ↦ ?_⟩
  have hleave : s.step t nodefault eofRule (.leave false) =
      some ({ s with phase := .outside }, [.terminated]) := by
    unfold step leave
    rw [hphase]
    rfl
  refine ⟨hleave, ?_⟩
  rintro ⟨cs', hcs', r, hr, o, ho, hmatched⟩
  obtain ⟨p, hp, hr⟩ := Option.bind_eq_some_iff.1 hr
  obtain ⟨q, hq, rfl⟩ := Option.map_eq_some_iff.1 hr
  obtain rfl := Option.some.inj (hleave.symm.trans hp)
  rcases List.mem_append.1 ho with ho | ho
  · obtain rfl := List.mem_singleton.1 ho
    exact absurd hmatched (by decide)
  · rw [run_outside hcs' (Or.inl rfl) hq o ho] at hmatched
    exact absurd hmatched (by decide)

/-- The two rules `a` and `b`. -/
def twoRules : Grammar :=
  { rules := [{ root := .cls (ByteSet.add {} 97) }, { root := .cls (ByteSet.add {} 98) }] }

/-- A file that delivers `ab`. -/
def abFile (f : Nat) : List (List Byte) := if f = 0 then [[97, 98]] else []

/-- The action of `a` pushes the text `b`, and the `<<EOF>>` action pops it: the `b` of the
file is current and unread, and the call is over. -/
theorem run_pop_at_eof :
    ((generate (.insertion Nat) .fullEc false twoRules.nfa).bind fun g ↦
      (run g.2 false (fun _ ↦ true) [.yylex, .iterate, .scanBytes [98], .leave false, .iterate,
        .leave false, .iterate, .popBufferState, .leave false] (fresh abFile)).map fun r ↦
          (r.2, r.1.phase, r.1.current.map fun b ↦ ((r.1.buf b).pos, (r.1.buf b).bufEnd))) =
      some ([.token 0 [97] 0 1, .token 1 [98] 0 1, .eof 0, .terminated], .outside,
        some (1, 2)) := by
  decide +kernel

end Runtime

end LexCpp
