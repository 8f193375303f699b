import LexCpp.Nfa.Basic

/-!
# Thompson construction in a shared automaton

`compile` of `nfa.cpp` and the one fact everything else uses about it, `Compiled`:
the states a call adds form a closed region with one entry that nothing enters and
one exit that nothing leaves, and the words between the two are those the tree
reads.  The region is stated against the automaton *after* the call, so that the
states of other rules are simply below it.

`Compiled` is kept by the three ways of joining fragments (`Compiled.sequence`,
`Compiled.choice`, `Compiled.wrap`); star, plus, question and the pieces of an
unrolled repetition are all instances of the last.
-/

namespace LexCpp

open Computability

namespace NFA

/-! ## The compiler -/

def compileClass (on : ByteSet) : StateM NFA Frag := do
  let s ← newState
  let e ← newState
  modify (·.addClass s e on)
  return ⟨s, e⟩

def compileConcat (ca cb : StateM NFA Frag) : StateM NFA Frag := do
  let a ← ca
  let b ← cb
  modify (·.addEps a.e b.s)
  return ⟨a.s, b.e⟩

def compileAlt (ca cb : StateM NFA Frag) : StateM NFA Frag := do
  let a ← ca
  let b ← cb
  let s ← newState
  let e ← newState
  modify (·.addEps s a.s)
  modify (·.addEps s b.s)
  modify (·.addEps a.e e)
  modify (·.addEps b.e e)
  return ⟨s, e⟩

def compileStar (ca : StateM NFA Frag) : StateM NFA Frag := do
  let a ← ca
  let s ← newState
  let e ← newState
  modify (·.addEps s a.s)
  modify (·.addEps s e)
  modify (·.addEps a.e a.s)
  modify (·.addEps a.e e)
  return ⟨s, e⟩

def compilePlus (ca : StateM NFA Frag) : StateM NFA Frag := do
  let a ← ca
  let s ← newState
  let e ← newState
  modify (·.addEps s a.s)
  modify (·.addEps a.e a.s)
  modify (·.addEps a.e e)
  return ⟨s, e⟩

def compileQuestion (ca : StateM NFA Frag) : StateM NFA Frag := do
  let a ← ca
  let s ← newState
  let e ← newState
  modify (·.addEps s a.s)
  modify (·.addEps s e)
  modify (·.addEps a.e e)
  return ⟨s, e⟩

def compileEmpty : StateM NFA Frag := do
  let s ← newState
  let e ← newState
  modify (·.addEps s e)
  return ⟨s, e⟩

/-- The `append` lambda of `compile_repeat`; `none` is the head `{-1, -1}`. -/
def append (head : Option Frag) (f : Frag) : StateM NFA Frag :=
  match head with
  | none => return f
  | some h => do
      modify (·.addEps h.e f.s)
      return ⟨h.s, f.e⟩

/-- Compile a piece `n` times, appending each copy to the head. -/
def appendCopies (piece : StateM NFA Frag) : Nat → Option Frag → StateM NFA (Option Frag)
  | 0, head => return head
  | n + 1, head => do
      let f ← piece
      let head ← append head f
      appendCopies piece n (some head)

/-- No piece at all is the empty fragment. -/
def orEmpty : Option Frag → StateM NFA Frag
  | none => compileEmpty
  | some f => return f

/-- Unroll `lo` copies, then a star of the body, or `hi - lo` optional copies.
The star and the optional copy are written out in the source with the edges of
`compile_star` and `compile_question`. -/
def compileRepeat (ca : StateM NFA Frag) (lo hi : Nat) : StateM NFA Frag := do
  let head ← appendCopies ca lo none
  let head ←
    if hi = kInf then appendCopies (compileStar ca) 1 head
    else appendCopies (compileQuestion ca) (if lo ≤ hi then hi - lo else 0) head
  orEmpty head

def setBoundary (nfa : NFA) (i : Nat) : NFA :=
  { nfa with states := nfa.states.modify i fun st ↦ { st with isBoundary := true } }

def compileBoundary : StateM NFA Frag := do
  let s ← newState
  let e ← newState
  modify (·.setBoundary e)
  modify (·.addEps s e)
  return ⟨s, e⟩

/-- Anchors below the root are no-ops. -/
def compile : Node → StateM NFA Frag
  | .empty => compileEmpty
  | .cls s => compileClass s
  | .concat a b => compileConcat (compile a) (compile b)
  | .alt a b => compileAlt (compile a) (compile b)
  | .star a => compileStar (compile a)
  | .plus a => compilePlus (compile a)
  | .question a => compileQuestion (compile a)
  | .rep lo hi a => compileRepeat (compile a) lo hi
  | .trailBoundary => compileBoundary
  | .anchorBOL => compileEmpty
  | .anchorEOL => compileEmpty

/-! ## What a compiled fragment is -/

/-- The states added between `nfa` and `nfa'`. -/
def added (nfa nfa' : NFA) : Set Nat := Set.Ico nfa.states.length nfa'.states.length

/-- `nfa'` is `nfa` with a fragment `f` that reads `L`, and reads `H` up to its
markers. -/
structure Compiled (nfa nfa' : NFA) (f : Frag) (L H : Language Byte) : Prop where
  extend : nfa.Extends nfa'
  entry_mem : f.s ∈ added nfa nfa'
  exit_mem : f.e ∈ added nfa nfa'
  closed : nfa'.auto.Closed (added nfa nfa')
  entry_step : ∀ x ∈ added nfa nfa', ∀ l, f.s ∉ nfa'.auto.step x l
  exit_step : ∀ l, nfa'.auto.step f.e l = ∅
  noAccept : ∀ x ∈ added nfa nfa', (nfa'.state x).acceptRule = -1
  between_exit : nfa'.auto.between f.s f.e = L
  between_marker : ∀ w, (∃ m ∈ added nfa nfa', (nfa'.state m).isBoundary = true ∧
    w ∈ nfa'.auto.between f.s m) ↔ w ∈ H

/-- What a compiler step has to satisfy. -/
def Compiles (c : StateM NFA Frag) (L H : Language Byte) : Prop :=
  ∀ nfa, Compiled nfa (c nfa).2 (c nfa).1 L H

@[simp] theorem mem_added {nfa nfa' : NFA} {x : Nat} :
    x ∈ added nfa nfa' ↔ nfa.states.length ≤ x ∧ x < nfa'.states.length := Iff.rfl

namespace Compiled

variable {n₀ n₁ n₂ : NFA} {f fa fb : Frag} {L H La Ha Lb Hb : Language Byte}

/-! ## Later growth does not disturb a fragment -/

theorem step_eq (_ : Compiled n₀ n₁ f L H) (hx : n₁.Extends n₂) {x : Nat} (hm : x ∈ added n₀ n₁)
    (l : Option Byte) : n₂.auto.step x l = n₁.auto.step x l := hx.step_eq hm.2 l

theorem closed_of_extends (h : Compiled n₀ n₁ f L H) (hx : n₁.Extends n₂) :
    n₂.auto.Closed (added n₀ n₁) := fun x hm l ↦ by
  rw [h.step_eq hx hm]
  exact h.closed x hm l

theorem between_of_extends (h : Compiled n₀ n₁ f L H) (hx : n₁.Extends n₂) (q : Nat) :
    n₂.auto.between f.s q = n₁.auto.between f.s q :=
  εNFA.between_congr h.closed (fun _ hm l ↦ h.step_eq hx hm l) h.entry_mem q

/-- The markers of a fragment, seen from a larger automaton. -/
theorem mem_heads_iff (h : Compiled n₀ n₁ f L H) (hx : n₁.Extends n₂) {w : List Byte} :
    w ∈ H ↔ ∃ m ∈ added n₀ n₁, (n₂.state m).isBoundary = true ∧ w ∈ n₂.auto.between f.s m := by
  rw [← h.between_marker w]
  refine exists_congr fun m ↦ and_congr_right fun hm ↦ ?_
  rw [hx.state_eq hm.2, h.between_of_extends hx]

/-! ## Sequence -/

theorem sequence (ha : Compiled n₀ n₁ fa La Ha) (hb : Compiled n₁ n₂ fb Lb Hb) :
    Compiled n₀ (n₂.addEpsAll [(fa.e, fb.s)]) ⟨fa.s, fb.e⟩ (La * Lb) (Ha + La * Hb) := by
  have hx := hb.extend
  have hlen₀ := ha.extend.length_le
  have hlen₁ := hx.length_le
  have hes : ∀ e ∈ [(fa.e, fb.s)], e.1 < n₂.states.length := by
    have := ha.exit_mem.2
    simp only [List.mem_singleton, forall_eq]
    omega
  have hadd : added n₀ (n₂.addEpsAll [(fa.e, fb.s)]) = added n₀ n₁ ∪ added n₁ n₂ := by
    ext x
    simp only [mem_added, length_addEpsAll, Set.mem_union]
    omega
  have hstep := fun x l y ↦ mem_step_addEpsAll (x := x) (y := y) (l := l) n₂ _ hes
  have hdisj : Disjoint (added n₀ n₁) (added n₁ n₂) :=
    Set.disjoint_left.2 fun x h₁ h₂ ↦ by simp only [mem_added] at h₁ h₂; omega
  have hseq : εNFA.Sequence n₂.auto (n₂.addEpsAll [(fa.e, fb.s)]).auto (added n₀ n₁) (added n₁ n₂)
      fa.s fa.e fb.s :=
    ⟨ha.closed_of_extends hx, hb.closed, hdisj, ha.entry_mem, ha.exit_mem, hb.entry_mem,
      fun x l y ↦ by rw [hstep, List.mem_singleton, Prod.mk.injEq]⟩
  have hstate := state_addEpsAll n₂ _ hes
  have hL : n₂.auto.between fa.s fa.e = La := by rw [ha.between_of_extends hx, ha.between_exit]
  constructor
  · exact (ha.extend.trans hx).addEpsAll (by simpa using ha.exit_mem.1)
  · rw [hadd]; exact Or.inl ha.entry_mem
  · rw [hadd]; exact Or.inr hb.exit_mem
  · rw [hadd]
    rintro x hx' l y hy
    rcases (hstep x l y).1 hy with hy | ⟨-, he⟩
    · rcases hx' with hx' | hx'
      · exact Or.inl (ha.closed_of_extends hx x hx' l hy)
      · exact Or.inr (hb.closed x hx' l hy)
    · simp only [List.mem_singleton, Prod.mk.injEq] at he
      exact Or.inr (he.2 ▸ hb.entry_mem)
  · rw [hadd]
    rintro x hx' l hy
    rcases (hstep x l fa.s).1 hy with hy | ⟨-, he⟩
    · rcases hx' with hx' | hx'
      · rw [ha.step_eq hx hx'] at hy
        exact ha.entry_step x hx' l hy
      · exact Set.disjoint_left.1 hdisj ha.entry_mem (hb.closed x hx' l hy)
    · simp only [List.mem_singleton, Prod.mk.injEq] at he
      exact Set.disjoint_left.1 hdisj ha.entry_mem (he.2 ▸ hb.entry_mem)
  · intro l
    ext y
    rw [hstep, hb.exit_step]
    simp only [Set.mem_empty_iff_false, List.mem_singleton, Prod.mk.injEq, false_or, iff_false]
    rintro ⟨-, he, -⟩
    exact Set.disjoint_left.1 hdisj ha.exit_mem (he ▸ hb.exit_mem)
  · rw [hadd]
    intro x hx'
    rw [(hstate x).1]
    rcases hx' with hx' | hx'
    · rw [hx.state_eq hx'.2]; exact ha.noAccept x hx'
    · exact hb.noAccept x hx'
  · rw [hseq.between_right hb.exit_mem, hL, hb.between_exit]
  · intro w
    rw [hadd, Language.mem_add, ha.mem_heads_iff hx, Language.mem_mul]
    constructor
    · rintro ⟨m, hm | hm, hbd, hw⟩
      · rw [(hstate m).2] at hbd
        rw [hseq.between_left hm] at hw
        exact Or.inl ⟨m, hm, hbd, hw⟩
      · rw [(hstate m).2] at hbd
        rw [hseq.between_right hm, hL] at hw
        obtain ⟨u, hu, v, hv, rfl⟩ := Language.mem_mul.1 hw
        exact Or.inr ⟨u, hu, v, (hb.between_marker v).1 ⟨m, hm, hbd, hv⟩, rfl⟩
    · rintro (⟨m, hm, hbd, hw⟩ | ⟨u, hu, v, hv, rfl⟩)
      · exact ⟨m, Or.inl hm, (hstate m).2 ▸ hbd, hseq.between_left hm ▸ hw⟩
      · obtain ⟨m, hm, hbd, hv⟩ := (hb.between_marker v).2 hv
        refine ⟨m, Or.inr hm, (hstate m).2 ▸ hbd, ?_⟩
        rw [hseq.between_right hm, hL]
        exact Language.append_mem_mul hu hv

/-! ## Choice -/

theorem choice (ha : Compiled n₀ n₁ fa La Ha) (hb : Compiled n₁ n₂ fb Lb Hb) {s e : Nat}
    (hs : s = n₂.states.length) (he : e = n₂.states.length + 1) {es : List (Nat × Nat)}
    (hes : ∀ x y, (x, y) ∈ es ↔ (x = s ∧ (y = fa.s ∨ y = fb.s)) ∨
      ((x = fa.e ∨ x = fb.e) ∧ y = e)) :
    Compiled n₀ (n₂.newState.2.newState.2.addEpsAll es) ⟨s, e⟩ (La + Lb) (Ha + Hb) := by
  set n₃ := n₂.newState.2.newState.2 with hn₃
  have hx := hb.extend
  have hlen₀ := ha.extend.length_le
  have hlen₁ := hx.length_le
  have hlen₃ : n₃.states.length = n₂.states.length + 2 := by simp [hn₃]
  have has := mem_added.1 ha.entry_mem
  have hae := mem_added.1 ha.exit_mem
  have hbs := mem_added.1 hb.entry_mem
  have hbe := mem_added.1 hb.exit_mem
  have hsrc : ∀ p ∈ es, n₀.states.length ≤ p.1 ∧ p.1 < n₃.states.length := by
    rintro ⟨x, y⟩ hp
    rcases (hes x y).1 hp with ⟨hx, -⟩ | ⟨hx | hx, -⟩ <;> simp only [hx] <;> omega
  have hadd : ∀ x, x ∈ added n₀ (n₃.addEpsAll es) ↔
      x ∈ added n₀ n₁ ∨ x ∈ added n₁ n₂ ∨ x = s ∨ x = e := by
    intro x
    simp only [mem_added, length_addEpsAll]
    omega
  have hauto : n₃.auto = n₂.auto := by simp [hn₃]
  have hstep := fun x l y ↦ mem_step_addEpsAll (x := x) (y := y) (l := l) n₃ es
    (fun p hp ↦ (hsrc p hp).2)
  rw [hauto] at hstep
  have hstate := state_addEpsAll n₃ es (fun p hp ↦ (hsrc p hp).2)
  have hfresh : ∀ x, x = s ∨ x = e → n₂.state x = {} := by
    intro x hx'
    exact state_eq_default (by omega)
  have hch : εNFA.Choice n₂.auto (n₃.addEpsAll es).auto (added n₀ n₁) (added n₁ n₂)
      fa.s fa.e fb.s fb.e s e := by
    refine ⟨ha.closed_of_extends hx, hb.closed, Set.disjoint_left.2 fun x h₁ h₂ ↦ ?_, ha.entry_mem,
      ha.exit_mem, hb.entry_mem, hb.exit_mem, ?_, ?_, by omega,
      step_eq_empty (hfresh s (Or.inl rfl)), step_eq_empty (hfresh e (Or.inr rfl)),
      fun x l y ↦ by rw [hstep, hes]⟩
    · simp only [mem_added] at h₁ h₂; omega
    · simp only [mem_added]; omega
    · simp only [mem_added]; omega
  have hbd : ∀ m, ((n₃.addEpsAll es).state m).isBoundary = (n₂.state m).isBoundary := by
    intro m
    rw [(hstate m).2, hn₃, state_newState, state_newState]
  constructor
  · exact ((ha.extend.trans hx).newState.newState).addEpsAll fun p hp ↦ (hsrc p hp).1
  · exact (hadd s).2 (Or.inr (Or.inr (Or.inl rfl)))
  · exact (hadd e).2 (Or.inr (Or.inr (Or.inr rfl)))
  · intro x hx' l y hy
    rw [hadd]
    rcases (hch.step_iff x l y).1 hy with hy | ⟨-, ⟨-, rfl | rfl⟩ | ⟨-, rfl⟩⟩
    · rcases (hadd x).1 hx' with hm | hm | hm
      · exact Or.inl (hch.closed_left x hm l hy)
      · exact Or.inr (Or.inl (hch.closed_right x hm l hy))
      · rw [step_eq_empty (hfresh x hm)] at hy
        exact hy.elim
    · exact Or.inl ha.entry_mem
    · exact Or.inr (Or.inl hb.entry_mem)
    · exact Or.inr (Or.inr (Or.inr rfl))
  · intro x hx' l hy
    rcases (hch.step_iff x l s).1 hy with hy | ⟨-, ⟨-, hc | hc⟩ | ⟨-, hc⟩⟩
    · rcases (hadd x).1 hx' with hm | hm | hm
      · exact hch.entry_notMem.1 (hch.closed_left x hm l hy)
      · exact hch.entry_notMem.2 (hch.closed_right x hm l hy)
      · rw [step_eq_empty (hfresh x hm)] at hy
        exact hy.elim
    · exact hch.entry_notMem.1 (hc ▸ ha.entry_mem)
    · exact hch.entry_notMem.2 (hc ▸ hb.entry_mem)
    · exact hch.entry_ne_exit hc
  · intro l
    ext y
    rw [hch.step_iff, hch.exit_step]
    simp only [Set.mem_empty_iff_false, false_or, iff_false]
    rintro ⟨-, ⟨hc, -⟩ | ⟨hc | hc, -⟩⟩
    · exact hch.entry_ne_exit hc.symm
    · exact hch.exit_notMem.1 (hc ▸ ha.exit_mem)
    · exact hch.exit_notMem.2 (hc ▸ hb.exit_mem)
  · intro x hx'
    rw [(hstate x).1, hn₃, state_newState, state_newState]
    rcases (hadd x).1 hx' with hm | hm | hm
    · rw [hx.state_eq hm.2]; exact ha.noAccept x hm
    · exact hb.noAccept x hm
    · rw [hfresh x hm]
  · rw [hch.between_exit, ha.between_of_extends hx, ha.between_exit, hb.between_exit]
  · intro w
    rw [Language.mem_add, ha.mem_heads_iff hx, ← hb.between_marker w]
    constructor
    · rintro ⟨m, hm, hm', hw⟩
      rw [hbd] at hm'
      rcases (hadd m).1 hm with hm | hm | hm
      · exact Or.inl ⟨m, hm, hm', hch.between_left hm ▸ hw⟩
      · exact Or.inr ⟨m, hm, hm', hch.between_right hm ▸ hw⟩
      · rw [hfresh m hm] at hm'
        cases hm'
    · rintro (⟨m, hm, hm', hw⟩ | ⟨m, hm, hm', hw⟩)
      · exact ⟨m, (hadd m).2 (Or.inl hm), (hbd m).trans hm', (hch.between_left hm).symm ▸ hw⟩
      · exact ⟨m, (hadd m).2 (Or.inr (Or.inl hm)), (hbd m).trans hm',
          (hch.between_right hm).symm ▸ hw⟩

/-! ## Wrapping -/

/-- Star, plus, question: a fresh entry and exit around one fragment. -/
theorem wrap (ha : Compiled n₀ n₁ f L H) {s e : Nat} (hs : s = n₁.states.length)
    (he : e = n₁.states.length + 1) (skip back : Bool) {es : List (Nat × Nat)}
    (hes : ∀ x y, (x, y) ∈ es ↔ (x = s ∧ y = f.s) ∨ (x = f.e ∧ y = e) ∨
      (skip = true ∧ x = s ∧ y = e) ∨ (back = true ∧ x = f.e ∧ y = f.s)) :
    Compiled n₀ (n₁.newState.2.newState.2.addEpsAll es) ⟨s, e⟩
      ((if skip then 1 else 0) + εNFA.loopWords back L * L) (εNFA.loopWords back L * H) := by
  set n₃ := n₁.newState.2.newState.2 with hn₃
  have hlen₀ := ha.extend.length_le
  have hlen₃ : n₃.states.length = n₁.states.length + 2 := by simp [hn₃]
  have has := mem_added.1 ha.entry_mem
  have hae := mem_added.1 ha.exit_mem
  have hsrc : ∀ p ∈ es, n₀.states.length ≤ p.1 ∧ p.1 < n₃.states.length := by
    rintro ⟨x, y⟩ hp
    rcases (hes x y).1 hp with ⟨hx, -⟩ | ⟨hx, -⟩ | ⟨-, hx, -⟩ | ⟨-, hx, -⟩ <;>
      simp only [hx] <;> omega
  have hadd : ∀ x, x ∈ added n₀ (n₃.addEpsAll es) ↔ x ∈ added n₀ n₁ ∨ x = s ∨ x = e := by
    intro x
    simp only [mem_added, length_addEpsAll]
    omega
  have hauto : n₃.auto = n₁.auto := by simp [hn₃]
  have hstep := fun x l y ↦ mem_step_addEpsAll (x := x) (y := y) (l := l) n₃ es
    (fun p hp ↦ (hsrc p hp).2)
  rw [hauto] at hstep
  have hstate := state_addEpsAll n₃ es (fun p hp ↦ (hsrc p hp).2)
  have hfresh : ∀ x, x = s ∨ x = e → n₁.state x = {} := by
    intro x hx'
    exact state_eq_default (by omega)
  have hwr : εNFA.Wrap n₁.auto (n₃.addEpsAll es).auto (added n₀ n₁) f.s f.e s e skip back := by
    refine ⟨ha.closed, ha.entry_mem, ha.exit_mem, ?_, ?_, by omega,
      step_eq_empty (hfresh s (Or.inl rfl)), step_eq_empty (hfresh e (Or.inr rfl)),
      fun x l y ↦ by rw [hstep, hes]⟩
    · simp only [mem_added]; omega
    · simp only [mem_added]; omega
  have hbd : ∀ m, ((n₃.addEpsAll es).state m).isBoundary = (n₁.state m).isBoundary := by
    intro m
    rw [(hstate m).2, hn₃, state_newState, state_newState]
  constructor
  · exact (ha.extend.newState.newState).addEpsAll fun p hp ↦ (hsrc p hp).1
  · exact (hadd s).2 (Or.inr (Or.inl rfl))
  · exact (hadd e).2 (Or.inr (Or.inr rfl))
  · intro x hx' l y hy
    rw [hadd]
    rcases (hwr.step_iff x l y).1 hy with hy | ⟨-, ⟨-, rfl⟩ | ⟨-, rfl⟩ | ⟨-, -, rfl⟩ | ⟨-, -, rfl⟩⟩
    · rcases (hadd x).1 hx' with hm | hm
      · exact Or.inl (ha.closed x hm l hy)
      · rw [step_eq_empty (hfresh x hm)] at hy
        exact hy.elim
    · exact Or.inl ha.entry_mem
    · exact Or.inr (Or.inr rfl)
    · exact Or.inr (Or.inr rfl)
    · exact Or.inl ha.entry_mem
  · intro x hx' l hy
    rcases (hwr.step_iff x l s).1 hy with hy | ⟨-, ⟨-, hc⟩ | ⟨-, hc⟩ | ⟨-, -, hc⟩ | ⟨-, -, hc⟩⟩
    · rcases (hadd x).1 hx' with hm | hm
      · exact hwr.entry_notMem (ha.closed x hm l hy)
      · rw [step_eq_empty (hfresh x hm)] at hy
        exact hy.elim
    · exact hwr.entry_notMem (hc ▸ ha.entry_mem)
    · exact hwr.entry_ne_exit hc
    · exact hwr.entry_ne_exit hc
    · exact hwr.entry_notMem (hc ▸ ha.entry_mem)
  · intro l
    ext y
    rw [hwr.step_iff, hwr.exit_step]
    simp only [Set.mem_empty_iff_false, false_or, iff_false]
    rintro ⟨-, ⟨hc, -⟩ | ⟨hc, -⟩ | ⟨-, hc, -⟩ | ⟨-, hc, -⟩⟩
    · exact hwr.entry_ne_exit hc.symm
    · exact hwr.exit_notMem (hc ▸ ha.exit_mem)
    · exact hwr.entry_ne_exit hc.symm
    · exact hwr.exit_notMem (hc ▸ ha.exit_mem)
  · intro x hx'
    rw [(hstate x).1, hn₃, state_newState, state_newState]
    rcases (hadd x).1 hx' with hm | hm
    · exact ha.noAccept x hm
    · rw [hfresh x hm]
  · rw [hwr.between_exit, ha.between_exit]
  · intro w
    rw [Language.mem_mul]
    constructor
    · rintro ⟨m, hm, hm', hw⟩
      rw [hbd] at hm'
      rcases (hadd m).1 hm with hm | hm
      · rw [hwr.between_inner hm, ha.between_exit] at hw
        obtain ⟨u, hu, v, hv, rfl⟩ := Language.mem_mul.1 hw
        exact ⟨u, hu, v, (ha.between_marker v).1 ⟨m, hm, hm', hv⟩, rfl⟩
      · rw [hfresh m hm] at hm'
        cases hm'
    · rintro ⟨u, hu, v, hv, rfl⟩
      obtain ⟨m, hm, hm', hv⟩ := (ha.between_marker v).2 hv
      refine ⟨m, (hadd m).2 (Or.inl hm), (hbd m).trans hm', ?_⟩
      rw [hwr.between_inner hm, ha.between_exit]
      exact Language.append_mem_mul hu hv

/-! ## Fresh pairs -/

/-- A fresh entry and a fresh exit with one edge between them, the exit maybe a
marker. -/
theorem pair (nfa : NFA) (on : ByteSet) (mark : Bool) :
    Compiled nfa { nfa with states := nfa.states ++
        [{ out := [{ target := nfa.states.length + 1, on := on }] }, { isBoundary := mark }] }
      ⟨nfa.states.length, nfa.states.length + 1⟩ on.edgeLang (if mark then on.edgeLang else 0) := by
  set s := nfa.states.length with hs
  set n' : NFA := { nfa with states := nfa.states ++
    [{ out := [{ target := s + 1, on := on }] }, { isBoundary := mark }] } with hn'
  have hlen : n'.states.length = s + 2 := by simp [hn', hs]
  have hadd : ∀ x, x ∈ added nfa n' ↔ x = s ∨ x = s + 1 := by
    intro x
    simp only [mem_added, hlen]
    omega
  have hstate₀ : n'.state s = { out := [{ target := s + 1, on := on }] } := by
    simp [state, hn', hs]
  have hstate₁ : n'.state (s + 1) = { isBoundary := mark } := by
    simp [state, hn', hs]
  have hstep₀ : ∀ l y, y ∈ n'.auto.step s l ↔
      y = s + 1 ∧ NFAEdge.fires { target := s + 1, on := on } l = true := by
    intro l y
    rw [mem_auto_step, hstate₀]
    simp only [List.mem_singleton, exists_eq_left]
    rw [eq_comm]
  have hstep₁ : ∀ l, n'.auto.step (s + 1) l = ∅ := by
    intro l
    ext y
    simp [mem_auto_step, hstate₁]
  have hbetween : n'.auto.between s (s + 1) = on.edgeLang := by
    ext w
    constructor
    · intro hw
      refine ((εNFA.between_induction
        (fun x w ↦ (x = s ∧ w = []) ∨ (x = s + 1 ∧ w ∈ on.edgeLang)) (Or.inl ⟨rfl, rfl⟩)
        ?_ ?_ hw).resolve_left (by omega)).2
      · rintro x y w hy (⟨rfl, rfl⟩ | ⟨rfl, -⟩)
        · obtain ⟨rfl, hf⟩ := (hstep₀ _ _).1 hy
          exact Or.inr ⟨rfl, (NFAEdge.mem_edgeLang_iff _).2 ⟨none, rfl, hf⟩⟩
        · simp [hstep₁] at hy
      · rintro x b y w hy (⟨rfl, rfl⟩ | ⟨rfl, -⟩)
        · obtain ⟨rfl, hf⟩ := (hstep₀ _ _).1 hy
          exact Or.inr ⟨rfl, (NFAEdge.mem_edgeLang_iff _).2 ⟨some b, rfl, hf⟩⟩
        · simp [hstep₁] at hy
    · intro hw
      obtain ⟨l, rfl, hf⟩ := (NFAEdge.mem_edgeLang_iff { target := s + 1, on := on }).1 hw
      cases l with
      | none => exact εNFA.nil_mem_between_of_step ((hstep₀ _ _).2 ⟨rfl, hf⟩)
      | some b => exact εNFA.singleton_mem_between_of_step ((hstep₀ _ _).2 ⟨rfl, hf⟩)
  constructor
  · exact ⟨_, rfl⟩
  · exact (hadd s).2 (Or.inl rfl)
  · exact (hadd (s + 1)).2 (Or.inr rfl)
  · intro x hx l y hy
    rcases (hadd x).1 hx with rfl | rfl
    · exact (hadd y).2 (Or.inr ((hstep₀ l y).1 hy).1)
    · simp [hstep₁] at hy
  · intro x hx l hy
    rcases (hadd x).1 hx with rfl | rfl
    · exact absurd ((hstep₀ l _).1 hy).1 (by simp)
    · simp [hstep₁] at hy
  · exact hstep₁
  · intro x hx
    rcases (hadd x).1 hx with rfl | rfl
    · rw [hstate₀]
    · rw [hstate₁]
  · exact hbetween
  · intro w
    constructor
    · rintro ⟨m, hm, hbd, hw⟩
      rcases (hadd m).1 hm with rfl | rfl
      · simp [hstate₀] at hbd
      · rw [hstate₁] at hbd
        rw [if_pos hbd, ← hbetween]
        exact hw
    · intro hw
      split_ifs at hw with hmark
      · exact ⟨s + 1, (hadd _).2 (Or.inr rfl), by rw [hstate₁, hmark], hbetween ▸ hw⟩
      · exact hw.elim

end Compiled

/-! ## Every tree compiles -/

section Compiles

variable {c ca cb : StateM NFA Frag} {L H La Lb Ha Hb : Language Byte}

theorem Compiles.of_pair (on : ByteSet) (mark : Bool)
    (h : ∀ nfa, c nfa = (⟨nfa.states.length, nfa.states.length + 1⟩,
      { nfa with states := nfa.states ++
        [{ out := [{ target := nfa.states.length + 1, on := on }] }, { isBoundary := mark }] })) :
    Compiles c on.edgeLang (if mark then on.edgeLang else 0) := by
  intro nfa
  rw [h nfa]
  exact Compiled.pair nfa on mark

theorem compileClass_compiles (on : ByteSet) : Compiles (compileClass on) on.edgeLang 0 :=
  Compiles.of_pair on false fun nfa ↦ by
    change ((⟨nfa.newState.1, nfa.newState.2.newState.1⟩ : Frag),
      nfa.newState.2.newState.2.addClass nfa.newState.1 nfa.newState.2.newState.1 on) = _
    simp [newState, addClass, pushEdge]
    exact modify_append_right _ nfa.states [{}, {}] 0

theorem compileEmpty_compiles : Compiles compileEmpty 1 0 :=
  Compiles.of_pair {} false fun nfa ↦ by
    change ((⟨nfa.newState.1, nfa.newState.2.newState.1⟩ : Frag),
      nfa.newState.2.newState.2.addEps nfa.newState.1 nfa.newState.2.newState.1) = _
    simp [newState, addEps, pushEdge]
    exact modify_append_right _ nfa.states [{}, {}] 0

theorem compileBoundary_compiles : Compiles compileBoundary 1 1 :=
  Compiles.of_pair {} true fun nfa ↦ by
    change ((⟨nfa.newState.1, nfa.newState.2.newState.1⟩ : Frag),
      (nfa.newState.2.newState.2.setBoundary nfa.newState.2.newState.1).addEps nfa.newState.1
        nfa.newState.2.newState.1) = _
    simp only [newState, addEps, pushEdge, setBoundary, List.append_assoc, List.length_append,
      modify_append_right]
    simp
    exact modify_append_right _ nfa.states [{}, { isBoundary := true }] 0

theorem compileConcat_compiles (ha : Compiles ca La Ha) (hb : Compiles cb Lb Hb) :
    Compiles (compileConcat ca cb) (La * Lb) (Ha + La * Hb) := fun nfa ↦
  (ha nfa).sequence (hb (ca nfa).2)

theorem compileAlt_compiles (ha : Compiles ca La Ha) (hb : Compiles cb Lb Hb) :
    Compiles (compileAlt ca cb) (La + Lb) (Ha + Hb) := by
  intro nfa
  obtain ⟨s, hs⟩ : ∃ s, s = (cb (ca nfa).2).2.states.length := ⟨_, rfl⟩
  obtain ⟨e, he⟩ : ∃ e, e = s + 1 := ⟨_, rfl⟩
  have h : compileAlt ca cb nfa = (⟨s, e⟩, (cb (ca nfa).2).2.newState.2.newState.2.addEpsAll
      [(s, (ca nfa).1.s), (s, (cb (ca nfa).2).1.s), ((ca nfa).1.e, e),
        ((cb (ca nfa).2).1.e, e)]) := by
    rw [he, hs, ← length_newState]
    rfl
  rw [h]
  refine (ha nfa).choice (hb (ca nfa).2) hs (hs ▸ he) fun x y ↦ ?_
  simp only [List.mem_cons, Prod.mk.injEq, List.not_mem_nil, or_false]
  tauto

/-- What star, plus and question share: the edges between a fragment and the fresh
states around it. -/
def wrapEdges (skip back : Bool) (f : Frag) (s e : Nat) : List (Nat × Nat) :=
  (s, f.s) :: ((if skip then [(s, e)] else []) ++
    ((if back then [(f.e, f.s)] else []) ++ [(f.e, e)]))

theorem Compiles.of_wrap (skip back : Bool) (ha : Compiles ca La Ha)
    (h : ∀ nfa, c nfa = (⟨(ca nfa).2.states.length, (ca nfa).2.newState.2.states.length⟩,
      (ca nfa).2.newState.2.newState.2.addEpsAll (wrapEdges skip back (ca nfa).1
        (ca nfa).2.states.length (ca nfa).2.newState.2.states.length))) :
    Compiles c ((if skip then 1 else 0) + εNFA.loopWords back La * La)
      (εNFA.loopWords back La * Ha) := by
  intro nfa
  rw [h nfa]
  refine (ha nfa).wrap rfl (length_newState _) skip back fun x y ↦ ?_
  cases skip <;> cases back <;>
    simp only [wrapEdges, if_true, List.cons_append, List.nil_append, List.mem_cons,
      Prod.mk.injEq, List.not_mem_nil, or_false, true_and, false_and, false_or, Bool.false_eq_true,
      if_false] <;> tauto

theorem compileStar_compiles (ha : Compiles ca La Ha) :
    Compiles (compileStar ca) (La∗) (La∗ * Ha) := by
  have : Compiles (compileStar ca) _ _ := Compiles.of_wrap true true ha fun _ ↦ rfl
  rwa [if_pos rfl, εNFA.loopWords_true, Language.one_add_kstar_mul_self_eq_kstar] at this

theorem compilePlus_compiles (ha : Compiles ca La Ha) :
    Compiles (compilePlus ca) (La * La∗) (La∗ * Ha) := by
  have : Compiles (compilePlus ca) _ _ := Compiles.of_wrap false true ha fun _ ↦ rfl
  rwa [if_neg Bool.false_ne_true, εNFA.loopWords_true, zero_add,
    Language.mul_self_kstar_comm] at this

theorem compileQuestion_compiles (ha : Compiles ca La Ha) :
    Compiles (compileQuestion ca) (1 + La) Ha := by
  have : Compiles (compileQuestion ca) _ _ := Compiles.of_wrap true false ha fun _ ↦ rfl
  rwa [if_pos rfl, εNFA.loopWords_false, one_mul, one_mul] at this

/-! ### Unrolled repetition -/

/-- The pieces appended so far, if any. -/
def HeadCompiled (n₀ n₁ : NFA) (head : Option Frag) (L H : Language Byte) : Prop :=
  match head with
  | none => n₁ = n₀ ∧ L = 1 ∧ H = 0
  | some f => Compiled n₀ n₁ f L H

theorem append_compiled {n₀ n₁ n₂ : NFA} {head : Option Frag} {f : Frag}
    (hh : HeadCompiled n₀ n₁ head L H) (hf : Compiled n₁ n₂ f La Ha) :
    Compiled n₀ (append head f n₂).2 (append head f n₂).1 (L * La) (H + L * Ha) := by
  cases head with
  | none =>
      obtain ⟨rfl, rfl, rfl⟩ := hh
      rwa [one_mul, one_mul, zero_add]
  | some h => exact hh.sequence hf

theorem appendCopies_compiled (ha : Compiles ca La Ha) (n : Nat) {n₀ n₁ : NFA}
    {head : Option Frag} (hh : HeadCompiled n₀ n₁ head L H) :
    HeadCompiled n₀ (appendCopies ca n head n₁).2 (appendCopies ca n head n₁).1 (L * La ^ n)
      (H + L * powHeads La Ha n) := by
  induction n generalizing n₁ head L H with
  | zero => rwa [pow_zero, mul_one, powHeads, mul_zero, add_zero]
  | succ n ih =>
      have := @ih _ _ _ (some _) (append_compiled hh (ha n₁))
      rwa [mul_assoc, ← pow_succ', add_assoc, mul_assoc, ← mul_add, ← powHeads_succ'] at this

theorem orEmpty_compiled {n₀ n₁ : NFA} {head : Option Frag} (hh : HeadCompiled n₀ n₁ head L H) :
    Compiled n₀ (orEmpty head n₁).2 (orEmpty head n₁).1 L H := by
  cases head with
  | none =>
      obtain ⟨rfl, rfl, rfl⟩ := hh
      exact compileEmpty_compiles n₁
  | some f => exact hh

theorem compileRepeat_compiles (ha : Compiles ca La Ha) (lo hi : Nat) :
    Compiles (compileRepeat ca lo hi) (La ^ lo * (if hi = kInf then La∗ else (1 + La) ^ (hi - lo)))
      (powHeads La Ha lo + La ^ lo *
        (if hi = kInf then La∗ * Ha else powHeads (1 + La) Ha (hi - lo))) := by
  intro nfa
  have h₀ : HeadCompiled nfa nfa none 1 0 := ⟨rfl, rfl, rfl⟩
  have h₁ := appendCopies_compiled ha lo h₀
  rw [one_mul, one_mul, zero_add] at h₁
  by_cases hinf : hi = kInf
  · have h₂ := orEmpty_compiled (appendCopies_compiled (compileStar_compiles ha) 1 h₁)
    rw [pow_one, powHeads, powHeads, pow_zero, one_mul, zero_add] at h₂
    rw [if_pos hinf, if_pos hinf]
    subst hinf
    exact h₂
  · have hcount : (if lo ≤ hi then hi - lo else 0) = hi - lo := by
      split_ifs <;> omega
    have h₂ := orEmpty_compiled
      (appendCopies_compiled (compileQuestion_compiles ha) (hi - lo) h₁)
    rw [if_neg hinf, if_neg hinf]
    have hrun : compileRepeat ca lo hi nfa = orEmpty
        (appendCopies (compileQuestion ca) (hi - lo) (appendCopies ca lo none nfa).1
          (appendCopies ca lo none nfa).2).1
        (appendCopies (compileQuestion ca) (hi - lo) (appendCopies ca lo none nfa).1
          (appendCopies ca lo none nfa).2).2 := by
      simp only [compileRepeat, if_neg hinf, hcount]
      rfl
    rw [hrun]
    exact h₂

/-- **Thompson's construction.**  Compiling a tree adds a fragment that reads what
the tree reads, with markers where the tree has them. -/
theorem compile_compiles (t : Node) : Compiles (compile t) t.reads (t.heads ByteSet.edgeLang) := by
  induction t with
  | empty => exact compileEmpty_compiles
  | cls s => exact compileClass_compiles s
  | concat a b iha ihb => exact compileConcat_compiles iha ihb
  | alt a b iha ihb => exact compileAlt_compiles iha ihb
  | star a ih => exact compileStar_compiles ih
  | plus a ih => exact compilePlus_compiles ih
  | question a ih => exact compileQuestion_compiles ih
  | rep lo hi a ih =>
      have hreads : (Node.rep lo hi a).reads =
          a.reads ^ lo * (if hi = kInf then a.reads∗ else (1 + a.reads) ^ (hi - lo)) := by
        ext w
        exact mem_rep_iff
      rw [hreads]
      exact compileRepeat_compiles ih lo hi
  | anchorBOL => exact compileEmpty_compiles
  | anchorEOL => exact compileEmpty_compiles
  | trailBoundary => exact compileBoundary_compiles

end Compiles

end NFA

end LexCpp
