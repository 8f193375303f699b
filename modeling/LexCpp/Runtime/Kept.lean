import LexCpp.Runtime.Frame
import LexCpp.Runtime.Yylex

/-!
# What leaves the stack of buffers alone

Most of what the runtime does frees nothing, and neither moves the stack nor gives a buffer
another file.  It may seal a text, but in the current buffer.
-/

namespace LexCpp

namespace Runtime

/-- The byte that `yy_text_unseal` has to restore is in the buffer. -/
def SealedIn (s : Runtime) (b : Nat) : Prop := s.textActive = true ∧ ∃ p, s.yytext = some (b, p)

structure Kept (s s' : Runtime) : Prop where
  length_le : s.heap.length ≤ s'.heap.length
  frees : ∀ b, (s'.buf b).frees = (s.buf b).frees
  inputFile : ∀ b < s.heap.length, (s'.buf b).inputFile = (s.buf b).inputFile
  bufferStack : s'.bufferStack = s.bufferStack
  bufferStackTop : s'.bufferStackTop = s.bufferStackTop
  yyin : s.yyin ≠ none → s'.yyin ≠ none
  sealedIn : ∀ b, s'.SealedIn b → s.SealedIn b ∨ s.current = some b

namespace Kept

variable {s s' s'' : Runtime}

theorem slot (h : Kept s s') (i : Nat) : s'.slot i = s.slot i := by
  rw [Runtime.slot, h.bufferStack, Runtime.slot]

theorem current (h : Kept s s') : s'.current = s.current := by
  rw [current_eq_slot, h.bufferStackTop, h.slot, current_eq_slot]

theorem refl (s : Runtime) : Kept s s :=
  ⟨le_rfl, fun _ ↦ rfl, fun _ _ ↦ rfl, rfl, rfl, id, fun _ ↦ Or.inl⟩

theorem trans (h : Kept s s') (h' : Kept s' s'') : Kept s s'' where
  length_le := h.length_le.trans h'.length_le
  frees b := (h'.frees b).trans (h.frees b)
  inputFile b hb := (h'.inputFile b (hb.trans_le h.length_le)).trans (h.inputFile b hb)
  bufferStack := h'.bufferStack.trans h.bufferStack
  bufferStackTop := h'.bufferStackTop.trans h.bufferStackTop
  yyin hy := h'.yyin (h.yyin hy)
  sealedIn b hb := (h'.sealedIn b hb).elim (h.sealedIn b) fun hc ↦ Or.inr (h.current.symm.trans hc)

/-! ## Buffers -/

theorem modifyBuf (s : Runtime) (c : Nat) {f : Buffer → Buffer}
    (hfrees : ∀ x, (f x).frees = x.frees) (hfile : ∀ x, (f x).inputFile = x.inputFile) :
    Kept s (s.modifyBuf c f) where
  length_le := length_modifyBuf.ge
  frees _ := field_modifyBuf hfrees
  inputFile _ _ := field_modifyBuf hfile
  bufferStack := rfl
  bufferStackTop := rfl
  yyin := id
  sealedIn _ := Or.inl

theorem createBuffer (s : Runtime) {x : Buffer} (hx : x.frees = 0) :
    Kept s (s.createBuffer x).2 where
  length_le := by simp [Runtime.createBuffer]
  frees b := by
    rcases eq_or_ne b s.heap.length with rfl | hb
    · rw [buf_of_length_le le_rfl]
      exact (congrArg Buffer.frees buf_createBuffer_self).trans hx
    · rw [buf_createBuffer_of_ne hb]
  inputFile b hb := by rw [buf_createBuffer_of_ne (Nat.ne_of_lt hb)]
  bufferStack := rfl
  bufferStackTop := rfl
  yyin := id
  sealedIn _ := Or.inl

theorem flushBuffer (s : Runtime) (b : Option Nat) : Kept s (s.flushBuffer b) := by
  cases b with
  | none => exact refl s
  | some b => exact modifyBuf s b (fun _ ↦ rfl) fun _ ↦ rfl

theorem yyInput (s : Runtime) : Kept s s.yyInput.2 := by
  unfold Runtime.yyInput
  cases hy : s.yyin with
  | none => exact refl s
  | some f => exact { refl s with yyin := fun _ ↦ nofun }

theorem refill (s : Runtime) : Kept s s.refill := by
  unfold Runtime.refill
  cases s.current with
  | none => exact refl s
  | some b =>
      simp only
      split_ifs
      · exact refl s
      · exact (yyInput s).trans (modifyBuf _ b (fun _ ↦ rfl) fun _ ↦ rfl)

theorem slurp (s : Runtime) : Kept s s.slurp := by
  have hloop : ∀ (n : Nat) (s : Runtime), Kept s (slurpLoop n s) := by
    intro n
    induction n with
    | zero => exact refl
    | succ n ih =>
        intro s
        unfold slurpLoop
        cases s.current with
        | none => exact refl s
        | some b =>
            simp only
            split_ifs
            · exact refl s
            · exact (refill s).trans (ih _)
  exact hloop _ s

/-! ## The text -/

theorem textUnseal (s : Runtime) : Kept s s.textUnseal := by
  unfold Runtime.textUnseal
  split_ifs
  · cases s.yytext with
    | none => exact refl s
    | some bp =>
        exact { modifyBuf s bp.1 (f := fun x ↦
            { x with data := x.data.set (bp.2 + s.yyleng).toNat s.textSave })
            (fun _ ↦ rfl) fun _ ↦ rfl with
          sealedIn := fun b hb ↦ absurd hb.1 Bool.false_ne_true }
  · exact refl s

theorem unput (s : Runtime) (c : Byte) : Kept s (s.unput c) := by
  unfold Runtime.unput
  simp only
  cases s.textUnseal.current with
  | none => exact textUnseal s
  | some b =>
      refine (textUnseal s).trans (modifyBuf _ b (fun x ↦ ?_) fun x ↦ ?_) <;> (split_ifs <;> rfl)

theorem input (s : Runtime) : Kept s s.input.2 := by
  obtain ⟨filled, hfilled, hinput⟩ := input_cases s
  have hkept : Kept s filled := by
    rcases hfilled with rfl | rfl
    · exact textUnseal s
    · exact (textUnseal s).trans (refill _)
  rcases hinput with hinput | ⟨b, n, hinput⟩
  · rw [hinput]
    exact hkept
  · rw [hinput]
    exact hkept.trans { modifyBuf filled b (f := fun x ↦ { x with pos := x.pos + 1 })
      (fun _ ↦ rfl) fun _ ↦ rfl with }

/-! ## The stack of start conditions -/

theorem pushState (s : Runtime) (c : Nat) : Kept s (s.pushState c).2 := by
  unfold Runtime.pushState growStateStack
  simp only
  split_ifs <;> exact { refl s with }

theorem popState (s : Runtime) : Kept s s.popState.2 := by
  unfold Runtime.popState
  split_ifs
  · exact refl s
  · exact { refl s with }

/-! ## The loop -/

theorem atEnd (eofRule : Nat → Bool) {b : Nat} (hb : s.current = some b) :
    Kept s (s.atEnd eofRule b).1 :=
  { refl s with
    sealedIn := by
      rintro c ⟨-, p, hp⟩
      obtain ⟨rfl, -⟩ := Prod.mk.inj (Option.some.inj hp)
      exact Or.inr hb }

theorem take (m : Match) {b : Nat} (hb : s.current = some b) : Kept s (s.take b m).1 :=
  { modifyBuf s b (f := fun x ↦ { x with
      data := ((s.lexer b).accept m).data, pos := ((s.lexer b).accept m).bufPos
      atBol := ((s.lexer b).accept m).atBol }) (fun _ ↦ rfl) fun _ ↦ rfl with
    sealedIn := by
      rintro c ⟨-, p, hp⟩
      obtain ⟨rfl, -⟩ := Prod.mk.inj (Option.some.inj hp)
      exact Or.inr hb }

theorem byDefault (s : Runtime) (b : Nat) : Kept s (s.byDefault b).1 :=
  { modifyBuf s b (f := fun x ↦ { x with
      pos := x.pos + 1, atBol := (s.buf b).data.getD (s.buf b).pos 0 = newline })
      (fun _ ↦ rfl) fun _ ↦ rfl with }

theorem scan (t : Tables) (nodefault : Bool) (eofRule : Nat → Bool) {b : Nat}
    (hb : s.current = some b) : Kept s (s.scan t nodefault eofRule b).1 := by
  unfold Runtime.scan
  by_cases hend : (s.buf b).bufEnd ≤ (s.buf b).pos
  · rw [if_pos hend]
    exact atEnd eofRule hb
  · rw [if_neg hend]
    cases bodyMatch t (s.lexer b).buf (s.buf b).pos s.start (s.buf b).atBol with
    | some m => exact take m hb
    | none =>
        simp only
        split_ifs
        · exact { refl s with }
        · exact byDefault s b

theorem leave {returns : Bool} {r : Runtime × List Obs} (hr : s.leave returns = some r) :
    Kept s r.1 := by
  unfold Runtime.leave at hr
  cases hp : s.phase with
  | action =>
      cases returns <;>
        (simp only [hp] at hr; obtain rfl := Option.some.inj hr; exact { refl s with })
  | eofAction =>
      cases returns <;>
        (simp only [hp] at hr; obtain rfl := Option.some.inj hr; exact { refl s with })
  | outside => simp [hp] at hr
  | loopTop => simp [hp] at hr
  | exited => simp [hp] at hr

theorem topState (s : Runtime) : Kept s (s.callee .topState).1 := by
  unfold Runtime.callee
  cases s.topState with
  | none => exact { refl s with }
  | some p => exact refl s

end Kept

/-! ## The auto-restart -/

theorem current_autoRestart {s : Runtime} {b : Nat} (hb : s.current = some b) (c : Nat) :
    (s.autoRestart c).current = some b := by
  unfold autoRestart
  split_ifs
  · exact current_restart hb _
  · exact hb

theorem control_autoRestart (s : Runtime) (b : Nat) : (s.autoRestart b).control = s.control := by
  unfold autoRestart
  split_ifs
  · exact control_restart s _
  · rfl

end Runtime

end LexCpp
