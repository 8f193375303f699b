import LexCpp.Runtime.Buffers

/-!
# What the functions on buffers leave alone

The entries of the stack, the current buffer, `yyin`, the phase of the program and the stack of
start conditions.
-/

namespace LexCpp

namespace Runtime

/-- The entry of `yy_buffer_stack` at a place. -/
def slot (s : Runtime) (i : Nat) : Option Nat := (s.bufferStack.getD []).getD i none

/-! ## Entries -/

section Slots

variable {s : Runtime}

theorem current_eq_slot : s.current = s.slot s.bufferStackTop := by
  unfold current slot
  cases s.bufferStack <;> rfl

theorem slot_setCurrent_of_ne {b : Option Nat} {i : Nat} (hi : i ≠ s.bufferStackTop) :
    (s.setCurrent b).slot i = s.slot i := by
  unfold slot setCurrent
  cases s.bufferStack with
  | none => rfl
  | some st =>
      simp only [Option.map_some, Option.getD_some, List.getD_eq_getElem?_getD]
      rw [List.getElem?_set_ne hi.symm]

theorem slot_setCurrent_top {b : Option Nat} {c : Nat}
    (h : (s.setCurrent b).slot s.bufferStackTop = some c) : b = some c := by
  unfold slot setCurrent at h
  cases hst : s.bufferStack with
  | none => simp [hst] at h
  | some st =>
      simp only [hst, Option.map_some, Option.getD_some, List.getD_eq_getElem?_getD,
        List.getElem?_set_self', Option.map_eq_map] at h
      cases hget : st[s.bufferStackTop]? with
      | none => simp [hget] at h
      | some c' => simpa [hget] using h

theorem current_setCurrent {b : Option Nat} {c : Nat} (h : (s.setCurrent b).current = some c) :
    b = some c :=
  slot_setCurrent_top (current_eq_slot.symm.trans h)

/-- An entry after an assignment to the current one. -/
theorem slot_setCurrent {b : Option Nat} {i c : Nat} (h : (s.setCurrent b).slot i = some c) :
    (i ≠ s.bufferStackTop ∧ s.slot i = some c) ∨ (i = s.bufferStackTop ∧ b = some c) := by
  by_cases hi : i = s.bufferStackTop
  · rw [hi] at h
    exact Or.inr ⟨hi, slot_setCurrent_top h⟩
  · rw [slot_setCurrent_of_ne hi] at h
    exact Or.inl ⟨hi, h⟩

@[simp] theorem slot_growStack (i : Nat) : s.growStack.slot i = s.slot i := by
  unfold slot growStack
  cases s.bufferStack with
  | none => rfl
  | some st =>
      simp only [Option.map_some, Option.getD_some, List.getD_eq_getElem?_getD]
      generalize (if st.length = 0 then 4 else st.length) = n
      rcases lt_or_ge i st.length with hi | hi
      · rw [List.getElem?_append_left hi]
      · rw [List.getElem?_append_right hi, List.getElem?_eq_none (l := st) hi,
          List.getElem?_replicate]
        split_ifs <;> rfl

@[simp] theorem slot_ensureBufferStack (i : Nat) : s.ensureBufferStack.slot i = s.slot i := by
  unfold slot ensureBufferStack
  cases hst : s.bufferStack with
  | none => cases i <;> rfl
  | some st => simp [hst]

@[simp] theorem current_ensureBufferStack : s.ensureBufferStack.current = s.current := by
  unfold ensureBufferStack
  cases hst : s.bufferStack with
  | none => simp [current, hst]
  | some st => rfl

end Slots

/-! ## The current buffer -/

section Current

variable {s : Runtime}

theorem buf_setCreated {x : Buffer} {b : Nat}
    (hb : ((s.createBuffer x).2.setCurrent (some (s.createBuffer x).1)).current = some b) :
    ((s.createBuffer x).2.setCurrent (some (s.createBuffer x).1)).buf b = x := by
  obtain rfl := Option.some.inj (current_setCurrent hb)
  exact buf_createBuffer_self

@[simp] theorem current_yyInput : s.yyInput.2.current = s.current := by
  unfold yyInput
  cases s.yyin <;> rfl

@[simp] theorem current_refill : s.refill.current = s.current := by
  unfold refill
  cases hc : s.current with
  | none => exact hc
  | some b =>
      simp only
      split_ifs
      · exact hc
      · exact current_yyInput.trans hc

@[simp] theorem current_slurpLoop (n : Nat) : (slurpLoop n s).current = s.current := by
  induction n generalizing s with
  | zero => rfl
  | succ n ih =>
      unfold slurpLoop
      cases hc : s.current with
      | none => exact hc
      | some b =>
          simp only
          split_ifs
          · exact hc
          · exact ih.trans (current_refill.trans hc)

/-- `yyrestart` keeps the current buffer, if there is one. -/
theorem current_restart {b : Nat} (hb : s.current = some b) (file : Option Nat) :
    (s.restart file).current = some b := by
  have hbuf : (s.ensureBufferStack.restartBuffer file).current = some b := by
    have hb' : s.ensureBufferStack.current = some b := current_ensureBufferStack.trans hb
    unfold restartBuffer
    rw [hb']
    exact hb'
  exact (current_slurpLoop _).trans hbuf

@[simp] theorem current_textUnseal : s.textUnseal.current = s.current := by
  unfold textUnseal
  split_ifs
  · cases s.yytext <;> rfl
  · rfl

/-- `yy_text_unseal` changes nothing of the buffers but a byte. -/
theorem field_textUnseal {β : Type} {g : Buffer → β} (hg : ∀ x data, g { x with data := data } = g x)
    (b : Nat) : g (s.textUnseal.buf b) = g (s.buf b) := by
  unfold textUnseal
  split_ifs
  · cases s.yytext with
    | none => rfl
    | some bp => exact field_modifyBuf fun x ↦ hg x _
  · rfl

end Current

/-! ## The heap -/

section Heap

variable {s : Runtime}

@[simp] theorem heap_ensureBufferStack : s.ensureBufferStack.heap = s.heap := by
  unfold ensureBufferStack
  cases s.bufferStack <;> rfl

@[simp] theorem heap_raise : s.raise.heap = s.heap := by
  unfold raise
  simp only
  split_ifs <;> rfl

theorem heap_followFile (b : Option Nat) : (s.followFile b).heap = s.heap := by
  cases b <;> rfl

theorem heap_switchToBuffer (b : Option Nat) : (s.switchToBuffer b).heap = s.heap := by
  unfold switchToBuffer
  simp only
  split_ifs
  · exact heap_ensureBufferStack
  · exact (heap_followFile b).trans heap_ensureBufferStack

theorem heap_pushBufferState (b : Option Nat) : (s.pushBufferState b).heap = s.heap :=
  (heap_followFile b).trans (heap_raise.trans heap_ensureBufferStack)

/-- Popping frees the current buffer. -/
theorem heap_popBufferState : s.popBufferState.heap = (s.deleteBuffer s.current).heap := by
  unfold popBufferState
  split_ifs with hst
  · simp only
    split_ifs
    · exact heap_followFile _
    · rfl
  · have hcur : s.current = none := by
      unfold current
      rw [Option.not_isSome_iff_eq_none.1 hst]
    rw [hcur]
    rfl

end Heap

/-! ## `yyin` -/

section Yyin

variable {s : Runtime}

@[simp] theorem yyin_ensureBufferStack : s.ensureBufferStack.yyin = s.yyin := by
  unfold ensureBufferStack
  cases s.bufferStack <;> rfl

@[simp] theorem yyin_yyInput : s.yyInput.2.yyin = s.yyin := by
  unfold yyInput
  cases hy : s.yyin with
  | none => exact hy
  | some f => rfl

@[simp] theorem yyin_refill : s.refill.yyin = s.yyin := by
  unfold refill
  cases s.current with
  | none => rfl
  | some b =>
      simp only
      split_ifs
      · rfl
      · exact yyin_yyInput

@[simp] theorem yyin_slurp : s.slurp.yyin = s.yyin := by
  have hloop : ∀ (n : Nat) (s : Runtime), (slurpLoop n s).yyin = s.yyin := by
    intro n
    induction n with
    | zero => exact fun _ ↦ rfl
    | succ n ih =>
        intro s
        unfold slurpLoop
        cases s.current with
        | none => rfl
        | some b =>
            simp only
            split_ifs
            · rfl
            · rw [ih, yyin_refill]
  exact hloop _ s

end Yyin

/-! ## Reading a byte -/

/-- `yy_input` unseals the text, may refill, and may move on by a byte. -/
theorem input_cases (s : Runtime) :
    ∃ filled, (filled = s.textUnseal ∨ filled = s.textUnseal.refill) ∧
      (s.input.2 = filled ∨ ∃ b n, s.input.2 =
        { filled.modifyBuf b fun x ↦ { x with pos := x.pos + 1 } with yylineno := n }) := by
  unfold input
  simp only
  cases s.textUnseal.current with
  | none => exact ⟨_, Or.inl rfl, Or.inl rfl⟩
  | some b =>
      have hfill : (if (s.textUnseal.buf b).bufEnd ≤ (s.textUnseal.buf b).pos
          then s.textUnseal.refill else s.textUnseal) = s.textUnseal ∨
          (if (s.textUnseal.buf b).bufEnd ≤ (s.textUnseal.buf b).pos
            then s.textUnseal.refill else s.textUnseal) = s.textUnseal.refill := by
        split_ifs
        · exact Or.inr rfl
        · exact Or.inl rfl
      refine ⟨_, hfill, ?_⟩
      simp only
      generalize (if (s.textUnseal.buf b).bufEnd ≤ (s.textUnseal.buf b).pos
        then s.textUnseal.refill else s.textUnseal) = filled
      by_cases hend : (filled.buf b).bufEnd ≤ (filled.buf b).pos
      · rw [if_pos hend]
        exact Or.inl rfl
      · rw [if_neg hend]
        exact Or.inr ⟨b, _, rfl⟩

/-- `yy_input` where it does not have to refill. -/
theorem input_of_no_refill {s : Runtime} (hread : ∀ b, s.current = some b →
    (s.buf b).pos < (s.buf b).bufEnd ∨ (s.buf b).done = true) :
    s.input = match s.textUnseal.current with
      | none => (0, s.textUnseal)
      | some b =>
          if (s.textUnseal.buf b).bufEnd ≤ (s.textUnseal.buf b).pos then (0, s.textUnseal)
          else
            let c := (s.textUnseal.buf b).data.getD (s.textUnseal.buf b).pos 0
            (c, { s.textUnseal.modifyBuf b fun x ↦ { x with pos := x.pos + 1 } with
              yylineno := if c = newline then s.textUnseal.yylineno + 1
                else s.textUnseal.yylineno }) := by
  unfold input
  cases hb : s.textUnseal.current with
  | none => simp only [hb]
  | some b =>
      have hfill : (if (s.textUnseal.buf b).bufEnd ≤ (s.textUnseal.buf b).pos
          then s.textUnseal.refill else s.textUnseal) = s.textUnseal := by
        split_ifs with hend
        · rw [field_textUnseal (g := Buffer.pos) fun _ _ ↦ rfl,
            field_textUnseal (g := Buffer.bufEnd) fun _ _ ↦ rfl] at hend
          have hdone : (s.textUnseal.buf b).done = true := by
            rw [field_textUnseal (g := Buffer.done) fun _ _ ↦ rfl]
            exact (hread b (current_textUnseal.symm.trans hb)).resolve_left (not_lt.2 hend)
          unfold refill
          rw [hb]
          exact if_pos hdone
        · rfl
      simp only [hb]
      rw [hfill]

/-! ## The control -/

/-- What has nothing to do with buffers: where the program stands, and the stack of start
conditions. -/
def control (s : Runtime) : Phase × List Nat × Nat × Nat :=
  (s.phase, s.stateStack, s.stateStackMax, s.stateStackTop)

section Control

variable (s : Runtime) (b : Option Nat)

theorem control_modifyBuf (b : Nat) (f : Buffer → Buffer) :
    (s.modifyBuf b f).control = s.control := rfl

theorem control_setCurrent : (s.setCurrent b).control = s.control := rfl

theorem control_ensureBufferStack : s.ensureBufferStack.control = s.control := by
  unfold ensureBufferStack
  split <;> rfl

theorem control_raise : s.raise.control = s.control := by
  unfold raise growStack
  simp only
  split_ifs <;> rfl

theorem control_followFile : (s.followFile b).control = s.control := by
  cases b <;> rfl

theorem control_deleteBuffer : (s.deleteBuffer b).control = s.control := by
  cases b <;> rfl

theorem control_flushBuffer : (s.flushBuffer b).control = s.control := by
  cases b <;> rfl

theorem control_switchToBuffer : (s.switchToBuffer b).control = s.control := by
  unfold switchToBuffer
  simp only
  split_ifs
  · exact control_ensureBufferStack s
  · exact (control_followFile _ b).trans (control_ensureBufferStack s)

theorem control_pushBufferState : (s.pushBufferState b).control = s.control :=
  (control_followFile _ b).trans ((control_raise _).trans (control_ensureBufferStack s))

theorem control_popBufferState : s.popBufferState.control = s.control := by
  have hfreed : ((s.deleteBuffer s.current).setCurrent none).control = s.control :=
    control_deleteBuffer s _
  unfold popBufferState
  simp only
  split_ifs
  · exact (control_followFile _ _).trans hfreed
  · exact hfreed
  · rfl

theorem control_scanBytes (bytes : List Byte) : (s.scanBytes bytes).control = s.control :=
  control_pushBufferState (s.createBuffer (memoryBuffer bytes)).2 _

theorem control_scanBuffer (base : List Byte) : (s.scanBuffer base).control = s.control := by
  unfold scanBuffer
  split_ifs
  · exact control_scanBytes s _
  · rfl

theorem control_refill : s.refill.control = s.control := by
  unfold refill yyInput
  cases s.current with
  | none => rfl
  | some b =>
      simp only
      split_ifs
      · rfl
      · cases s.yyin <;> rfl

theorem control_slurp : s.slurp.control = s.control := by
  have hloop : ∀ (n : Nat) (s : Runtime), (slurpLoop n s).control = s.control := by
    intro n
    induction n with
    | zero => exact fun _ ↦ rfl
    | succ n ih =>
        intro s
        unfold slurpLoop
        cases s.current with
        | none => rfl
        | some b =>
            simp only
            split_ifs
            · rfl
            · rw [ih, control_refill]
  exact hloop _ s

theorem control_initDefaultBuffer : s.initDefaultBuffer.control = s.control := by
  unfold initDefaultBuffer
  simp only
  split_ifs
  · exact (control_slurp _).trans (control_ensureBufferStack s)
  · exact control_ensureBufferStack s

theorem control_restart : (s.restart b).control = s.control := by
  have hbuf : ∀ s : Runtime, (s.restartBuffer b).control = s.control := by
    intro s
    unfold restartBuffer
    cases s.current <;> rfl
  exact (control_slurp _).trans ((hbuf _).trans (control_ensureBufferStack s))

theorem control_textUnseal : s.textUnseal.control = s.control := by
  unfold textUnseal
  split_ifs
  · cases s.yytext <;> rfl
  · rfl

theorem control_unput (c : Byte) : (s.unput c).control = s.control := by
  unfold unput
  simp only
  cases s.textUnseal.current <;> exact control_textUnseal s

theorem control_input : s.input.2.control = s.control := by
  obtain ⟨filled, hfilled, hinput⟩ := input_cases s
  have hcontrol : filled.control = s.control := by
    rcases hfilled with rfl | rfl
    · exact control_textUnseal s
    · exact (control_refill _).trans (control_textUnseal s)
  rcases hinput with hinput | ⟨b, n, hinput⟩
  · rw [hinput, hcontrol]
  · rw [hinput]
    exact hcontrol

theorem control_drain (n : Nat) : (drain n s).control = s.control := by
  induction n generalizing s with
  | zero => rfl
  | succ n ih =>
      unfold drain
      split_ifs
      · rw [ih, control_popBufferState]
      · rfl

variable {s} in
theorem phase_of_control {s' : Runtime} (h : s'.control = s.control) : s'.phase = s.phase :=
  congrArg Prod.fst h

theorem phase_pushState (c : Nat) : (s.pushState c).2.phase = s.phase := by
  unfold pushState growStateStack
  simp only
  split_ifs <;> rfl

theorem phase_popState : s.popState.2.phase = s.phase := by
  unfold popState
  split_ifs <;> rfl

theorem phase_destroy : s.destroy.phase = s.phase := by
  have hdrain : (s.drain (s.bufferStackTop + 1)).phase = s.phase :=
    phase_of_control (control_drain s _)
  exact hdrain

end Control

end Runtime

end LexCpp
