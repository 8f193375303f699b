import LexCpp.Runtime.Formed

/-!
# Beside the current buffer

What the runtime does with the current buffer leaves the others where they stand: of those, a store
into a sealed text may change a byte, and nothing else.
-/

namespace LexCpp

/-- What of a buffer says where its scan stands. -/
def Buffer.shape (x : Buffer) : Buffer := { x with data := [] }

namespace Runtime

/-- The start condition stays, no buffer is made, and this one stands where it stood. -/
structure Beside (b : Nat) (s s' : Runtime) : Prop where
  start : s'.start = s.start
  length : s'.heap.length = s.heap.length
  shape : (s'.buf b).shape = (s.buf b).shape

namespace Beside

variable {s s' s'' : Runtime} {b : Nat}

theorem refl (s : Runtime) : Beside b s s := ⟨rfl, rfl, rfl⟩

theorem trans (h : Beside b s s') (h' : Beside b s' s'') : Beside b s s'' :=
  ⟨h'.start.trans h.start, h'.length.trans h.length, h'.shape.trans h.shape⟩

/-! ## Buffers -/

theorem modifyBuf (s : Runtime) {c : Nat} (hc : b ≠ c) (f : Buffer → Buffer) :
    Beside b s (s.modifyBuf c f) :=
  ⟨rfl, length_modifyBuf, congrArg Buffer.shape (buf_modifyBuf_of_ne hc)⟩

theorem deleteBuffer (s : Runtime) {c : Option Nat} (hc : c ≠ some b) :
    Beside b s (s.deleteBuffer c) := by
  cases c with
  | none => exact refl s
  | some c => exact modifyBuf s (fun h ↦ hc (congrArg some h.symm)) _

theorem flushBuffer (s : Runtime) {c : Option Nat} (hc : c ≠ some b) :
    Beside b s (s.flushBuffer c) := by
  cases c with
  | none => exact refl s
  | some c => exact modifyBuf s (fun h ↦ hc (congrArg some h.symm)) _

theorem ensureBufferStack (s : Runtime) : Beside b s s.ensureBufferStack := by
  unfold Runtime.ensureBufferStack
  cases s.bufferStack <;> exact ⟨rfl, rfl, rfl⟩

theorem raise (s : Runtime) : Beside b s s.raise := by
  unfold Runtime.raise
  dsimp only
  split_ifs <;> exact ⟨rfl, rfl, rfl⟩

theorem setCurrent (s : Runtime) (c : Option Nat) : Beside b s (s.setCurrent c) := ⟨rfl, rfl, rfl⟩

theorem followFile (s : Runtime) (c : Option Nat) : Beside b s (s.followFile c) := by
  cases c <;> exact ⟨rfl, rfl, rfl⟩

theorem switchToBuffer (s : Runtime) (c : Option Nat) : Beside b s (s.switchToBuffer c) := by
  unfold Runtime.switchToBuffer
  dsimp only
  split_ifs
  · exact ensureBufferStack s
  · exact (ensureBufferStack s).trans ((setCurrent _ c).trans (followFile _ c))

theorem pushBufferState (s : Runtime) (c : Option Nat) : Beside b s (s.pushBufferState c) :=
  (ensureBufferStack s).trans ((raise _).trans ((setCurrent _ c).trans (followFile _ c)))

theorem popBufferState (hb : s.current ≠ some b) : Beside b s s.popBufferState := by
  have hfreed : Beside b s ((s.deleteBuffer s.current).setCurrent none) :=
    (deleteBuffer s hb).trans (setCurrent _ none)
  unfold Runtime.popBufferState
  dsimp only
  split_ifs
  · refine (hfreed.trans ?_).trans (followFile _ _)
    exact ⟨rfl, rfl, rfl⟩
  · exact hfreed
  · exact refl s

/-! ## Reading -/

theorem yyInput (s : Runtime) : Beside b s s.yyInput.2 := by
  unfold Runtime.yyInput
  cases s.yyin <;> exact ⟨rfl, rfl, rfl⟩

theorem refill (hb : s.current ≠ some b) : Beside b s s.refill := by
  unfold Runtime.refill
  cases hc : s.current with
  | none => exact refl s
  | some c =>
      dsimp only
      split_ifs
      · exact refl s
      · exact (yyInput s).trans (modifyBuf _ (fun h ↦ hb (hc.trans (congrArg some h.symm))) _)

theorem slurp (hb : s.current ≠ some b) : Beside b s s.slurp := by
  have hloop : ∀ (n : Nat) (s : Runtime), s.current ≠ some b → Beside b s (slurpLoop n s) := by
    intro n
    induction n with
    | zero => exact fun s _ ↦ refl s
    | succ n ih =>
        intro s hb
        unfold slurpLoop
        cases hc : s.current with
        | none => exact refl s
        | some c =>
            dsimp only
            split_ifs
            · exact refl s
            · exact (refill hb).trans (ih _ (current_refill.trans_ne hb))
  exact hloop _ s hb

/-- `yyrestart`, with a current buffer. -/
theorem restart {c : Nat} (hc : s.current = some c) (hb : b ≠ c) (file : Option Nat) :
    Beside b s (s.restart file) := by
  have hc' : s.ensureBufferStack.current = some c := current_ensureBufferStack.trans hc
  have hbuf : Beside b s (s.ensureBufferStack.restartBuffer file) := by
    unfold restartBuffer
    rw [hc']
    exact (ensureBufferStack s).trans ((modifyBuf _ hb _).trans
      (flushBuffer _ fun h ↦ hb (Option.some.inj h).symm))
  have hcur : (s.ensureBufferStack.restartBuffer file).current = some c := by
    unfold restartBuffer
    rw [hc']
    exact hc'
  refine (hbuf.trans ?_).trans (slurp (s := { s.ensureBufferStack.restartBuffer file with
    yyin := file, textActive := false, textSave := 0, yytext := none, yyleng := 0 }) fun h ↦ ?_)
  · exact ⟨rfl, rfl, rfl⟩
  · exact hb (Option.some.inj (hcur.symm.trans h)).symm

/-! ## The text -/

/-- Any buffer may hold a sealed text. -/
theorem textUnseal (s : Runtime) : Beside b s s.textUnseal := by
  refine ⟨?_, ?_, field_textUnseal (fun _ _ ↦ rfl) b⟩
  · unfold Runtime.textUnseal
    cases s.yytext <;> split_ifs <;> rfl
  · unfold Runtime.textUnseal
    cases s.yytext with
    | none => split_ifs <;> rfl
    | some p =>
        split_ifs
        · exact length_modifyBuf
        · rfl

theorem unput (hb : s.current ≠ some b) (c : Byte) : Beside b s (s.unput c) := by
  have hcur : s.textUnseal.current ≠ some b := current_textUnseal.trans_ne hb
  unfold Runtime.unput
  dsimp only
  cases hc : s.textUnseal.current with
  | none => exact textUnseal s
  | some d =>
      exact (textUnseal s).trans (modifyBuf _ (fun h ↦ hcur (hc.trans (congrArg some h.symm))) _)

theorem input (hb : s.current ≠ some b) : Beside b s s.input.2 := by
  have hcur : s.textUnseal.current ≠ some b := current_textUnseal.trans_ne hb
  unfold Runtime.input
  dsimp only
  cases hc : s.textUnseal.current with
  | none => exact textUnseal s
  | some d =>
      have hne : b ≠ d := fun h ↦ hcur (hc.trans (congrArg some h.symm))
      have hfill : Beside b s (if (s.textUnseal.buf d).bufEnd ≤ (s.textUnseal.buf d).pos then
          s.textUnseal.refill else s.textUnseal) := by
        split_ifs
        · exact (textUnseal s).trans (refill hcur)
        · exact textUnseal s
      dsimp only
      generalize (if (s.textUnseal.buf d).bufEnd ≤ (s.textUnseal.buf d).pos then
        s.textUnseal.refill else s.textUnseal) = filled at hfill ⊢
      split_ifs
      · exact hfill
      · exact ⟨hfill.start, length_modifyBuf.trans hfill.length,
          (congrArg Buffer.shape (buf_modifyBuf_of_ne hne)).trans hfill.shape⟩
      · exact ⟨hfill.start, length_modifyBuf.trans hfill.length,
          (congrArg Buffer.shape (buf_modifyBuf_of_ne hne)).trans hfill.shape⟩

/-! ## The loop -/

theorem scan (t : Tables) (nodefault : Bool) (eofRule : Nat → Bool) {c : Nat} (hb : b ≠ c) :
    Beside b s (s.scan t nodefault eofRule c).1 := by
  have hmod : ∀ f : Buffer → Buffer, Beside b s (s.modifyBuf c f) := fun f ↦ modifyBuf s hb f
  unfold Runtime.scan
  by_cases hend : (s.buf c).bufEnd ≤ (s.buf c).pos
  · rw [if_pos hend]
    exact ⟨rfl, rfl, rfl⟩
  · rw [if_neg hend]
    cases bodyMatch t (s.lexer c).buf (s.buf c).pos s.start (s.buf c).atBol with
    | some m =>
        obtain ⟨hstart, hlength, hshape⟩ := hmod fun x ↦ { x with
          data := ((s.lexer c).accept m).data, pos := ((s.lexer c).accept m).bufPos
          atBol := ((s.lexer c).accept m).atBol }
        exact ⟨hstart, hlength, hshape⟩
    | none =>
        dsimp only
        split_ifs
        · exact ⟨rfl, rfl, rfl⟩
        · obtain ⟨hstart, hlength, hshape⟩ := hmod fun x ↦ { x with
            pos := x.pos + 1, atBol := (s.buf c).data.getD (s.buf c).pos 0 = newline }
          exact ⟨hstart, hlength, hshape⟩

theorem autoRestart {c : Nat} (hc : s.current = some c) (hb : b ≠ c) :
    Beside b s (s.autoRestart c) := by
  unfold Runtime.autoRestart
  split_ifs
  · exact restart hc hb _
  · exact refl s

/-- A turn of the loop is about the current buffer. -/
theorem loopBody {t : Tables} {nodefault : Bool} {eofRule : Nat → Bool} {r : Runtime × List Obs}
    (hr : s.loopBody t nodefault eofRule = some r) (hb : s.current ≠ some b) : Beside b s r.1 := by
  obtain ⟨c, hc, rfl⟩ := Option.map_eq_some_iff.1 hr
  have hne : b ≠ c := by
    rintro rfl
    exact hb (current_textUnseal.symm.trans hc)
  exact (textUnseal s).trans ((autoRestart hc hne).trans (scan t nodefault eofRule hne))

theorem leave {returns : Bool} {r : Runtime × List Obs} (hr : s.leave returns = some r) :
    Beside b s r.1 := by
  unfold Runtime.leave at hr
  cases hp : s.phase with
  | action =>
      rw [hp] at hr
      cases returns with
      | true => exact Option.some.inj hr ▸ ⟨rfl, rfl, rfl⟩
      | false => exact Option.some.inj hr ▸ ⟨rfl, rfl, rfl⟩
  | eofAction =>
      rw [hp] at hr
      cases returns with
      | true => exact Option.some.inj hr ▸ ⟨rfl, rfl, rfl⟩
      | false => exact Option.some.inj hr ▸ ⟨rfl, rfl, rfl⟩
  | outside | loopTop | exited =>
      rw [hp] at hr
      exact (Option.some_ne_none r hr.symm).elim

end Beside

end Runtime

end LexCpp
