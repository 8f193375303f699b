import LexCpp.Runtime.Kept

/-!
# The shape of the buffer stack

What holds of the stack in every run: its entries are buffers that were created, there are no
null entries below the current one, and if the current buffer has a file, there is a `yyin`
to read it from.
-/

namespace LexCpp

namespace Runtime

structure Formed (s : Runtime) : Prop where
  known : ∀ i b, s.slot i = some b → b < s.heap.length
  below : s.bufferStack ≠ none → ∀ i < s.bufferStackTop, s.slot i ≠ none
  follows : ∀ b f, s.current = some b → (s.buf b).inputFile = some f → s.yyin ≠ none

namespace Formed

variable {s s' : Runtime}

/-- What leaves the stack alone keeps its shape. -/
theorem kept (h : s.Formed) (hk : Kept s s') : s'.Formed := by
  refine ⟨fun i b hb ↦ ?_, fun hst i hi ↦ ?_, fun b f hb hf ↦ ?_⟩
  · rw [hk.slot] at hb
    exact (h.known i b hb).trans_le hk.length_le
  · rw [hk.bufferStack] at hst
    rw [hk.bufferStackTop] at hi
    rw [hk.slot]
    exact h.below hst i hi
  · rw [hk.current] at hb
    rw [hk.inputFile b (h.known _ b (current_eq_slot.symm.trans hb))] at hf
    exact hk.yyin (h.follows b f hb hf)

/-- `yyin` follows the current buffer, if there is one. -/
theorem followFile (hknown : ∀ i b, s.slot i = some b → b < s.heap.length)
    (hbelow : s.bufferStack ≠ none → ∀ i < s.bufferStackTop, s.slot i ≠ none) {b : Option Nat}
    (hb : ∀ c, s.current = some c → b = some c) : (s.followFile b).Formed := by
  cases b with
  | none => exact ⟨hknown, hbelow, fun c f hc ↦ by cases hb c hc⟩
  | some b =>
      refine ⟨hknown, hbelow, fun c f hc hf ↦ ?_⟩
      obtain rfl := Option.some.inj (hb c hc)
      have hf : (s.buf b).inputFile = some f := hf
      change (s.buf b).inputFile ≠ none
      rw [hf]
      exact nofun

/-- The entries after an assignment to the current one. -/
theorem setCurrent (hknown : ∀ i b, s.slot i = some b → b < s.heap.length)
    (hbelow : s.bufferStack ≠ none → ∀ i < s.bufferStackTop, s.slot i ≠ none) {b : Option Nat}
    (hb : ∀ c, b = some c → c < s.heap.length) :
    (∀ i c, (s.setCurrent b).slot i = some c → c < (s.setCurrent b).heap.length) ∧
      ((s.setCurrent b).bufferStack ≠ none →
        ∀ i < (s.setCurrent b).bufferStackTop, (s.setCurrent b).slot i ≠ none) := by
  refine ⟨fun i c hc ↦ ?_, fun hst i hi ↦ ?_⟩
  · rcases slot_setCurrent hc with hc | hc
    · exact hknown i c hc.2
    · exact hb c hc.2
  · have hi : i < s.bufferStackTop := hi
    rw [slot_setCurrent_of_ne hi.ne]
    refine hbelow (fun hnone ↦ hst ?_) i hi
    unfold Runtime.setCurrent
    simp [hnone]

/-- Another current buffer, which `yyin` follows. -/
theorem setCurrent_followFile (hknown : ∀ i b, s.slot i = some b → b < s.heap.length)
    (hbelow : s.bufferStack ≠ none → ∀ i < s.bufferStackTop, s.slot i ≠ none) {b : Option Nat}
    (hb : ∀ c, b = some c → c < s.heap.length) : ((s.setCurrent b).followFile b).Formed := by
  obtain ⟨hknown', hbelow'⟩ := setCurrent hknown hbelow hb
  exact followFile hknown' hbelow' fun c hc ↦ current_setCurrent hc

theorem ensureBufferStack (h : s.Formed) : s.ensureBufferStack.Formed := by
  have hslot : ∀ i, s.ensureBufferStack.slot i = s.slot i := slot_ensureBufferStack
  have hcur : s.ensureBufferStack.current = s.current := current_ensureBufferStack
  unfold Runtime.ensureBufferStack at hslot hcur ⊢
  cases hst : s.bufferStack with
  | none =>
      simp only [hst] at hslot hcur
      refine ⟨fun i b hb ↦ ?_, fun _ i hi ↦ absurd hi (Nat.not_lt_zero i), fun b f hb hf ↦ ?_⟩
      · exact h.known i b ((hslot i).symm.trans hb)
      · exact h.follows b f (hcur.symm.trans hb) hf
  | some st => exact h

/-- The slot above the current buffer. -/
theorem raise (h : s.Formed) : (∀ i b, s.raise.slot i = some b → b < s.raise.heap.length) ∧
    (s.raise.bufferStack ≠ none → ∀ i < s.raise.bufferStackTop, s.raise.slot i ≠ none) := by
  have hup : s.current.isSome = true → ∀ i < s.bufferStackTop + 1, s.slot i ≠ none := by
    intro hcur i hi
    rcases Nat.lt_or_eq_of_le (Nat.le_of_lt_succ hi) with hi | rfl
    · refine h.below (fun hnone ↦ ?_) i hi
      simp [Runtime.current, hnone] at hcur
    · rw [← current_eq_slot]
      exact Option.isSome_iff_ne_none.1 hcur
  unfold Runtime.raise
  split_ifs with hcur
  · simp only
    split_ifs
    · refine ⟨fun i b hb ↦ ?_, fun _ i hi ↦ ?_⟩
      · rw [slot_growStack] at hb
        exact h.known i b hb
      · rw [slot_growStack]
        exact hup hcur i hi
    · exact ⟨h.known, fun _ ↦ hup hcur⟩
  · exact ⟨h.known, h.below⟩

theorem switchToBuffer (h : s.Formed) {b : Option Nat} (hb : ∀ c, b = some c → c < s.heap.length) :
    (s.switchToBuffer b).Formed := by
  have he : s.ensureBufferStack.Formed := h.ensureBufferStack
  unfold Runtime.switchToBuffer
  simp only
  split_ifs
  · exact he
  · refine setCurrent_followFile he.known he.below ?_
    rw [heap_ensureBufferStack]
    exact hb

theorem pushBufferState (h : s.Formed) {b : Option Nat} (hb : ∀ c, b = some c → c < s.heap.length) :
    (s.pushBufferState b).Formed := by
  obtain ⟨hknown, hbelow⟩ := h.ensureBufferStack.raise
  refine setCurrent_followFile hknown hbelow ?_
  rw [heap_raise, heap_ensureBufferStack]
  exact hb

theorem deleteBuffer (h : s.Formed) (b : Option Nat) : (s.deleteBuffer b).Formed := by
  cases b with
  | none => exact h
  | some b =>
      have hfile : ∀ c, ((s.deleteBuffer (some b)).buf c).inputFile = (s.buf c).inputFile :=
        fun c ↦ field_modifyBuf fun _ ↦ rfl
      refine ⟨fun i c hc ↦ (h.known i c hc).trans_le length_modifyBuf.ge, h.below,
        fun c f hc hf ↦ h.follows c f hc ?_⟩
      rw [← hfile]
      exact hf

theorem popBufferState (h : s.Formed) : s.popBufferState.Formed := by
  have hfreed : (s.deleteBuffer s.current).Formed := h.deleteBuffer s.current
  obtain ⟨hknown, hbelow⟩ :=
    setCurrent hfreed.known hfreed.below (b := none) fun c hc ↦ by cases hc
  unfold Runtime.popBufferState
  simp only
  split_ifs with _ hpos
  · refine followFile (s := { (s.deleteBuffer s.current).setCurrent none with
        bufferStackTop := ((s.deleteBuffer s.current).setCurrent none).bufferStackTop - 1 })
      hknown (fun hst i hi ↦ ?_) fun c hc ↦ hc
    exact hbelow hst i (hi.trans (Nat.sub_lt hpos Nat.one_pos))
  · refine ⟨hknown, hbelow, fun c f hc ↦ ?_⟩
    cases current_setCurrent hc
  · exact h

theorem scanBytes (h : s.Formed) (bytes : List Byte) : (s.scanBytes bytes).Formed := by
  refine (h.kept (.createBuffer s (x := memoryBuffer bytes) rfl)).pushBufferState fun c hc ↦ ?_
  obtain rfl := Option.some.inj hc
  simp [Runtime.createBuffer]

/-- A new buffer for a file that there is a `yyin` for. -/
theorem setCreated (h : s.Formed) {x : Buffer} (hfrees : x.frees = 0) (hx : ∀ f, x.inputFile = some f → s.yyin ≠ none) :
    ((s.createBuffer x).2.setCurrent (some (s.createBuffer x).1)).Formed := by
  have hcreated : (s.createBuffer x).2.Formed := h.kept (.createBuffer s hfrees)
  obtain ⟨hknown, hbelow⟩ := setCurrent hcreated.known hcreated.below
    (b := some (s.createBuffer x).1) fun c hc ↦ by
      obtain rfl := Option.some.inj hc
      simp [Runtime.createBuffer]
  refine ⟨hknown, hbelow, fun c f hc hf ↦ hx f ?_⟩
  rw [buf_setCreated hc] at hf
  exact hf

theorem initDefaultBuffer (h : s.Formed) : s.initDefaultBuffer.Formed := by
  have he : s.ensureBufferStack.Formed := h.ensureBufferStack
  have hyyin : Formed { s.ensureBufferStack with
      yyin := some (s.ensureBufferStack.yyin.getD stdin) } :=
    he.kept { Kept.refl _ with yyin := fun _ ↦ nofun }
  have hinit : ∀ {s : Runtime}, s.Formed → Formed { s with initDone := true } :=
    fun {s} h ↦ h.kept { Kept.refl s with }
  unfold Runtime.initDefaultBuffer
  simp only
  split_ifs
  · exact hinit ((hyyin.setCreated rfl fun _ _ ↦ nofun).kept (.slurp _))
  · exact hinit he

theorem restart (h : s.Formed) (file : Option Nat) : (s.restart file).Formed := by
  have he : s.ensureBufferStack.Formed := h.ensureBufferStack
  have hbuf : Formed { s.ensureBufferStack.restartBuffer file with
      yyin := file, textActive := false, textSave := 0, yytext := none, yyleng := 0 } := by
    unfold restartBuffer
    cases hcur : s.ensureBufferStack.current with
    | none =>
        have hyyin : Formed { s.ensureBufferStack with
            yyin := file, textActive := false, textSave := 0, yytext := none, yyleng := 0 } :=
          ⟨he.known, he.below, fun b f hb ↦ by cases hcur.symm.trans hb⟩
        exact hyyin.setCreated (x := fileBuffer file) rfl fun f hf ↦ by
          have hf : file = some f := hf
          change file ≠ none
          rw [hf]
          exact nofun
    | some b =>
        have hlt : b < s.ensureBufferStack.heap.length :=
          he.known _ b (current_eq_slot.symm.trans hcur)
        refine ⟨fun i c hc ↦ ?_, he.below, fun c f hc hf ↦ ?_⟩
        · exact (he.known i c hc).trans_le (length_modifyBuf.trans length_modifyBuf).ge
        · obtain rfl := Option.some.inj (hcur.symm.trans hc)
          change ((Runtime.modifyBuf b _ (Runtime.modifyBuf b _ s.ensureBufferStack)).buf b).inputFile =
            some f at hf
          rw [buf_modifyBuf_self (hlt.trans_le length_modifyBuf.ge), buf_modifyBuf_self hlt] at hf
          change file ≠ none
          change file = some f at hf
          rw [hf]
          exact nofun
  exact hbuf.kept (.slurp _)

theorem drain (n : Nat) (h : s.Formed) : (s.drain n).Formed := by
  induction n generalizing s with
  | zero => exact h
  | succ n ih =>
      unfold Runtime.drain
      split_ifs
      · exact ih h.popBufferState
      · exact h

theorem destroy (h : s.Formed) : s.destroy.Formed := by
  have hnone : ∀ i, s.destroy.slot i = none := fun _ ↦ rfl
  refine ⟨fun i b hb ↦ ?_, fun hst ↦ absurd rfl hst, fun b f hb ↦ by cases hb⟩
  rw [hnone] at hb
  cases hb

theorem enter (h : s.Formed) : s.enter.Formed := by
  have hyyin : Formed { s with yyin := some (s.yyin.getD stdin) } :=
    h.kept { Kept.refl s with yyin := fun _ ↦ nofun }
  exact hyyin.initDefaultBuffer.kept { Kept.refl _ with }

theorem autoRestart (h : s.Formed) (b : Nat) : (s.autoRestart b).Formed := by
  unfold Runtime.autoRestart
  split_ifs
  · exact h.restart _
  · exact h

theorem loopBody (h : s.Formed) {t : Tables} {nodefault : Bool} {eofRule : Nat → Bool}
    {r : Runtime × List Obs} (hr : s.loopBody t nodefault eofRule = some r) : r.1.Formed := by
  obtain ⟨b, hb, rfl⟩ := Option.map_eq_some_iff.1 hr
  exact ((h.kept (.textUnseal s)).autoRestart b).kept (.scan t nodefault eofRule
    (current_autoRestart hb b))

theorem callee (h : s.Formed) {c : Call} (hc : s.CanCall c) : (s.callee c).1.Formed := by
  have hknown : ∀ b, c.buffer = some b → b < s.heap.length := by
    intro b hb
    simpa [hb] using hc.2.2
  cases c with
  | begin c => exact h.kept { Kept.refl s with }
  | more => exact h.kept { Kept.refl s with }
  | pushState c => exact h.kept (.pushState s c)
  | popState => exact h.kept (.popState s)
  | topState => exact h.kept (.topState s)
  | createBuffer file => exact h.kept (.createBuffer s rfl)
  | deleteBuffer b => exact h.deleteBuffer b
  | flushBuffer b => exact h.kept (.flushBuffer s b)
  | switchToBuffer b => exact h.switchToBuffer hknown
  | pushBufferState b => exact h.pushBufferState hknown
  | popBufferState => exact h.popBufferState
  | scanBytes bytes => exact h.scanBytes bytes
  | scanBuffer base =>
      unfold Runtime.callee scanBuffer
      simp only
      split_ifs
      · exact h.scanBytes _
      · exact h
  | restart file => exact h.restart file
  | input => exact h.kept (.input s)
  | unput c => exact h.kept (.unput s c)
  | destroy => exact h.destroy
  | yylex => exact h
  | iterate => exact h
  | leave returns => exact h

/-- Every call keeps the shape of the stack. -/
theorem step (h : s.Formed) {t : Tables} {nodefault : Bool} {eofRule : Nat → Bool} {c : Call}
    {r : Runtime × List Obs} (hr : s.step t nodefault eofRule c = some r) : r.1.Formed := by
  have hcallee : (if s.CanCall c then some (s.callee c) else none) = some r → r.1.Formed := by
    intro hr
    rw [Option.ite_none_right_eq_some, Option.some.injEq] at hr
    obtain ⟨hc, rfl⟩ := hr
    exact h.callee hc
  cases c with
  | yylex =>
      obtain ⟨-, hr⟩ := Option.ite_none_right_eq_some.1 hr
      obtain rfl := Option.some.inj hr
      exact h.enter
  | iterate =>
      obtain ⟨-, hr⟩ := Option.ite_none_right_eq_some.1 hr
      exact h.loopBody hr
  | leave returns => exact h.kept (.leave hr)
  | _ => exact hcallee hr

theorem fresh (files : Nat → List (List Byte)) : (Runtime.fresh files).Formed := by
  have hslot : ∀ i, (Runtime.fresh files).slot i = none := fun _ ↦ rfl
  refine ⟨fun i b hb ↦ ?_, fun hst ↦ absurd rfl hst, fun b f hb ↦ by cases hb⟩
  rw [hslot] at hb
  cases hb

end Formed

/-- The shape of the stack at the end of a run. -/
theorem run_formed {t : Tables} {nodefault : Bool} {eofRule : Nat → Bool}
    {files : Nat → List (List Byte)} {cs : List Call} {r : Runtime × List Obs}
    (hr : run t nodefault eofRule cs (fresh files) = some r) : r.1.Formed :=
  Observed.run_invariant (P := fun _ _ ↦ True) (fun _ _ _ h _ hr ↦ h.step hr)
    (Observed.along_of_forall (fun _ _ _ ↦ trivial) _) (Formed.fresh files) hr

end Runtime

end LexCpp
