import LexCpp.Runtime.Kept
import LexCpp.Scanner.Bol

/-!
# References to buffers

Two kinds of references to buffers outlive a call: the entries of `yy_buffer_stack`, and
`yytext`, through which `yy_text_unseal` restores a byte.  The functions that free a buffer
do not look for either of them, so that no reference goes stale if none is freed while it is
referred to elsewhere.
-/

namespace LexCpp

namespace Runtime

/-- The buffer has been created, and not freed. -/
def Live (s : Runtime) (b : Nat) : Prop := b < s.heap.length ∧ (s.buf b).frees = 0

/-- No reference to a freed buffer is left, and no buffer was freed twice. -/
structure NoStale (s : Runtime) : Prop where
  stack : ∀ i ≤ s.bufferStackTop, ∀ b, s.slot i = some b → s.Live b
  text : ∀ b, s.SealedIn b → s.Live b
  frees_le : ∀ b, (s.buf b).frees ≤ 1

/-- What a call frees is referred to by nothing but the entry that the call itself clears, and
what it puts on the stack has not been freed. -/
def FreesUnreferenced (s : Runtime) : Call → Prop
  | .switchToBuffer (some b) => s.current ≠ some b → s.Live b
  | .pushBufferState (some b) => s.Live b
  | .deleteBuffer (some b) =>
      s.Live b ∧ (∀ i ≤ s.bufferStackTop, s.slot i ≠ some b) ∧ ¬ s.SealedIn b
  | .popBufferState => ∀ b, s.current = some b →
      (∀ i < s.bufferStackTop, s.slot i ≠ some b) ∧ ¬ s.SealedIn b
  | .destroy => s.current ≠ none → ∀ i ≤ s.bufferStackTop, ∀ b, s.slot i = some b →
      (∀ j < i, s.slot j ≠ some b) ∧ ¬ s.SealedIn b
  | _ => True

/-! ## The invariant -/

/-- Besides, the entries above the current one are null. -/
structure Inv (s : Runtime) : Prop extends NoStale s where
  above : ∀ i, s.bufferStackTop < i → s.slot i = none

section Inv

variable {s s' : Runtime}

theorem Live.modifyBuf {b c : Nat} (h : s.Live b) {f : Buffer → Buffer}
    (hf : ∀ x, (f x).frees = x.frees) : (s.modifyBuf c f).Live b :=
  ⟨h.1.trans_le length_modifyBuf.ge, (field_modifyBuf hf).trans h.2⟩

theorem Live.deleteBuffer {b c : Nat} (h : s.Live c) (hc : c ≠ b) :
    (s.deleteBuffer (some b)).Live c :=
  ⟨h.1.trans_le length_modifyBuf.ge, (congrArg _ (buf_modifyBuf_of_ne hc)).trans h.2⟩

theorem frees_deleteBuffer_le (hle : ∀ b, (s.buf b).frees ≤ 1) {b : Nat} (hb : s.Live b) (c : Nat) :
    ((s.deleteBuffer (some b)).buf c).frees ≤ 1 := by
  rcases eq_or_ne c b with rfl | hcb
  · exact (congrArg Buffer.frees (buf_modifyBuf_self hb.1)).trans_le (Nat.succ_le_succ hb.2.le)
  · exact (congrArg Buffer.frees (buf_modifyBuf_of_ne hcb)).trans_le (hle c)

theorem Kept.live (h : Kept s s') {b : Nat} (hb : s.Live b) : s'.Live b :=
  ⟨hb.1.trans_le h.length_le, (h.frees b).trans hb.2⟩

namespace Inv

/-- What leaves the stack alone keeps the invariant. -/
theorem kept (h : s.Inv) (hk : Kept s s') : s'.Inv := by
  refine ⟨⟨fun i hi b hb ↦ ?_, fun b hb ↦ ?_, fun b ↦ ?_⟩, fun i hi ↦ ?_⟩
  · rw [hk.bufferStackTop] at hi
    rw [hk.slot] at hb
    exact hk.live (h.stack i hi b hb)
  · rcases hk.sealedIn b hb with hb | hb
    · exact hk.live (h.text b hb)
    · rw [current_eq_slot] at hb
      exact hk.live (h.stack _ le_rfl b hb)
  · rw [hk.frees]
    exact h.frees_le b
  · rw [hk.bufferStackTop] at hi
    rw [hk.slot]
    exact h.above i hi

theorem setCurrent (h : s.Inv) {b : Option Nat} (hb : ∀ c, b = some c → s.Live c) :
    (s.setCurrent b).Inv := by
  refine ⟨⟨fun i hi c hc ↦ ?_, h.text, h.frees_le⟩, fun i hi ↦ ?_⟩
  · rcases slot_setCurrent hc with hc | hc
    · exact h.stack i hi c hc.2
    · exact hb c hc.2
  · have hi : s.bufferStackTop < i := hi
    rw [slot_setCurrent_of_ne hi.ne']
    exact h.above i hi

theorem ensureBufferStack (h : s.Inv) : s.ensureBufferStack.Inv := by
  have hslot : ∀ i, s.ensureBufferStack.slot i = s.slot i := slot_ensureBufferStack
  unfold Runtime.ensureBufferStack at hslot ⊢
  cases hst : s.bufferStack with
  | none =>
      simp only [hst] at hslot
      have hnone : ∀ i, s.slot i = none := fun i ↦ by rw [slot, hst]; rfl
      refine ⟨⟨fun i _ c hc ↦ ?_, h.text, h.frees_le⟩, fun i _ ↦ (hslot i).trans (hnone i)⟩
      rw [hslot, hnone] at hc
      cases hc
  | some st => exact h

theorem growStack (h : s.Inv) : s.growStack.Inv := by
  refine ⟨⟨fun i hi c hc ↦ ?_, h.text, h.frees_le⟩, fun i hi ↦ ?_⟩
  · rw [slot_growStack] at hc
    exact h.stack i hi c hc
  · rw [slot_growStack]
    exact h.above i hi

theorem raise (h : s.Inv) : s.raise.Inv := by
  have hup : Inv { s with bufferStackTop := s.bufferStackTop + 1 } := by
    refine ⟨⟨fun i hi c hc ↦ ?_, h.text, h.frees_le⟩, fun i hi ↦ h.above i (Nat.lt_of_succ_lt hi)⟩
    change s.slot i = some c at hc
    rcases Nat.lt_or_eq_of_le hi with hi | rfl
    · exact h.stack i (Nat.le_of_lt_succ hi) c hc
    · rw [h.above _ (Nat.lt_succ_self _)] at hc
      cases hc
  unfold Runtime.raise
  simp only
  split_ifs
  · exact hup.growStack
  · exact hup
  · exact h

theorem followFile (h : s.Inv) (b : Option Nat) : (s.followFile b).Inv := by
  cases b with
  | none => exact h
  | some b => exact ⟨⟨h.stack, h.text, h.frees_le⟩, h.above⟩

theorem switchToBuffer (h : s.Inv) {b : Option Nat}
    (hb : ∀ c, b = some c → s.current ≠ b → s.Live c) : (s.switchToBuffer b).Inv := by
  unfold Runtime.switchToBuffer
  simp only [current_ensureBufferStack]
  split_ifs with hcur
  · exact h.ensureBufferStack
  · refine (h.ensureBufferStack.setCurrent fun c hc ↦ ?_).followFile b
    have hlive : s.Live c := hb c hc hcur
    unfold Runtime.ensureBufferStack
    cases s.bufferStack <;> exact hlive

theorem live_raise {b : Nat} (hb : s.Live b) : s.ensureBufferStack.raise.Live b := by
  unfold Runtime.raise Runtime.ensureBufferStack
  cases s.bufferStack <;> (simp only; split_ifs <;> exact hb)

theorem pushBufferState (h : s.Inv) {b : Option Nat} (hb : ∀ c, b = some c → s.Live c) :
    (s.pushBufferState b).Inv :=
  (h.ensureBufferStack.raise.setCurrent fun c hc ↦ live_raise (hb c hc)).followFile b

theorem scanBytes (h : s.Inv) (bytes : List Byte) : (s.scanBytes bytes).Inv := by
  refine (h.kept (.createBuffer s (x := memoryBuffer bytes) rfl)).pushBufferState fun c hc ↦ ?_
  obtain rfl := Option.some.inj hc
  have hlen : s.heap.length < (s.createBuffer (memoryBuffer bytes)).2.heap.length := by
    simp [Runtime.createBuffer]
  exact ⟨hlen, by simp [Runtime.createBuffer, buf, memoryBuffer]⟩

/-- A buffer that is new and current. -/
theorem setCreated (h : s.Inv) {x : Buffer} (hx : x.frees = 0) :
    ((s.createBuffer x).2.setCurrent (some (s.createBuffer x).1)).Inv := by
  refine (h.kept (.createBuffer s hx)).setCurrent fun c hc ↦ ?_
  obtain rfl := Option.some.inj hc
  refine ⟨?_, ?_⟩ <;> simp [Runtime.createBuffer, buf, hx]

theorem initDefaultBuffer (h : s.Inv) : s.initDefaultBuffer.Inv := by
  have hinit : ∀ {s : Runtime}, s.Inv → Inv { s with initDone := true } :=
    fun h ↦ ⟨⟨h.stack, h.text, h.frees_le⟩, h.above⟩
  have he : s.ensureBufferStack.Inv := h.ensureBufferStack
  have hyyin : Inv { s.ensureBufferStack with
      yyin := some (s.ensureBufferStack.yyin.getD stdin) } :=
    ⟨⟨he.stack, he.text, he.frees_le⟩, he.above⟩
  unfold Runtime.initDefaultBuffer
  simp only
  split_ifs
  · exact hinit ((hyyin.setCreated rfl).kept (.slurp _))
  · exact hinit he

theorem restartBuffer (h : s.Inv) (file : Option Nat) : (s.restartBuffer file).Inv := by
  unfold Runtime.restartBuffer
  cases s.current with
  | none => exact h.setCreated rfl
  | some b =>
      have hfile : (s.modifyBuf b fun x ↦ { x with inputFile := file }).Inv := by
        refine ⟨⟨fun i hi c hc ↦ ?_, fun c hc ↦ ?_, fun c ↦ ?_⟩, h.above⟩
        · exact (h.stack i hi c hc).modifyBuf fun _ ↦ rfl
        · exact (h.text c hc).modifyBuf fun _ ↦ rfl
        · have hfrees : ((s.modifyBuf b fun x ↦ { x with inputFile := file }).buf c).frees =
              (s.buf c).frees := field_modifyBuf fun _ ↦ rfl
          exact hfrees.trans_le (h.frees_le c)
      exact hfile.kept (.flushBuffer _ (some b))

theorem restart (h : s.Inv) (file : Option Nat) : (s.restart file).Inv := by
  have hbuf : (s.ensureBufferStack.restartBuffer file).Inv := h.ensureBufferStack.restartBuffer file
  have hclear : Inv { s.ensureBufferStack.restartBuffer file with
      yyin := file, textActive := false, textSave := 0, yytext := none, yyleng := 0 } :=
    ⟨⟨hbuf.stack, fun b hb ↦ absurd hb.1 Bool.false_ne_true, hbuf.frees_le⟩, hbuf.above⟩
  exact hclear.kept (.slurp _)

/-! ## What frees a buffer -/

theorem deleteBuffer (h : s.Inv) {b : Nat} (hb : s.Live b)
    (hstack : ∀ i ≤ s.bufferStackTop, s.slot i ≠ some b) (htext : ¬ s.SealedIn b) :
    (s.deleteBuffer (some b)).Inv := by
  refine ⟨⟨fun i hi c hc ↦ ?_, fun c hc ↦ ?_, fun c ↦ ?_⟩, h.above⟩
  · exact (h.stack i hi c hc).deleteBuffer fun hcb ↦ hstack i hi (hcb ▸ hc)
  · exact (h.text c hc).deleteBuffer fun hcb ↦ htext (hcb ▸ hc)
  · exact frees_deleteBuffer_le h.frees_le hb c

/-- The buffer that is popped is referred to by its own entry alone. -/
theorem popBufferState (h : s.Inv) (hcur : ∀ b, s.current = some b →
    (∀ i < s.bufferStackTop, s.slot i ≠ some b) ∧ ¬ s.SealedIn b) : s.popBufferState.Inv := by
  have hfreed : ((s.deleteBuffer s.current).setCurrent none).Inv := by
    cases hc : s.current with
    | none => exact h.setCurrent fun c hc ↦ by cases hc
    | some b =>
        obtain ⟨hstack, htext⟩ := hcur b hc
        have hb : s.Live b := h.stack _ le_rfl b (current_eq_slot.symm.trans hc)
        refine ⟨⟨fun i hi c hc ↦ ?_, fun c hc ↦ ?_, fun c ↦ ?_⟩, fun i hi ↦ ?_⟩
        · rcases slot_setCurrent hc with hc | hc
          · have hi : i < s.bufferStackTop := lt_of_le_of_ne hi hc.1
            exact (h.stack i hi.le c hc.2).deleteBuffer fun hcb ↦ hstack i hi (hcb ▸ hc.2)
          · cases hc.2
        · exact (h.text c hc).deleteBuffer fun hcb ↦ htext (hcb ▸ hc)
        · exact frees_deleteBuffer_le h.frees_le hb c
        · have hi : (s.deleteBuffer (some b)).bufferStackTop < i := hi
          exact (slot_setCurrent_of_ne hi.ne').trans (h.above i hi)
  have hlow : ∀ n, n + 1 = s.bufferStackTop →
      Inv { (s.deleteBuffer s.current).setCurrent none with bufferStackTop := n } := by
    intro n hn
    have htop : ((s.deleteBuffer s.current).setCurrent none).bufferStackTop = s.bufferStackTop := by
      cases s.current <;> rfl
    refine ⟨⟨fun i hi ↦ hfreed.stack i ?_, hfreed.text, hfreed.frees_le⟩, fun i hi ↦ ?_⟩
    · change i ≤ n at hi
      omega
    · have hi : n < i := hi
      rcases Nat.lt_or_eq_of_le (Nat.succ_le_of_lt hi) with hi | rfl
      · exact hfreed.above i (by omega)
      · rw [Option.eq_none_iff_forall_ne_some]
        intro c hc
        have htop' : n + 1 = (s.deleteBuffer s.current).bufferStackTop := by
          rw [hn, ← htop]
          rfl
        change ((s.deleteBuffer s.current).setCurrent none).slot (n + 1) = some c at hc
        rw [htop'] at hc
        cases slot_setCurrent_top hc
  unfold Runtime.popBufferState
  simp only
  split_ifs with _ hpos
  · refine (hlow _ ?_).followFile _
    have htop : ((s.deleteBuffer s.current).setCurrent none).bufferStackTop = s.bufferStackTop := by
      cases s.current <;> rfl
    rw [htop] at hpos ⊢
    exact Nat.sub_add_cancel hpos
  · exact hfreed
  · exact h

/-- What the popped state has of the stack and of the text. -/
theorem popBufferState_frame (s : Runtime) :
    (∀ i c, s.popBufferState.slot i = some c → s.slot i = some c) ∧
      s.popBufferState.bufferStackTop ≤ s.bufferStackTop ∧
      ∀ b, s.popBufferState.SealedIn b → s.SealedIn b := by
  have hslot : ∀ i c, ((s.deleteBuffer s.current).setCurrent none).slot i = some c →
      s.slot i = some c := by
    intro i c hc
    rcases slot_setCurrent hc with hc | hc
    · have hsame : (s.deleteBuffer s.current).slot i = s.slot i := by
        cases s.current <;> rfl
      exact hsame ▸ hc.2
    · cases hc.2
  have htop : (s.deleteBuffer s.current).bufferStackTop = s.bufferStackTop := by
    cases s.current <;> rfl
  have htext : ∀ b, (s.deleteBuffer s.current).SealedIn b → s.SealedIn b := by
    intro b hb
    cases hc : s.current with
    | none => exact (hc ▸ hb : (s.deleteBuffer none).SealedIn b)
    | some c => exact (hc ▸ hb : (s.deleteBuffer (some c)).SealedIn b)
  have hfollow : ∀ (s : Runtime) (b : Option Nat), (∀ i, (s.followFile b).slot i = s.slot i) ∧
      (s.followFile b).bufferStackTop = s.bufferStackTop ∧
      ∀ c, (s.followFile b).SealedIn c → s.SealedIn c := by
    intro s b
    cases b with
    | none => exact ⟨fun _ ↦ rfl, rfl, fun _ h ↦ h⟩
    | some b => exact ⟨fun _ ↦ rfl, rfl, fun _ h ↦ h⟩
  unfold Runtime.popBufferState
  simp only
  split_ifs
  · obtain ⟨hslot', htop', htext'⟩ := hfollow
      { (s.deleteBuffer s.current).setCurrent none with
        bufferStackTop := ((s.deleteBuffer s.current).setCurrent none).bufferStackTop - 1 } _
    refine ⟨fun i c hc ↦ hslot i c ((hslot' i).symm.trans hc), ?_, fun b hb ↦ htext b (htext' b hb)⟩
    rw [htop']
    exact (Nat.sub_le _ 1).trans htop.le
  · exact ⟨hslot, htop.le, htext⟩
  · exact ⟨fun _ _ h ↦ h, le_rfl, fun _ h ↦ h⟩

theorem drain (n : Nat) (h : s.Inv) (hstack : ∀ i ≤ s.bufferStackTop, ∀ b, s.slot i = some b →
    (∀ j < i, s.slot j ≠ some b) ∧ ¬ s.SealedIn b) : (s.drain n).Inv := by
  induction n generalizing s with
  | zero => exact h
  | succ n ih =>
      unfold Runtime.drain
      split_ifs
      · obtain ⟨hslot, htop, htext⟩ := popBufferState_frame s
        refine ih (h.popBufferState fun b hb ↦ hstack _ le_rfl b ?_) fun i hi b hb ↦ ?_
        · exact current_eq_slot.symm.trans hb
        · obtain ⟨hother, hsealed⟩ := hstack i (hi.trans htop) b (hslot i b hb)
          exact ⟨fun j hj hjb ↦ hother j hj (hslot j b hjb), fun hb ↦ hsealed (htext b hb)⟩
      · exact h

theorem destroy (h : s.Inv) (hstack : s.current ≠ none → ∀ i ≤ s.bufferStackTop, ∀ b,
    s.slot i = some b → (∀ j < i, s.slot j ≠ some b) ∧ ¬ s.SealedIn b) : s.destroy.Inv := by
  have hdrain : (s.drain (s.bufferStackTop + 1)).Inv := by
    by_cases hc : s.current = none
    · unfold Runtime.drain
      rw [hc]
      exact h
    · exact h.drain _ (hstack hc)
  have hnone : ∀ i, s.destroy.slot i = none := fun _ ↦ rfl
  refine ⟨⟨fun i _ b hb ↦ ?_, hdrain.text, hdrain.frees_le⟩, fun i _ ↦ hnone i⟩
  rw [hnone] at hb
  cases hb

end Inv

/-! ## Calls -/

namespace Inv

theorem enter (h : s.Inv) : s.enter.Inv := by
  have hyyin : Inv { s with yyin := some (s.yyin.getD stdin) } :=
    ⟨⟨h.stack, h.text, h.frees_le⟩, h.above⟩
  have hinit := hyyin.initDefaultBuffer
  exact ⟨⟨hinit.stack, hinit.text, hinit.frees_le⟩, hinit.above⟩

theorem autoRestart (h : s.Inv) (b : Nat) : (s.autoRestart b).Inv := by
  unfold Runtime.autoRestart
  split_ifs
  · exact h.restart _
  · exact h

theorem loopBody (h : s.Inv) {t : Tables} {nodefault : Bool} {eofRule : Nat → Bool}
    {r : Runtime × List Obs} (hr : s.loopBody t nodefault eofRule = some r) : r.1.Inv := by
  obtain ⟨b, hb, rfl⟩ := Option.map_eq_some_iff.1 hr
  exact ((h.kept (.textUnseal s)).autoRestart b).kept (.scan t nodefault eofRule
    (current_autoRestart hb b))

theorem callee (h : s.Inv) {c : Call} (hc : s.FreesUnreferenced c) : (s.callee c).1.Inv := by
  cases c with
  | begin c => exact h.kept { Kept.refl s with }
  | more => exact h.kept { Kept.refl s with }
  | pushState c => exact h.kept (.pushState s c)
  | popState => exact h.kept (.popState s)
  | topState => exact h.kept (.topState s)
  | createBuffer file => exact h.kept (.createBuffer s rfl)
  | deleteBuffer b =>
      cases b with
      | none => exact h
      | some b => exact h.deleteBuffer hc.1 hc.2.1 hc.2.2
  | flushBuffer b => exact h.kept (.flushBuffer s b)
  | switchToBuffer b =>
      refine h.switchToBuffer fun c hb hcur ↦ ?_
      obtain rfl := hb
      exact hc hcur
  | pushBufferState b =>
      refine h.pushBufferState fun c hb ↦ ?_
      obtain rfl := hb
      exact hc
  | popBufferState => exact h.popBufferState hc
  | scanBytes bytes => exact h.scanBytes bytes
  | scanBuffer base =>
      unfold Runtime.callee scanBuffer
      simp only
      split_ifs
      · exact h.scanBytes _
      · exact h
  | restart file => exact h.restart file
  | input => exact h.kept (.input s)
  | unput c => exact h.kept (.unput s c)
  | destroy => exact h.destroy hc
  | yylex => exact h
  | iterate => exact h
  | leave returns => exact h

theorem step (h : s.Inv) {t : Tables} {nodefault : Bool} {eofRule : Nat → Bool} {c : Call}
    (hc : s.FreesUnreferenced c) (hs' : s.next t nodefault eofRule c = some s') : s'.Inv := by
  obtain ⟨r, hr, rfl⟩ := Option.map_eq_some_iff.1 hs'
  have hcallee : (if s.CanCall c then some (s.callee c) else none) = some r → r.1.Inv := by
    intro hr
    rw [Option.ite_none_right_eq_some, Option.some.injEq] at hr
    obtain ⟨-, rfl⟩ := hr
    exact h.callee hc
  cases c with
  | yylex =>
      obtain ⟨-, hr⟩ := Option.ite_none_right_eq_some.1 hr
      obtain rfl := Option.some.inj hr
      exact h.enter
  | iterate =>
      obtain ⟨-, hr⟩ := Option.ite_none_right_eq_some.1 hr
      exact h.loopBody hr
  | leave returns => exact h.kept (.leave hr)
  | _ => exact hcallee hr

end Inv

theorem fresh_inv (files : Nat → List (List Byte)) : (fresh files).Inv := by
  have hslot : ∀ i, (fresh files).slot i = none := fun _ ↦ rfl
  refine ⟨⟨fun i _ b hb ↦ ?_, fun b hb ↦ ?_, fun _ ↦ Nat.zero_le 1⟩, fun i _ ↦ hslot i⟩
  · rw [hslot] at hb
    cases hb
  · cases hb.1

end Inv

/-- **No reference goes stale.**  In a run in which nothing is freed that is referred to
elsewhere, and nothing freed is put on the stack, every entry of the stack is live, the byte
that `yy_text_unseal` restores is in a live buffer, and no buffer is freed twice. -/
theorem noStale_of_freesUnreferenced (G : Grammar) (std : StdSort Nat) (mode : CompressMode)
    (usesReject : Bool) :
    ∃ dfa t, generate std mode usesReject G.nfa = some (dfa, t) ∧
      ∀ (nodefault : Bool) (eofRule : Nat → Bool) (files : Nat → List (List Byte)) (s : Runtime),
        Runs (next t nodefault eofRule) FreesUnreferenced (fresh files) s → s.NoStale := by
  obtain ⟨dfa, t, hgen, -⟩ := G.exists_tables std mode usesReject
  refine ⟨dfa, t, hgen, fun nodefault eofRule files s hrun ↦ ?_⟩
  have hinv : s.Inv := by
    refine hrun.invariant (I := Inv) (fun s c s' h hc hs' ↦ ?_) (fresh_inv files)
    exact h.step hc hs'
  exact hinv.toNoStale

theorem noStale_of_freesUnreferenced_scan_pop :
    ∃ dfa t, generate (.insertion Nat) .compress false letterRule.nfa = some (dfa, t) ∧
      ((fresh fun _ ↦ []).scanBytes [97]).popBufferState.NoStale := by
  obtain ⟨dfa, t, hgen, h⟩ :=
    noStale_of_freesUnreferenced letterRule (.insertion Nat) .compress false
  refine ⟨dfa, t, hgen, h false (fun _ ↦ false) (fun _ ↦ []) _ ?_⟩
  refine .tail (.single ⟨.scanBytes [97], trivial, rfl⟩) ⟨.popBufferState, fun b _ ↦ ⟨?_, ?_⟩, rfl⟩
  · exact fun i hi ↦ absurd hi (Nat.not_lt_zero i)
  · exact fun hb ↦ absurd hb.1 Bool.false_ne_true

/-- An `<<EOF>>` action pops the buffer at whose end it runs.  The text is still sealed: the
byte that `yy_text_unseal` restores next goes into the freed buffer. -/
theorem sealed_pop_at_eof :
    ((generate (.insertion Nat) .fullEc false letterRule.nfa).bind fun g ↦
      (run g.2 false (fun _ ↦ true) [.scanBytes [], .yylex, .iterate, .popBufferState]
        (fresh fun _ ↦ [])).map fun r ↦
          (r.2, r.1.textActive, r.1.yytext, (r.1.buf 0).frees)) =
      some ([.eof 0], true, some (0, 0), 1) := by
  decide +kernel

end Runtime

end LexCpp
