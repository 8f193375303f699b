import LexCpp.Runtime.Alike
import LexCpp.Runtime.Formed
import LexCpp.Scanner.Reject

/-!
# Input in chunks

`YY_INPUT` delivers a file in chunks.  The loop never reads one: before it scans a buffer,
`yy_slurp` has read all of them.  The chunks show only where `yy_input` reads one of them, and
the loop then scans what has been read so far.
-/

namespace LexCpp

/-- The buffer has been read to the end of its file, if it has one. -/
def Buffer.Read (x : Buffer) : Prop := x.done = true ∨ x.inputFile = none

namespace Runtime

/-- `input` reads no chunk, and `unput` is not called on a buffer that is still to be read. -/
def ReadsWhole (s : Runtime) : Call → Prop
  | .input => ∀ b, s.current = some b → (s.buf b).pos < (s.buf b).bufEnd ∨ (s.buf b).done = true
  | .unput _ => ∀ b, s.current = some b → (s.buf b).done = true ∨ (s.buf b).inputFile = none
  | _ => True

/-- Where there is something to scan, the buffer has been read to its end. -/
def Whole (s : Runtime) : Prop := ∀ b, (s.buf b).pos < (s.buf b).bufEnd → (s.buf b).Read

namespace Whole

variable {s s' : Runtime}

theorem of_heap (h : s.Whole) (hheap : s'.heap = s.heap) : s'.Whole := by
  intro b
  unfold buf
  rw [hheap]
  exact h b

/-- A change of one buffer. -/
theorem modifyBuf (h : s.Whole) (b : Nat) {f : Buffer → Buffer}
    (hf : (f (s.buf b)).pos < (f (s.buf b)).bufEnd → (f (s.buf b)).Read) :
    (s.modifyBuf b f).Whole := by
  intro c hc
  rcases eq_or_ne c b with rfl | hcb
  · rcases lt_or_ge c s.heap.length with hlt | hlt
    · rw [buf_modifyBuf_self hlt] at hc ⊢
      exact hf hc
    · rw [buf_of_length_le (length_modifyBuf.le.trans hlt)] at hc
      exact absurd hc (lt_irrefl 0)
  · rw [buf_modifyBuf_of_ne hcb] at hc ⊢
    exact h c hc

theorem createBuffer (h : s.Whole) {x : Buffer} (hx : x.pos < x.bufEnd → x.Read) :
    (s.createBuffer x).2.Whole := by
  intro b hb
  rcases eq_or_ne b s.heap.length with rfl | hne
  · have hself : (s.createBuffer x).2.buf s.heap.length = x := buf_createBuffer_self
    rw [hself] at hb ⊢
    exact hx hb
  · rw [buf_createBuffer_of_ne hne] at hb ⊢
    exact h b hb

theorem flushBuffer (h : s.Whole) (b : Option Nat) : (s.flushBuffer b).Whole := by
  cases b with
  | none => exact h
  | some b => exact h.modifyBuf b fun hlt ↦ absurd hlt (lt_irrefl 0)

theorem deleteBuffer (h : s.Whole) (b : Option Nat) : (s.deleteBuffer b).Whole := by
  cases b with
  | none => exact h
  | some b => exact h.modifyBuf b (h b)

/-- `yy_slurp` leaves the buffer read to its end. -/
theorem slurp (h : s.Whole) {b : Nat} (hcur : s.current = some b) (hb : b < s.heap.length)
    (hend : (s.buf b).bufEnd ≤ (s.buf b).data.length) :
    s.slurp.Whole ∧ (s.slurp.buf b).done = true := by
  cases hdone : (s.buf b).done with
  | true =>
      rw [Runtime.slurp, slurpLoop_of_done hcur hdone]
      exact ⟨h, hdone⟩
  | false =>
      cases hy : s.yyin with
      | none =>
          rw [slurp_of_no_file hcur hb hdone hy]
          refine ⟨h.modifyBuf b fun _ ↦ Or.inl rfl, ?_⟩
          rw [buf_modifyBuf_self hb]
          rfl
      | some f =>
          rw [slurp_of_file hcur hb hdone hend hy]
          refine ⟨(h.modifyBuf b fun _ ↦ Or.inl rfl).of_heap rfl, ?_⟩
          exact congrArg Buffer.done (buf_modifyBuf_self hb)

/-- `yy_slurp` into a current buffer whose memory is at least its contents. -/
theorem slurp_current (h : s.Whole) (hcur : ∀ b, s.current = some b →
    b < s.heap.length ∧ (s.buf b).bufEnd ≤ (s.buf b).data.length) : s.slurp.Whole := by
  cases hb : s.current with
  | none =>
      rw [slurp_of_no_current hb]
      exact h
  | some b => exact (h.slurp hb (hcur b hb).1 (hcur b hb).2).1

/-- A new buffer is read to its end. -/
theorem slurp_created (h : s.Whole) {x : Buffer} (hx : x.bufEnd = 0) {s' : Runtime}
    (hheap : s'.heap = ((s.createBuffer x).2.setCurrent (some (s.createBuffer x).1)).heap)
    (hcur : s'.current = ((s.createBuffer x).2.setCurrent (some (s.createBuffer x).1)).current) :
    s'.slurp.Whole := by
  have hcreated : (s.createBuffer x).2.Whole := h.createBuffer fun hlt ↦ by
    rw [hx] at hlt
    exact absurd hlt (Nat.not_lt_zero _)
  have hs' : s'.Whole := hcreated.of_heap hheap
  refine hs'.slurp_current fun b hb ↦ ?_
  rw [hcur] at hb
  have hbuf : s'.buf b = x := by
    rw [← buf_setCreated hb]
    unfold buf
    rw [hheap]
  obtain rfl := Option.some.inj (current_setCurrent hb)
  rw [hbuf, hheap, hx]
  exact ⟨by simp [Runtime.createBuffer, Runtime.setCurrent], Nat.zero_le _⟩

theorem initDefaultBuffer (h : s.Whole) : s.initDefaultBuffer.Whole := by
  have he : s.ensureBufferStack.Whole := h.of_heap heap_ensureBufferStack
  unfold Runtime.initDefaultBuffer
  simp only
  split_ifs
  · have hslurp := slurp_created (s := { s.ensureBufferStack with
        yyin := some (s.ensureBufferStack.yyin.getD stdin) }) he
      (x := fileBuffer (some (s.ensureBufferStack.yyin.getD stdin))) rfl rfl rfl
    exact hslurp.of_heap rfl
  · exact he

/-- `yyrestart` leaves the current buffer read to its end. -/
theorem restart (h : s.Whole) (hs : s.Formed) (file : Option Nat) :
    (s.restart file).Whole ∧ ∀ b, s.current = some b → ((s.restart file).buf b).done = true := by
  have he : s.ensureBufferStack.Whole := h.of_heap heap_ensureBufferStack
  unfold Runtime.restart restartBuffer
  cases hcur : s.ensureBufferStack.current with
  | none =>
      refine ⟨slurp_created he (x := fileBuffer file) rfl rfl rfl, fun b hb ↦ ?_⟩
      cases hcur.symm.trans (current_ensureBufferStack.trans hb)
  | some b =>
      have hlt : b < s.ensureBufferStack.heap.length :=
        hs.ensureBufferStack.known _ b (current_eq_slot.symm.trans hcur)
      have hlt' : b < (s.ensureBufferStack.modifyBuf b fun x ↦
          { x with inputFile := file }).heap.length := hlt.trans_le length_modifyBuf.ge
      have hflush : ((s.ensureBufferStack.modifyBuf b fun x ↦
          { x with inputFile := file }).flushBuffer (some b)).Whole := by
        intro c hc
        rcases eq_or_ne c b with rfl | hcb
        · rw [Runtime.flushBuffer, buf_modifyBuf_self hlt'] at hc
          exact absurd hc (lt_irrefl 0)
        · rw [Runtime.flushBuffer, buf_modifyBuf_of_ne hcb, buf_modifyBuf_of_ne hcb] at hc ⊢
          exact he c hc
      have hend : (((s.ensureBufferStack.modifyBuf b fun x ↦
          { x with inputFile := file }).flushBuffer (some b)).buf b).bufEnd = 0 :=
        congrArg Buffer.bufEnd (buf_modifyBuf_self hlt')
      obtain ⟨hwhole, hdone⟩ := Whole.slurp (s := { (s.ensureBufferStack.modifyBuf b fun x ↦
            { x with inputFile := file }).flushBuffer (some b) with
          yyin := file, textActive := false, textSave := 0, yytext := none, yyleng := 0 })
        (hflush.of_heap rfl) hcur (hlt'.trans_le length_modifyBuf.ge)
        (hend.trans_le (Nat.zero_le _))
      refine ⟨hwhole, fun c hc ↦ ?_⟩
      obtain rfl := Option.some.inj ((current_ensureBufferStack.trans hc).symm.trans hcur)
      exact hdone

theorem textUnseal (h : s.Whole) : s.textUnseal.Whole := by
  intro b hb
  unfold Buffer.Read
  rw [field_textUnseal (g := Buffer.done) fun _ _ ↦ rfl,
    field_textUnseal (g := Buffer.inputFile) fun _ _ ↦ rfl]
  rw [field_textUnseal (g := Buffer.pos) fun _ _ ↦ rfl,
    field_textUnseal (g := Buffer.bufEnd) fun _ _ ↦ rfl] at hb
  exact h b hb

theorem unput (h : s.Whole) {c : Byte} (hc : s.ReadsWhole (.unput c)) : (s.unput c).Whole := by
  unfold Runtime.unput
  simp only
  cases hcur : s.textUnseal.current with
  | none => exact h.textUnseal
  | some b =>
      have hread : (s.textUnseal.buf b).Read := by
        unfold Buffer.Read
        rw [field_textUnseal (g := Buffer.done) fun _ _ ↦ rfl,
          field_textUnseal (g := Buffer.inputFile) fun _ _ ↦ rfl]
        exact hc b (current_textUnseal.symm.trans hcur)
      refine h.textUnseal.modifyBuf b fun _ ↦ ?_
      split_ifs <;> exact hread

theorem input (h : s.Whole) (hc : s.ReadsWhole .input) : s.input.2.Whole := by
  rw [input_of_no_refill hc]
  cases s.textUnseal.current with
  | none => exact h.textUnseal
  | some b =>
      by_cases hend : (s.textUnseal.buf b).bufEnd ≤ (s.textUnseal.buf b).pos
      · simp only
        rw [if_pos hend]
        exact h.textUnseal
      · simp only
        rw [if_neg hend]
        refine (h.textUnseal.modifyBuf b (f := fun x ↦ { x with pos := x.pos + 1 })
          fun hlt ↦ ?_).of_heap rfl
        exact h.textUnseal b (not_le.1 hend)

theorem drain (n : Nat) (h : s.Whole) : (s.drain n).Whole := by
  induction n generalizing s with
  | zero => exact h
  | succ n ih =>
      unfold Runtime.drain
      split_ifs
      · exact ih ((h.deleteBuffer s.current).of_heap heap_popBufferState)
      · exact h

theorem take (h : s.Whole) (b : Nat) (m : Match) : (s.take b m).1.Whole := by
  refine (h.modifyBuf b (f := fun x ↦ { x with
      data := ((s.lexer b).accept m).data, pos := ((s.lexer b).accept m).bufPos
      atBol := ((s.lexer b).accept m).atBol }) fun hlt ↦ ?_).of_heap rfl
  exact h b ((Nat.le_add_right _ m.len).trans_lt hlt)

theorem byDefault (h : s.Whole) (b : Nat) : (s.byDefault b).1.Whole := by
  refine (h.modifyBuf b (f := fun x ↦ { x with
      pos := x.pos + 1, atBol := (s.buf b).data.getD (s.buf b).pos 0 = newline })
    fun hlt ↦ ?_).of_heap rfl
  exact h b ((Nat.le_succ _).trans_lt hlt)

theorem scan (h : s.Whole) (t : Tables) (nodefault : Bool) (eofRule : Nat → Bool) (b : Nat) :
    (s.scan t nodefault eofRule b).1.Whole := by
  unfold Runtime.scan
  by_cases hend : (s.buf b).bufEnd ≤ (s.buf b).pos
  · rw [if_pos hend]
    exact h.of_heap rfl
  · rw [if_neg hend]
    cases bodyMatch t (s.lexer b).buf (s.buf b).pos s.start (s.buf b).atBol with
    | some m => exact h.take b m
    | none =>
        simp only
        split_ifs
        · exact h.of_heap rfl
        · exact h.byDefault b

theorem autoRestart (h : s.Whole) (hs : s.Formed) (b : Nat) : (s.autoRestart b).Whole := by
  unfold Runtime.autoRestart
  split_ifs
  · exact (h.restart hs _).1
  · exact h

theorem scanBytes (h : s.Whole) (bytes : List Byte) : (s.scanBytes bytes).Whole := by
  have hcreated : (s.createBuffer (memoryBuffer bytes)).2.Whole :=
    h.createBuffer fun _ ↦ Or.inl rfl
  exact hcreated.of_heap (heap_pushBufferState _)

theorem callee (h : s.Whole) (hs : s.Formed) {c : Call} (hc : s.ReadsWhole c) :
    (s.callee c).1.Whole := by
  cases c with
  | pushState c =>
      refine h.of_heap ?_
      unfold Runtime.callee Runtime.pushState growStateStack
      simp only
      split_ifs <;> rfl
  | popState =>
      refine h.of_heap ?_
      unfold Runtime.callee Runtime.popState
      simp only
      split_ifs <;> rfl
  | topState =>
      rw [callee_topState]
      cases s.topState <;> exact h
  | createBuffer file => exact h.createBuffer fun hlt ↦ absurd hlt (lt_irrefl 0)
  | deleteBuffer b => exact h.deleteBuffer b
  | flushBuffer b => exact h.flushBuffer b
  | switchToBuffer b => exact h.of_heap (heap_switchToBuffer b)
  | pushBufferState b => exact h.of_heap (heap_pushBufferState b)
  | popBufferState => exact (h.deleteBuffer s.current).of_heap heap_popBufferState
  | scanBytes bytes => exact h.scanBytes bytes
  | scanBuffer base =>
      unfold Runtime.callee scanBuffer
      simp only
      split_ifs
      · exact h.scanBytes _
      · exact h
  | restart file => exact (h.restart hs file).1
  | input => exact h.input hc
  | unput c => exact h.unput hc
  | destroy => exact (h.drain _).of_heap rfl
  | begin c => exact h.of_heap rfl
  | more => exact h.of_heap rfl
  | yylex => exact h
  | iterate => exact h
  | leave returns => exact h

theorem step (h : s.Whole) (hs : s.Formed) {t : Tables} {nodefault : Bool} {eofRule : Nat → Bool}
    {c : Call} (hc : s.ReadsWhole c) {r : Runtime × List Obs}
    (hr : s.step t nodefault eofRule c = some r) : r.1.Whole := by
  have hcallee : (if s.CanCall c then some (s.callee c) else none) = some r → r.1.Whole := by
    intro hr
    rw [Option.ite_none_right_eq_some, Option.some.injEq] at hr
    obtain ⟨-, rfl⟩ := hr
    exact h.callee hs hc
  cases c with
  | yylex =>
      obtain ⟨-, hr⟩ := Option.ite_none_right_eq_some.1 hr
      obtain rfl := Option.some.inj hr
      exact (initDefaultBuffer (s := { s with yyin := some (s.yyin.getD stdin) }) h).of_heap rfl
  | iterate =>
      obtain ⟨-, hr⟩ := Option.ite_none_right_eq_some.1 hr
      obtain ⟨b, hb, rfl⟩ := Option.map_eq_some_iff.1 hr
      exact (h.textUnseal.autoRestart (hs.kept (.textUnseal s)) b).scan t nodefault eofRule b
  | leave returns =>
      refine h.of_heap ?_
      unfold Runtime.step Runtime.leave at hr
      cases hp : s.phase with
      | action => cases returns <;> (simp only [hp] at hr; obtain rfl := Option.some.inj hr; rfl)
      | eofAction => cases returns <;> (simp only [hp] at hr; obtain rfl := Option.some.inj hr; rfl)
      | outside => simp [hp] at hr
      | loopTop => simp [hp] at hr
      | exited => simp [hp] at hr
  | _ => exact hcallee hr

/-- What the loop is about to scan has been read to its end. -/
theorem read_loop (h : s.Whole) (hs : s.Formed) {b : Nat} (hb : s.textUnseal.current = some b) :
    ((s.textUnseal.autoRestart b).buf b).Read := by
  have hu : s.textUnseal.Formed := hs.kept (.textUnseal s)
  unfold Runtime.autoRestart
  split_ifs with hend
  · exact Or.inl ((h.textUnseal.restart hu _).2 b hb)
  · rcases lt_or_ge (s.textUnseal.buf b).pos (s.textUnseal.buf b).bufEnd with hlt | hge
    · exact h.textUnseal b hlt
    · refine Or.inr ?_
      rw [Option.eq_none_iff_forall_ne_some]
      intro f hf
      refine hend ⟨hge, ?_, Option.isSome_iff_ne_none.2 (hu.follows b f hb hf)⟩
      rw [hf]
      rfl

end Whole

/-- Files that are delivered in other chunks. -/
theorem fresh_alike {files files' : Nat → List (List Byte)}
    (h : ∀ f, SameBytes (files f) (files' f)) : Alike 0 0 (fresh files) (fresh files') where
  length := rfl
  buf b := by rw [Nat.zero_add]; rfl
  files := h
  stack := rfl
  known _ hb := absurd hb List.not_mem_nil
  top hst := absurd rfl hst
  stateStack := rfl
  stateStackMax := rfl
  stateStackTop := rfl
  start := rfl
  moreOffset := rfl
  phase := rfl
  yylineno := rfl
  moreFlag _ := rfl
  yyleng _ := rfl
  yyin := Or.inl rfl
  text := Or.inl ⟨rfl, fun h ↦ absurd h Bool.false_ne_true⟩

theorem Call.shift_zero (c : Call) : c.shift 0 = c := by
  have hmap : ∀ b : Option Nat, b.map (0 + ·) = b := by
    intro b
    cases b with
    | none => rfl
    | some b => exact congrArg some (Nat.zero_add b)
  cases c with
  | deleteBuffer b => exact congrArg _ (hmap b)
  | flushBuffer b => exact congrArg _ (hmap b)
  | switchToBuffer b => exact congrArg _ (hmap b)
  | pushBufferState b => exact congrArg _ (hmap b)
  | _ => rfl

theorem Obs.addLines_zero (o : Obs) : o.addLines 0 = o := by
  cases o with
  | token r text c n => exact congrArg _ (add_zero n)
  | _ => rfl

/-- **The chunks do not show**, as long as `input` reads none of them: what is seen of a run is
the same however the files are delivered, and what the loop scans has been read to its end. -/
theorem chunks_do_not_show (G : Grammar) (std : StdSort Nat) (mode : CompressMode)
    (usesReject : Bool) :
    ∃ dfa t, generate std mode usesReject G.nfa = some (dfa, t) ∧
      ∀ (nodefault : Bool) (eofRule : Nat → Bool) (files files' : Nat → List (List Byte)),
        (∀ f, ∀ chunk ∈ files f, chunk ≠ []) → (∀ f, ∀ chunk ∈ files' f, chunk ≠ []) →
          (∀ f, (files f).flatten = (files' f).flatten) → ∀ cs : List Call,
            Observed.Along (step t nodefault eofRule) ReadsWhole cs (fresh files) →
              (run t nodefault eofRule cs (fresh files')).map Prod.snd =
                  (run t nodefault eofRule cs (fresh files)).map Prod.snd ∧
                ∀ r, run t nodefault eofRule cs (fresh files) = some r →
                  ∀ b, r.1.textUnseal.current = some b →
                    ((r.1.textUnseal.autoRestart b).buf b).Read := by
  obtain ⟨dfa, t, hgen, -⟩ := G.exists_tables std mode usesReject
  refine ⟨dfa, t, hgen, fun nodefault eofRule files files' hne hne' hbytes cs hcs ↦ ⟨?_, ?_⟩⟩
  · have halike : Alike 0 0 (fresh files') (fresh files) :=
      fresh_alike fun f ↦ SameBytes.of_flatten (hne' f) (hne f) (hbytes f).symm
    have hread : ∀ (s : Runtime) (c : Call), s.ReadsWhole c → s.ReadsNoChunk c := by
      intro s c hc
      cases c with
      | input => exact hc
      | _ => trivial
    have hstep : ∀ s s' c, Alike 0 0 s s' → s'.ReadsNoChunk c →
        Observed.Matched (Alike 0 0) (Obs.addLines 0) (s.step t nodefault eofRule (c.shift 0))
          (s'.step t nodefault eofRule c) := fun _ _ _ h hc ↦ h.step hc
    have hmatched := Observed.lockstep hstep halike (hcs.mono hread)
    have hshift : cs.map (Call.shift 0) = cs := by
      rw [show Call.shift 0 = id from funext Call.shift_zero, List.map_id]
    have hlines : (fun q : Runtime × List Obs ↦ q.2.map (Obs.addLines 0)) = Prod.snd := by
      funext q
      rw [show Obs.addLines 0 = id from funext Obs.addLines_zero, List.map_id]
    have hseen := hmatched.seen
    rw [hshift, hlines] at hseen
    exact hseen
  · intro r hr b hb
    have hinv : r.1.Whole ∧ r.1.Formed := by
      refine Observed.run_invariant (I := fun s : Runtime ↦ s.Whole ∧ s.Formed)
        (fun s c p h hc hp ↦ ⟨h.1.step h.2 hc hp, h.2.step hp⟩) hcs ⟨?_, Formed.fresh files⟩ hr
      exact fun b hb ↦ absurd hb (lt_irrefl 0)
    exact hinv.1.read_loop hinv.2 hb

/-- A file of three bytes, in one chunk or in two. -/
def oneChunk (f : Nat) : List (List Byte) := if f = 1 then [[97, 97, 97]] else []

def twoChunks (f : Nat) : List (List Byte) := if f = 1 then [[97, 97], [97]] else []

theorem chunks_do_not_show_unput :
    ∃ dfa t, generate (.insertion Nat) .compress false plusRule.nfa = some (dfa, t) ∧
      (run t false (fun _ ↦ false) [.restart (some 1), .unput 97] (fresh twoChunks)).map Prod.snd =
        (run t false (fun _ ↦ false) [.restart (some 1), .unput 97] (fresh oneChunk)).map
          Prod.snd := by
  obtain ⟨dfa, t, hgen, h⟩ := chunks_do_not_show plusRule (.insertion Nat) .compress false
  refine ⟨dfa, t, hgen, (h false (fun _ ↦ false) oneChunk twoChunks ?_ ?_ ?_ _ ?_).1⟩
  · intro f chunk hc
    unfold oneChunk at hc
    split_ifs at hc
    · exact List.mem_singleton.1 hc ▸ nofun
    · cases hc
  · intro f chunk hc
    unfold twoChunks at hc
    split_ifs at hc
    · simp only [List.mem_cons, List.not_mem_nil, or_false] at hc
      rcases hc with rfl | rfl <;> exact nofun
    · cases hc
  · intro f
    unfold oneChunk twoChunks
    split_ifs <;> rfl
  · refine ⟨trivial, fun p hp ↦ ⟨?_, fun _ _ ↦ trivial⟩⟩
    obtain rfl := Option.some.inj hp
    intro b hb
    obtain rfl : b = 0 := (Option.some.inj hb).symm
    exact Or.inl rfl

/-- An action pushes a buffer for the file and reads a byte of it.  The loop then scans the
rest of the first chunk. -/
theorem input_after_push :
    ((generate (.insertion Nat) .fullEc false plusRule.nfa).bind fun g ↦
      let cs := [.yylex, .iterate, .createBuffer (some 1), .pushBufferState (some 1), .input,
        .leave false, .iterate]
      let input := fun chunks f ↦ if f = 0 then [[97]] else chunks f
      (run g.2 false (fun _ ↦ false) cs (fresh (input oneChunk))).bind fun r ↦
        (run g.2 false (fun _ ↦ false) cs (fresh (input twoChunks))).map fun r' ↦ (r.2, r'.2)) =
      some ([.token 0 [97] 0 1, .read 97, .token 0 [97, 97] 0 1],
        [.token 0 [97] 0 1, .read 97, .token 0 [97] 0 1]) := by
  decide +kernel

end Runtime

end LexCpp
