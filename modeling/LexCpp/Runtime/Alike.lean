import LexCpp.Runtime.Slurp
import LexCpp.Runtime.Stale

/-!
# States that look alike

Two states of the runtime that show the same from now on.  The one has older buffers, which
are on no stack; its files come in other chunks; and it counts its lines from elsewhere.  A
call keeps them alike unless it reads a chunk: `yy_input` does, at the end of a buffer that
has not been read to its end.
-/

namespace LexCpp

namespace Runtime

/-- The same call, with the buffers that it passes behind `n` older ones. -/
def Call.shift (n : Nat) : Call → Call
  | .deleteBuffer b => .deleteBuffer (b.map (n + ·))
  | .flushBuffer b => .flushBuffer (b.map (n + ·))
  | .switchToBuffer b => .switchToBuffer (b.map (n + ·))
  | .pushBufferState b => .pushBufferState (b.map (n + ·))
  | c => c

/-- The same, with the lines counted from elsewhere. -/
def Obs.addLines (d : Int) : Obs → Obs
  | .token r text c n => .token r text c (n + d)
  | o => o

/-- What `yy_text_unseal` has to restore: the same, or on the left a byte of an older buffer
that has not been freed. -/
def TextAlike (n : Nat) (s s' : Runtime) : Prop :=
  (s.textActive = s'.textActive ∧ (s'.textActive = true →
    s.yytext = s'.yytext.map (Prod.map (n + ·) id) ∧ s.yyleng = s'.yyleng ∧
      s.textSave = s'.textSave)) ∨
  (s'.textActive = false ∧ ∀ b p, s.yytext = some (b, p) → b < n ∧ (s.buf b).frees = 0)

/-- The state `s` has `n` older buffers, and its lines are ahead by `d`. -/
structure Alike (n : Nat) (d : Int) (s s' : Runtime) : Prop where
  length : s.heap.length = n + s'.heap.length
  buf : ∀ b, s.buf (n + b) = s'.buf b
  files : ∀ f, SameBytes (s.files f) (s'.files f)
  stack : s.bufferStack = s'.bufferStack.map (List.map (Option.map (n + ·)))
  known : ∀ b, some b ∈ s'.bufferStack.getD [] → b < s'.heap.length
  top : s'.bufferStack ≠ none → s.bufferStackTop = s'.bufferStackTop
  stateStack : s.stateStack = s'.stateStack
  stateStackMax : s.stateStackMax = s'.stateStackMax
  stateStackTop : s.stateStackTop = s'.stateStackTop
  start : s.start = s'.start
  moreOffset : s.moreOffset = s'.moreOffset
  phase : s.phase = s'.phase
  yylineno : s.yylineno = s'.yylineno + d
  moreFlag : s'.phase = .action → s.moreFlag = s'.moreFlag
  yyleng : s'.phase = .action → s.yyleng = s'.yyleng
  yyin : s.yyin = s'.yyin ∨
    (s'.phase = .outside ∨ s'.phase = .exited) ∧ s.yyin = some stdin ∧ s'.yyin = none
  text : TextAlike n s s'

/-- A call of `input` finds something to read, or nothing more to come. -/
def ReadsNoChunk (s : Runtime) : Call → Prop
  | .input => ∀ b, s.current = some b → (s.buf b).pos < (s.buf b).bufEnd ∨ (s.buf b).done = true
  | _ => True

variable {n : Nat} {d : Int} {s s' : Runtime}

namespace Alike

theorem yyin_eq (h : Alike n d s s') (hout : s'.phase ≠ .outside) (hexit : s'.phase ≠ .exited) :
    s.yyin = s'.yyin :=
  h.yyin.resolve_right fun hno ↦ hno.1.elim hout hexit

theorem current (h : Alike n d s s') : s.current = s'.current.map (n + ·) := by
  unfold Runtime.current
  rw [h.stack]
  cases hst : s'.bufferStack with
  | none => rfl
  | some st =>
      have htop : s.bufferStackTop = s'.bufferStackTop := h.top (by rw [hst]; exact nofun)
      simp only [Option.map_some]
      rw [htop, List.getD_eq_getElem?_getD, List.getD_eq_getElem?_getD, List.getElem?_map]
      cases st[s'.bufferStackTop]? <;> rfl

theorem current_lt (h : Alike n d s s') {b : Nat} (hb : s'.current = some b) :
    b < s'.heap.length := by
  refine h.known b ?_
  unfold Runtime.current at hb
  cases hst : s'.bufferStack with
  | none => rw [hst] at hb; cases hb
  | some st =>
      simp only [hst, List.getD_eq_getElem?_getD] at hb
      cases hget : st[s'.bufferStackTop]? with
      | none => rw [hget] at hb; cases hb
      | some b' =>
          rw [hget] at hb
          obtain rfl : b' = some b := hb
          exact List.mem_of_getElem? hget

theorem lt_iff (h : Alike n d s s') (b : Nat) : n + b < s.heap.length ↔ b < s'.heap.length := by
  rw [h.length]
  exact Nat.add_lt_add_iff_left

theorem modifyBuf (h : Alike n d s s') (b : Nat) (f : Buffer → Buffer) :
    Alike n d (s.modifyBuf (n + b) f) (s'.modifyBuf b f) := by
  refine { h with
    length := length_modifyBuf.trans (h.length.trans (congrArg (n + ·) length_modifyBuf.symm))
    buf := fun c ↦ ?_
    known := fun c hc ↦ (h.known c hc).trans_le length_modifyBuf.ge
    text := h.text.imp_right fun ⟨ha, hold⟩ ↦ ⟨ha, fun b₀ p hp ↦ ?_⟩ }
  · rcases eq_or_ne c b with rfl | hcb
    · rcases lt_or_ge c s'.heap.length with hc | hc
      · rw [buf_modifyBuf_self ((h.lt_iff c).2 hc), buf_modifyBuf_self hc, h.buf]
      · rw [buf_of_length_le (length_modifyBuf.le.trans hc), buf_of_length_le]
        exact length_modifyBuf.le.trans (not_lt.1 fun hlt ↦ not_lt.2 hc ((h.lt_iff c).1 hlt))
    · rw [buf_modifyBuf_of_ne hcb, buf_modifyBuf_of_ne (fun he ↦ hcb (Nat.add_left_cancel he)), h.buf]
  · obtain ⟨hb₀, hf⟩ := hold b₀ p hp
    rw [buf_modifyBuf_of_ne (by omega)]
    exact ⟨hb₀, hf⟩

theorem createBuffer (h : Alike n d s s') (x : Buffer) :
    Alike n d (s.createBuffer x).2 (s'.createBuffer x).2 := by
  refine { h with
    length := ?_
    buf := fun b ↦ ?_
    known := fun b hb ↦ (h.known b hb).trans_le ?_
    text := h.text.imp_right fun ⟨ha, hold⟩ ↦ ⟨ha, fun b₀ p hp ↦ ?_⟩ }
  · simp [Runtime.createBuffer, h.length, Nat.add_assoc]
  · rcases eq_or_ne b s'.heap.length with rfl | hb
    · have hself : (s.createBuffer x).2.buf (n + s'.heap.length) = x := by
        rw [← h.length]
        exact buf_createBuffer_self
      exact hself.trans buf_createBuffer_self.symm
    · rw [buf_createBuffer_of_ne hb, buf_createBuffer_of_ne, h.buf]
      rw [h.length]
      exact fun he ↦ hb (Nat.add_left_cancel he)
  · simp [Runtime.createBuffer]
  · obtain ⟨hb₀, hf⟩ := hold b₀ p hp
    have hlen := h.length
    rw [buf_createBuffer_of_ne (by omega)]
    exact ⟨hb₀, hf⟩

theorem fst_createBuffer (h : Alike n d s s') (x : Buffer) :
    (s.createBuffer x).1 = n + (s'.createBuffer x).1 := h.length

/-! ## The stack -/

theorem setCurrent (h : Alike n d s s') {b : Option Nat} (hb : ∀ c, b = some c → c < s'.heap.length) :
    Alike n d (s.setCurrent (b.map (n + ·))) (s'.setCurrent b) := by
  refine { h with stack := ?_, known := fun c hc ↦ ?_, top := fun hst ↦ h.top ?_ }
  · unfold Runtime.setCurrent
    simp only
    rw [h.stack]
    cases hst : s'.bufferStack with
    | none => rfl
    | some st =>
        have htop : s.bufferStackTop = s'.bufferStackTop := h.top (by rw [hst]; exact nofun)
        simp only [Option.map_some]
        rw [htop, List.map_set]
  · unfold Runtime.setCurrent at hc
    cases hst : s'.bufferStack with
    | none => simp [hst] at hc
    | some st =>
        simp only [hst, Option.map_some, Option.getD_some] at hc
        rcases List.mem_or_eq_of_mem_set hc with hc | hc
        · exact h.known c (by rw [hst]; exact hc)
        · exact hb c hc.symm
  · intro hnone
    unfold Runtime.setCurrent at hst
    simp [hnone] at hst

theorem ensureBufferStack (h : Alike n d s s') :
    Alike n d s.ensureBufferStack s'.ensureBufferStack := by
  unfold Runtime.ensureBufferStack
  rw [h.stack]
  cases hst : s'.bufferStack with
  | none =>
      refine { h with stack := rfl, known := fun b hb ↦ ?_, top := fun _ ↦ rfl }
      simp at hb
  | some st => exact h

theorem growStack (h : Alike n d s s') : Alike n d s.growStack s'.growStack := by
  refine { h with stack := ?_, known := fun b hb ↦ h.known b ?_, top := fun hst ↦ h.top ?_ }
  · unfold Runtime.growStack
    simp only
    rw [h.stack]
    cases s'.bufferStack with
    | none => rfl
    | some st => simp
  · unfold Runtime.growStack at hb
    cases hst : s'.bufferStack with
    | none => simp [hst] at hb
    | some st =>
        simp only [hst, Option.map_some, Option.getD_some, List.mem_append, List.mem_replicate,
          reduceCtorEq, and_false, or_false] at hb
        exact hb
  · intro hnone
    unfold Runtime.growStack at hst
    simp [hnone] at hst

theorem raise (h : Alike n d s s') : Alike n d s.raise s'.raise := by
  have hsome : s.current.isSome = s'.current.isSome := by
    rw [h.current, Option.isSome_map]
  unfold Runtime.raise
  rw [hsome]
  split_ifs with hcur
  · have hup : Alike n d { s with bufferStackTop := s.bufferStackTop + 1 }
        { s' with bufferStackTop := s'.bufferStackTop + 1 } :=
      { h with top := fun hst ↦ congrArg (· + 1) (h.top hst) }
    have hst : s'.bufferStack ≠ none := by
      intro hnone
      simp [Runtime.current, hnone] at hcur
    have hlen' : (s.bufferStack.getD []).length = (s'.bufferStack.getD []).length := by
      obtain ⟨st, hst⟩ := Option.ne_none_iff_exists'.1 hst
      rw [h.stack, hst]
      simp
    simp only
    rw [hlen', h.top hst]
    rw [h.top hst] at hup
    split_ifs
    · exact hup.growStack
    · exact hup
  · exact h

theorem followFile (h : Alike n d s s') (b : Option Nat) :
    Alike n d (s.followFile (b.map (n + ·))) (s'.followFile b) := by
  cases b with
  | none => exact h
  | some b => exact { h with yyin := Or.inl (congrArg Buffer.inputFile (h.buf b)) }

theorem deleteBuffer (h : Alike n d s s') (b : Option Nat) :
    Alike n d (s.deleteBuffer (b.map (n + ·))) (s'.deleteBuffer b) := by
  cases b with
  | none => exact h
  | some b => exact h.modifyBuf b _

theorem flushBuffer (h : Alike n d s s') (b : Option Nat) :
    Alike n d (s.flushBuffer (b.map (n + ·))) (s'.flushBuffer b) := by
  cases b with
  | none => exact h
  | some b => exact h.modifyBuf b _

theorem current_eq_iff (h : Alike n d s s') (b : Option Nat) :
    s.current = b.map (n + ·) ↔ s'.current = b := by
  rw [h.current]
  exact (Option.map_injective fun _ _ ↦ Nat.add_left_cancel).eq_iff

theorem switchToBuffer (h : Alike n d s s') {b : Option Nat}
    (hb : ∀ c, b = some c → c < s'.heap.length) :
    Alike n d (s.switchToBuffer (b.map (n + ·))) (s'.switchToBuffer b) := by
  have he : Alike n d s.ensureBufferStack s'.ensureBufferStack := h.ensureBufferStack
  unfold Runtime.switchToBuffer
  simp only [he.current_eq_iff]
  split_ifs
  · exact he
  · refine (he.setCurrent fun c hc ↦ ?_).followFile b
    rw [heap_ensureBufferStack]
    exact hb c hc

theorem pushBufferState (h : Alike n d s s') {b : Option Nat}
    (hb : ∀ c, b = some c → c < s'.heap.length) :
    Alike n d (s.pushBufferState (b.map (n + ·))) (s'.pushBufferState b) := by
  refine (h.ensureBufferStack.raise.setCurrent fun c hc ↦ ?_).followFile b
  rw [heap_raise, heap_ensureBufferStack]
  exact hb c hc

theorem popBufferState (h : Alike n d s s') : Alike n d s.popBufferState s'.popBufferState := by
  have hsome : s.bufferStack.isSome = s'.bufferStack.isSome := by
    rw [h.stack, Option.isSome_map]
  have hfreed : Alike n d ((s.deleteBuffer s.current).setCurrent none)
      ((s'.deleteBuffer s'.current).setCurrent none) := by
    rw [h.current]
    exact (h.deleteBuffer s'.current).setCurrent (b := none) fun c hc ↦ by cases hc
  unfold Runtime.popBufferState
  rw [hsome]
  by_cases hst : s'.bufferStack.isSome
  · rw [if_pos hst, if_pos hst]
    have hst' : ((s'.deleteBuffer s'.current).setCurrent none).bufferStack ≠ none := by
      cases s'.current <;> simpa [Runtime.setCurrent, Runtime.deleteBuffer, Runtime.modifyBuf,
        Option.isSome_iff_ne_none] using hst
    have htop := hfreed.top hst'
    have hlow : ∀ k, Alike n d { (s.deleteBuffer s.current).setCurrent none with bufferStackTop := k }
        { (s'.deleteBuffer s'.current).setCurrent none with bufferStackTop := k } :=
      fun k ↦ { hfreed with top := fun _ ↦ rfl }
    simp only
    rw [htop]
    split_ifs
    · rw [(hlow _).current]
      exact (hlow _).followFile _
    · exact hfreed
  · rw [if_neg hst, if_neg hst]
    exact h

theorem scanBytes (h : Alike n d s s') (bytes : List Byte) :
    Alike n d (s.scanBytes bytes) (s'.scanBytes bytes) := by
  have hc : Alike n d (s.createBuffer (memoryBuffer bytes)).2
      (s'.createBuffer (memoryBuffer bytes)).2 := h.createBuffer _
  unfold Runtime.scanBytes
  simp only
  rw [h.fst_createBuffer]
  refine hc.pushBufferState (b := some _) fun c hb ↦ ?_
  obtain rfl := Option.some.inj hb
  simp [Runtime.createBuffer]

theorem scanBuffer (h : Alike n d s s') (base : List Byte) :
    Alike n d (s.scanBuffer base) (s'.scanBuffer base) := by
  unfold Runtime.scanBuffer
  split_ifs
  · exact h.scanBytes _
  · exact h

/-! ## Reading -/

/-- `yy_slurp` into a buffer whose memory is at least its contents. -/
theorem slurp (h : Alike n d s s') (hyyin : s.yyin = s'.yyin)
    (hend : ∀ b, s'.current = some b → (s'.buf b).bufEnd ≤ (s'.buf b).data.length) :
    Alike n d s.slurp s'.slurp := by
  cases hb : s'.current with
  | none =>
      have hb' : s.current = none := by rw [h.current, hb]; rfl
      rw [slurp_of_no_current hb, slurp_of_no_current hb']
      exact h
  | some b =>
      have hb' : s.current = some (n + b) := by rw [h.current, hb]; rfl
      have hlt : b < s'.heap.length := h.current_lt hb
      have hlt' : n + b < s.heap.length := (h.lt_iff b).2 hlt
      have hend := hend b hb
      by_cases hdone : (s'.buf b).done = true
      · have hdone' : (s.buf (n + b)).done = true := by rw [h.buf]; exact hdone
        rw [Runtime.slurp, Runtime.slurp, slurpLoop_of_done hb hdone, slurpLoop_of_done hb' hdone']
        exact h
      have hdone : (s'.buf b).done = false := Bool.eq_false_of_not_eq_true hdone
      have hdone' : (s.buf (n + b)).done = false := by rw [h.buf]; exact hdone
      have hend' : (s.buf (n + b)).bufEnd ≤ (s.buf (n + b)).data.length := by
        rw [h.buf]
        exact hend
      cases hy : s'.yyin with
      | none =>
          rw [slurp_of_no_file hb' hlt' hdone' (hyyin.trans hy), slurp_of_no_file hb hlt hdone hy]
          exact h.modifyBuf b _
      | some f =>
          rw [slurp_of_file hb' hlt' hdone' hend' (hyyin.trans hy),
            slurp_of_file hb hlt hdone hend hy, (h.files f).slurped_eq]
          refine { h.modifyBuf b (fill (slurped (s'.files f))) with files := fun g ↦ ?_ }
          change SameBytes (Function.update s.files f _ g) (Function.update s'.files f _ g)
          rcases eq_or_ne g f with rfl | hgf
          · rw [Function.update_self, Function.update_self]
            exact (h.files g).afterSlurp
          · rw [Function.update_of_ne hgf, Function.update_of_ne hgf]
            exact h.files g

/-- A buffer that is new and current. -/
theorem setCreated (h : Alike n d s s') (x : Buffer) :
    Alike n d ((s.createBuffer x).2.setCurrent (some (s.createBuffer x).1))
      ((s'.createBuffer x).2.setCurrent (some (s'.createBuffer x).1)) := by
  rw [h.fst_createBuffer]
  refine (h.createBuffer x).setCurrent (b := some _) fun c hb ↦ ?_
  obtain rfl := Option.some.inj hb
  simp [Runtime.createBuffer]

/-- `yyin` is the same once `yylex` has looked at it. -/
theorem enter_yyin (h : Alike n d s s') :
    Alike n d { s with yyin := some (s.yyin.getD stdin) }
      { s' with yyin := some (s'.yyin.getD stdin) } := by
  refine { h with yyin := Or.inl ?_ }
  rcases h.yyin with hy | ⟨-, hy, hy'⟩
  · exact congrArg (fun y ↦ some (Option.getD y stdin)) hy
  · rw [hy, hy']
    rfl

theorem initDefaultBuffer (h : Alike n d s s') (hyyin : s.yyin = s'.yyin) :
    Alike n d s.initDefaultBuffer s'.initDefaultBuffer ∧
      s.initDefaultBuffer.yyin = s'.initDefaultBuffer.yyin := by
  have he : Alike n d s.ensureBufferStack s'.ensureBufferStack := h.ensureBufferStack
  have hyyin' : s.ensureBufferStack.yyin = s'.ensureBufferStack.yyin := by
    rw [yyin_ensureBufferStack, yyin_ensureBufferStack, hyyin]
  have hnone : s.ensureBufferStack.current.isNone = s'.ensureBufferStack.current.isNone := by
    rw [he.current, Option.isNone_map]
  unfold Runtime.initDefaultBuffer
  simp only
  rw [hnone, hyyin']
  split_ifs
  · have hcreated := he.enter_yyin.setCreated
      (fileBuffer (some (s'.ensureBufferStack.yyin.getD stdin)))
    rw [hyyin'] at hcreated
    have hslurp := hcreated.slurp rfl fun b hb ↦ ?_
    · exact ⟨{ hslurp with }, by simp [Runtime.setCurrent, Runtime.createBuffer]⟩
    · rw [buf_setCreated hb]
      exact Nat.zero_le _
  · exact ⟨{ he with }, hyyin'⟩

theorem restart (h : Alike n d s s') (file : Option Nat) :
    Alike n d (s.restart file) (s'.restart file) := by
  have he : Alike n d s.ensureBufferStack s'.ensureBufferStack := h.ensureBufferStack
  have hbuf : Alike n d (s.ensureBufferStack.restartBuffer file)
      (s'.ensureBufferStack.restartBuffer file) := by
    unfold restartBuffer
    rw [he.current]
    cases s'.ensureBufferStack.current with
    | none => exact he.setCreated (fileBuffer file)
    | some b =>
        exact (he.modifyBuf b fun x ↦ { x with inputFile := file }).flushBuffer (some b)
  have hend : ∀ b, (s'.ensureBufferStack.restartBuffer file).current = some b →
      ((s'.ensureBufferStack.restartBuffer file).buf b).bufEnd = 0 := by
    intro b hb
    unfold restartBuffer at hb ⊢
    cases hcur : s'.ensureBufferStack.current with
    | none =>
        simp only [hcur] at hb ⊢
        rw [buf_setCreated hb]
        rfl
    | some c =>
        simp only [hcur] at hb ⊢
        obtain rfl := Option.some.inj (hcur.symm.trans hb)
        refine congrArg Buffer.bufEnd (buf_modifyBuf_self ?_)
        exact (he.current_lt hcur).trans_le length_modifyBuf.ge
  have hclear : Alike n d
      { s.ensureBufferStack.restartBuffer file with
        yyin := file, textActive := false, textSave := 0, yytext := none, yyleng := 0 }
      { s'.ensureBufferStack.restartBuffer file with
        yyin := file, textActive := false, textSave := 0, yytext := none, yyleng := 0 } :=
    { hbuf with
      yyleng := fun _ ↦ rfl
      yyin := Or.inl rfl
      text := Or.inl ⟨rfl, fun h ↦ absurd h Bool.false_ne_true⟩ }
  exact hclear.slurp rfl fun b hb ↦ (hend b hb).trans_le (Nat.zero_le _)

/-! ## The text -/

theorem unsealed (h : Alike n d s s') : s.unsealed = s'.unsealed := by
  have hnot : ∀ {s : Runtime}, s.textActive = false → s.unsealed = [] := by
    intro s hs
    unfold Runtime.unsealed
    cases s.yytext with
    | none => rfl
    | some bp => exact if_neg fun h ↦ absurd (hs.symm.trans h.1) Bool.false_ne_true
  rcases h.text with ⟨hact, htext⟩ | ⟨hact, hold⟩
  · cases hs' : s'.textActive with
    | false => rw [hnot hs', hnot (hact.trans hs')]
    | true =>
        unfold Runtime.unsealed
        rw [(htext hs').1, hact]
        cases s'.yytext with
        | none => rfl
        | some bp =>
            simp only [Option.map_some, Prod.map_fst, h.buf]
  · rw [hnot hact]
    unfold Runtime.unsealed
    cases hp : s.yytext with
    | none => rfl
    | some bp => exact if_neg fun h ↦ h.2 (hold bp.1 bp.2 hp).2

/-- A store into the memory of an older buffer. -/
theorem modifyOlder (h : Alike n d s s') {b : Nat} (hb : b < n) {f : Buffer → Buffer}
    (hf : ∀ x, (f x).frees = x.frees) : Alike n d (s.modifyBuf b f) s' := by
  refine { h with
    length := length_modifyBuf.trans h.length
    buf := fun c ↦ ?_
    text := h.text.imp_right fun ⟨ha, hold⟩ ↦ ⟨ha, fun b₀ p hp ↦ ?_⟩ }
  · rw [buf_modifyBuf_of_ne (by omega)]
    exact h.buf c
  · obtain ⟨hb₀, hfr⟩ := hold b₀ p hp
    exact ⟨hb₀, (field_modifyBuf hf).trans hfr⟩

theorem textUnseal (h : Alike n d s s') : Alike n d s.textUnseal s'.textUnseal := by
  have hclear : ∀ {s s' : Runtime}, Alike n d s s' →
      Alike n d { s with textActive := false } { s' with textActive := false } := fun h ↦
    { h with text := Or.inl ⟨rfl, fun h ↦ absurd h Bool.false_ne_true⟩ }
  rcases h.text with ⟨hact, htext⟩ | ⟨hact, hold⟩
  · unfold Runtime.textUnseal
    rw [hact]
    split_ifs with hs'
    · obtain ⟨hy, hleng, hsave⟩ := htext hs'
      rw [hy]
      cases s'.yytext with
      | none => exact h
      | some bp =>
          simp only [Option.map_some, Prod.map_fst, Prod.map_snd, id_eq]
          rw [hleng, hsave]
          exact hclear (h.modifyBuf bp.1 _)
    · exact h
  · have hs' : s'.textUnseal = s' := by
      unfold Runtime.textUnseal
      rw [hact]
      rfl
    rw [hs']
    unfold Runtime.textUnseal
    split_ifs with hs
    · cases hp : s.yytext with
      | none => exact h
      | some bp =>
          exact { h.modifyOlder (hold bp.1 bp.2 hp).1 (f := fun x ↦
              { x with data := x.data.set (bp.2 + s.yyleng).toNat s.textSave }) fun _ ↦ rfl with
            text := Or.inl ⟨hact.symm, fun h ↦ absurd (hact.symm.trans h) Bool.false_ne_true⟩ }
    · exact h

theorem unput (h : Alike n d s s') (c : Byte) : Alike n d (s.unput c) (s'.unput c) := by
  have hu : Alike n d s.textUnseal s'.textUnseal := h.textUnseal
  unfold Runtime.unput
  simp only
  rw [hu.current]
  cases s'.textUnseal.current with
  | none => exact hu
  | some b => exact hu.modifyBuf b _

theorem input (h : Alike n d s s') (hread : s'.ReadsNoChunk .input) :
    s.input.1 = s'.input.1 ∧ Alike n d s.input.2 s'.input.2 := by
  have hu : Alike n d s.textUnseal s'.textUnseal := h.textUnseal
  have hread' : ∀ b, s.current = some b →
      (s.buf b).pos < (s.buf b).bufEnd ∨ (s.buf b).done = true := by
    intro b hb
    rw [h.current] at hb
    obtain ⟨c, hc, rfl⟩ := Option.map_eq_some_iff.1 hb
    rw [h.buf]
    exact hread c hc
  rw [input_of_no_refill hread, input_of_no_refill hread', hu.current]
  cases s'.textUnseal.current with
  | none => exact ⟨rfl, hu⟩
  | some b =>
      simp only [Option.map_some]
      rw [hu.buf]
      by_cases hend : (s'.textUnseal.buf b).bufEnd ≤ (s'.textUnseal.buf b).pos
      · rw [if_pos hend, if_pos hend]
        exact ⟨rfl, hu⟩
      · rw [if_neg hend, if_neg hend]
        refine ⟨rfl, { hu.modifyBuf b fun x ↦ { x with pos := x.pos + 1 } with yylineno := ?_ }⟩
        simp only
        rw [hu.yylineno]
        split_ifs
        · exact add_right_comm _ _ _
        · rfl

/-! ## The stack of start conditions -/

theorem pushState (h : Alike n d s s') (c : Nat) :
    (s.pushState c).1 = (s'.pushState c).1 ∧ Alike n d (s.pushState c).2 (s'.pushState c).2 := by
  have hgrow : Alike n d s.growStateStack s'.growStateStack := by
    unfold growStateStack
    simp only
    rw [h.stateStackMax, h.stateStack]
    exact { h with stateStack := rfl, stateStackMax := rfl }
  have hpush : ∀ {s s' : Runtime}, Alike n d s s' →
      decide (s.stateStackTop < s.stateStack.length) =
        decide (s'.stateStackTop < s'.stateStack.length) ∧
      Alike n d
        { s with
          stateStack := s.stateStack.set s.stateStackTop s.start
          stateStackTop := s.stateStackTop + 1
          start := c }
        { s' with
          stateStack := s'.stateStack.set s'.stateStackTop s'.start
          stateStackTop := s'.stateStackTop + 1
          start := c } := by
    intro s s' h
    rw [h.stateStack, h.stateStackTop, h.start]
    exact ⟨rfl, { h with stateStack := rfl, stateStackTop := rfl, start := rfl }⟩
  unfold Runtime.pushState
  simp only
  rw [h.stateStackMax, h.stateStackTop]
  split_ifs
  · exact hpush hgrow
  · exact hpush h

theorem popState (h : Alike n d s s') :
    s.popState.1 = s'.popState.1 ∧ Alike n d s.popState.2 s'.popState.2 := by
  unfold Runtime.popState
  rw [h.stateStackTop, h.stateStack]
  split_ifs
  · exact ⟨rfl, h⟩
  · exact ⟨rfl, { h with start := rfl, stateStack := rfl, stateStackTop := rfl }⟩

theorem topState (h : Alike n d s s') : s.topState = s'.topState := by
  unfold Runtime.topState
  rw [h.stateStackTop, h.stateStack]

/-! ## The end -/

theorem drain (k : Nat) (h : Alike n d s s') : Alike n d (s.drain k) (s'.drain k) := by
  induction k generalizing s s' with
  | zero => exact h
  | succ k ih =>
      unfold Runtime.drain
      rw [h.current, Option.isSome_map]
      split_ifs
      · exact ih h.popBufferState
      · exact h

theorem destroy (h : Alike n d s s') : Alike n d s.destroy s'.destroy := by
  have hdrain : Alike n d (s.drain (s.bufferStackTop + 1)) (s'.drain (s'.bufferStackTop + 1)) := by
    by_cases hst : s'.bufferStack = none
    · have hcur' : s'.current = none := by
        unfold Runtime.current
        rw [hst]
      have hcur : s.current = none := by
        rw [h.current, hcur']
        rfl
      unfold Runtime.drain
      rw [hcur, hcur']
      exact h
    · rw [h.top hst]
      exact h.drain _
  unfold Runtime.destroy
  refine { hdrain with
    stack := rfl
    known := fun b hb ↦ absurd hb List.not_mem_nil
    top := fun hst ↦ absurd rfl hst
    stateStack := rfl }

/-! ## The loop -/

theorem enter (h : Alike n d s s') : Alike n d s.enter s'.enter := by
  obtain ⟨hinit, hyyin⟩ := h.enter_yyin.initDefaultBuffer
    (h.enter_yyin.yyin.resolve_right fun hno ↦ absurd hno.2.2 nofun)
  exact { hinit with
    phase := rfl
    moreFlag := nofun
    yyleng := nofun
    yyin := Or.inl hyyin }

theorem autoRestart (h : Alike n d s s') (hyyin : s.yyin = s'.yyin) (b : Nat) :
    Alike n d (s.autoRestart (n + b)) (s'.autoRestart b) := by
  unfold Runtime.autoRestart
  rw [h.buf, hyyin]
  split_ifs
  · exact h.restart _
  · exact h

theorem atEnd (h : Alike n d s s') (hyyin : s.yyin = s'.yyin) (eofRule : Nat → Bool) (b : Nat) :
    (s.atEnd eofRule (n + b)).2 = (s'.atEnd eofRule b).2 ∧
      Alike n d (s.atEnd eofRule (n + b)).1 (s'.atEnd eofRule b).1 := by
  unfold Runtime.atEnd
  rw [h.start, h.buf]
  refine ⟨rfl, { h with
    phase := rfl
    start := rfl
    moreFlag := fun hp ↦ ?_
    yyleng := fun _ ↦ rfl
    yyin := Or.inl hyyin
    text := Or.inl ⟨rfl, fun _ ↦ ⟨rfl, rfl, rfl⟩⟩ }⟩
  simp only at hp
  split_ifs at hp

theorem take (h : Alike n d s s') (hyyin : s.yyin = s'.yyin) (b : Nat) (m : Match) :
    (s.take (n + b) m).2 = (s'.take b m).2.map (Obs.addLines d) ∧
      Alike n d (s.take (n + b) m).1 (s'.take b m).1 := by
  have hlexer : s.lexer (n + b) = { s'.lexer b with
      leng := s.yyleng, textSave := s.textSave, textActive := s.textActive
      moreFlag := s.moreFlag } := by
    unfold lexer
    rw [h.buf, h.start, h.moreOffset]
  have haccept : (s.lexer (n + b)).accept m = (s'.lexer b).accept m := by
    rw [hlexer]
    rfl
  have hlen : (s.lexer (n + b)).textLen m = (s'.lexer b).textLen m := by
    rw [hlexer]
    rfl
  unfold Runtime.take
  simp only
  rw [haccept, hlen, h.start, h.yylineno, add_right_comm]
  exact ⟨rfl, { h.modifyBuf b fun x ↦ { x with
      data := ((s'.lexer b).accept m).data
      pos := ((s'.lexer b).accept m).bufPos
      atBol := ((s'.lexer b).accept m).atBol } with
    phase := rfl
    yylineno := rfl
    moreFlag := fun _ ↦ rfl
    yyleng := fun _ ↦ rfl
    yyin := Or.inl hyyin
    text := Or.inl ⟨rfl, fun _ ↦ ⟨rfl, rfl, rfl⟩⟩ }⟩

theorem byDefault (h : Alike n d s s') (b : Nat) :
    (s.byDefault (n + b)).2 = (s'.byDefault b).2 ∧
      Alike n d (s.byDefault (n + b)).1 (s'.byDefault b).1 := by
  unfold Runtime.byDefault
  simp only
  rw [h.buf]
  refine ⟨rfl, { h.modifyBuf b fun x ↦ { x with
    pos := x.pos + 1
    atBol := (s'.buf b).data.getD (s'.buf b).pos 0 = newline } with yylineno := ?_ }⟩
  simp only
  rw [h.yylineno]
  split_ifs
  · exact add_right_comm _ _ _
  · rfl

section Step

variable {t : Tables} {nodefault : Bool} {eofRule : Nat → Bool}

theorem scan (h : Alike n d s s') (hyyin : s.yyin = s'.yyin) (b : Nat) :
    (s.scan t nodefault eofRule (n + b)).2 =
        (s'.scan t nodefault eofRule b).2.map (Obs.addLines d) ∧
      Alike n d (s.scan t nodefault eofRule (n + b)).1 (s'.scan t nodefault eofRule b).1 := by
  have hbuf : (s.lexer (n + b)).buf = (s'.lexer b).buf := by
    unfold Lexer.buf lexer
    rw [h.buf]
  unfold Runtime.scan
  rw [h.buf, hbuf, h.start]
  by_cases hend : (s'.buf b).bufEnd ≤ (s'.buf b).pos
  · rw [if_pos hend, if_pos hend]
    obtain ⟨hobs, hs⟩ := h.atEnd hyyin eofRule b
    refine ⟨hobs.trans ?_, hs⟩
    unfold Runtime.atEnd
    split_ifs <;> rfl
  · rw [if_neg hend, if_neg hend]
    cases bodyMatch t (s'.lexer b).buf (s'.buf b).pos s'.start (s'.buf b).atBol with
    | some m => exact h.take hyyin b m
    | none =>
        simp only
        split_ifs
        · exact ⟨rfl, { h with
            start := rfl
            phase := rfl
            moreFlag := nofun
            yyleng := nofun
            yyin := Or.inl hyyin }⟩
        · exact h.byDefault b

theorem map_unsealed (s : Runtime) : s.unsealed.map (Obs.addLines d) = s.unsealed := by
  unfold Runtime.unsealed
  cases s.yytext with
  | none => rfl
  | some bp =>
      simp only
      split_ifs <;> rfl

theorem loopBody (h : Alike n d s s') (hphase : s'.phase = .loopTop) :
    Observed.Matched (Alike n d) (Obs.addLines d) (s.loopBody t nodefault eofRule)
      (s'.loopBody t nodefault eofRule) := by
  have hu : Alike n d s.textUnseal s'.textUnseal := h.textUnseal
  have hphase' : s'.textUnseal.phase = .loopTop := (phase_of_control (control_textUnseal s')).trans hphase
  have hyyin : s.textUnseal.yyin = s'.textUnseal.yyin := by
    refine hu.yyin_eq ?_ ?_ <;> (rw [hphase']; exact nofun)
  unfold Runtime.loopBody
  rw [hu.current]
  cases s'.textUnseal.current with
  | none => exact Option.Rel.none
  | some b =>
      have hr : Alike n d (s.textUnseal.autoRestart (n + b)) (s'.textUnseal.autoRestart b) :=
        hu.autoRestart hyyin b
      have hyyin' : (s.textUnseal.autoRestart (n + b)).yyin = (s'.textUnseal.autoRestart b).yyin := by
        refine hr.yyin_eq ?_ ?_ <;> 
          (rw [phase_of_control (control_autoRestart _ _), hphase']; exact nofun)
      obtain ⟨hobs, hs⟩ := hr.scan hyyin' b
      refine Option.Rel.some ⟨hs, ?_⟩
      simp only [List.map_append, map_unsealed, h.unsealed]
      rw [hobs]

theorem leave (h : Alike n d s s') (returns : Bool) :
    Observed.Matched (Alike n d) (Obs.addLines d) (s.leave returns) (s'.leave returns) := by
  have hgo : s.yyin = s'.yyin → ∀ phase more, phase ≠ Phase.action →
      Alike n d { s with moreOffset := more, phase := phase }
        { s' with moreOffset := more, phase := phase } := fun hyyin phase more hphase ↦
    { h with
      moreOffset := rfl
      phase := rfl
      moreFlag := fun hp ↦ absurd hp hphase
      yyleng := fun hp ↦ absurd hp hphase
      yyin := Or.inl hyyin }
  unfold Runtime.leave
  rw [h.phase]
  cases hp : s'.phase with
  | action =>
      have hyyin : s.yyin = s'.yyin := by
        refine h.yyin_eq ?_ ?_ <;> (rw [hp]; exact nofun)
      cases returns with
      | true =>
          refine Option.Rel.some ⟨?_, rfl⟩
          have hret := hgo hyyin .outside s'.moreOffset nofun
          exact { hret with moreOffset := h.moreOffset }
      | false =>
          refine Option.Rel.some ⟨?_, rfl⟩
          have hback := hgo hyyin .loopTop (if s'.moreFlag then s'.yyleng else 0) nofun
          exact { hback with moreOffset := by simp only [h.moreFlag hp, h.yyleng hp] }
  | eofAction =>
      have hyyin : s.yyin = s'.yyin := by
        refine h.yyin_eq ?_ ?_ <;> (rw [hp]; exact nofun)
      have hret := hgo hyyin .outside s'.moreOffset nofun
      cases returns with
      | true => exact Option.Rel.some ⟨{ hret with moreOffset := h.moreOffset }, rfl⟩
      | false => exact Option.Rel.some ⟨{ hret with moreOffset := h.moreOffset }, rfl⟩
  | outside => exact Option.Rel.none
  | loopTop => exact Option.Rel.none
  | exited => exact Option.Rel.none

/-- What is called on both sides. -/
theorem callee (h : Alike n d s s') {c : Call} (hc : s'.ReadsNoChunk c)
    (hknown : ∀ b, c.buffer = some b → b < s'.heap.length) :
    (s.callee (c.shift n)).2 = (s'.callee c).2.map (Obs.addLines d) ∧
      Alike n d (s.callee (c.shift n)).1 (s'.callee c).1 := by
  cases c with
  | begin c => exact ⟨rfl, { h with start := rfl }⟩
  | more => exact ⟨rfl, { h with moreFlag := fun _ ↦ rfl }⟩
  | pushState c =>
      obtain ⟨hobs, hs⟩ := h.pushState c
      exact ⟨congrArg (fun i ↦ [Obs.stored i]) hobs, hs⟩
  | popState =>
      obtain ⟨hobs, hs⟩ := h.popState
      exact ⟨congrArg₂ (fun i c ↦ [Obs.loaded i c]) hobs hs.start, hs⟩
  | topState =>
      change (s.callee .topState).2 = (s'.callee .topState).2.map (Obs.addLines d) ∧
        Alike n d (s.callee .topState).1 (s'.callee .topState).1
      rw [callee_topState, callee_topState, h.topState]
      cases s'.topState with
      | none =>
          exact ⟨rfl, { h with
            phase := rfl
            moreFlag := nofun
            yyleng := nofun
            yyin := h.yyin.imp_right fun hno ↦ ⟨Or.inr rfl, hno.2⟩ }⟩
      | some p => exact ⟨rfl, h⟩
  | createBuffer file => exact ⟨rfl, h.createBuffer _⟩
  | deleteBuffer b => exact ⟨rfl, h.deleteBuffer b⟩
  | flushBuffer b => exact ⟨rfl, h.flushBuffer b⟩
  | switchToBuffer b => exact ⟨rfl, h.switchToBuffer hknown⟩
  | pushBufferState b => exact ⟨rfl, h.pushBufferState hknown⟩
  | popBufferState => exact ⟨rfl, h.popBufferState⟩
  | scanBytes bytes => exact ⟨rfl, h.scanBytes bytes⟩
  | scanBuffer base => exact ⟨rfl, h.scanBuffer base⟩
  | restart file => exact ⟨rfl, h.restart file⟩
  | input =>
      obtain ⟨hobs, hs⟩ := h.input hc
      refine ⟨?_, hs⟩
      change s.unsealed ++ [Obs.read s.input.1] =
        (s'.unsealed ++ [Obs.read s'.input.1]).map (Obs.addLines d)
      rw [List.map_append, map_unsealed, h.unsealed, hobs]
      rfl
  | unput c =>
      refine ⟨?_, h.unput c⟩
      change s.unsealed = s'.unsealed.map (Obs.addLines d)
      rw [map_unsealed, h.unsealed]
  | destroy => exact ⟨rfl, h.destroy⟩
  | yylex => exact ⟨rfl, h⟩
  | iterate => exact ⟨rfl, h⟩
  | leave returns => exact ⟨rfl, h⟩

theorem canCall_iff (h : Alike n d s s') (c : Call) : s.CanCall (c.shift n) ↔ s'.CanCall c := by
  have hbuffer : (c.shift n).buffer = c.buffer.map (n + ·) := by
    cases c <;> rfl
  unfold CanCall
  rw [h.phase, hbuffer]
  refine and_congr_right fun _ ↦ and_congr_right fun _ ↦ ?_
  cases c.buffer with
  | none => rfl
  | some b =>
      simp only [Option.map_some, Option.all_some, decide_eq_true_eq]
      exact h.lt_iff b

/-- **A call keeps states alike**, and shows the same of both, unless it reads a chunk. -/
theorem step (h : Alike n d s s') {c : Call} (hc : s'.ReadsNoChunk c) :
    Observed.Matched (Alike n d) (Obs.addLines d) (s.step t nodefault eofRule (c.shift n))
      (s'.step t nodefault eofRule c) := by
  have hcallee : Observed.Matched (Alike n d) (Obs.addLines d)
      (if s.CanCall (c.shift n) then some (s.callee (c.shift n)) else none)
      (if s'.CanCall c then some (s'.callee c) else none) := by
    simp only [h.canCall_iff c]
    split_ifs with hcan
    · obtain ⟨hobs, hs⟩ := h.callee hc fun b hb ↦ by simpa [hb] using hcan.2.2
      exact Option.Rel.some ⟨hs, hobs⟩
    · exact Option.Rel.none
  cases c with
  | yylex =>
      simp only [Call.shift, Runtime.step]
      rw [h.phase]
      split_ifs
      · exact Option.Rel.some ⟨h.enter, rfl⟩
      · exact Option.Rel.none
  | iterate =>
      simp only [Call.shift, Runtime.step]
      rw [h.phase]
      split_ifs with hphase
      · exact h.loopBody hphase
      · exact Option.Rel.none
  | leave returns => exact h.leave returns
  | _ => exact hcallee

end Step

end Alike

end Runtime

end LexCpp
