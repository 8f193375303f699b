import LexCpp.Scanner.Calls

/-!
# Buffers and their stack

The state of the non-reentrant runtime, and the functions on buffers.  A buffer is known by
its place in the heap, where it stays when it is freed, so that a stale pointer is the place
of a freed buffer.  How much memory a buffer has is left out: `yy_buf_grow` makes room for
what comes.

A file is what the calls of `YY_INPUT` on it have still to deliver, a chunk for each call;
once there is none left, a call delivers nothing.
-/

namespace LexCpp

/-- `struct yy_buffer_state`, with the number of times it was freed. -/
structure Buffer where
  inputFile : Option Nat := none
  data : List Byte := [0, 0]
  pos : Nat := 0
  bufEnd : Nat := 0
  atBol : Bool := true
  done : Bool := false
  frees : Nat := 0
deriving DecidableEq, Repr, Inhabited

/-- Where the program stands: outside of `yylex`, at the top of its loop, in the action of a
rule or in that of an `<<EOF>>` rule; or it has exited. -/
inductive Phase where
  | outside
  | loopTop
  | action
  | eofAction
  | exited
deriving DecidableEq, Repr

/-- `yyguts_t` and the public globals, the heap, and the files.  The allocation that
`yy_state_stack` points to is kept apart from what `yy_state_stack_max` says of it. -/
structure Runtime where
  heap : List Buffer := []
  files : Nat → List (List Byte)
  bufferStack : Option (List (Option Nat)) := none
  bufferStackTop : Nat := 0
  stateStack : List Nat := []
  stateStackMax : Nat := 0
  stateStackTop : Nat := 0
  yytext : Option (Nat × Nat) := none
  yyleng : Int := 0
  yylineno : Int := 1
  yyin : Option Nat := none
  start : Nat := 0
  textSave : Byte := 0
  textActive : Bool := false
  initDone : Bool := false
  moreFlag : Bool := false
  moreOffset : Int := 0
  phase : Phase := .outside

namespace Runtime

/-- The file that `stdin` is. -/
def stdin : Nat := 0

def buf (s : Runtime) (b : Nat) : Buffer := s.heap.getD b {}

def modifyBuf (b : Nat) (f : Buffer → Buffer) (s : Runtime) : Runtime :=
  { s with heap := s.heap.modify b f }

section Heap

variable {s : Runtime} {b c : Nat} {f : Buffer → Buffer}

@[simp] theorem length_modifyBuf : (s.modifyBuf b f).heap.length = s.heap.length :=
  List.length_modify ..

theorem buf_modifyBuf_of_ne (hc : c ≠ b) : (s.modifyBuf b f).buf c = s.buf c := by
  unfold buf modifyBuf
  rw [List.getD_eq_getElem?_getD, List.getD_eq_getElem?_getD, List.getElem?_modify]
  simp only [if_neg (Ne.symm hc), Option.map_eq_map, Option.map_id_fun']
  rfl

theorem buf_modifyBuf_self (hb : b < s.heap.length) : (s.modifyBuf b f).buf b = f (s.buf b) := by
  unfold buf modifyBuf
  rw [List.getD_eq_getElem?_getD, List.getD_eq_getElem?_getD, List.getElem?_modify,
    List.getElem?_eq_getElem hb]
  simp

theorem buf_of_length_le (hb : s.heap.length ≤ b) : s.buf b = {} := by
  unfold buf
  rw [List.getD_eq_getElem?_getD, List.getElem?_eq_none hb]
  rfl

/-- What of the buffers no change of one of them touches. -/
theorem field_modifyBuf {β : Type} {g : Buffer → β} (hg : ∀ x, g (f x) = g x) :
    g ((s.modifyBuf b f).buf c) = g (s.buf c) := by
  rcases eq_or_ne c b with rfl | hcb
  · rcases lt_or_ge c s.heap.length with hc | hc
    · rw [buf_modifyBuf_self hc, hg]
    · rw [buf_of_length_le hc, buf_of_length_le (length_modifyBuf.le.trans hc)]
  · rw [buf_modifyBuf_of_ne hcb]

end Heap

/-! ## The stack -/

/-- `YY_CURRENT_BUFFER`. -/
def current (s : Runtime) : Option Nat :=
  match s.bufferStack with
  | none => none
  | some st => st.getD s.bufferStackTop none

/-- An assignment to `YY_CURRENT_BUFFER_LVALUE`. -/
def setCurrent (b : Option Nat) (s : Runtime) : Runtime :=
  { s with bufferStack := s.bufferStack.map fun st ↦ st.set s.bufferStackTop b }

def ensureBufferStack (s : Runtime) : Runtime :=
  match s.bufferStack with
  | none => { s with bufferStack := some [none], bufferStackTop := 0 }
  | some _ => s

def growStack (s : Runtime) : Runtime :=
  { s with bufferStack := s.bufferStack.map fun st ↦
      st ++ List.replicate (if st.length = 0 then 4 else st.length) none }

/-- `yy_create_buffer`, with the buffer. -/
def createBuffer (x : Buffer) (s : Runtime) : Nat × Runtime :=
  (s.heap.length, { s with heap := s.heap ++ [x] })

theorem buf_createBuffer_of_ne {s : Runtime} {x : Buffer} {b : Nat} (hb : b ≠ s.heap.length) :
    (s.createBuffer x).2.buf b = s.buf b := by
  unfold buf createBuffer
  simp only [List.getD_eq_getElem?_getD]
  rcases Nat.lt_or_gt_of_ne hb with hb | hb
  · rw [List.getElem?_append_left hb]
  · rw [List.getElem?_eq_none (l := s.heap) hb.le, List.getElem?_eq_none]
    rw [List.length_append, List.length_singleton]
    exact hb

theorem buf_createBuffer_self {s : Runtime} {x : Buffer} :
    (s.createBuffer x).2.buf (s.createBuffer x).1 = x := by
  unfold buf createBuffer
  simp

/-- The buffer that `yy_create_buffer` makes for a file. -/
def fileBuffer (file : Option Nat) : Buffer := { inputFile := file }

/-- The buffer that the functions for scanning memory make. -/
def memoryBuffer (bytes : List Byte) : Buffer :=
  { data := bytes ++ [0, 0], bufEnd := bytes.length, done := true }

def deleteBuffer (b : Option Nat) (s : Runtime) : Runtime :=
  match b with
  | none => s
  | some b => s.modifyBuf b fun x ↦ { x with frees := x.frees + 1 }

def flushBuffer (b : Option Nat) (s : Runtime) : Runtime :=
  match b with
  | none => s
  | some b => s.modifyBuf b fun x ↦
      { x with pos := 0, bufEnd := 0, done := x.inputFile.isNone, atBol := true, data := [0, 0] }

/-- `yyin` after a buffer has become the current one. -/
def followFile (b : Option Nat) (s : Runtime) : Runtime :=
  match b with
  | none => s
  | some b => { s with yyin := (s.buf b).inputFile }

def switchToBuffer (b : Option Nat) (s : Runtime) : Runtime :=
  let s := s.ensureBufferStack
  if s.current = b then s else (s.setCurrent b).followFile b

/-- The slot above the current buffer, or its own if there is none. -/
def raise (s : Runtime) : Runtime :=
  if s.current.isSome then
    let s := { s with bufferStackTop := s.bufferStackTop + 1 }
    if (s.bufferStack.getD []).length ≤ s.bufferStackTop then s.growStack else s
  else s

def pushBufferState (b : Option Nat) (s : Runtime) : Runtime :=
  (s.ensureBufferStack.raise.setCurrent b).followFile b

def popBufferState (s : Runtime) : Runtime :=
  if s.bufferStack.isSome then
    let s := (s.deleteBuffer s.current).setCurrent none
    if 0 < s.bufferStackTop then
      let s := { s with bufferStackTop := s.bufferStackTop - 1 }
      s.followFile s.current
    else s
  else s

/-- `yy_scan_bytes`. -/
def scanBytes (bytes : List Byte) (s : Runtime) : Runtime :=
  let (b, s) := s.createBuffer (memoryBuffer bytes)
  s.pushBufferState (some b)

/-- `yy_scan_buffer`: the memory has to end in two NULs. -/
def scanBuffer (base : List Byte) (s : Runtime) : Runtime :=
  if base.drop (base.length - 2) = [0, 0] then s.scanBytes (base.take (base.length - 2)) else s

/-! ## Reading -/

/-- `YY_INPUT` on `yyin`. -/
def yyInput (s : Runtime) : List Byte × Runtime :=
  match s.yyin with
  | none => ([], s)
  | some f => ((s.files f).headD [], { s with files := Function.update s.files f (s.files f).tail })

def refill (s : Runtime) : Runtime :=
  match s.current with
  | none => s
  | some b =>
      if (s.buf b).done then s
      else
        let (chunk, s) := s.yyInput
        s.modifyBuf b fun x ↦
          { x with
            data := x.data.take x.bufEnd ++ chunk ++ [0, 0]
            bufEnd := x.bufEnd + chunk.length
            done := x.done || chunk.isEmpty }

def slurpLoop : Nat → Runtime → Runtime
  | 0, s => s
  | n + 1, s =>
      match s.current with
      | none => s
      | some b => if (s.buf b).done then s else slurpLoop n s.refill

/-- `yy_slurp`: a turn for every chunk and one for the end. -/
def slurp (s : Runtime) : Runtime :=
  slurpLoop (((s.yyin.map s.files).getD []).length + 2) s

def initDefaultBuffer (s : Runtime) : Runtime :=
  let s := s.ensureBufferStack
  let s :=
    if s.current.isNone then
      let s := { s with yyin := some (s.yyin.getD stdin) }
      let (b, s) := s.createBuffer (fileBuffer s.yyin)
      (s.setCurrent (some b)).slurp
    else s
  { s with initDone := true }

/-- The current buffer of `yyrestart`: a new one, or the old one flushed. -/
def restartBuffer (file : Option Nat) (s : Runtime) : Runtime :=
  match s.current with
  | none =>
      let (b, s) := s.createBuffer (fileBuffer file)
      s.setCurrent (some b)
  | some b => (s.modifyBuf b fun x ↦ { x with inputFile := file }).flushBuffer (some b)

/-- `yyrestart`. -/
def restart (file : Option Nat) (s : Runtime) : Runtime :=
  let s := s.ensureBufferStack.restartBuffer file
  let s := { s with
    yyin := file, textActive := false, textSave := 0, yytext := none, yyleng := 0 }
  s.slurp

/-! ## The text -/

/-- `yy_text_unseal`. -/
def textUnseal (s : Runtime) : Runtime :=
  if s.textActive then
    match s.yytext with
    | none => s
    | some (b, p) =>
        { s.modifyBuf b fun x ↦ { x with data := x.data.set (p + s.yyleng).toNat s.textSave } with
          textActive := false }
  else s

/-- `yy_unput`. -/
def unput (c : Byte) (s : Runtime) : Runtime :=
  let s := s.textUnseal
  match s.current with
  | none => s
  | some b => s.modifyBuf b fun x ↦
      if x.pos = 0 then { x with data := c :: x.data, bufEnd := x.bufEnd + 1, atBol := c = newline }
      else { x with data := x.data.set (x.pos - 1) c, pos := x.pos - 1, atBol := c = newline }

/-- `yy_input`, with the byte it returns. -/
def input (s : Runtime) : Byte × Runtime :=
  let s := s.textUnseal
  match s.current with
  | none => (0, s)
  | some b =>
      let s := if (s.buf b).bufEnd ≤ (s.buf b).pos then s.refill else s
      if (s.buf b).bufEnd ≤ (s.buf b).pos then (0, s)
      else
        let c := (s.buf b).data.getD (s.buf b).pos 0
        (c, { s.modifyBuf b fun x ↦ { x with pos := x.pos + 1 } with
          yylineno := if c = newline then s.yylineno + 1 else s.yylineno })

/-! ## The stack of start conditions -/

def growStateStack (s : Runtime) : Runtime :=
  let newMax := if s.stateStackMax = 0 then 16 else s.stateStackMax * 2
  { s with
    stateStack := (s.stateStack ++ List.replicate newMax 0).take newMax
    stateStackMax := newMax }

/-- `yy_push_state`, and whether it stores inside the allocation. -/
def pushState (c : Nat) (s : Runtime) : Bool × Runtime :=
  let s := if s.stateStackMax ≤ s.stateStackTop then s.growStateStack else s
  (s.stateStackTop < s.stateStack.length,
    { s with
      stateStack := s.stateStack.set s.stateStackTop s.start
      stateStackTop := s.stateStackTop + 1
      start := c })

/-- `yy_pop_state`, and whether it loads from inside the allocation. -/
def popState (s : Runtime) : Bool × Runtime :=
  if s.stateStackTop = 0 then (true, s)
  else
    (s.stateStackTop - 1 < s.stateStack.length,
      { s with
        start := s.stateStack.getD (s.stateStackTop - 1) 0
        stateStackTop := s.stateStackTop - 1 })

/-- `yy_top_state`; `none` is the fatal error of an empty stack. -/
def topState (s : Runtime) : Option (Bool × Nat) :=
  if s.stateStackTop = 0 then none
  else some (s.stateStackTop - 1 < s.stateStack.length,
    s.stateStack.getD (s.stateStackTop - 1) 0)

/-! ## The end -/

/-- The loop of `yylex_destroy`. -/
def drain : Nat → Runtime → Runtime
  | 0, s => s
  | n + 1, s => if s.current.isSome then drain n s.popBufferState else s

/-- `yylex_destroy`. -/
def destroy (s : Runtime) : Runtime :=
  { s.drain (s.bufferStackTop + 1) with bufferStack := none, stateStack := [], initDone := false }

end Runtime

end LexCpp
