import LexCpp.Control.Runs
import LexCpp.Runtime.Buffers
import LexCpp.Runtime.Space

/-!
# The runtime over memory

The non-reentrant runtime with the allocations of its buffers, and the program as a sequence of
calls on it, `yyless` among them.  `yytext` is a pointer into an allocation; a store through it
once the allocation was given up is a store outside.

`YY_INPUT` stores at most as many bytes as it is asked for: a file is what is still to be
delivered, a chunk for each call, and of a longer chunk the rest is left for the next call.
-/

namespace LexCpp

/-- A pointer into the allocation that a buffer has after `moves` others. -/
structure Pointer where
  buf : Nat
  moves : Nat
  index : Int
deriving DecidableEq, Repr

/-- What of `yyguts_t` and the public globals the functions on buffers work with, the heap, and
the files. -/
structure Memory where
  heap : List Space := []
  files : Nat → List (List Byte)
  bufferStack : Option (List (Option Nat)) := none
  bufferStackTop : Nat := 0
  yytext : Option Pointer := none
  yyleng : Int := 0
  yyin : Option Nat := none
  start : Nat := 0
  textSave : Byte := 0
  textActive : Bool := false
  moreFlag : Bool := false
  moreOffset : Int := 0
  phase : Phase := .outside

namespace Space

/-- A store through a pointer into the allocation after `moves` others. -/
def storeAt (moves : Nat) (i : Int) (c : Byte) (x : Space) : Space :=
  if x.moves = moves then x.store i c else { x with log := x.log ++ [.write false] }

end Space

namespace Memory

def buf (s : Memory) (b : Nat) : Space := s.heap.getD b {}

def modifyBuf (b : Nat) (f : Space → Space) (s : Memory) : Memory :=
  { s with heap := s.heap.modify b f }

/-! ## The stack -/

/-- `YY_CURRENT_BUFFER` -/
def current (s : Memory) : Option Nat := s.bufferStack.bind fun st ↦ st.getD s.bufferStackTop none

/-- An assignment to `YY_CURRENT_BUFFER_LVALUE`. -/
def setCurrent (b : Option Nat) (s : Memory) : Memory :=
  { s with bufferStack := s.bufferStack.map fun st ↦ st.set s.bufferStackTop b }

def ensureBufferStack (s : Memory) : Memory :=
  if s.bufferStack.isSome then s else { s with bufferStack := some [none], bufferStackTop := 0 }

def growStack (s : Memory) : Memory :=
  { s with bufferStack := s.bufferStack.map fun st ↦
      st ++ List.replicate (if st.length = 0 then 4 else st.length) none }

/-- A new buffer, with its place. -/
def allocate (x : Space) (s : Memory) : Nat × Memory :=
  (s.heap.length, { s with heap := s.heap ++ [x] })

/-- `yyin` after a buffer has become the current one. -/
def followFile (b : Option Nat) (s : Memory) : Memory :=
  { s with yyin := b.elim s.yyin fun b ↦ (s.buf b).inputFile }

def switchToBuffer (b : Option Nat) (s : Memory) : Memory :=
  let s := s.ensureBufferStack
  if s.current = b then s else (s.setCurrent b).followFile b

/-- The slot above the current buffer, or its own if there is none. -/
def raise (s : Memory) : Memory :=
  if s.current.isSome then
    let s := { s with bufferStackTop := s.bufferStackTop + 1 }
    if (s.bufferStack.getD []).length ≤ s.bufferStackTop then s.growStack else s
  else s

def pushBufferState (b : Option Nat) (s : Memory) : Memory :=
  (s.ensureBufferStack.raise.setCurrent b).followFile b

/-- A change of the buffer, if there is one. -/
def onBuffer (b : Option Nat) (f : Space → Space) (s : Memory) : Memory :=
  b.elim s fun b ↦ s.modifyBuf b f

def deleteBuffer (b : Option Nat) (s : Memory) : Memory := s.onBuffer b Space.delete

def flushBuffer (b : Option Nat) (s : Memory) : Memory := s.onBuffer b Space.flush

def popBufferState (s : Memory) : Memory :=
  if s.bufferStack.isSome then
    let s := (s.deleteBuffer s.current).setCurrent none
    if 0 < s.bufferStackTop then
      let s := { s with bufferStackTop := s.bufferStackTop - 1 }
      s.followFile s.current
    else s
  else s

/-- A new buffer, on top of the stack. -/
def pushNew (x : Space) (s : Memory) : Memory := (s.allocate x).2.pushBufferState s.heap.length

def scanBytes (bytes : List Byte) (s : Memory) : Memory := s.pushNew (Space.scanBytes bytes)

/-- `yy_scan_buffer`: the memory has to end in two NULs. -/
def scanBuffer (base : List Byte) (s : Memory) : Memory :=
  if 2 ≤ base.length ∧ base.drop (base.length - 2) = [0, 0] then s.pushNew (Space.scanBuffer base)
  else s

/-! ## Reading -/

/-- `YY_INPUT` on `yyin`, for `max` bytes at most. -/
def yyInput (max : Nat) (s : Memory) : List Byte × Memory :=
  match s.yyin with
  | none => ([], s)
  | some f =>
      let chunk := (s.files f).headD []
      let rest := chunk.drop max
      (chunk.take max, { s with
        files := Function.update s.files f
          (if rest = [] then (s.files f).tail else rest :: (s.files f).tail) })

def refill (s : Memory) : Memory :=
  match s.current with
  | none => s
  | some b =>
      if (s.buf b).done then s
      else
        let s := s.modifyBuf b fun x ↦ x.grow (x.bufEnd + 4096)
        let (bs, s) := s.yyInput ((s.buf b).size - (s.buf b).bufEnd)
        s.modifyBuf b (Space.receive bs)

def slurpLoop : Nat → Memory → Memory
  | 0, s => s
  | n + 1, s =>
      match s.current with
      | none => s
      | some b => if (s.buf b).done then s else slurpLoop n s.refill

/-- What `yyin` has still to deliver. -/
def toRead (s : Memory) : List (List Byte) := (s.yyin.map s.files).getD []

/-- `yy_slurp`: at most a turn for every byte and every chunk, and one for the end. -/
def slurp (s : Memory) : Memory :=
  slurpLoop (s.toRead.flatten.length + s.toRead.length + 1) s

/-- A new buffer for a file, as the current one. -/
def makeCurrent (file : Option Nat) (s : Memory) : Memory :=
  (s.allocate (Space.create file Space.bufSize)).2.setCurrent s.heap.length

def openYyin (s : Memory) : Memory := { s with yyin := some (s.yyin.getD Runtime.stdin) }

def initDefaultBuffer (s : Memory) : Memory :=
  let s := s.ensureBufferStack
  if s.current.isNone then (s.openYyin.makeCurrent s.openYyin.yyin).slurp else s

/-- The current buffer of `yyrestart`: a new one, or the old one flushed. -/
def restartBuffer (file : Option Nat) (s : Memory) : Memory :=
  match s.current with
  | none => s.makeCurrent file
  | some b => s.modifyBuf b fun x ↦ { x with inputFile := file }.flush

/-- The other variables that `yyrestart` sets. -/
def forgetText (file : Option Nat) (s : Memory) : Memory :=
  { s with yyin := file, textActive := false, textSave := 0, yytext := none, yyleng := 0 }

/-- `yyrestart` -/
def restart (file : Option Nat) (s : Memory) : Memory :=
  ((s.ensureBufferStack.restartBuffer file).forgetText file).slurp

/-! ## The text -/

/-- `yytext[i] = c` -/
def storeText (i : Int) (c : Byte) (s : Memory) : Memory :=
  s.yytext.elim s fun p ↦ s.modifyBuf p.buf (Space.storeAt p.moves (p.index + i) c)

/-- `yytext[i]` -/
def loadText (i : Int) (s : Memory) : Byte :=
  s.yytext.elim 0 fun p ↦ (s.buf p.buf).load (p.index + i)

/-- `yy_text_unseal` -/
def textUnseal (s : Memory) : Memory :=
  if s.textActive ∧ s.yytext.isSome then
    { s.storeText s.yyleng s.textSave with textActive := false }
  else s

/-- `yy_unput` -/
def unput (c : Byte) (s : Memory) : Memory :=
  let s := s.textUnseal
  s.onBuffer s.current (Space.unput c)

/-- `yy_input`, with the byte it returns. -/
def input (s : Memory) : Byte × Memory :=
  let s := s.textUnseal
  match s.current with
  | none => (0, s)
  | some b =>
      let s := if (s.buf b).bufEnd ≤ (s.buf b).pos then s.refill else s
      if (s.buf b).bufEnd ≤ (s.buf b).pos then (0, s)
      else ((s.buf b).data.getD (s.buf b).pos 0,
        s.modifyBuf b fun x ↦ { x with pos := x.pos + 1 })

/-- `yytext` with its length, and the byte that is held back for the NUL. -/
def setText (p : Option Pointer) (n : Int) (save : Byte) (active : Bool) (s : Memory) : Memory :=
  { s with yytext := p, yyleng := n, textSave := save, textActive := active }

/-- `yyless` up to where it shortens the text: the byte held back is written, and the position
goes back. -/
def goBack (n : Nat) (s : Memory) : Memory :=
  (s.storeText s.yyleng s.textSave).onBuffer s.current fun x ↦
    { x with pos := Space.sizeSub x.pos (s.yyleng - n).toNat }

/-- The NUL behind the first `n` bytes of the text. -/
def sealAt (n : Nat) (s : Memory) : Memory :=
  (s.setText s.yytext n (s.loadText n) s.textActive).storeText n 0

/-- `yy_do_yyless`, for at most `yyleng` bytes; it does not look at `yy_text_active`. -/
def less (n : Nat) (s : Memory) : Memory :=
  let s' := (s.goBack n).sealAt n
  s'.onBuffer s.current fun x ↦
    { x with atBol := 0 < n ∧ s'.loadText (n - 1 : Nat) = newline }

/-! ## The loop -/

/-- The entry of `yylex`. -/
def enter (s : Memory) : Memory := { s.openYyin.initDefaultBuffer with phase := .loopTop }

/-- The auto-restart of an exhausted buffer. -/
def autoRestart (b : Nat) (s : Memory) : Memory :=
  if (s.buf b).bufEnd ≤ (s.buf b).pos ∧ (s.buf b).inputFile.isSome ∧ s.yyin.isSome then
    s.restart s.yyin
  else s

/-- The end of the buffer. -/
def atEnd (eofRule : Nat → Bool) (b : Nat) (s : Memory) : Memory :=
  { s.setText (some ⟨b, (s.buf b).moves, (s.buf b).pos⟩) 0 0 true with
    phase := if eofRule s.start then .eofAction else .outside }

/-- The prefix that `yymore` keeps. -/
def moreLen (s : Memory) : Int := if 0 < s.moreOffset then s.moreOffset else 0

/-- From a selection to the action: `yytext` is set and sealed, and the position moves on. -/
def take (b : Nat) (m : Match) (s : Memory) : Memory :=
  let x := s.buf b
  let len := m.len + s.moreLen
  let p : Pointer := ⟨b, x.moves, x.pos - s.moreLen⟩
  let s₁ := (s.setText (some p) (int32 len) (x.load (p.index + len)) true).storeText len 0
  let s₂ := s₁.modifyBuf b fun y ↦
    { y with pos := x.pos + m.len, atBol := 0 < len ∧ s₁.loadText (len - 1) = newline }
  { s₂ with moreFlag := false, phase := .action }

/-- The default rule. -/
def byDefault (b : Nat) (s : Memory) : Memory :=
  s.modifyBuf b fun x ↦
    { x with pos := x.pos + 1, atBol := x.data.getD x.pos 0 = newline }

/-- What the loop finds in the buffer. -/
def ahead (t : Tables) (b : Nat) (s : Memory) : Option Match :=
  bodyMatch t ((s.buf b).data.take (s.buf b).bufEnd) (s.buf b).pos s.start (s.buf b).atBol

/-- What the loop does with the current buffer. -/
def scan (t : Tables) (nodefault : Bool) (eofRule : Nat → Bool) (b : Nat) (s : Memory) : Memory :=
  if (s.buf b).bufEnd ≤ (s.buf b).pos then s.atEnd eofRule b
  else
    match s.ahead t b with
    | some m => s.take b m
    | none => if nodefault then { s with phase := .exited } else s.byDefault b

/-- The loop up to where it looks at the buffer. -/
def top (b : Nat) (s : Memory) : Memory := s.textUnseal.autoRestart b

/-- The loop from its top; `none` if there is no current buffer. -/
def loopBody (t : Tables) (nodefault : Bool) (eofRule : Nat → Bool) (s : Memory) : Option Memory :=
  s.current.map fun b ↦ (s.top b).scan t nodefault eofRule b

/-- The end of an action. -/
def leave (returns : Bool) (s : Memory) : Option Memory :=
  match s.phase with
  | .action =>
      if returns then some { s with phase := .outside }
      else some { s with moreOffset := if s.moreFlag then s.yyleng else 0, phase := .loopTop }
  | .eofAction => some { s with phase := .outside }
  | _ => none

/-- The loop of `yylex_destroy`. -/
def drain : Nat → Memory → Memory
  | 0, s => s
  | n + 1, s => if s.current.isSome then drain n s.popBufferState else s

/-- `yylex_destroy` -/
def destroy (s : Memory) : Memory :=
  { s.drain (s.bufferStackTop + 1) with bufferStack := none }

/-! ## The calls -/

inductive Call where
  | yylex
  | iterate
  | leave (returns : Bool)
  | begin (c : Nat)
  | more
  | less (n : Nat)
  | input
  | unput (c : Byte)
  | createBuffer (file : Option Nat) (size : Int)
  | deleteBuffer (b : Option Nat)
  | flushBuffer (b : Option Nat)
  | switchToBuffer (b : Option Nat)
  | pushBufferState (b : Option Nat)
  | popBufferState
  | scanBytes (bytes : List Byte)
  | scanBuffer (base : List Byte)
  | restart (file : Option Nat)
  | destroy
deriving DecidableEq, Repr

/-- What actions and the rest of the program call. -/
def callee (s : Memory) : Call → Memory
  | .begin c => { s with start := c }
  | .more => { s with moreFlag := true }
  | .less n => s.less n
  | .input => s.input.2
  | .unput c => s.unput c
  | .createBuffer file size => (s.allocate (Space.create file size)).2
  | .deleteBuffer b => s.deleteBuffer b
  | .flushBuffer b => s.flushBuffer b
  | .switchToBuffer b => s.switchToBuffer b
  | .pushBufferState b => s.pushBufferState b
  | .popBufferState => s.popBufferState
  | .scanBytes bytes => s.scanBytes bytes
  | .scanBuffer base => s.scanBuffer base
  | .restart file => s.restart file
  | .destroy => s.destroy
  | _ => s

/-- What `yyless` is called with. -/
def Call.lessLen : Call → Option Nat
  | .less n => some n
  | _ => none

/-- The buffer that is passed. -/
def Call.buffer : Call → Option Nat
  | .deleteBuffer b => b
  | .flushBuffer b => b
  | .switchToBuffer b => b
  | .pushBufferState b => b
  | _ => none

/-- Code of the user runs; a buffer that it passes exists, and `yyless` keeps at most `yyleng`
bytes, in the action of a rule. -/
def CanCall (s : Memory) (c : Call) : Prop :=
  s.phase ≠ .loopTop ∧ s.phase ≠ .exited ∧ c.buffer.all (fun b ↦ b < s.heap.length) = true ∧
    c.lessLen.all (fun n ↦ s.phase = .action ∧ (n : Int) ≤ s.yyleng) = true

instance (s : Memory) (c : Call) : Decidable (s.CanCall c) :=
  inferInstanceAs (Decidable (_ ∧ _ ∧ _ ∧ _))

/-- One call, where the program can make it. -/
def step (t : Tables) (nodefault : Bool) (eofRule : Nat → Bool) (s : Memory) (c : Call) :
    Option Memory :=
  match c with
  | .yylex => if s.phase = .outside then some s.enter else none
  | .iterate => if s.phase = .loopTop then s.loopBody t nodefault eofRule else none
  | .leave returns => s.leave returns
  | c => if s.CanCall c then some (s.callee c) else none

/-- The program at its start. -/
def fresh (files : Nat → List (List Byte)) : Memory := { files := files }

end Memory

end LexCpp
