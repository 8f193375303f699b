import LexCpp.Control.Observe
import LexCpp.Control.Runs
import LexCpp.Runtime.Buffers

/-!
# Calls of the scanner

The program as a sequence of calls: `yylex` and the parts of its loop between which actions
run, and what actions and the rest of the program call.  A part of the loop goes from its
top to an action; the default rule goes back to the top.

An `<<EOF>>` action that neither returns nor terminates falls out of the switch, behind which
stands a `yyterminate` of its own.
-/

namespace LexCpp

namespace Runtime

inductive Call where
  | yylex
  | iterate
  | leave (returns : Bool)
  | begin (c : Nat)
  | more
  | pushState (c : Nat)
  | popState
  | topState
  | createBuffer (file : Option Nat)
  | deleteBuffer (b : Option Nat)
  | flushBuffer (b : Option Nat)
  | switchToBuffer (b : Option Nat)
  | pushBufferState (b : Option Nat)
  | popBufferState
  | scanBytes (bytes : List Byte)
  | scanBuffer (base : List Byte)
  | restart (file : Option Nat)
  | input
  | unput (c : Byte)
  | destroy
deriving DecidableEq, Repr

/-- What can be seen of a call: the action of a rule, with `yytext`, the start condition and
`yylineno`; an echo; a jam; the end of a buffer; `yylex` returning at it; loads and stores of
the stack of start conditions, and whether they are inside its allocation; a store into the
memory of a freed buffer. -/
inductive Obs where
  | token (rule : Nat) (text : List Byte) (start : Nat) (yylineno : Int)
  | echo (b : Byte)
  | jam
  | eof (start : Nat)
  | terminated
  | stored (inside : Bool)
  | loaded (inside : Bool) (start : Nat)
  | fatal
  | read (c : Byte)
  | stale
deriving DecidableEq, Repr

/-- The buffer that is passed. -/
def Call.buffer : Call → Option Nat
  | .deleteBuffer b => b
  | .flushBuffer b => b
  | .switchToBuffer b => b
  | .pushBufferState b => b
  | _ => none

/-- What is seen of `yy_text_unseal`. -/
def unsealed (s : Runtime) : List Obs :=
  match s.yytext with
  | none => []
  | some (b, _) => if s.textActive ∧ (s.buf b).frees ≠ 0 then [.stale] else []

/-! ## The loop -/

/-- The entry of `yylex`. -/
def enter (s : Runtime) : Runtime :=
  let s := { s with yyin := some (s.yyin.getD stdin) }
  { s.initDefaultBuffer with phase := .loopTop }

/-- The auto-restart of an exhausted buffer. -/
def autoRestart (b : Nat) (s : Runtime) : Runtime :=
  if (s.buf b).bufEnd ≤ (s.buf b).pos ∧ (s.buf b).inputFile.isSome ∧ s.yyin.isSome then
    s.restart s.yyin
  else s

/-- The scanner on a buffer. -/
def lexer (s : Runtime) (b : Nat) : Lexer :=
  { data := (s.buf b).data
    bufEnd := (s.buf b).bufEnd
    bufPos := (s.buf b).pos
    atBol := (s.buf b).atBol
    start := s.start
    leng := s.yyleng
    textSave := s.textSave
    textActive := s.textActive
    moreFlag := s.moreFlag
    moreOffset := s.moreOffset }

/-- The end of the buffer. -/
def atEnd (eofRule : Nat → Bool) (b : Nat) (s : Runtime) : Runtime × List Obs :=
  ({ s with
      yytext := some (b, (s.buf b).pos), yyleng := 0, textSave := 0, textActive := true
      phase := if eofRule s.start then .eofAction else .outside },
    if eofRule s.start then [.eof s.start] else [.eof s.start, .terminated])

/-- From a selection to the action. -/
def take (b : Nat) (m : Match) (s : Runtime) : Runtime × List Obs :=
  let lx := (s.lexer b).accept m
  let lineno := s.yylineno + newlines (((lx.data.drop lx.text).take ((s.lexer b).textLen m)))
  ({ s.modifyBuf b fun x ↦ { x with data := lx.data, pos := lx.bufPos, atBol := lx.atBol } with
      yytext := some (b, lx.text), yyleng := lx.leng, textSave := lx.textSave, textActive := true
      moreFlag := false, yylineno := lineno, phase := .action },
    [.token m.rule lx.yytext s.start lineno])

/-- The default rule. -/
def byDefault (b : Nat) (s : Runtime) : Runtime × List Obs :=
  let c := (s.buf b).data.getD (s.buf b).pos 0
  ({ s.modifyBuf b fun x ↦ { x with pos := x.pos + 1, atBol := c = newline } with
      yylineno := if c = newline then s.yylineno + 1 else s.yylineno },
    [.echo c])

/-- What the loop does with the current buffer. -/
def scan (t : Tables) (nodefault : Bool) (eofRule : Nat → Bool) (b : Nat) (s : Runtime) :
    Runtime × List Obs :=
  if (s.buf b).bufEnd ≤ (s.buf b).pos then s.atEnd eofRule b
  else
    match bodyMatch t (s.lexer b).buf (s.buf b).pos s.start (s.buf b).atBol with
    | some m => s.take b m
    | none => if nodefault then ({ s with phase := .exited }, [.jam]) else s.byDefault b

/-- The loop from its top; `none` if there is no current buffer, which the loop reads
through a null pointer. -/
def loopBody (t : Tables) (nodefault : Bool) (eofRule : Nat → Bool) (s : Runtime) :
    Option (Runtime × List Obs) :=
  s.textUnseal.current.map fun b ↦
    let r := (s.textUnseal.autoRestart b).scan t nodefault eofRule b
    (r.1, s.unsealed ++ r.2)

/-- The end of an action. -/
def leave (returns : Bool) (s : Runtime) : Option (Runtime × List Obs) :=
  match s.phase with
  | .action =>
      if returns then some ({ s with phase := .outside }, [])
      else some ({ s with
        moreOffset := if s.moreFlag then s.yyleng else 0, phase := .loopTop }, [])
  | .eofAction =>
      if returns then some ({ s with phase := .outside }, [])
      else some ({ s with phase := .outside }, [.terminated])
  | _ => none

/-! ## The calls -/

/-- What actions and the rest of the program call. -/
def callee (s : Runtime) : Call → Runtime × List Obs
  | .begin c => ({ s with start := c }, [])
  | .more => ({ s with moreFlag := true }, [])
  | .pushState c => ((s.pushState c).2, [.stored (s.pushState c).1])
  | .popState => (s.popState.2, [.loaded s.popState.1 s.popState.2.start])
  | .topState =>
      match s.topState with
      | none => ({ s with phase := .exited }, [.fatal])
      | some (inside, c) => (s, [.loaded inside c])
  | .createBuffer file => ((s.createBuffer (fileBuffer file)).2, [])
  | .deleteBuffer b => (s.deleteBuffer b, [])
  | .flushBuffer b => (s.flushBuffer b, [])
  | .switchToBuffer b => (s.switchToBuffer b, [])
  | .pushBufferState b => (s.pushBufferState b, [])
  | .popBufferState => (s.popBufferState, [])
  | .scanBytes bytes => (s.scanBytes bytes, [])
  | .scanBuffer base => (s.scanBuffer base, [])
  | .restart file => (s.restart file, [])
  | .input => (s.input.2, s.unsealed ++ [.read s.input.1])
  | .unput c => (s.unput c, s.unsealed)
  | .destroy => (s.destroy, [])
  | _ => (s, [])

theorem callee_topState (s : Runtime) : s.callee .topState =
    match s.topState with
    | none => ({ s with phase := .exited }, [.fatal])
    | some (inside, c) => (s, [.loaded inside c]) := rfl

/-- Code of the user runs, and a buffer that it passes exists. -/
def CanCall (s : Runtime) (c : Call) : Prop :=
  s.phase ≠ .loopTop ∧ s.phase ≠ .exited ∧ c.buffer.all (fun b ↦ b < s.heap.length) = true

instance (s : Runtime) (c : Call) : Decidable (s.CanCall c) :=
  inferInstanceAs (Decidable (_ ∧ _ ∧ _))

/-- One call, where the program can make it, with what is seen of it. -/
def step (t : Tables) (nodefault : Bool) (eofRule : Nat → Bool) (s : Runtime) (c : Call) :
    Option (Runtime × List Obs) :=
  match c with
  | .yylex => if s.phase = .outside then some (s.enter, []) else none
  | .iterate => if s.phase = .loopTop then s.loopBody t nodefault eofRule else none
  | .leave returns => s.leave returns
  | c => if s.CanCall c then some (s.callee c) else none

/-- A sequence of calls, with all that is seen of them. -/
def run (t : Tables) (nodefault : Bool) (eofRule : Nat → Bool) :
    List Call → Runtime → Option (Runtime × List Obs) :=
  Observed.run (step t nodefault eofRule)

/-- The state that a call leads to. -/
def next (t : Tables) (nodefault : Bool) (eofRule : Nat → Bool) (s : Runtime) (c : Call) :
    Option Runtime :=
  (s.step t nodefault eofRule c).map Prod.fst

/-- The program at its start. -/
def fresh (files : Nat → List (List Byte)) : Runtime := { files := files }

end Runtime

end LexCpp
