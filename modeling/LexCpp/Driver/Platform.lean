import LexCpp.Control.Exits
import LexCpp.Scanner.TableFile
import LexCpp.Source.Actions

/-!
# The generator and its surroundings

The files, the standard streams and the diagnostics that `core_main` works on, and the functions of
`platform.hpp` and `diag.cpp` that it reaches them by.  Everything is read before the first output but
for what `-b` writes, so a file only has to remember bytes.
-/

namespace LexCpp

/-! ## What is written -/

abbrev Path := List Byte

/-- What `emit_c` and `emit_h` are given.  `usesReject` is an option of the file that `main` sets. -/
structure CodegenInput where
  file : LexFile
  usesReject : Bool := false
  nfa : NFA
  dfa : DFA
  outputPath : Path
  emitLineDirectives : Bool := true
  compress : CompressMode := .compress
  emitTablesLoader : Bool := false
  runtimeOverride : List Byte := []

/-- Bytes, or what `emit_c` or `emit_h` makes of its input. -/
inductive Content where
  | bytes (text : List Byte)
  | scanner (cg : CodegenInput)
  | header (cg : CodegenInput)

/-- A file is opened for writing, and so emptied; it is written; the standard output is written. -/
inductive Act where
  | opened (path : Path)
  | wrote (path : Path) (content : Content)
  | printed (content : Content)

/-- The surroundings.  `files` has what `slurp` reads from a file that can be opened. -/
structure World where
  stdin : List Byte := []
  files : Path → Option (List Byte) := fun _ ↦ none
  canOpen : Path → Bool := fun _ ↦ true
  canWrite : Path → Bool := fun _ ↦ true
  stdoutOk : Bool := true
  acts : List Act := []
  diags : List Diag := []

/-- A part of `core_main`, which may return from it or end the program with an exit code. -/
abbrev Driver := Code Nat World

namespace Driver

/-- `Diagnostics::error`. -/
def error (loc : SourceLoc) (msg : String) : Driver Unit :=
  Code.modify fun w ↦ { w with diags := w.diags ++ [⟨.error, loc, msg⟩] }

/-- What a parser has reported. -/
def reportAll (ds : List Diag) : Driver Unit := Code.modify fun w ↦ { w with diags := w.diags ++ ds }

/-- `Diagnostics::ok`. -/
def diagOk : Driver Bool := fun w ↦ some (.inr (Diag.ok w.diags), w)

/-- `open_read` and `slurp`. -/
def readFile (path : Path) : Driver (Option (List Byte)) := fun w ↦ some (.inr (w.files path), w)

/-- `slurp` of the standard input, of which nothing is left. -/
def readStdin : Driver (List Byte) := fun w ↦ some (.inr w.stdin, { w with stdin := [] })

/-- `open_write`. -/
def openWrite (path : Path) : Driver Bool := fun w ↦
  some (.inr (w.canOpen path),
    if w.canOpen path then
      { w with files := Function.update w.files path (some []), acts := w.acts ++ [.opened path] }
    else w)

/-- `write_all` of bytes. -/
def writeBytes (path : Path) (text : List Byte) : Driver Bool := fun w ↦
  some (.inr (w.canWrite path),
    if w.canWrite path then
      { w with
        files := Function.update w.files path (some text)
        acts := w.acts ++ [.wrote path (.bytes text)] }
    else w)

/-- `write_all` of something that is not read again. -/
def writeAll (path : Path) (content : Content) : Driver Bool := fun w ↦
  some (.inr (w.canWrite path),
    if w.canWrite path then { w with acts := w.acts ++ [.wrote path content] } else w)

/-- `write_all` to the standard output. -/
def print (content : Content) : Driver Bool := fun w ↦
  some (.inr w.stdoutOk, if w.stdoutOk then { w with acts := w.acts ++ [.printed content] } else w)

/-- `write_string_to_path`. -/
def writeStringToPath (path : Path) (content : Content) : Driver Bool := do
  if ← openWrite path then
    if ← writeAll path content then return true
    else
      error {} ("write failed: " ++ text path)
      return false
  else
    error {} ("cannot open " ++ text path ++ " for writing")
    return false

/-- `write_tables_file`. -/
def writeTablesFile (path : Path) (bytes : List Byte) : Driver Bool := do
  if ← openWrite path then writeAll path (.bytes bytes) else return false

end Driver

end LexCpp
