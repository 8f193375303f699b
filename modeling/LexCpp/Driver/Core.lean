import LexCpp.Driver.Args
import LexCpp.Driver.Automaton
import LexCpp.Driver.Text

/-!
# The generator

`core_main`, from the command line to what is written, in the order of the source.  How it
ends is in `Driver.Outcome`.
-/

namespace LexCpp

namespace Driver

/-! ## Reading -/

def readChunk (path : Path) : Driver (List Byte) := do
  if path = ascii "-" then readStdin
  else
    match ← readFile path with
    | some chunk => return chunk
    | none => do
        error {} ("cannot open " ++ text path)
        Code.exit 1

def readChunks : List Path → Driver (List (List Byte))
  | [] => return []
  | path :: paths => do
      let chunk ← readChunk path
      return chunk :: (← readChunks paths)

/-- The label of the source and the source. -/
def readInputs (args : Args) : Driver (Path × List Byte) := do
  if args.inputPaths = [] ∨ args.inputPaths = [ascii "-"] then
    return (ascii "<stdin>", ← readStdin)
  else
    return (args.inputPaths.headD [], joinChunks (← readChunks args.inputPaths))

/-! ## The file -/

/-- What the command line says overrides `%option`. -/
def override (args : Args) (f : LexFile) : LexFile :=
  { f with options := { f.options with
      caseInsensitive := f.options.caseInsensitive || args.caseInsensitive
      yylineno := f.options.yylineno || args.yylineno
      nodefault := f.options.nodefault || args.nodefault
      debug := f.options.debug || args.debug
      pfx := if args.prefixSet then args.pfx else f.options.pfx } }

/-- Some action has the word `REJECT`. -/
def usesReject (f : LexFile) : Bool := f.rules.any fun r ↦ containsWord r.action (ascii "REJECT")

def condIds (f : LexFile) (loc : SourceLoc) : List (List Byte) → Driver (List Nat)
  | [] => return []
  | cn :: conds => do
      match f.condId cn with
      | some c => return c :: (← condIds f loc conds)
      | none => do
          error loc ("unknown start condition: " ++ text cn)
          Code.exit 1

/-- The loop of `core_main` over the rules, from rule `i` on. -/
def addRules (fuel : Nat) (f : LexFile) : List Rule → Nat → Nat → NFA → Driver NFA
  | [], _, _, nfa => return nfa
  | r :: rs, i, nfaRuleId, nfa => do
      let sites : RuleSites := { conds := ← condIds f r.loc r.conds, anyState := r.anyState }
      if r.eof then addRules fuel f rs (i + 1) nfaRuleId (nfa.addEofRule i sites)
      else
        let env : ParseEnv := { macros := f.resolver, ci := f.options.caseInsensitive, loc := r.loc }
        let (pp, diags) ← Code.lift (parsePattern fuel env r.pattern)
        reportAll diags
        match pp.tree with
        | some tree =>
            addRules fuel f rs (i + 1) (nfaRuleId + 1) (nfa.addRuleToNfa tree nfaRuleId sites pp.trailLen)
        | none => do
            error r.loc ("failed to parse pattern: " ++ text r.pattern)
            Code.exit 1

/-- `REJECT` is refused where a rule has trailing context of varying length.  The place is that of the
rule of the file with the number of the pattern rule. -/
def checkReject (f : LexFile) (nfa : NFA) : Driver Unit := do
  if usesReject f then
    match nfa.ruleTrail.findIdx? (· < 0) with
    | none => return ()
    | some i => do
        error ((f.rules[i]?.map Rule.loc).getD {})
          ("REJECT cannot be combined with variable-length " ++ "trailing context")
        Code.exit 1

def readSkeleton (args : Args) : Driver (List Byte) := do
  if args.skeletonPath = [] then return []
  else
    match ← readFile args.skeletonPath with
    | some buf => return buf
    | none => do
        error {} ("cannot open skeleton: " ++ text args.skeletonPath)
        Code.exit 1

/-- From the text of a file to the input of `emit_c`. -/
def compileSource (fuel : Nat) (args : Args) (label : Path) (source : List Byte) : Driver CodegenInput := do
  let (file, diags) ← Code.lift (parseLexFile (text label) source)
  reportAll diags
  match file with
  | none => Code.exit 1
  | some f =>
      let f := override args f
      let nfa ← addRules fuel f f.rules 0 0 (NFA.initNfa f.condNameStrings f.condExcl)
      if !(← diagOk) then Code.exit 1
      else
        checkReject f nfa
        let dfa ← Code.lift (buildDfa nfa (args.compress != .full) (args.compress == .compress))
        let skeleton ← readSkeleton args
        return {
          file := f
          usesReject := usesReject f
          nfa, dfa
          outputPath := if args.toStdout then ascii "<stdout>" else args.outputPath
          emitLineDirectives := !args.noline
          compress := args.compress
          emitTablesLoader := args.tablesPath ≠ []
          runtimeOverride := skeleton }

/-! ## Writing -/

/-- The name of the header by default: that of the scanner up to its last dot. -/
def defaultHeader (outputPath : Path) : Path :=
  let hpath := if outputPath = [] then ascii "lex.yy.h" else outputPath
  match hpath.reverse.dropWhile (· ≠ chr '.') with
  | [] => hpath ++ ascii ".h"
  | _ :: stem => stem.reverse ++ ascii ".h"

def writeScanner (args : Args) (cg : CodegenInput) : Driver Unit := do
  if args.toStdout then
    if !(← print (.scanner cg)) then
      error {} "write to stdout failed"
      Code.exit 1
  else if !(← writeStringToPath args.outputPath (.scanner cg)) then Code.exit 1

/-- The tables file of a scanner. -/
def tablesFile (std : StdSort Nat) (cg : CodegenInput) : List Byte :=
  serialiseTables std cg.nfa cg.dfa (cg.compress == .compress) (ascii "yy")

def writeTables (std : StdSort Nat) (args : Args) (cg : CodegenInput) : Driver Unit := do
  if args.tablesPath ≠ [] then
    if !(← writeTablesFile args.tablesPath (tablesFile std cg)) then
      error {} ("cannot write tables file: " ++ text args.tablesPath)
      Code.exit 1

def writeHeader (args : Args) (cg : CodegenInput) : Driver Unit := do
  if args.headerPath ≠ [] then
    let hpath := if args.headerPath = ascii "_default_" then defaultHeader args.outputPath else args.headerPath
    if !(← writeStringToPath hpath (.header cg)) then Code.exit 1

/-- The body of `core_main`. -/
def main (fuel : Nat) (std : StdSort Nat) (argv : List (List Byte)) : Driver Nat := do
  let args ← parseArgs argv
  let (label, source) ← readInputs args
  let cg ← compileSource fuel args label (normaliseSource source)
  writeScanner args cg
  writeTables std args cg
  writeHeader args cg
  return if ← diagOk then 0 else 1

end Driver

/-- `core_main`: the exit code, and the surroundings afterwards. -/
def coreMain (fuel : Nat) (std : StdSort Nat) (argv : List (List Byte)) (w : World) : Option (Nat × World) :=
  (Driver.main fuel std argv w).map fun p ↦ (p.1.elim id id, p.2)

end LexCpp
