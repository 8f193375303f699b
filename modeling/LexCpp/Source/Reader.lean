import LexCpp.Regex.Parser

/-!
# Reading a .l file

The struct `Parser` of `source.cpp`.  As in the regex parser, `pos` is the text still to be
read.  A lookahead that comes to nothing goes back to what it saved: the text with the line and
the column, or, in two places, the text alone.

The loops run on the bytes that are left, of which every turn takes at least one.
-/

namespace LexCpp

/-! ## A .l file -/

structure StartCond where
  name : List Byte
  exclusive : Bool := false
deriving DecidableEq, Repr

/-- One rule: its start conditions, its pattern as it is written, and its action. -/
structure Rule where
  loc : SourceLoc := {}
  conds : List (List Byte) := []
  anyState : Bool := false
  pattern : List Byte := []
  action : List Byte := []
  eof : Bool := false
deriving DecidableEq, Repr

/-- A string of the source. -/
def ascii (s : String) : List Byte := s.toList.map chr

structure Options where
  noyywrap : Bool := false
  yylineno : Bool := false
  caseInsensitive : Bool := false
  nodefault : Bool := false
  debug : Bool := false
  reentrant : Bool := false
  bisonBridge : Bool := false
  bisonLocations : Bool := false
  array : Bool := false
  noyyalloc : Bool := false
  noyyrealloc : Bool := false
  noyyfree : Bool := false
  pfx : List Byte := ascii "yy"
  extraType : List Byte := []
deriving DecidableEq, Repr

structure LexFile where
  origin : SourceLoc := {}
  defs : List (List Byte × List Byte) := []
  conds : List StartCond := []
  rules : List Rule := []
  sectionTop : List Byte := []
  sectionTopLoc : SourceLoc := {}
  section1Verbatim : List Byte := []
  section1Loc : SourceLoc := {}
  section2Prologue : List Byte := []
  section2Loc : SourceLoc := {}
  section3 : List Byte := []
  section3Loc : SourceLoc := {}
  options : Options := {}
deriving DecidableEq, Repr

/-! ## The reader -/

/-- A `<sc1,sc2,...>{ ... }` block that is open in section 2. -/
structure ScBlock where
  conds : List (List Byte) := []
  anyState : Bool := false
deriving DecidableEq, Repr

structure ReaderState where
  rest : List Byte
  line : Nat := 1
  col : Nat := 1
  out : LexFile := {}
  /-- The innermost block comes first. -/
  scBlocks : List ScBlock := []
  diags : List Diag := []
deriving DecidableEq, Repr

/-- A method of the reader; `none` is out of fuel. -/
abbrev Reader := StateT ReaderState Option

namespace Reader

def outOfFuel {α : Type} : Reader α := fun _ ↦ none

def atEnd : Reader Bool := do return (← get).rest.isEmpty

/-- `peek`: a NUL stands for the end too. -/
def peekAt (k : Nat) : Reader Byte := do return (← get).rest.getD k 0

def peek : Reader Byte := peekAt 0

/-- The state with one byte taken; line and column are counted in 32 bits. -/
def taken (s : ReaderState) : ReaderState :=
  match s.rest with
  | [] => s
  | c :: rest =>
      if c = newline then { s with rest, line := (s.line + 1) % 4294967296, col := 1 }
      else { s with rest, col := (s.col + 1) % 4294967296 }

/-- `get`, for its effect. -/
def skip : Reader Unit := modify taken

/-- `get`. -/
def getByte : Reader Byte := do
  let c ← peek
  skip
  return c

def loc (file : String) : Reader SourceLoc := do
  let s ← get
  return { file, line := s.line, col := s.col }

/-- How many bytes are left. -/
def remaining : Reader Nat := do return (← get).rest.length

/-- Back to the text, the line and the column of an earlier state. -/
def restore (old : ReaderState) : Reader Unit :=
  modify fun s ↦ { s with rest := old.rest, line := old.line, col := old.col }

/-- Back to the text of an earlier state. -/
def restorePos (old : ReaderState) : Reader Unit := modify fun s ↦ { s with rest := old.rest }

def modifyOut (f : LexFile → LexFile) : Reader Unit := modify fun s ↦ { s with out := f s.out }

def report (d : Diag) : Reader Unit := modify fun s ↦ { s with diags := s.diags ++ [d] }

/-- The bytes up to the first that does not qualify, at most `n`. -/
def getWhile (p : Byte → Bool) : Nat → Reader (List Byte)
  | 0 => return []
  | n + 1 => do
      if (← atEnd) || !p (← peek) then return []
      let b ← getByte
      return b :: (← getWhile p n)

/-- Take all the bytes up to the first that does not qualify. -/
def takeWhile (p : Byte → Bool) : Reader (List Byte) := do getWhile p (← remaining)

def isBlank (b : Byte) : Bool := b = chr ' ' || b = chr '\t'

/-- `std::isspace`. -/
def isSpace (b : Byte) : Bool := b = chr ' ' || (9 ≤ b && b ≤ 13)

def notNewline (b : Byte) : Bool := b != newline

def skipBlanks : Reader Unit := do let _ ← takeWhile isBlank

/-- Take the newline if it comes next. -/
def skipNewline : Reader Unit := do
  if (← peek) = newline then skip

/-- The rest of the line, with its newline taken but left out. -/
def restOfLine : Reader (List Byte) := do
  let line ← takeWhile notNewline
  skipNewline
  return line

/-- `read_line_keep_nl`. -/
def readLineKeepNl : Reader (List Byte) := do
  let line ← takeWhile notNewline
  if (← peek) = newline then
    skip
    return line ++ [newline]
  else return line

/-- A comment from after its `/*` on. -/
def commentLoop : Nat → Reader Unit
  | 0 => outOfFuel
  | n + 1 => do
      if ← atEnd then return
      else if (← peek) = chr '*' ∧ (← peekAt 1) = chr '/' then
        skip
        skip
      else
        skip
        commentLoop n

def skipComment : Reader Unit := do
  skip
  skip
  commentLoop ((← remaining) + 1)

/-- The lines of a `%{` block up to its `%}`. -/
def verbatimLoop : Nat → Reader (List Byte)
  | 0 => outOfFuel
  | n + 1 => do
      if ← atEnd then return []
      else if (← peek) = chr '%' ∧ (← peekAt 1) = chr '\x7d' then
        skip
        skip
        let _ ← restOfLine
        return []
      else
        let line ← readLineKeepNl
        return line ++ (← verbatimLoop n)

/-- A `%{ ... %}` block. -/
def verbatimBlock : Reader (List Byte) := do
  skip
  skip
  let _ ← restOfLine
  verbatimLoop ((← remaining) + 1)

/-! ## Rules -/

/-- The loop of `read_pattern`, with the bytes it takes. -/
def patternLoop : Nat → Nat → Bool → Bool → Reader (List Byte)
  | 0, _, _, _ => outOfFuel
  | n + 1, paren, inClass, inQuoted => do
      if ← atEnd then return []
      let c ← peek
      if !inClass && !inQuoted && paren == 0 && (isBlank c || c = newline) then return []
      if c = chr '\\' ∧ 1 < (← remaining) then
        skip
        let e ← getByte
        return c :: e :: (← patternLoop n paren inClass inQuoted)
      skip
      let p ←
        if inQuoted then patternLoop n paren inClass (c != chr '"')
        else if inClass then patternLoop n paren (c != chr ']') inQuoted
        else if c = chr '"' then patternLoop n paren inClass true
        else if c = chr '[' then patternLoop n paren true inQuoted
        else if c = chr '(' then patternLoop n (paren + 1) inClass inQuoted
        else if c = chr ')' then patternLoop n (paren - 1) inClass inQuoted
        else patternLoop n paren inClass inQuoted
      return c :: p

def readPattern : Reader (List Byte) := do patternLoop ((← remaining) + 1) 0 false false

/-- Where `read_brace_block` is in the C text. -/
inductive CMode where
  | code
  | str
  | chr
  | lineCmt
  | blockCmt
deriving DecidableEq, Repr

/-- The loop of `read_brace_block`, with the bytes it takes. -/
def braceLoop : Nat → Nat → CMode → Reader (List Byte)
  | 0, _, _ => outOfFuel
  | n + 1, depth, mode => do
      if (← atEnd) || depth == 0 then return []
      let c ← peek
      let two (m : CMode) : Reader (List Byte) := do
        skip
        let e ← getByte
        return c :: e :: (← braceLoop n depth m)
      let one (depth : Nat) (m : CMode) : Reader (List Byte) := do
        skip
        return c :: (← braceLoop n depth m)
      match mode with
      | .lineCmt => one depth (if c = newline then .code else .lineCmt)
      | .blockCmt =>
          if c = LexCpp.chr '*' ∧ (← peekAt 1) = LexCpp.chr '/' then two .code
          else one depth .blockCmt
      | .str =>
          if c = LexCpp.chr '\\' ∧ 1 < (← remaining) then two .str
          else one depth (if c = LexCpp.chr '"' then .code else .str)
      | .chr =>
          if c = LexCpp.chr '\\' ∧ 1 < (← remaining) then two .chr
          else one depth (if c = LexCpp.chr '\'' then .code else .chr)
      | .code =>
          if c = LexCpp.chr '/' ∧ (← peekAt 1) = LexCpp.chr '/' then two .lineCmt
          else if c = LexCpp.chr '/' ∧ (← peekAt 1) = LexCpp.chr '*' then two .blockCmt
          else if c = LexCpp.chr '"' then one depth .str
          else if c = LexCpp.chr '\'' then one depth .chr
          else if c = LexCpp.chr '\x7b' then one (depth + 1) .code
          else if c = LexCpp.chr '\x7d' then one (depth - 1) .code
          else one depth .code

def readBraceBlock : Reader (List Byte) := do
  let c ← getByte
  let a ← braceLoop ((← remaining) + 1) 1 .code
  skipNewline
  return c :: a

/-- `read_action`: `|` alone, a brace block, or the rest of the line. -/
def readAction : Reader (List Byte) := do
  if (← peek) = newline then
    skip
    return []
  let start ← get
  let alone ←
    if (← peek) = chr '|' then do
      skip
      skipBlanks
      pure ((← peek) = newline || (← atEnd))
    else pure false
  if alone then
    skipNewline
    return ascii "|"
  restorePos start
  if (← peek) = chr '\x7b' then readBraceBlock else restOfLine

/-- The list of start conditions after a `<`, up to and with its `>`. -/
def condLoop : Nat → List (List Byte) → List Byte → Reader (List (List Byte))
  | 0, _, _ => outOfFuel
  | n + 1, conds, cur => do
      if (← atEnd) || (← peek) = chr '>' || (← peek) = newline then
        if (← peek) = chr '>' then skip
        return if cur = [] then conds else conds ++ [cur]
      let ch ← getByte
      if ch = chr ',' then condLoop n (if cur = [] then conds else conds ++ [cur]) []
      else if isSpace ch then condLoop n conds cur
      else condLoop n conds (cur ++ [ch])

/-- A prefix `<SC,SC,...>` or `<*>`. -/
def readConds : Reader ScBlock := do
  skip
  if (← peek) = chr '*' ∧ (← peekAt 1) = chr '>' then
    skip
    skip
    return { anyState := true }
  else return { conds := ← condLoop ((← remaining) + 1) [] [] }

def eofMark : List Byte := ascii "<<EOF>>"

/-- The start conditions of the block that a rule stands in. -/
def innermost : Reader ScBlock := do return (← get).scBlocks.head?.getD {}

/-- `parse_rule`. -/
def parseRule (file : String) : Reader Unit := do
  let start ← loc file
  let hadPrefix := (← peek) = chr '<' ∧ (← peekAt 1) ≠ chr '<'
  let sites ← if hadPrefix then readConds else innermost
  let rule : Rule := { loc := start, conds := sites.conds, anyState := sites.anyState }
  if (← peek) = chr '<' ∧ (← peekAt 1) = chr '<' ∧ (← get).rest.take 7 = eofMark then
    modify (taken^[7])
    skipBlanks
    let action ← readAction
    modifyOut fun out ↦ { out with rules := out.rules ++ [{ rule with eof := true, action }] }
  else
    let pattern ← readPattern
    if pattern = [] then
      report ⟨.error, start, "empty pattern"⟩
      let _ ← restOfLine
    else
      skipBlanks
      let action ← readAction
      modifyOut fun out ↦ { out with rules := out.rules ++ [{ rule with pattern, action }] }

/-! ## Section 2 -/

def modifyBlocks (f : List ScBlock → List ScBlock) : Reader Unit :=
  modify fun s ↦ { s with scBlocks := f s.scBlocks }

/-- Code for the top of the scanner. -/
def addPrologue (start : SourceLoc) (code : List Byte) : Reader Unit :=
  modifyOut fun out ↦ { out with
    section2Prologue := out.section2Prologue ++ code
    section2Loc := if out.section2Prologue = [] then start else out.section2Loc }

/-- A comment on the line of a block opener, which may be cut off by the end of the line. -/
def openerCommentLoop : Nat → Reader Unit
  | 0 => outOfFuel
  | n + 1 => do
      if ← atEnd then return
      else if (← peek) = chr '*' ∧ (← peekAt 1) = chr '/' then
        skip
        skip
      else if (← peek) = newline then return
      else
        skip
        openerCommentLoop n

/-- The end of the line after an optional comment; true if it is there. -/
def openerEnd : Reader Bool := do
  skip
  skipBlanks
  if (← peek) = chr '/' ∧ (← peekAt 1) = chr '*' then
    skip
    skip
    openerCommentLoop ((← remaining) + 1)
    skipBlanks
  return (← atEnd) || (← peek) = newline

/-- A block opener `<sc1,sc2,...>{`; otherwise back to where it started. -/
def tryOpener : Reader Bool := do
  let start ← get
  let blk ← readConds
  let _ ← takeWhile fun b ↦ isBlank b || b = newline
  let opened ← if (← peek) = chr '\x7b' then openerEnd else pure false
  if opened then
    skipNewline
    modifyBlocks fun blocks ↦ blk :: blocks
    return true
  else
    restore start
    return false

/-- The closer of a block; otherwise back to where it started, but for the column. -/
def tryCloser : Reader Bool := do
  let start ← get
  skip
  skipBlanks
  if (← atEnd) || (← peek) = newline then
    skipNewline
    modifyBlocks List.tail
    return true
  else
    restorePos start
    return false

/-- A line of section 2 that starts with `c`: a block closer, a block opener or a rule. -/
def topLevel (file : String) (c : Byte) : Reader Unit := do
  let closed ← if c = chr '\x7d' ∧ (← get).scBlocks ≠ [] then tryCloser else pure false
  if closed then return
  let opened ← if c = chr '<' ∧ (← peekAt 1) ≠ chr '<' then tryOpener else pure false
  if opened then return
  parseRule file

/-- An indented line: blank, a comment, a line of the block it stands in, or C code. -/
def indentedLine (file : String) : Reader Unit := do
  let start ← get
  skipBlanks
  if (← atEnd) || (← peek) = newline then skipNewline
  else if (← peek) = chr '/' ∧ (← peekAt 1) = chr '*' then skipComment
  else if (← peek) = chr '<' ∨ ((← peek) = chr '\x7d' ∧ (← get).scBlocks ≠ []) then
    restore start
    skipBlanks
    topLevel file (← peek)
  else if (← get).scBlocks ≠ [] then parseRule file
  else
    restore start
    let line ← readLineKeepNl
    if (← get).out.rules = [] then addPrologue (← loc file) line

/-- One turn of `parse_section2`; false at the divider. -/
def section2Step (file : String) : Reader Bool := do
  let c ← peek
  if c = newline then
    skip
    return true
  else if c = chr '%' ∧ (← peekAt 1) = chr '%' then
    skip
    skip
    let _ ← restOfLine
    return false
  else if c = chr '%' ∧ (← peekAt 1) = chr '\x7b' then
    let start ← loc file
    addPrologue start (← verbatimBlock)
    return true
  else if c = chr '/' ∧ (← peekAt 1) = chr '*' then
    skipComment
    return true
  else if isBlank c then
    indentedLine file
    return true
  else
    topLevel file c
    return true

def section2Loop (file : String) : Nat → Reader Unit
  | 0 => outOfFuel
  | n + 1 => do
      if ← atEnd then return
      if ← section2Step file then section2Loop file n

def parseSection2 (file : String) : Reader Unit := do section2Loop file ((← remaining) + 1)

/-! ## Section 1 -/

/-- The code of a `%top` block at the given depth of braces. -/
def topLoop : Nat → Nat → Reader (List Byte)
  | 0, _ => outOfFuel
  | n + 1, depth => do
      if ← atEnd then return []
      let c ← getByte
      if c = chr '\x7b' then return c :: (← topLoop n (depth + 1))
      else if c = chr '\x7d' then
        if depth = 1 then return [] else return c :: (← topLoop n (depth - 1))
      else return c :: (← topLoop n depth)

/-- A `%top { ... }` block; otherwise back to where it started. -/
def tryTop (file : String) : Reader Bool := do
  let start ← get
  modify (taken^[4])
  skipBlanks
  if (← peek) = chr '\x7b' then
    let here ← loc file
    skip
    let code ← topLoop ((← remaining) + 1) 1
    modifyOut fun out ↦ { out with
      sectionTop := out.sectionTop ++ code
      sectionTopLoc := if out.sectionTop = [] then here else out.sectionTopLoc }
    let _ ← restOfLine
    return true
  else
    restore start
    return false

/-- The names of `%s` and `%x`. -/
def startConds (exclusive : Bool) : Nat → List Byte → List StartCond
  | 0, _ => []
  | n + 1, text =>
      let text := text.dropWhile isSpace
      let isCond (b : Byte) : Bool := isAlnum b || b = chr '_'
      match text.takeWhile isCond with
      | [] => []
      | name => { name, exclusive } :: startConds exclusive n (text.dropWhile isCond)

/-- `add_start_conds`. -/
def addStartConds (text : List Byte) (exclusive : Bool) : Reader Unit :=
  modifyOut fun out ↦ { out with
    conds := out.conds ++ startConds exclusive (text.length + 1) text }

/-- The options that are accepted silently. -/
def knownIgnoredOptions : List String :=
  ["8bit", "no8bit", "interactive", "nointeractive", "batch", "nobatch", "warn", "nowarn", "ecs",
    "noecs", "meta-ecs", "nometa-ecs", "stack", "nostack", "always-interactive",
    "never-interactive", "fast", "full", "main", "nomain", "yymore", "noyymore", "input", "noinput",
    "unput", "nounput", "yyalloc", "yyfree", "yyrealloc", "yy_scan_buffer", "yy_scan_bytes",
    "yy_scan_string", "outfile", "header-file", "yyclass", "tables-file", "tables-verify",
    "verbose", "noverbose", "perf-report", "noperf-report", "backup", "nobackup", "align",
    "noalign", "read", "noread", "reject", "noreject", "yy_top_state", "noyy_top_state", "stdinit",
    "nostdinit", "yymore_used", "noyymore_used", "yywrap_used", "noyywrap_used"]

/-- A value without its quotes. -/
def unquote (val : List Byte) : List Byte :=
  if 2 ≤ val.length ∧ val.head? = some (chr '"') ∧ val.getLast? = some (chr '"') then
    val.tail.dropLast
  else val

/-- `apply_option`, for the options it knows. -/
def setOption (o : Options) (key val : List Byte) : Option Options :=
  let is (names : List String) : Bool := names.any fun n ↦ key == ascii n
  if is ["noyywrap"] then some { o with noyywrap := true }
  else if is ["yywrap"] then some { o with noyywrap := false }
  else if is ["yylineno"] then some { o with yylineno := true }
  else if is ["noyylineno"] then some { o with yylineno := false }
  else if is ["case-insensitive", "caseless", "i"] then some { o with caseInsensitive := true }
  else if is ["case-sensitive", "nocaseless"] then some { o with caseInsensitive := false }
  else if is ["nodefault", "s"] then some { o with nodefault := true }
  else if is ["default"] then some { o with nodefault := false }
  else if is ["debug", "d"] then some { o with debug := true }
  else if is ["nodebug"] then some { o with debug := false }
  else if is ["prefix"] then some { o with pfx := val }
  else if is ["reentrant"] then some { o with reentrant := true }
  else if is ["noreentrant"] then some { o with reentrant := false }
  else if is ["bison-bridge"] then some { o with bisonBridge := true }
  else if is ["bison-locations"] then some { o with bisonLocations := true }
  else if is ["extra-type"] then some { o with extraType := val }
  else if is ["array"] then some { o with array := true }
  else if is ["pointer"] then some { o with array := false }
  else if is ["noyyalloc"] then some { o with noyyalloc := true }
  else if is ["noyyrealloc"] then some { o with noyyrealloc := true }
  else if is ["noyyfree"] then some { o with noyyfree := true }
  else none

def unsupportedOptions : List String := ["c++", "lex-compat", "posix-compat", "header"]

/-- `apply_option`. -/
def applyOption (file : String) (tok : List Byte) : Reader Unit := do
  let key := tok.takeWhile (· ≠ chr '=')
  let val := unquote (tok.dropWhile (· ≠ chr '=')).tail
  match setOption (← get).out.options key val with
  | some o => modifyOut fun out ↦ { out with options := o }
  | none =>
      if unsupportedOptions.any (key == ascii ·) then
        report ⟨.error, ← loc file, "unsupported %option: " ++ text key⟩
      else if !knownIgnoredOptions.any (key == ascii ·) then
        report ⟨.warning, ← loc file, "ignoring unknown %option: " ++ text key⟩

/-- The bytes of an option up to the next blank outside of quotes. -/
def optionToken (inQuoted escaped : Bool) : List Byte → List Byte × List Byte
  | [] => ([], [])
  | c :: cs =>
      if !inQuoted && isBlank c then ([], c :: cs)
      else
        let next :=
          if escaped then optionToken inQuoted false cs
          else if inQuoted then
            if c = chr '\\' ∧ cs ≠ [] then optionToken true true cs
            else optionToken (c != chr '"') false cs
          else optionToken (c == chr '"') false cs
        (c :: next.1, next.2)

/-- `parse_options`. -/
def parseOptions (file : String) : Nat → List Byte → Reader Unit
  | 0, _ => outOfFuel
  | n + 1, text => do
      let text := text.dropWhile isBlank
      if text = [] then return
      let (tok, text) := optionToken false false text
      applyOption file tok
      parseOptions file n text

def isIdentStart (b : Byte) : Bool := isAlpha b || b = chr '_'

def isIdentCont (b : Byte) : Bool := isAlnum b || b = chr '_' || b = chr '-'

/-- `rstrip`. -/
def rstrip (s : List Byte) : List Byte :=
  s.rdropWhile fun b ↦ b = newline || b = chr '\x0d' || isBlank b

/-- `NAME pattern`. -/
def definition : Reader Unit := do
  let name ← takeWhile isIdentCont
  skipBlanks
  let pat := rstrip (← restOfLine)
  if pat ≠ [] then modifyOut fun out ↦ { out with defs := out.defs ++ [(name, pat)] }

/-- C code at file scope. -/
def addVerbatim (code : List Byte) : Reader Unit :=
  modifyOut fun out ↦ { out with section1Verbatim := out.section1Verbatim ++ code }

/-- A line that starts with `%%`: true if it is the divider. -/
def tryDivider : Reader Bool := do
  let start ← get
  skip
  skip
  skipBlanks
  if (← peek) = newline then
    skip
    return true
  else if ← atEnd then return true
  else
    modify fun s ↦ { s with rest := start.rest, line := 1 }
    addVerbatim (← readLineKeepNl)
    return false

/-- One turn of `parse_section1` on a line without `%%` and `%top`. -/
def section1Line (file : String) (c : Byte) : Reader Unit := do
  if c = chr '%' ∧ (← peekAt 1) = chr '\x7b' then
    let here ← loc file
    modifyOut fun out ↦ { out with
      section1Loc := if out.section1Verbatim = [] then here else out.section1Loc }
    addVerbatim (← verbatimBlock)
  else if (← get).rest.take 7 = ascii "%option" then
    let _ ← takeWhile fun b ↦ !isBlank b && b != newline
    let rest ← restOfLine
    parseOptions file (rest.length + 1) rest
  else if c = chr '%' ∧ ((← peekAt 1) = chr 's' ∨ (← peekAt 1) = chr 'x') ∧
      isBlank (← peekAt 2) then
    let exclusive := (← peekAt 1) = chr 'x'
    skip
    skip
    addStartConds (← restOfLine) exclusive
  else if c = chr '/' ∧ (← peekAt 1) = chr '*' then skipComment
  else if isBlank c then addVerbatim (← readLineKeepNl)
  else if isIdentStart c then definition
  else
    report ⟨.warning, ← loc file, "ignoring unrecognised section-1 line"⟩
    let _ ← restOfLine

/-- One turn of `parse_section1`; false at the divider. -/
def section1Step (file : String) : Reader Bool := do
  let c ← peek
  if c = newline then
    skip
    return true
  else if c = chr '%' ∧ (← peekAt 1) = chr '%' then return !(← tryDivider)
  else
    let top ← if (← get).rest.take 4 = ascii "%top" then tryTop file else pure false
    if !top then section1Line file c
    return true

def section1Loop (file : String) : Nat → Reader Unit
  | 0 => outOfFuel
  | n + 1 => do
      if ← atEnd then return
      if ← section1Step file then section1Loop file n

def parseSection1 (file : String) : Reader Unit := do section1Loop file ((← remaining) + 1)

/-! ## The whole file -/

/-- `parse_section3`. -/
def parseSection3 (file : String) : Reader Unit := do
  let here ← loc file
  let code ← takeWhile fun _ ↦ true
  modifyOut fun out ↦ { out with section3 := code, section3Loc := here }

/-- `parse`. -/
def parse (file : String) : Reader Unit := do
  parseSection1 file
  if !(← atEnd) then parseSection2 file
  if !(← atEnd) then parseSection3 file

end Reader

/-- `parse_lex_file`, with the diagnostics it reports. -/
def parseLexFile (path : String) (contents : List Byte) : Option (Option LexFile × List Diag) :=
  let start : ReaderState := { rest := contents, out := { origin := ⟨path, 1, 1⟩ } }
  (Reader.parse path start).map fun r ↦
    (if Diag.ok r.2.diags then some r.2.out else none, r.2.diags)

end LexCpp
