import LexCpp.Control.Ensures
import LexCpp.Regex.Syntax

/-!
# The regex parser

The class `Parser` of `regex.cpp`.  The position is kept as the text still to be read, so
that `pos_` is what has been taken off the front, and saving it is keeping that text.

Groups and macros are where the parser calls itself.  Everything below `parse_alt` takes
the parser of a whole alternation as an argument, and `parseAlt` closes the knot with fuel
for the depth of that nesting.  The loops run on the bytes that are left, of which every
turn takes at least one.
-/

namespace LexCpp

/-! ## Diagnostics -/

structure SourceLoc where
  file : String := ""
  line : Nat := 0
  col : Nat := 0
deriving DecidableEq, Repr

inductive Level where
  | error
  | warning
deriving DecidableEq, Repr

structure Diag where
  level : Level
  loc : SourceLoc
  msg : String
deriving DecidableEq, Repr

/-- No error has been reported. -/
def Diag.ok (diags : List Diag) : Bool := diags.all (·.level != .error)

/-! ## Characters -/

/-- The byte of an ASCII character. -/
def chr (c : Char) : Byte := Fin.ofNat 256 c.toNat

/-- Bytes in the text of a diagnostic. -/
def text (bs : List Byte) : String := String.ofList (bs.map fun b ↦ Char.ofNat b)

def isDigit (b : Byte) : Bool := chr '0' ≤ b && b ≤ chr '9'

def isOctal (b : Byte) : Bool := chr '0' ≤ b && b ≤ chr '7'

def isUpper (b : Byte) : Bool := chr 'A' ≤ b && b ≤ chr 'Z'

def isLower (b : Byte) : Bool := chr 'a' ≤ b && b ≤ chr 'z'

def isAlpha (b : Byte) : Bool := isUpper b || isLower b

def isAlnum (b : Byte) : Bool := isAlpha b || isDigit b

def isXdigit (b : Byte) : Bool :=
  isDigit b || (chr 'A' ≤ b && b ≤ chr 'F') || (chr 'a' ≤ b && b ≤ chr 'f')

/-- The bytes from `lo` to `hi`. -/
def byteRange (lo hi : Byte) : List Byte := (List.finRange 256).filter fun b ↦ lo ≤ b && b ≤ hi

def charRange (lo hi : Char) : List Byte := byteRange (chr lo) (chr hi)

namespace ByteSet

def addAll (s : ByteSet) (bs : List Byte) : ByteSet := bs.foldl add s

/-- The other bytes. -/
def inverse (s : ByteSet) : ByteSet := addAll {} ((List.finRange 256).filter fun b ↦ !s.test b)

def addByteCi (s : ByteSet) (b : Byte) (ci : Bool) : ByteSet :=
  let s := s.add b
  if ci then
    if isLower b then s.add (b - chr 'a' + chr 'A')
    else if isUpper b then s.add (b - chr 'A' + chr 'a')
    else s
  else s

def addRangeCi (s : ByteSet) (lo hi : Byte) (ci : Bool) : ByteSet :=
  (byteRange (min lo hi) (max lo hi)).foldl (fun s b ↦ s.addByteCi b ci) s

end ByteSet

def litNode (b : Byte) (ci : Bool) : Node := .cls (ByteSet.addByteCi {} b ci)

def anyByteExceptNl : Node :=
  .cls (ByteSet.addAll {} ((List.finRange 256).filter (· ≠ newline)))

/-! ## The parser -/

structure ParseState where
  rest : List Byte
  diags : List Diag := []
deriving DecidableEq, Repr

/-- A method of the parser; `none` is out of fuel. -/
abbrev Parser := StateT ParseState Option

/-- What a parser is constructed with.  `expanding` holds the macros being expanded. -/
structure ParseEnv where
  macros : List Byte → Option (List Byte)
  ci : Bool := false
  loc : SourceLoc := {}
  expanding : List (List Byte) := []

namespace Parser

def outOfFuel {α : Type} : Parser α := fun _ ↦ none

def atEnd : Parser Bool := do return (← get).rest.isEmpty

/-- `peek`: a NUL stands for the end too. -/
def peekAt (k : Nat) : Parser Byte := do return (← get).rest.getD k 0

def peek : Parser Byte := peekAt 0

/-- `advance`, for its effect. -/
def skip : Parser Unit := modify fun s ↦ { s with rest := s.rest.tail }

def advance : Parser Byte := do
  let c ← peek
  skip
  return c

/-- Take the character if it comes next. -/
def accept (c : Char) : Parser Bool := do
  if (← peek) = chr c then
    skip
    return true
  else return false

/-- The text at `pos_`. -/
def save : Parser (List Byte) := do return (← get).rest

def restore (rest : List Byte) : Parser Unit := modify fun s ↦ { s with rest := rest }

def report (d : Diag) : Parser Unit := modify fun s ↦ { s with diags := s.diags ++ [d] }

/-- The bytes up to the first that does not qualify, at most `n`. -/
def readWhile (p : Byte → Bool) : Nat → Parser (List Byte)
  | 0 => return []
  | n + 1 => do
      if (← atEnd) || !p (← peek) then return []
      let b ← advance
      return b :: (← readWhile p n)

/-- How many bytes are left. -/
def remaining : Parser Nat := do return (← get).rest.length

def concat : Option Node → Node → Node
  | none, b => b
  | some a, b => .concat a b

/-! ### Bytes -/

def readOctal : Nat → Nat → Parser Nat
  | 0, v => return v
  | n + 1, v => do
      if !isOctal (← peek) then return v
      let d ← advance
      readOctal n (v * 8 + (d - chr '0').val)

def hexDigit (h : Byte) : Nat :=
  if h ≤ chr '9' then (h - chr '0').val
  else if isLower h then (h - chr 'a').val + 10
  else (h - chr 'A').val + 10

def readHex : Nat → Nat → Parser Nat
  | 0, v => return v
  | n + 1, v => do
      if !isXdigit (← peek) then return v
      let h ← advance
      readHex n (v * 16 + hexDigit h)

/-- The letters that stand for a control character after a backslash. -/
def controlEscapes : List (Char × Nat) :=
  [('n', 10), ('t', 9), ('r', 13), ('f', 12), ('v', 11), ('a', 7), ('b', 8)]

def readEscapeByte : Parser Byte := do
  skip
  let c ← peek
  if c = 0 then return 0
  match controlEscapes.find? fun e ↦ chr e.1 = c with
  | some e =>
      skip
      return Fin.ofNat 256 e.2
  | none =>
      if isOctal c then return Fin.ofNat 256 (← readOctal 3 0)
      else if c = chr 'x' then
        skip
        return Fin.ofNat 256 (← readHex 2 0)
      else
        skip
        return c

def readClassByte : Parser Byte := do
  if (← peek) = chr '\\' then readEscapeByte else advance

/-! ### Atoms -/

/-- The bytes of the POSIX class `[:name:]`. -/
def posixBytes (name : List Byte) (ci : Bool) : Option (List Byte) :=
  let is (cs : List Char) : Bool := name == cs.map chr
  if is ['a', 'l', 'p', 'h', 'a'] then some (charRange 'A' 'Z' ++ charRange 'a' 'z')
  else if is ['u', 'p', 'p', 'e', 'r'] then
    some (charRange 'A' 'Z' ++ if ci then charRange 'a' 'z' else [])
  else if is ['l', 'o', 'w', 'e', 'r'] then
    some (charRange 'a' 'z' ++ if ci then charRange 'A' 'Z' else [])
  else if is ['d', 'i', 'g', 'i', 't'] then some (charRange '0' '9')
  else if is ['x', 'd', 'i', 'g', 'i', 't'] then
    some (charRange '0' '9' ++ charRange 'A' 'F' ++ charRange 'a' 'f')
  else if is ['a', 'l', 'n', 'u', 'm'] then
    some (charRange 'A' 'Z' ++ charRange 'a' 'z' ++ charRange '0' '9')
  else if is ['s', 'p', 'a', 'c', 'e'] then some [0x20, 0x09, 0x0a, 0x0b, 0x0c, 0x0d]
  else if is ['b', 'l', 'a', 'n', 'k'] then some [0x20, 0x09]
  else if is ['c', 'n', 't', 'r', 'l'] then some (byteRange 0x00 0x1f ++ [0x7f])
  else if is ['p', 'r', 'i', 'n', 't'] then some (byteRange 0x20 0x7e)
  else if is ['g', 'r', 'a', 'p', 'h'] then some (byteRange 0x21 0x7e)
  else if is ['p', 'u', 'n', 'c', 't'] then
    some ((byteRange 0x21 0x7e).filter fun b ↦ !isAlnum b)
  else none

/-- The bytes of a POSIX class, if one is read; otherwise nothing is consumed. -/
def tryPosixClass (env : ParseEnv) : Parser (Option (List Byte)) := do
  let start ← save
  skip
  skip
  let name ← readWhile isAlpha 16
  if (← peek) ≠ chr ':' ∨ (← peekAt 1) ≠ chr ']' then
    restore start
    return none
  skip
  skip
  match posixBytes name env.ci with
  | some bs => return some bs
  | none =>
      report ⟨.warning, env.loc,
        "unrecognised POSIX class `[:" ++ text name ++ ":]`; treating as literal characters"⟩
      restore start
      return none

/-- The items of a bracket expression. -/
def classLoop (env : ParseEnv) : Nat → Bool → ByteSet → Parser ByteSet
  | 0, _, _ => outOfFuel
  | n + 1, first, cls => do
      if (← atEnd) || !(first || (← peek) != chr ']') then return cls
      let posix ←
        if (← peek) = chr '[' ∧ (← peekAt 1) = chr ':' then tryPosixClass env else pure none
      match posix with
      | some bs => classLoop env n false (cls.addAll bs)
      | none =>
          let a ← readClassByte
          if (← peek) = chr '-' ∧ (← peekAt 1) ≠ chr ']' ∧ (← peekAt 1) ≠ 0 then
            skip
            let b ← readClassByte
            classLoop env n false (cls.addRangeCi a b env.ci)
          else classLoop env n false (cls.addByteCi a env.ci)

def parseClass (env : ParseEnv) : Parser Node := do
  skip
  let neg ← accept '^'
  let cls ← classLoop env ((← remaining) + 1) true {}
  if (← peek) ≠ chr ']' then
    report ⟨.error, env.loc, "unterminated character class"⟩
    return .cls cls
  skip
  return .cls (if neg then cls.inverse else cls)

def quotedLoop (env : ParseEnv) : Nat → Option Node → Parser (Option Node)
  | 0, _ => outOfFuel
  | n + 1, acc => do
      if (← atEnd) || (← peek) = chr '"' then return acc
      let b ← readClassByte
      quotedLoop env n (some (concat acc (litNode b env.ci)))

def parseQuoted (env : ParseEnv) : Parser Node := do
  skip
  let acc ← quotedLoop env ((← remaining) + 1) none
  if (← peek) ≠ chr '"' then
    report ⟨.error, env.loc, "unterminated quoted string in regex"⟩
    return acc.getD .empty
  skip
  return acc.getD .empty

def parseEscapeAtom (env : ParseEnv) : Parser Node := do
  return litNode (← readEscapeByte) env.ci

def isNameByte (b : Byte) : Bool := isAlnum b || b = chr '_' || b = chr '-'

/-- `parse_macro`; `parseAlt` reads an expansion, of which what it leaves is dropped. -/
def parseMacro (parseAlt : ParseEnv → Parser Node) (env : ParseEnv) : Parser Node := do
  let start ← save
  skip
  let name ← readWhile isNameByte (← remaining)
  if name = [] ∨ (← peek) ≠ chr '}' then
    restore start
    skip
    return litNode (chr '{') env.ci
  skip
  if name ∈ env.expanding then
    report ⟨.error, env.loc, "recursive macro expansion: \x7b" ++ text name ++ "\x7d"⟩
    return .empty
  match env.macros name with
  | none =>
      report ⟨.error, env.loc, "undefined macro: \x7b" ++ text name ++ "\x7d"⟩
      return .empty
  | some exp =>
      let after ← save
      restore exp
      let inner ← parseAlt { env with expanding := name :: env.expanding }
      restore after
      return inner

def parsePrimary (parseAlt : ParseEnv → Parser Node) (env : ParseEnv) : Parser (Option Node) := do
  let c ← peek
  if c = chr '(' then
    skip
    let inner ← parseAlt env
    if (← peek) ≠ chr ')' then
      report ⟨.error, env.loc, "unmatched '(' in regex"⟩
      return none
    skip
    return some inner
  else if c = chr '[' then return some (← parseClass env)
  else if c = chr '"' then return some (← parseQuoted env)
  else if c = chr '{' then return some (← parseMacro parseAlt env)
  else if c = chr '.' then
    skip
    return some anyByteExceptNl
  else if c = chr '\\' then return some (← parseEscapeAtom env)
  else if c = chr ')' ∨ c = chr '|' ∨ c = chr '$' then return none
  else if c = 0 then return none
  else
    skip
    return some (litNode c env.ci)

/-! ### Operators -/

/-- A decimal numeral, in the arithmetic of `std::uint32_t`. -/
def numeral (digits : List Byte) : Nat :=
  digits.foldl (fun v d ↦ (v * 10 + (d - chr '0').val) % 4294967296) 0

/-- The upper bound of a repetition, from the byte after the lower one. -/
def parseUpper (lo : Nat) : Parser Nat := do
  if (← peek) ≠ chr ',' then return lo
  skip
  if isDigit (← peek) then return numeral (← readWhile isDigit (← remaining))
  else return kInf

def parseRepeat (p : Node) : Parser Node := do
  let start ← save
  skip
  let digits ← readWhile isDigit (← remaining)
  if digits = [] then
    restore start
    return p
  let lo := numeral digits
  let hi ← parseUpper lo
  if (← peek) ≠ chr '}' then
    restore start
    return p
  skip
  return .rep lo hi p

def parsePostfix (parseAlt : ParseEnv → Parser Node) (env : ParseEnv) : Parser (Option Node) := do
  match ← parsePrimary parseAlt env with
  | none => return none
  | some p =>
      let c ← peek
      if c = chr '*' then
        skip
        return some (.star p)
      else if c = chr '+' then
        skip
        return some (.plus p)
      else if c = chr '?' then
        skip
        return some (.question p)
      else if c = chr '{' ∧ isDigit (← peekAt 1) then return some (← parseRepeat p)
      else return some p

def isConcatTerminator (c : Byte) : Bool := c = 0 || c = chr '|' || c = chr ')' || c = chr '$'

def concatLoop (parseAlt : ParseEnv → Parser Node) (env : ParseEnv) :
    Nat → Option Node → Parser (Option Node)
  | 0, _ => outOfFuel
  | n + 1, acc => do
      if (← atEnd) || isConcatTerminator (← peek) then return acc
      match ← parsePostfix parseAlt env with
      | none => return acc
      | some p => concatLoop parseAlt env n (some (concat acc p))

def parseConcat (parseAlt : ParseEnv → Parser Node) (env : ParseEnv) : Parser Node := do
  return (← concatLoop parseAlt env ((← remaining) + 1) none).getD .empty

def altLoop (parseAlt : ParseEnv → Parser Node) (env : ParseEnv) : Nat → Node → Parser Node
  | 0, _ => outOfFuel
  | n + 1, l => do
      if (← peek) ≠ chr '|' then return l
      skip
      let r ← parseConcat parseAlt env
      altLoop parseAlt env n (.alt l r)

/-- `parse_alt`, for groups and macros nested less deep than the fuel. -/
def parseAlt : Nat → ParseEnv → Parser Node
  | 0, _ => outOfFuel
  | fuel + 1, env => do
      let l ← parseConcat (parseAlt fuel) env
      altLoop (parseAlt fuel) env ((← remaining) + 1) l

/-- `parse_top`: an optional `^` before and an optional `$` after. -/
def parseTop (fuel : Nat) (env : ParseEnv) : Parser (Option Node) := do
  let bol ← accept '^'
  let body ← parseAlt fuel env
  let eol ← accept '$'
  if !(← atEnd) then
    report ⟨.error, env.loc, "unexpected character in regex: '" ++ text [← peek] ++ "'"⟩
    return none
  let body := if eol then .concat body .anchorEOL else body
  return some (if bol then .concat .anchorBOL body else body)

end Parser

/-- `parse_regex`, with the diagnostics it reports. -/
def parseRegex (fuel : Nat) (env : ParseEnv) (src : List Byte) :
    Option (Option Node × List Diag) :=
  (Parser.parseTop fuel env { rest := src }).map fun r ↦ (r.1, r.2.diags)

/-! ## What is parsed -/

namespace Node

/-- Neither anchors nor markers. -/
def Plain (t : Node) : Prop := t.anchorFree = true ∧ t.markerFree = true

@[simp] theorem plain_empty : Plain empty := ⟨rfl, rfl⟩

@[simp] theorem plain_cls (s : ByteSet) : Plain (cls s) := ⟨rfl, rfl⟩

@[simp] theorem plain_star {a : Node} : (star a).Plain ↔ a.Plain := Iff.rfl

@[simp] theorem plain_plus {a : Node} : (plus a).Plain ↔ a.Plain := Iff.rfl

@[simp] theorem plain_question {a : Node} : (question a).Plain ↔ a.Plain := Iff.rfl

@[simp] theorem plain_rep {lo hi : Nat} {a : Node} : (rep lo hi a).Plain ↔ a.Plain := Iff.rfl

@[simp] theorem plain_concat {a b : Node} : (concat a b).Plain ↔ a.Plain ∧ b.Plain := by
  simp only [Plain, anchorFree, markerFree, all, Bool.and_eq_true, true_and]
  exact and_and_and_comm

@[simp] theorem plain_alt {a b : Node} : (alt a b).Plain ↔ a.Plain ∧ b.Plain := by
  simp only [Plain, anchorFree, markerFree, all, Bool.and_eq_true, true_and]
  exact and_and_and_comm

end Node

namespace Parser

variable {s : ParseState}

/-! ### The primitives -/

section Primitives

variable {α : Type} {Q : α → ParseState → Prop}

@[simp] theorem ensures_outOfFuel : Ensures (outOfFuel : Parser α) s Q := ensures_none

@[simp] theorem ensures_atEnd {Q : Bool → ParseState → Prop} :
    Ensures atEnd s Q ↔ Q s.rest.isEmpty s := by
  simp [atEnd]

@[simp] theorem ensures_peekAt {k : Nat} {Q : Byte → ParseState → Prop} :
    Ensures (peekAt k) s Q ↔ Q (s.rest.getD k 0) s := by
  simp [peekAt]

@[simp] theorem ensures_peek {Q : Byte → ParseState → Prop} :
    Ensures peek s Q ↔ Q (s.rest.getD 0 0) s := ensures_peekAt

@[simp] theorem ensures_skip {Q : Unit → ParseState → Prop} :
    Ensures skip s Q ↔ Q () { s with rest := s.rest.tail } := ensures_modify

@[simp] theorem ensures_advance {Q : Byte → ParseState → Prop} :
    Ensures advance s Q ↔ Q (s.rest.getD 0 0) { s with rest := s.rest.tail } := by
  simp [advance]

@[simp] theorem ensures_save {Q : List Byte → ParseState → Prop} :
    Ensures save s Q ↔ Q s.rest s := by
  simp [save]

@[simp] theorem ensures_restore {rest : List Byte} {Q : Unit → ParseState → Prop} :
    Ensures (restore rest) s Q ↔ Q () { s with rest := rest } := ensures_modify

@[simp] theorem ensures_report {d : Diag} {Q : Unit → ParseState → Prop} :
    Ensures (report d) s Q ↔ Q () { s with diags := s.diags ++ [d] } := ensures_modify

@[simp] theorem ensures_remaining {Q : Nat → ParseState → Prop} :
    Ensures remaining s Q ↔ Q s.rest.length s := by
  simp [remaining]

@[simp] theorem ensures_accept {c : Char} {Q : Bool → ParseState → Prop} :
    Ensures (accept c) s Q ↔ (s.rest.getD 0 0 = chr c → Q true { s with rest := s.rest.tail }) ∧
      (s.rest.getD 0 0 ≠ chr c → Q false s) := by
  simp [accept]

end Primitives

/-! ### Trees of the parts -/

/-- Every result satisfies `P`, whatever the state. -/
def Yields {α : Type} (x : Parser α) (P : α → Prop) : Prop := ∀ s, Ensures x s fun a _ ↦ P a

namespace Yields

variable {α β : Type} {P : α → Prop} {R : β → Prop} {x y : Parser α}

theorem pure {a : α} (h : P a) : Yields (pure a) P := fun _ ↦ ensures_pure.2 h

theorem bind {z : Parser β} {f : β → Parser α} (hz : Yields z R) (hf : ∀ b, R b → Yields (f b) P) :
    Yields (z >>= f) P :=
  fun s ↦ ensures_bind.2 ((hz s).mono fun b s' hb ↦ hf b hb s')

/-- The result of the first part does not matter. -/
theorem seq {z : Parser β} {f : β → Parser α} (hf : ∀ b, Yields (f b) P) : Yields (z >>= f) P :=
  bind (R := fun _ ↦ True) (fun _ _ _ _ ↦ trivial) fun b _ ↦ hf b

theorem ite {c : Prop} [Decidable c] (hx : c → Yields x P) (hy : ¬ c → Yields y P) :
    Yields (if c then x else y) P :=
  fun s ↦ ensures_ite.2 ⟨fun h ↦ hx h s, fun h ↦ hy h s⟩

theorem none : Yields (outOfFuel : Parser α) P := fun _ ↦ ensures_outOfFuel

end Yields

variable {rec : ParseEnv → Parser Node}

theorem yields_some {P : Node → Prop} {t : Node} (h : P t) :
    Yields (pure (some t)) fun o : Option Node ↦ ∀ t ∈ o, P t :=
  .pure fun _ ht ↦ Option.some.inj ht ▸ h

/-- A property that every tree has which the parser puts together from its parts, with the
given case mode. -/
structure Built (P : Node → Prop) (ci : Bool) : Prop where
  empty : P .empty
  lit : ∀ b, P (litNode b ci)
  any : P anyByteExceptNl
  bracket : ∀ env : ParseEnv, env.ci = ci → Yields (parseClass env) P
  concat : ∀ {a b}, P a → P b → P (.concat a b)
  alt : ∀ {a b}, P a → P b → P (.alt a b)
  star : ∀ {a}, P a → P (.star a)
  plus : ∀ {a}, P a → P (.plus a)
  question : ∀ {a}, P a → P (.question a)
  rep : ∀ {lo hi a}, P a → P (.rep lo hi a)

namespace Built

variable {P : Node → Prop} {env : ParseEnv}

theorem append {ci : Bool} (h : Built P ci) {o : Option Node} {t : Node} (ho : ∀ a ∈ o, P a)
    (ht : P t) : ∀ a ∈ some (Parser.concat o t), P a := by
  intro a ha
  obtain rfl := Option.some.inj ha
  cases o with
  | none => exact ht
  | some a => exact h.concat (ho a rfl) ht

theorem getD {ci : Bool} (h : Built P ci) {o : Option Node} (ho : ∀ a ∈ o, P a) :
    P (o.getD .empty) := by
  cases o with
  | none => exact h.empty
  | some a => exact ho a rfl

theorem quotedLoop (h : Built P env.ci) (n : Nat) {acc : Option Node} (hacc : ∀ a ∈ acc, P a) :
    Yields (quotedLoop env n acc) fun o ↦ ∀ a ∈ o, P a := by
  induction n generalizing acc with
  | zero => exact .none
  | succ n ih =>
      unfold Parser.quotedLoop
      refine .seq fun _ ↦ .seq fun _ ↦ .ite (fun _ ↦ .pure hacc) fun _ ↦ .seq fun b ↦ ?_
      exact ih (h.append hacc (h.lit b))

theorem parseQuoted (h : Built P env.ci) : Yields (parseQuoted env) P := by
  unfold Parser.parseQuoted
  refine .seq fun _ ↦ .seq fun n ↦ .bind (h.quotedLoop (n + 1) (by simp)) fun acc hacc ↦
    .seq fun _ ↦ .ite (fun _ ↦ ?_) fun _ ↦ ?_
  · exact .seq fun _ ↦ .pure (h.getD hacc)
  · exact .seq fun _ ↦ .pure (h.getD hacc)

theorem parseMacro (h : Built P env.ci) (hrec : ∀ env', env'.ci = env.ci → Yields (rec env') P) :
    Yields (parseMacro rec env) P := by
  unfold Parser.parseMacro
  refine .seq fun _ ↦ .seq fun _ ↦ .seq fun _ ↦ .seq fun name ↦ .seq fun _ ↦
    .ite (fun _ ↦ ?_) fun _ ↦ .seq fun _ ↦ .ite (fun _ ↦ ?_) fun _ ↦ ?_
  · exact .seq fun _ ↦ .seq fun _ ↦ .pure (h.lit _)
  · exact .seq fun _ ↦ .pure h.empty
  · cases env.macros name with
    | none => exact .seq fun _ ↦ .pure h.empty
    | some exp =>
        refine .seq fun _ ↦ .seq fun _ ↦ .bind (hrec _ ?_) fun inner h ↦ .seq fun _ ↦ .pure h
        rfl

theorem parsePrimary (h : Built P env.ci)
    (hrec : ∀ env', env'.ci = env.ci → Yields (rec env') P) :
    Yields (parsePrimary rec env) fun o ↦ ∀ t ∈ o, P t := by
  have hnone : Yields (pure none) fun o : Option Node ↦ ∀ t ∈ o, P t := .pure (by simp)
  unfold Parser.parsePrimary
  refine .seq fun c ↦ .ite (fun _ ↦ ?_) fun _ ↦ .ite (fun _ ↦ ?_) fun _ ↦ .ite (fun _ ↦ ?_) fun _ ↦
    .ite (fun _ ↦ ?_) fun _ ↦ .ite (fun _ ↦ ?_) fun _ ↦ .ite (fun _ ↦ ?_) fun _ ↦
    .ite (fun _ ↦ hnone) fun _ ↦ .ite (fun _ ↦ hnone) fun _ ↦ ?_
  · refine .seq fun _ ↦ .bind (hrec env rfl) fun inner h ↦ .seq fun _ ↦ .ite (fun _ ↦ ?_) fun _ ↦ ?_
    · exact .seq fun _ ↦ hnone
    · exact .seq fun _ ↦ yields_some h
  · exact .bind (h.bracket env rfl) fun _ h ↦ yields_some h
  · exact .bind h.parseQuoted fun _ h ↦ yields_some h
  · exact .bind (h.parseMacro hrec) fun _ h ↦ yields_some h
  · exact .seq fun _ ↦ yields_some h.any
  · exact .bind (.seq fun _ ↦ .pure (h.lit _)) fun _ h ↦ yields_some h
  · exact .seq fun _ ↦ yields_some (h.lit c)

theorem parseRepeat {ci : Bool} (h : Built P ci) {p : Node} (hp : P p) :
    Yields (parseRepeat p) P := by
  unfold Parser.parseRepeat
  refine .seq fun _ ↦ .seq fun _ ↦ .seq fun _ ↦ .seq fun _ ↦
    .ite (fun _ ↦ .seq fun _ ↦ .pure hp) fun _ ↦ .seq fun _ ↦ .seq fun _ ↦ .ite (fun _ ↦ ?_) fun _ ↦ ?_
  · exact .seq fun _ ↦ .pure hp
  · exact .seq fun _ ↦ .pure (h.rep hp)

theorem parsePostfix (h : Built P env.ci)
    (hrec : ∀ env', env'.ci = env.ci → Yields (rec env') P) :
    Yields (parsePostfix rec env) fun o ↦ ∀ t ∈ o, P t := by
  unfold Parser.parsePostfix
  refine .bind (h.parsePrimary hrec) fun o ho ↦ ?_
  cases o with
  | none => exact .pure (by simp)
  | some p =>
      have hp := ho p rfl
      refine .seq fun c ↦ .ite (fun _ ↦ ?_) fun _ ↦ .ite (fun _ ↦ ?_) fun _ ↦
        .ite (fun _ ↦ ?_) fun _ ↦ .seq fun _ ↦ .ite (fun _ ↦ ?_) fun _ ↦ yields_some hp
      · exact .seq fun _ ↦ yields_some (h.star hp)
      · exact .seq fun _ ↦ yields_some (h.plus hp)
      · exact .seq fun _ ↦ yields_some (h.question hp)
      · exact .bind (h.parseRepeat hp) fun _ h ↦ yields_some h

theorem concatLoop (h : Built P env.ci)
    (hrec : ∀ env', env'.ci = env.ci → Yields (rec env') P) (n : Nat)
    {acc : Option Node} (hacc : ∀ a ∈ acc, P a) :
    Yields (concatLoop rec env n acc) fun o ↦ ∀ t ∈ o, P t := by
  induction n generalizing acc with
  | zero => exact .none
  | succ n ih =>
      unfold Parser.concatLoop
      refine .seq fun _ ↦ .seq fun _ ↦ .ite (fun _ ↦ .pure hacc) fun _ ↦
        .bind (h.parsePostfix hrec) fun o ho ↦ ?_
      cases o with
      | none => exact .pure hacc
      | some p => exact ih (h.append hacc (ho p rfl))

theorem parseConcat (h : Built P env.ci)
    (hrec : ∀ env', env'.ci = env.ci → Yields (rec env') P) : Yields (parseConcat rec env) P := by
  unfold Parser.parseConcat
  exact .seq fun n ↦ .bind (h.concatLoop hrec (n + 1) (by simp)) fun _ ho ↦ .pure (h.getD ho)

theorem altLoop (h : Built P env.ci)
    (hrec : ∀ env', env'.ci = env.ci → Yields (rec env') P) (n : Nat) {l : Node} (hl : P l) :
    Yields (altLoop rec env n l) P := by
  induction n generalizing l with
  | zero => exact .none
  | succ n ih =>
      unfold Parser.altLoop
      exact .seq fun _ ↦ .ite (fun _ ↦ .pure hl) fun _ ↦ .seq fun _ ↦
        .bind (h.parseConcat hrec) fun r hr ↦ ih (h.alt hl hr)

/-- What holds of the parts holds of the tree. -/
theorem parseAlt (fuel : Nat) (env : ParseEnv) (h : Built P env.ci) :
    Yields (parseAlt fuel env) P := by
  induction fuel generalizing env with
  | zero => exact .none
  | succ fuel ih =>
      have hrec : ∀ env', env'.ci = env.ci → Yields (Parser.parseAlt fuel env') P :=
        fun env' henv ↦ ih env' (henv ▸ h)
      unfold Parser.parseAlt
      exact .bind (h.parseConcat hrec) fun l hl ↦ .seq fun n ↦ h.altLoop hrec (n + 1) hl

end Built

theorem parseClass_plain (env : ParseEnv) : Yields (parseClass env) Node.Plain := by
  unfold parseClass
  refine .seq fun _ ↦ .seq fun neg ↦ .seq fun _ ↦ .seq fun cls ↦ .seq fun _ ↦
    .ite (fun _ ↦ ?_) fun _ ↦ ?_
  · exact .seq fun _ ↦ .pure (Node.plain_cls _)
  · exact .seq fun _ ↦ .pure (Node.plain_cls _)

theorem built_plain (ci : Bool) : Built Node.Plain ci where
  empty := Node.plain_empty
  lit _ := Node.plain_cls _
  any := Node.plain_cls _
  bracket env _ := parseClass_plain env
  concat ha hb := Node.plain_concat.2 ⟨ha, hb⟩
  alt ha hb := Node.plain_alt.2 ⟨ha, hb⟩
  star := Node.plain_star.2
  plus := Node.plain_plus.2
  question := Node.plain_question.2
  rep := Node.plain_rep.2

/-- An alternation has neither anchors nor markers: `^` inside is a byte, `$` ends it. -/
theorem parseAlt_plain (fuel : Nat) (env : ParseEnv) : Yields (parseAlt fuel env) Node.Plain :=
  (built_plain env.ci).parseAlt fuel env

end Parser

/-! ### Anchors -/

/-- The tree with `^` before it. -/
def Node.withBol (bol : Bool) (t : Node) : Node := if bol then .concat .anchorBOL t else t

/-- The tree with `$` after it. -/
def Node.withEol (eol : Bool) (t : Node) : Node := if eol then .concat t .anchorEOL else t

/-- `parse_top` puts its anchors around a tree without any, or reports an error. -/
theorem Parser.parseTop_spec (fuel : Nat) (env : ParseEnv) (s : ParseState) :
    Ensures (parseTop fuel env) s fun o s' ↦
      (o = none → Diag.ok s'.diags = false) ∧
      ∀ t ∈ o, ∃ body eol, body.Plain ∧
        t = Node.withBol (s.rest.getD 0 0 == chr '^') (Node.withEol eol body) := by
  have hrest : ∀ (bol : Bool) (s₁ : ParseState), Ensures (do
      let body ← parseAlt fuel env
      let eol ← accept '$'
      if !(← atEnd) then
        report ⟨.error, env.loc, "unexpected character in regex: '" ++ text [← peek] ++ "'"⟩
        return none
      let body := if eol then .concat body .anchorEOL else body
      return some (if bol then .concat .anchorBOL body else body)) s₁ fun o s' ↦
        (o = none → Diag.ok s'.diags = false) ∧
        ∀ t ∈ o, ∃ body eol, body.Plain ∧ t = Node.withBol bol (Node.withEol eol body) := by
    intro bol s₁
    refine ensures_bind.2 ((parseAlt_plain fuel env s₁).mono fun body s₂ hbody ↦ ?_)
    refine ensures_bind.2 (ensures_accept.2 ⟨fun _ ↦ ?_, fun _ ↦ ?_⟩)
    all_goals
      refine ensures_bind.2 (ensures_atEnd.2 (ensures_ite.2 ⟨fun _ ↦ ?_, fun _ ↦ ?_⟩))
    · simp [Diag.ok]
    · exact ensures_pure.2 ⟨by simp, fun t ht ↦ ⟨body, true, hbody, (Option.some.inj ht).symm⟩⟩
    · simp [Diag.ok]
    · exact ensures_pure.2 ⟨by simp, fun t ht ↦ ⟨body, false, hbody, (Option.some.inj ht).symm⟩⟩
  unfold parseTop
  refine ensures_bind.2 (ensures_accept.2 ⟨fun h ↦ ?_, fun h ↦ ?_⟩)
  · rw [beq_iff_eq.2 h]
    exact hrest true _
  · rw [beq_eq_false_iff_ne.2 h]
    exact hrest false _

end LexCpp
