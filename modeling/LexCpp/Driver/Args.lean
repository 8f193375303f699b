import LexCpp.Driver.Platform

/-!
# The command line

`parse_args`, and that every setting can be given: the settings that are written out as options are read
back (`parseArgs_render`).
-/

namespace LexCpp

namespace Driver

def kVersion : List Byte := ascii "lex.cpp 0.1.0\n"

def kUsage : List Byte := ascii
  ("Usage: lex [OPTIONS] [FILE]\n" ++
    "Generate a C scanner from a lex/flex source file.\n" ++
    "\n" ++
    "  -o, --outfile=FILE        write scanner to FILE (default lex.yy.c)\n" ++
    "  -t, --stdout              write scanner to stdout\n" ++
    "  -i, --case-insensitive    pattern matching ignores ASCII case\n" ++
    "      --yylineno            track line number in yylineno\n" ++
    "  -P, --prefix=STRING       use STRING instead of \"yy\" as prefix\n" ++
    "  -s, --nodefault           suppress default rule\n" ++
    "  -L, --noline              omit #line directives\n" ++
    "  -f, --full                no compression (-Cf alias)\n" ++
    "      -Cfe                  ECs only (no comb)\n" ++
    "      -Cem, --compress      ECs + meta-ECs + comb (default)\n" ++
    "      --header-file[=PATH]  also write a companion .h\n" ++
    "      --tables-file=PATH    also write a binary table dump\n" ++
    "  -S, --skeleton=PATH       use PATH as runtime template instead of embedded\n" ++
    "  -h, --help                show this help and exit\n" ++
    "  -V, --version             show version and exit\n" ++
    "\n" ++
    "If FILE is omitted or '-', lex reads stdin.\n" ++
    "Multiple FILEs are concatenated in order before parsing.\n")

structure Args where
  outputPath : Path := []
  pfx : List Byte := []
  inputPaths : List Path := []
  toStdout : Bool := false
  caseInsensitive : Bool := false
  yylineno : Bool := false
  nodefault : Bool := false
  prefixSet : Bool := false
  noline : Bool := false
  debug : Bool := false
  headerPath : Path := []
  tablesPath : Path := []
  skeletonPath : Path := []
  compress : CompressMode := .compress
deriving DecidableEq, Repr

def startsWith (s p : List Byte) : Bool := p.isPrefixOf s

def isOneOf (a : List Byte) (names : List String) : Bool := names.any fun n ↦ a == ascii n

/-- The arguments that stand for themselves, up to `-8` in `parse_args`. -/
def setFlag (out : Args) (a : List Byte) : Option Args :=
  if isOneOf a ["-t", "--stdout"] then some { out with toStdout := true }
  else if isOneOf a ["-i", "--case-insensitive"] then some { out with caseInsensitive := true }
  else if isOneOf a ["--yylineno"] then some { out with yylineno := true }
  else if isOneOf a ["-s", "--nodefault"] then some { out with nodefault := true }
  else if isOneOf a ["-L", "--noline"] then some { out with noline := true }
  else if isOneOf a ["-f", "--full", "-Cf", "--Cf"] then some { out with compress := .full }
  else if isOneOf a ["-Cfe", "--Cfe"] then some { out with compress := .fullEc }
  else if isOneOf a ["-Cem", "--Cem", "--compress"] then some { out with compress := .compress }
  else if isOneOf a ["-CF", "-CFe", "-CFa", "-CFae", "-CFr", "-CFar", "-CFaer", "-CFr"] then
    some { out with compress := .full }
  else if isOneOf a ["-d", "--debug"] then some { out with debug := true }
  else if isOneOf a ["-p", "-p1", "-p2", "--perf-report", "-T", "--trace", "-w", "--nowarn", "-7", "-8"] then
    some out
  else none

/-- The arguments that carry a value with them, as the options `-S`, `-o` and `-P` may. -/
def setValue (out : Args) (a : List Byte) : Option Args :=
  if startsWith a (ascii "--tables-file=") then some { out with tablesPath := a.drop 14 }
  else if startsWith a (ascii "-S") then some { out with skeletonPath := a.drop 2 }
  else if startsWith a (ascii "--skeleton=") then some { out with skeletonPath := a.drop 11 }
  else if startsWith a (ascii "--header-file=") then some { out with headerPath := a.drop 14 }
  else if startsWith a (ascii "-o") then some { out with outputPath := a.drop 2 }
  else if startsWith a (ascii "--outfile=") then some { out with outputPath := a.drop 10 }
  else if startsWith a (ascii "-P") then some { out with pfx := a.drop 2, prefixSet := true }
  else if startsWith a (ascii "--prefix=") then some { out with pfx := a.drop 9, prefixSet := true }
  else none

/-- `-b`: there is no backing up, whatever the rules are. -/
def writeBackup (a : List Byte) : Driver Unit := do
  let path := if 2 < a.length then a.drop 2 else ascii "lex.backup"
  if ← openWrite path then
    let _ ← writeBytes path (ascii "No backing up.\n")

/-- An option that takes the next argument. -/
def missing {α : Type} (a : String) : Driver α := do
  error {} (a ++ " requires an argument")
  Code.exit 2

/-- The loop of `parse_args`.  The names that `setValue` would take a value from come first where the
next argument is the value. -/
def parseArgsLoop : List (List Byte) → Args → Driver Args
  | [], out => return out
  | a :: rest, out =>
      if isOneOf a ["-h", "--help"] then do
        let _ ← print (.bytes kUsage)
        Code.exit 0
      else if isOneOf a ["-V", "--version"] then do
        let _ ← print (.bytes kVersion)
        Code.exit 0
      else
        match setFlag out a with
        | some out => parseArgsLoop rest out
        | none =>
            if startsWith a (ascii "-b") then do
              writeBackup a
              parseArgsLoop rest out
            else if isOneOf a ["-S", "--skeleton"] then
              match rest with
              | [] => missing "-S"
              | path :: rest => parseArgsLoop rest { out with skeletonPath := path }
            else if isOneOf a ["--header-file"] then
              match rest with
              | [] => parseArgsLoop [] { out with headerPath := ascii "_default_" }
              | path :: rest' =>
                  if path ≠ [] ∧ path.head? ≠ some (chr '-') then
                    parseArgsLoop rest' { out with headerPath := path }
                  else parseArgsLoop (path :: rest') { out with headerPath := ascii "_default_" }
            else if isOneOf a ["-o"] then
              match rest with
              | [] => missing "-o"
              | path :: rest => parseArgsLoop rest { out with outputPath := path }
            else if isOneOf a ["-P"] then
              match rest with
              | [] => missing "-P"
              | pfx :: rest => parseArgsLoop rest { out with pfx, prefixSet := true }
            else
              match setValue out a with
              | some out => parseArgsLoop rest out
              | none =>
                  if isOneOf a ["--"] then return { out with inputPaths := out.inputPaths ++ rest }
                  else if a.head? = some (chr '-') ∧ !isOneOf a ["-"] then do
                    error {} ("unknown option: " ++ text a)
                    Code.exit 2
                  else parseArgsLoop rest { out with inputPaths := out.inputPaths ++ [a] }

/-- `parse_args`, of the arguments after the name of the program. -/
def parseArgs (argv : List (List Byte)) : Driver Args := do
  let out ← parseArgsLoop argv {}
  return if out.outputPath = [] ∧ out.toStdout = false then { out with outputPath := ascii "lex.yy.c" }
    else out

/-- **What the loop can do**: go on, write for `-b`, print and leave, or refuse an argument. -/
theorem parseArgsLoop_induction {P : Driver Args → Prop} (ret : ∀ out, P (pure out))
    (leave : ∀ text, text = kUsage ∨ text = kVersion → P (do let _ ← print (.bytes text); Code.exit 0))
    (refuse : ∀ msg, P (do error {} msg; Code.exit 2))
    (backup : ∀ a x, P x → P (do writeBackup a; x)) (argv : List (List Byte)) (out : Args) :
    P (parseArgsLoop argv out) := by
  have hite : ∀ {c : Prop} [Decidable c] {x y : Driver Args}, (c → P x) → (¬ c → P y) →
      P (if c then x else y) := by
    intro c _ x y hx hy
    by_cases h : c
    · rw [if_pos h]
      exact hx h
    · rw [if_neg h]
      exact hy h
  induction hn : argv.length using Nat.strong_induction_on generalizing argv out with
  | _ n ih =>
      subst hn
      cases argv with
      | nil => exact ret out
      | cons a rest =>
          have hnext : ∀ out, P (parseArgsLoop rest out) := fun out ↦ ih _ (Nat.lt_succ_self _) rest out rfl
          have hafter : ∀ b rest' out, rest = b :: rest' → P (parseArgsLoop rest' out) := by
            rintro b rest' out rfl
            exact ih _ (Nat.lt_succ_of_lt (Nat.lt_succ_self _)) rest' out rfl
          rw [parseArgsLoop.eq_def]
          dsimp only
          refine hite (fun _ ↦ leave _ (Or.inl rfl)) fun _ ↦ hite (fun _ ↦ leave _ (Or.inr rfl)) fun _ ↦ ?_
          cases setFlag out a with
          | some out => exact hnext out
          | none =>
              refine hite (fun _ ↦ backup a _ (hnext out)) fun _ ↦ hite (fun _ ↦ ?_) fun _ ↦
                hite (fun _ ↦ ?_) fun _ ↦ hite (fun _ ↦ ?_) fun _ ↦ hite (fun _ ↦ ?_) fun _ ↦ ?_
              · cases rest with
                | nil => exact refuse _
                | cons path rest => exact hafter path rest _ rfl
              · cases rest with
                | nil => exact hnext _
                | cons path rest => exact hite (fun _ ↦ hafter path rest _ rfl) fun _ ↦ hnext _
              · cases rest with
                | nil => exact refuse _
                | cons path rest => exact hafter path rest _ rfl
              · cases rest with
                | nil => exact refuse _
                | cons pfx rest => exact hafter pfx rest _ rfl
              · cases setValue out a with
                | some out => exact hnext out
                | none => exact hite (fun _ ↦ ret _) fun _ ↦ hite (fun _ ↦ refuse _) fun _ ↦ hnext _

/-! ## Settings written out -/

/-- The option, if the condition holds. -/
def option (c : Bool) (a : List Byte) : List (List Byte) := if c then [a] else []

/-- Settings as options, and the inputs. -/
def Args.render (a : Args) : List (List Byte) :=
  option a.toStdout (ascii "--stdout") ++ (option a.caseInsensitive (ascii "--case-insensitive") ++
  (option a.yylineno (ascii "--yylineno") ++ (option a.nodefault (ascii "--nodefault") ++
  (option a.noline (ascii "--noline") ++ (option a.debug (ascii "--debug") ++
  (option (a.compress = .full) (ascii "--full") ++ (option (a.compress = .fullEc) (ascii "-Cfe") ++
  (option (a.outputPath ≠ []) (ascii "--outfile=" ++ a.outputPath) ++
  (option a.prefixSet (ascii "--prefix=" ++ a.pfx) ++
  (option (a.headerPath ≠ []) (ascii "--header-file=" ++ a.headerPath) ++
  (option (a.tablesPath ≠ []) (ascii "--tables-file=" ++ a.tablesPath) ++
  (option (a.skeletonPath ≠ []) (ascii "--skeleton=" ++ a.skeletonPath) ++
  ascii "--" :: a.inputPaths))))))))))))

section Render

variable {rest : List (List Byte)} {out : Args} {a : List Byte}

theorem parseArgsLoop_setFlag {out' : Args} (hhelp : isOneOf a ["-h", "--help"] = false)
    (hversion : isOneOf a ["-V", "--version"] = false) (h : setFlag out a = some out') :
    parseArgsLoop (a :: rest) out = parseArgsLoop rest out' := by
  rw [parseArgsLoop.eq_def]
  dsimp only
  rw [hhelp, if_neg Bool.false_ne_true, hversion, if_neg Bool.false_ne_true, h]

/-- The options that stand for themselves or take the next argument. -/
def plainNames : List String :=
  ["-h", "--help", "-V", "--version", "-t", "--stdout", "-i", "--case-insensitive", "--yylineno", "-s",
    "--nodefault", "-L", "--noline", "-f", "--full", "-Cf", "--Cf", "-Cfe", "--Cfe", "-Cem", "--Cem",
    "--compress", "-CF", "-CFe", "-CFa", "-CFae", "-CFr", "-CFar", "-CFaer", "-d", "--debug", "-p", "-p1",
    "-p2", "--perf-report", "-T", "--trace", "-w", "--nowarn", "-7", "-8", "-S", "--skeleton",
    "--header-file", "-o", "-P"]

theorem isOneOf_of_subset {names names' : List String} (h : isOneOf a names' = false)
    (hsub : names ⊆ names') : isOneOf a names = false :=
  List.any_eq_false.2 fun n hn ↦ List.any_eq_false.1 h n (hsub hn)

/-- A text that goes on behind `pre` is none of the names, if none of them starts with `pre`. -/
theorem isOneOf_append {pre : List Byte} {names : List String}
    (h : (names.any fun n ↦ pre.isPrefixOf (ascii n)) = false) (v : List Byte) :
    isOneOf (pre ++ v) names = false := by
  refine List.any_eq_false.2 fun n hn heq ↦ List.any_eq_false.1 h n hn ?_
  rw [← beq_iff_eq.1 heq]
  exact List.isPrefixOf_iff_prefix.2 (List.prefix_append pre v)

theorem setFlag_eq_none (h : isOneOf a plainNames = false) : setFlag out a = none := by
  have hnot : ∀ names, names ⊆ plainNames → ¬ isOneOf a names = true := fun names hsub ↦ by
    rw [isOneOf_of_subset h hsub]
    exact Bool.false_ne_true
  unfold setFlag
  rw [if_neg (hnot _ (by decide)), if_neg (hnot _ (by decide)), if_neg (hnot _ (by decide)),
    if_neg (hnot _ (by decide)), if_neg (hnot _ (by decide)), if_neg (hnot _ (by decide)),
    if_neg (hnot _ (by decide)), if_neg (hnot _ (by decide)), if_neg (hnot _ (by decide)),
    if_neg (hnot _ (by decide)), if_neg (hnot _ (by decide))]

theorem parseArgsLoop_setValue {out' : Args} (hnames : isOneOf a plainNames = false)
    (hb : startsWith a (ascii "-b") = false) (h : setValue out a = some out') :
    parseArgsLoop (a :: rest) out = parseArgsLoop rest out' := by
  have hnot : ∀ names, names ⊆ plainNames → ¬ isOneOf a names = true := fun names hsub ↦ by
    rw [isOneOf_of_subset hnames hsub]
    exact Bool.false_ne_true
  rw [parseArgsLoop.eq_def]
  dsimp only
  rw [if_neg (hnot _ (by decide)), if_neg (hnot _ (by decide)), setFlag_eq_none hnames]
  dsimp only
  rw [hb, if_neg Bool.false_ne_true, if_neg (hnot _ (by decide)), if_neg (hnot _ (by decide)),
    if_neg (hnot _ (by decide)), if_neg (hnot _ (by decide)), h]

/-- Of two texts neither of which goes on with the other, no text starts with both. -/
theorem startsWith_of_apart {pre p : List Byte} (h : (pre.isPrefixOf p || p.isPrefixOf pre) = false)
    (v : List Byte) : startsWith (pre ++ v) p = false := by
  rw [Bool.or_eq_false_iff] at h
  refine Bool.eq_false_iff.2 fun hp ↦ ?_
  have hp := List.isPrefixOf_iff_prefix.1 hp
  rcases List.prefix_or_prefix_of_prefix hp (List.prefix_append pre v) with hle | hle
  · rw [List.isPrefixOf_iff_prefix.2 hle] at h
    exact absurd h.2 (by decide)
  · rw [List.isPrefixOf_iff_prefix.2 hle] at h
    exact absurd h.1 (by decide)

theorem startsWith_self (pre v : List Byte) : startsWith (pre ++ v) pre = true :=
  List.isPrefixOf_iff_prefix.2 (List.prefix_append pre v)

theorem setValue_tablesFile (v : List Byte) :
    setValue out (ascii "--tables-file=" ++ v) = some { out with tablesPath := v } := by
  rw [setValue, startsWith_self]
  rfl

theorem setValue_skeleton (v : List Byte) :
    setValue out (ascii "--skeleton=" ++ v) = some { out with skeletonPath := v } := by
  rw [setValue, startsWith_of_apart rfl, startsWith_of_apart rfl, startsWith_self]
  rfl

theorem setValue_headerFile (v : List Byte) :
    setValue out (ascii "--header-file=" ++ v) = some { out with headerPath := v } := by
  rw [setValue, startsWith_of_apart rfl, startsWith_of_apart rfl, startsWith_of_apart rfl, startsWith_self]
  rfl

theorem setValue_outfile (v : List Byte) :
    setValue out (ascii "--outfile=" ++ v) = some { out with outputPath := v } := by
  rw [setValue, startsWith_of_apart rfl, startsWith_of_apart rfl, startsWith_of_apart rfl,
    startsWith_of_apart rfl, startsWith_of_apart rfl, startsWith_self]
  rfl

theorem setValue_pfx (v : List Byte) :
    setValue out (ascii "--prefix=" ++ v) = some { out with pfx := v, prefixSet := true } := by
  rw [setValue, startsWith_of_apart rfl, startsWith_of_apart rfl, startsWith_of_apart rfl,
    startsWith_of_apart rfl, startsWith_of_apart rfl, startsWith_of_apart rfl, startsWith_of_apart rfl,
    startsWith_self]
  rfl

/-- A flag, if it is set. -/
theorem parseArgsLoop_flag (set : Bool → Args) {c : Bool}
    (hhelp : isOneOf a ["-h", "--help"] = false) (hversion : isOneOf a ["-V", "--version"] = false)
    (h : setFlag (set false) a = some (set true)) :
    parseArgsLoop (option c a ++ rest) (set false) = parseArgsLoop rest (set c) := by
  cases c with
  | false => rfl
  | true => exact parseArgsLoop_setFlag hhelp hversion h

/-- A value, if it is not empty. -/
theorem parseArgsLoop_value (set : List Byte → Args) {pre v : List Byte}
    (hnames : (plainNames.any fun n ↦ pre.isPrefixOf (ascii n)) = false)
    (hb : (pre.isPrefixOf (ascii "-b") || (ascii "-b").isPrefixOf pre) = false)
    (h : setValue (set []) (pre ++ v) = some (set v)) :
    parseArgsLoop (option (v ≠ []) (pre ++ v) ++ rest) (set []) = parseArgsLoop rest (set v) := by
  by_cases hv : v = []
  · subst hv
    rfl
  · rw [decide_eq_true hv]
    exact parseArgsLoop_setValue (isOneOf_append hnames v) (startsWith_of_apart hb v) h

/-- The inputs, whatever they look like. -/
theorem parseArgsLoop_inputs (paths : List Path) :
    parseArgsLoop (ascii "--" :: paths) out = pure { out with inputPaths := out.inputPaths ++ paths } := by
  rw [parseArgsLoop.eq_def]
  rfl

end Render

/-- **Every setting can be given.**  Settings that are written out as options are read back: all that
name an output, and a prefix only as one that is set. -/
theorem parseArgs_render (a : Args) (hpfx : a.prefixSet = false → a.pfx = [])
    (hout : a.outputPath = [] → a.toStdout = true) (w : World) : parseArgs a.render w = some (.inr a, w) := by
  have hloop : parseArgsLoop a.render {} = pure a := by
    obtain ⟨o, p, inputs, t, ci, yl, nd, ps, nl, db, hp, tp, sp, cm⟩ := a
    refine (parseArgsLoop_flag (fun c ↦ ⟨[], [], [], c, false, false, false, false, false, false, [], [],
      [], .compress⟩) rfl rfl rfl).trans ?_
    refine (parseArgsLoop_flag (fun c ↦ ⟨[], [], [], t, c, false, false, false, false, false, [], [], [],
      .compress⟩) rfl rfl rfl).trans ?_
    refine (parseArgsLoop_flag (fun c ↦ ⟨[], [], [], t, ci, c, false, false, false, false, [], [], [],
      .compress⟩) rfl rfl rfl).trans ?_
    refine (parseArgsLoop_flag (fun c ↦ ⟨[], [], [], t, ci, yl, c, false, false, false, [], [], [],
      .compress⟩) rfl rfl rfl).trans ?_
    refine (parseArgsLoop_flag (fun c ↦ ⟨[], [], [], t, ci, yl, nd, false, c, false, [], [], [],
      .compress⟩) rfl rfl rfl).trans ?_
    refine (parseArgsLoop_flag (fun c ↦ ⟨[], [], [], t, ci, yl, nd, false, nl, c, [], [], [], .compress⟩)
      rfl rfl rfl).trans ?_
    -- a mode other than the default one
    have hmode : ∀ rest, parseArgsLoop (option (cm = .full) (ascii "--full") ++
        (option (cm = .fullEc) (ascii "-Cfe") ++ rest))
          ⟨[], [], [], t, ci, yl, nd, false, nl, db, [], [], [], .compress⟩ =
        parseArgsLoop rest ⟨[], [], [], t, ci, yl, nd, false, nl, db, [], [], [], cm⟩ := by
      intro rest
      cases cm with
      | full => exact parseArgsLoop_setFlag rfl rfl rfl
      | fullEc => exact parseArgsLoop_setFlag rfl rfl rfl
      | compress => rfl
    refine (hmode _).trans ?_
    refine (parseArgsLoop_value (fun v ↦ ⟨v, [], [], t, ci, yl, nd, false, nl, db, [], [], [], cm⟩) rfl rfl
      (setValue_outfile o)).trans ?_
    have hset : ∀ rest, parseArgsLoop (option ps (ascii "--prefix=" ++ p) ++ rest)
          ⟨o, [], [], t, ci, yl, nd, false, nl, db, [], [], [], cm⟩ =
        parseArgsLoop rest ⟨o, p, [], t, ci, yl, nd, ps, nl, db, [], [], [], cm⟩ := by
      intro rest
      cases ps with
      | false =>
          obtain rfl : p = [] := hpfx rfl
          rfl
      | true =>
          exact parseArgsLoop_setValue (isOneOf_append rfl p) (startsWith_of_apart rfl p) (setValue_pfx p)
    refine (hset _).trans ?_
    refine (parseArgsLoop_value (fun v ↦ ⟨o, p, [], t, ci, yl, nd, ps, nl, db, v, [], [], cm⟩) rfl rfl
      (setValue_headerFile hp)).trans ?_
    refine (parseArgsLoop_value (fun v ↦ ⟨o, p, [], t, ci, yl, nd, ps, nl, db, hp, v, [], cm⟩) rfl rfl
      (setValue_tablesFile tp)).trans ?_
    refine (parseArgsLoop_value (fun v ↦ ⟨o, p, [], t, ci, yl, nd, ps, nl, db, hp, tp, v, cm⟩) rfl rfl
      (setValue_skeleton sp)).trans ?_
    exact parseArgsLoop_inputs inputs
  have hrun : parseArgs a.render w = some (.inr (if a.outputPath = [] ∧ a.toStdout = false then
      { a with outputPath := ascii "lex.yy.c" } else a), w) := by
    rw [parseArgs, Code.bind_apply, hloop]
    rfl
  rw [hrun, if_neg]
  rintro ⟨ho, ht⟩
  rw [hout ho] at ht
  exact absurd ht (by decide)

/-- A scanner with a header and a prefix, from a file whose name looks like an option. -/
theorem parseArgs_render_prefixed :
    (true = false → ascii "calc_" = []) ∧ (ascii "calc.c" = [] → false = true) ∧
      parseArgs (Args.render { outputPath := ascii "calc.c", pfx := ascii "calc_", prefixSet := true
                               headerPath := ascii "calc.h", compress := .full
                               inputPaths := [ascii "-calc.l"] }) {} =
        some (.inr { outputPath := ascii "calc.c", pfx := ascii "calc_", prefixSet := true
                     headerPath := ascii "calc.h", compress := .full, inputPaths := [ascii "-calc.l"] }, {}) :=
  ⟨by decide, by decide, parseArgs_render _ (by decide) (by decide) {}⟩

end Driver

end LexCpp
