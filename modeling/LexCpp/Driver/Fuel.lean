import LexCpp.Driver.Outcome
import LexCpp.Regex.Ends
import LexCpp.Regex.Operators
import LexCpp.Source.Turns

/-!
# The generator ends

Fuel is needed for the patterns only.  Each has enough, recursive macros or not, and with more of it
reads the same; so the generator ends on every command line, and how it does is not up to the fuel
(`coreMain_settles`).
-/

namespace LexCpp

open Driver

/-! ## Patterns -/

theorem parseRegex_mono {n m : Nat} (hnm : n ≤ m) {env : ParseEnv} {src : List Byte}
    {r : Option Node × List Diag} (h : parseRegex n env src = some r) : parseRegex m env src = some r := by
  obtain ⟨q, hq, rfl⟩ := Option.map_eq_some_iff.1 h
  rw [parseRegex, Parser.parseTop_mono hnm hq]
  rfl

section Patterns

variable {env : ParseEnv} {names : Finset (List Byte)} (hnames : ∀ name, env.macros name ≠ none → name ∈ names)

include hnames

theorem parseRegex_settles (src : List Byte) : ∃ N r, ∀ n, N ≤ n → parseRegex n env src = some r := by
  obtain ⟨N, hN⟩ := exists_parseRegex hnames src
  obtain ⟨r, hr⟩ := hN N le_rfl
  exact ⟨N, r, fun n hn ↦ parseRegex_mono hn hr⟩

theorem parsePattern_settles (src : List Byte) : ∃ N r, ∀ n, N ≤ n → parsePattern n env src = some r := by
  by_cases hslash : findTopLevelSlash src < 0
  · obtain ⟨N, r, hr⟩ := parseRegex_settles hnames src
    refine ⟨N, ({ tree := r.1, eolAnchored := r.1.any Node.peekIsEolAnchor }, r.2), fun n hn ↦ ?_⟩
    rw [parsePattern]
    dsimp only
    rw [if_pos hslash, hr n hn]
    rfl
  · obtain ⟨N, r, hr⟩ := parseRegex_settles hnames (src.take (findTopLevelSlash src).toNat)
    obtain ⟨M, s, hs⟩ := parseRegex_settles hnames (src.drop ((findTopLevelSlash src).toNat + 1))
    have hpattern : ∀ n, max N M ≤ n → parsePattern n env src = parsePattern (max N M) env src := by
      intro n hn
      rw [parsePattern, parsePattern]
      dsimp only
      rw [if_neg hslash, if_neg hslash, hr n ((le_max_left N M).trans hn), hr _ (le_max_left N M),
        hs n ((le_max_right N M).trans hn), hs _ (le_max_right N M)]
    have hsome : (parsePattern (max N M) env src).isSome = true := by
      rw [parsePattern]
      dsimp only
      rw [if_neg hslash, hr _ (le_max_left N M), hs _ (le_max_right N M)]
      rcases r with ⟨_ | r, rDiags⟩
      · rfl
      · rcases s with ⟨_ | s, sDiags⟩
        · rfl
        · rfl
    obtain ⟨q, hq⟩ := Option.isSome_iff_exists.1 hsome
    exact ⟨max N M, q, fun n hn ↦ (hpattern n hn).trans hq⟩

end Patterns

/-- A file has as many macros as definitions. -/
theorem LexFile.resolver_mem {f : LexFile} (name : List Byte) (h : f.resolver name ≠ none) :
    name ∈ (f.defs.map Prod.fst).toFinset := by
  obtain ⟨v, hv⟩ := Option.ne_none_iff_exists'.1 h
  obtain ⟨d, hd, -⟩ := Option.map_eq_some_iff.1 hv
  have hfound := List.find?_some hd
  have hname : d.1 = name := of_decide_eq_true hfound
  rw [List.mem_toFinset, ← hname]
  exact List.mem_map_of_mem (List.mem_reverse.1 (List.mem_of_find?_eq_some hd))

/-! ## The parts of the generator -/

namespace Driver

variable {w : World}

theorem error_settles {α : Type} (loc : SourceLoc) (msg : String) {x : Driver α} {p : (Nat ⊕ α) × World}
    (h : x { w with diags := w.diags ++ [⟨.error, loc, msg⟩] } = some p) :
    Code.Settles (fun _ ↦ (do error loc msg; x : Driver α)) w := .of_returns h

theorem fail_settles {α : Type} (loc : SourceLoc) (msg : String) (rc : Nat) :
    Code.Settles (fun _ ↦ (do error loc msg; Code.exit rc : Driver α)) w := error_settles loc msg rfl

theorem writeBackup_settles (a : List Byte) : Code.Settles (fun _ ↦ writeBackup a) w := by
  refine .bind (.of_returns rfl) fun b w' ↦ ?_
  cases b with
  | false => exact .of_returns rfl
  | true => exact .of_returns rfl

theorem parseArgs_settles (argv : List (List Byte)) : Code.Settles (fun _ ↦ parseArgs argv) w := by
  refine .bind ?_ fun out w' ↦ .of_returns rfl
  refine parseArgsLoop_induction (P := fun x ↦ ∀ w : World, Code.Settles (fun _ ↦ x) w) ?_ ?_ ?_ ?_ argv {} w
  · exact fun out w ↦ .of_returns rfl
  · exact fun text _ w ↦ .of_returns rfl
  · exact fun msg w ↦ fail_settles {} msg 2
  · exact fun a x hx w ↦ .bind (writeBackup_settles a) fun _ w' ↦ hx w'

theorem readChunk_settles (path : Path) : Code.Settles (fun _ ↦ readChunk path) w := by
  refine .ite (fun _ ↦ .of_returns rfl) fun _ ↦ .bind (.of_returns rfl) fun o w' ↦ ?_
  cases o with
  | some chunk => exact .of_returns rfl
  | none => exact fail_settles _ _ 1

theorem readChunks_settles (paths : List Path) : Code.Settles (fun _ ↦ readChunks paths) w := by
  induction paths generalizing w with
  | nil => exact .of_returns rfl
  | cons path paths ih => exact .bind (readChunk_settles path) fun chunk w' ↦ .bind ih fun _ _ ↦ .of_returns rfl

theorem readInputs_settles (args : Args) : Code.Settles (fun _ ↦ readInputs args) w :=
  .ite (fun _ ↦ .of_returns rfl) fun _ ↦ .bind (readChunks_settles _) fun _ _ ↦ .of_returns rfl

theorem condIds_settles (f : LexFile) (loc : SourceLoc) (conds : List (List Byte)) :
    Code.Settles (fun _ ↦ condIds f loc conds) w := by
  induction conds with
  | nil => exact .of_returns rfl
  | cons cn conds ih =>
      rw [condIds]
      cases f.condId cn with
      | some c => exact .bind ih fun _ _ ↦ .of_returns rfl
      | none => exact fail_settles _ _ 1

theorem addRules_settles (f : LexFile) (rs : List Rule) (i k : Nat) (nfa : NFA) :
    Code.Settles (fun fuel ↦ Driver.addRules fuel f rs i k nfa) w := by
  induction rs generalizing i k nfa w with
  | nil => exact .of_returns rfl
  | cons r rs ih =>
      refine .bind (condIds_settles f r.loc r.conds) fun ids w₁ ↦ .ite (fun _ ↦ ih _ _ _) fun _ ↦ ?_
      refine .bind (.lift (parsePattern_settles f.resolver_mem r.pattern)) fun q w₂ ↦ ?_
      refine .bind (.of_returns rfl) fun _ w₃ ↦ ?_
      obtain ⟨⟨tree, trailLen, eol⟩, diags⟩ := q
      cases tree with
      | some tree => exact ih _ _ _
      | none => exact fail_settles _ _ 1

theorem checkReject_settles (f : LexFile) (nfa : NFA) : Code.Settles (fun _ ↦ checkReject f nfa) w := by
  refine .ite (fun _ ↦ ?_) fun _ ↦ .of_returns rfl
  cases nfa.ruleTrail.findIdx? (· < 0) with
  | none => exact .of_returns rfl
  | some i => exact fail_settles _ _ 1

theorem readSkeleton_settles (args : Args) : Code.Settles (fun _ ↦ readSkeleton args) w := by
  refine .ite (fun _ ↦ .of_returns rfl) fun _ ↦ .bind (.of_returns rfl) fun o w' ↦ ?_
  cases o with
  | some buf => exact .of_returns rfl
  | none => exact fail_settles _ _ 1

/-- The automaton of some rules has a DFA. -/
theorem exists_dfa_of_addRules {f : LexFile} {nfa : NFA}
    (h : ∃ specs, nfa = ((NFA.initNfa f.condNameStrings f.condExcl).addRules 0 specs).withEof nfa.eofRules)
    (useEclasses computeMeta : Bool) : ∃ dfa, buildDfa nfa useEclasses computeMeta = some dfa := by
  obtain ⟨specs, hspecs⟩ := h
  let G : Grammar := ⟨f.condNameStrings, f.condExcl, specs⟩
  have hrange : (G.nfa.withEof nfa.eofRules).InRange :=
    ⟨G.realizes.wf.inRange.edges, G.realizes.wf.inRange.starts⟩
  have heq : nfa = G.nfa.withEof nfa.eofRules := hspecs
  rw [← heq] at hrange
  obtain ⟨dfa, -, hdfa, -⟩ := exists_buildDfa hrange useEclasses computeMeta
  exact ⟨dfa, hdfa⟩

theorem compileSource_settles (args : Args) (label : Path) (source : List Byte) :
    Code.Settles (fun fuel ↦ compileSource fuel args label source) w := by
  obtain ⟨_, s, hs, -⟩ := Reader.parse_returns (text label)
    { rest := source, out := { origin := ⟨text label, 1, 1⟩ } }
  have hparse : parseLexFile (text label) source =
      some (if Diag.ok s.diags then some s.out else none, s.diags) := by
    rw [parseLexFile, hs]
    rfl
  refine .bind (.lift ⟨0, _, fun _ _ ↦ hparse⟩) fun q w₁ ↦ .bind (.of_returns rfl) fun _ w₂ ↦ ?_
  obtain ⟨file, diags⟩ := q
  cases file with
  | none => exact .of_returns rfl
  | some f =>
      have hends (fuel : Nat) := (addRules_ends fuel (override args f) (override args f).rules 0 0
        (NFA.initNfa (override args f).condNameStrings (override args f).condExcl) w₂).mono
          (fun _ _ h ↦ h.2.2) fun _ _ _ ↦ True.intro
      refine .bind_of (addRules_settles _ _ _ _ _) hends fun nfa w₃ hspecs ↦ ?_
      refine .bind (.of_returns rfl) fun ok w₄ ↦ .ite (fun _ ↦ .of_returns rfl) fun _ ↦ ?_
      refine .bind (checkReject_settles _ nfa) fun _ w₅ ↦ ?_
      obtain ⟨dfa, hdfa⟩ := exists_dfa_of_addRules hspecs (args.compress != .full) (args.compress == .compress)
      refine .bind (.lift ⟨0, dfa, fun _ _ ↦ hdfa⟩) fun dfa w₆ ↦ ?_
      exact .bind (readSkeleton_settles args) fun _ _ ↦ .of_returns rfl

theorem writeStringToPath_settles (path : Path) (content : Content) :
    Code.Settles (fun _ ↦ writeStringToPath path content) w := by
  refine .bind (.of_returns rfl) fun b w₁ ↦ .ite (fun _ ↦ ?_) fun _ ↦ .of_returns rfl
  exact .bind (.of_returns rfl) fun b w₂ ↦ .ite (fun _ ↦ .of_returns rfl) fun _ ↦ .of_returns rfl

/-- Code that goes on or leaves. -/
theorem unless_settles {x : Driver Bool} {y : Driver Unit} (hx : Code.Settles (fun _ ↦ x) w)
    (hy : ∀ w', Code.Settles (fun _ ↦ y) w') : Code.Settles (fun _ ↦ (do if !(← x) then y)) w := by
  refine .bind hx fun b w' ↦ ?_
  cases b with
  | true => exact .of_returns rfl
  | false => exact hy w'

theorem writeTablesFile_settles (path : Path) (bytes : List Byte) :
    Code.Settles (fun _ ↦ writeTablesFile path bytes) w :=
  .bind (.of_returns rfl) fun _ _ ↦ .ite (fun _ ↦ .of_returns rfl) fun _ ↦ .of_returns rfl

theorem write_settles (std : StdSort Nat) (args : Args) (cg : CodegenInput) : Code.Settles (fun _ ↦ (do
      writeScanner args cg
      writeTables std args cg
      writeHeader args cg
      return if ← diagOk then 0 else 1 : Driver Nat)) w := by
  refine .bind (.ite (fun _ ↦ ?_) fun _ ↦ ?_) fun _ w₁ ↦ .bind (.ite (fun _ ↦ ?_) fun _ ↦ .of_returns rfl)
    fun _ w₂ ↦ .bind (.ite (fun _ ↦ ?_) fun _ ↦ .of_returns rfl) fun _ w₃ ↦ .of_returns rfl
  · exact unless_settles (.of_returns rfl) fun w' ↦ fail_settles _ _ 1
  · exact unless_settles (writeStringToPath_settles _ _) fun w' ↦ .of_returns rfl
  · exact unless_settles (writeTablesFile_settles _ _) fun w' ↦ fail_settles _ _ 1
  · exact unless_settles (writeStringToPath_settles _ _) fun w' ↦ .of_returns rfl

end Driver

/-- **The generator ends** on every command line and in all surroundings, and with enough fuel for the
patterns its outcome is always the same. -/
theorem coreMain_settles (std : StdSort Nat) (argv : List (List Byte)) (w : World) :
    ∃ N r, ∀ fuel, N ≤ fuel → coreMain fuel std argv w = some r := by
  have hmain : Code.Settles (fun fuel ↦ Driver.main fuel std argv) w :=
    .bind (parseArgs_settles argv) fun args w₁ ↦ .bind (readInputs_settles args) fun input w₂ ↦
      .bind (compileSource_settles args input.1 (normaliseSource input.2)) fun cg w₃ ↦ write_settles std args cg
  obtain ⟨N, p, hp⟩ := hmain
  exact ⟨N, _, fun fuel hfuel ↦ congrArg (Option.map _) (hp fuel hfuel)⟩

end LexCpp
