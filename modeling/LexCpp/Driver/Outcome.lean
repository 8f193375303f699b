import LexCpp.Driver.Core
import LexCpp.Scanner.TableLoad
import LexCpp.Scanner.Tokens

/-!
# What the generator does

One lemma for each part of `core_main` says how it ends: what has been written, whether an error has
been reported, and what the result is.  Together they say that no failure is silent, that nothing but
`-b` and the help is written before the file is found to be right, and that what is written then is a
scanner of the grammar of the file (`coreMain_outcome`).
-/

namespace LexCpp

open Driver

/-- No error has been reported. -/
def World.Ok (w : World) : Prop := Diag.ok w.diags = true

/-- More has been written, all of one kind. -/
def World.Grew (P : Act → Prop) (w w' : World) : Prop := ∃ new, w'.acts = w.acts ++ new ∧ ∀ a ∈ new, P a

theorem World.Grew.of_eq {P : Act → Prop} {w w' : World} (h : w'.acts = w.acts) : w.Grew P w' :=
  ⟨[], by rw [h, List.append_nil], fun _ ha ↦ absurd ha List.not_mem_nil⟩

theorem World.Grew.one {P : Act → Prop} {w w' : World} {a : Act} (h : w'.acts = w.acts ++ [a]) (ha : P a) :
    w.Grew P w' := ⟨[a], h, fun _ hb ↦ List.mem_singleton.1 hb ▸ ha⟩

theorem World.Grew.mem {P : Act → Prop} {w w' : World} (h : w.Grew P w') {a : Act} (ha : a ∈ w.acts) :
    a ∈ w'.acts := by
  obtain ⟨new, hnew, -⟩ := h
  rw [hnew]
  exact List.mem_append_left _ ha

theorem World.Grew.trans {P : Act → Prop} {w w' w'' : World} (h : w.Grew P w') (h' : w'.Grew P w'') :
    w.Grew P w'' := by
  obtain ⟨new, hnew, hP⟩ := h
  obtain ⟨new', hnew', hP'⟩ := h'
  refine ⟨new ++ new', by rw [hnew', hnew, List.append_assoc], fun a ha ↦ ?_⟩
  exact (List.mem_append.1 ha).elim (hP a) (hP' a)

/-- What is written while the command line is read. -/
inductive Act.Preliminary : Act → Prop
  | opened (path : Path) : Preliminary (.opened path)
  | backup (path : Path) : Preliminary (.wrote path (.bytes (ascii "No backing up.\n")))
  | usage : Preliminary (.printed (.bytes kUsage))
  | version : Preliminary (.printed (.bytes kVersion))

/-- What is written for a scanner. -/
inductive Act.Of (std : StdSort Nat) (cg : CodegenInput) : Act → Prop
  | opened (path : Path) : Of std cg (.opened path)
  | printed : Of std cg (.printed (.scanner cg))
  | scanner (path : Path) : Of std cg (.wrote path (.scanner cg))
  | tables (path : Path) : Of std cg (.wrote path (.bytes (tablesFile std cg)))
  | header (path : Path) : Of std cg (.wrote path (.header cg))

/-! ## Errors -/

section Errors

variable {α : Type} {w : World} {Q : α → World → Prop} {loc : SourceLoc} {msg : String}

theorem World.not_ok_error (w : World) (loc : SourceLoc) (msg : String) :
    ¬ World.Ok { w with diags := w.diags ++ [⟨.error, loc, msg⟩] } := fun h ↦
  Bool.false_ne_true (Diag.ok_append.1 h).2

/-- An error and the end of the program. -/
theorem ends_fail {rc : Nat} (hrc : rc ≠ 0) : Code.Ends (do error loc msg; Code.exit rc : Driver α) w Q
    fun e w' ↦ e ≠ 0 ∧ ¬ w'.Ok ∧ w'.acts = w.acts := by
  rintro p hp
  obtain rfl := Option.some.inj hp
  exact ⟨hrc, w.not_ok_error loc msg, rfl⟩

/-- An error, and a result that says so. -/
theorem ends_error_pure {a : α} : Code.Ends (do error loc msg; return a : Driver α) w
    (fun b w' ↦ b = a ∧ ¬ w'.Ok ∧ w'.acts = w.acts) fun _ _ ↦ False := by
  rintro p hp
  obtain rfl := Option.some.inj hp
  exact ⟨rfl, w.not_ok_error loc msg, rfl⟩

end Errors

/-- The exit code is 0 just if there is no error, and what was written is of the kind. -/
def Exited (P : Act → Prop) (w : World) (e : Nat) (w' : World) : Prop := (e = 0 ↔ w'.Ok) ∧ w.Grew P w'

theorem Exited.of_fail {P : Act → Prop} {w w' : World} {e : Nat} (h : e ≠ 0 ∧ ¬ w'.Ok ∧ w'.acts = w.acts) :
    Exited P w e w' := ⟨iff_of_false h.1 h.2.1, .of_eq h.2.2⟩

/-- The end of the program with an error, and what was written is of the kind. -/
def Failed (P : Act → Prop) (w : World) (e : Nat) (w' : World) : Prop := e ≠ 0 ∧ ¬ w'.Ok ∧ w.Grew P w'

/-! ## Files -/

section Files

variable {P : Act → Prop} {path : Path} {w : World}

theorem openWrite_ends (h : P (.opened path)) : Code.Ends (openWrite path) w
    (fun _ w' ↦ w'.diags = w.diags ∧ w.Grew P w') fun _ _ ↦ False := by
  intro p hp
  obtain rfl := Option.some.inj hp
  change World.diags (if _ then _ else _) = _ ∧ World.Grew P w (if _ then _ else _)
  split_ifs
  · exact ⟨rfl, .one rfl h⟩
  · exact ⟨rfl, .of_eq rfl⟩

theorem writeBytes_ends {text : List Byte} (h : P (.wrote path (.bytes text))) :
    Code.Ends (writeBytes path text) w (fun _ w' ↦ w'.diags = w.diags ∧ w.Grew P w') fun _ _ ↦ False := by
  intro p hp
  obtain rfl := Option.some.inj hp
  change World.diags (if _ then _ else _) = _ ∧ World.Grew P w (if _ then _ else _)
  split_ifs
  · exact ⟨rfl, .one rfl h⟩
  · exact ⟨rfl, .of_eq rfl⟩

theorem writeAll_ends {content : Content} (h : P (.wrote path content)) :
    Code.Ends (writeAll path content) w (fun b w' ↦ w'.diags = w.diags ∧ w.Grew P w' ∧
      (b = true → .wrote path content ∈ w'.acts)) fun _ _ ↦ False := by
  intro p hp
  obtain rfl := Option.some.inj hp
  change World.diags (if _ then _ else _) = _ ∧ World.Grew P w (if _ then _ else _) ∧
    (_ → _ ∈ World.acts (if _ then _ else _))
  split_ifs with hok
  · exact ⟨rfl, .one rfl h, fun _ ↦ List.mem_append_right _ List.mem_cons_self⟩
  · exact ⟨rfl, .of_eq rfl, fun hb ↦ absurd hb hok⟩

theorem print_ends {content : Content} (h : P (.printed content)) :
    Code.Ends (print content) w (fun b w' ↦ w'.diags = w.diags ∧ w.Grew P w' ∧
      (b = true → .printed content ∈ w'.acts)) fun _ _ ↦ False := by
  intro p hp
  obtain rfl := Option.some.inj hp
  change World.diags (if _ then _ else _) = _ ∧ World.Grew P w (if _ then _ else _) ∧
    (_ → _ ∈ World.acts (if _ then _ else _))
  split_ifs with hok
  · exact ⟨rfl, .one rfl h, fun _ ↦ List.mem_append_right _ List.mem_cons_self⟩
  · exact ⟨rfl, .of_eq rfl, fun hb ↦ absurd hb hok⟩

end Files

/-! ## The command line -/

theorem writeBackup_ends (a : List Byte) (w : World) : Code.Ends (writeBackup a) w
    (fun _ w' ↦ w'.diags = w.diags ∧ w.Grew Act.Preliminary w') fun _ _ ↦ False := by
  refine (openWrite_ends (Act.Preliminary.opened _)).bind fun b w₁ h₁ ↦ ?_
  cases b with
  | false => exact .pure h₁
  | true =>
      refine ((writeBytes_ends (Act.Preliminary.backup _)).mono (fun _ _ h ↦ ⟨h.1.trans h₁.1, h₁.2.trans h.2⟩)
        fun _ _ h ↦ h).bind fun _ _ h ↦ .pure h

theorem parseArgsLoop_ends (argv : List (List Byte)) (out : Args) : ∀ w : World, w.Ok →
    Code.Ends (parseArgsLoop argv out) w (fun _ w' ↦ w'.Ok ∧ w.Grew Act.Preliminary w')
      (Exited Act.Preliminary w) := by
  refine parseArgsLoop_induction (P := fun x ↦ ∀ w : World, w.Ok → Code.Ends x w
    (fun _ w' ↦ w'.Ok ∧ w.Grew Act.Preliminary w') (Exited Act.Preliminary w)) ?_ ?_ ?_ ?_ argv out
  · exact fun out w hw ↦ .pure ⟨hw, .of_eq rfl⟩
  · intro text htext w hw
    have hprint : Act.Preliminary (.printed (.bytes text)) := by
      rcases htext with h | h
      · rw [h]
        exact .usage
      · rw [h]
        exact .version
    refine (print_ends hprint).noExit.bind fun _ w₁ h₁ ↦ .exit ?_
    exact ⟨iff_of_true rfl ((congrArg Diag.ok h₁.1).trans hw), h₁.2.1⟩
  · exact fun msg w _ ↦ (ends_fail (by decide)).mono (fun _ _ h ↦ h) fun _ _ h ↦ .of_fail h
  · intro a x hx w hw
    refine (writeBackup_ends a w).noExit.bind fun _ w₁ h₁ ↦ ?_
    have hw₁ : w₁.Ok := (congrArg Diag.ok h₁.1).trans hw
    refine (hx w₁ hw₁).mono (fun _ _ h ↦ ⟨h.1, h₁.2.trans h.2⟩) fun _ _ h ↦ ⟨h.1, h₁.2.trans h.2⟩

theorem parseArgs_ends (argv : List (List Byte)) {w : World} (hw : w.Ok) : Code.Ends (parseArgs argv) w
    (fun _ w' ↦ w'.Ok ∧ w.Grew Act.Preliminary w') (Exited Act.Preliminary w) :=
  (parseArgsLoop_ends argv {} w hw).bind fun _ _ h ↦ .pure h

/-! ## The inputs -/

theorem readFile_ends (path : Path) (w : World) : Code.Ends (readFile path) w
    (fun o w' ↦ w' = w ∧ o = w.files path) fun _ _ ↦ False := by
  intro p hp
  obtain rfl := Option.some.inj hp
  exact ⟨rfl, rfl⟩

theorem readStdin_ends (w : World) : Code.Ends readStdin w
    (fun _ w' ↦ w'.diags = w.diags ∧ w'.acts = w.acts) fun _ _ ↦ False := by
  intro p hp
  obtain rfl := Option.some.inj hp
  exact ⟨rfl, rfl⟩

theorem readChunk_ends (path : Path) (w : World) : Code.Ends (readChunk path) w
    (fun _ w' ↦ w'.diags = w.diags ∧ w'.acts = w.acts) fun e w' ↦ e ≠ 0 ∧ ¬ w'.Ok ∧ w'.acts = w.acts := by
  refine .ite (fun _ ↦ (readStdin_ends w).mono (fun _ _ h ↦ h) fun _ _ h ↦ h.elim) fun _ ↦ ?_
  refine (readFile_ends path w).noExit.bind fun o w' h ↦ ?_
  obtain ⟨rfl, -⟩ := h
  cases o with
  | some chunk => exact .pure ⟨rfl, rfl⟩
  | none => exact ends_fail (by decide)

theorem readChunks_ends (paths : List Path) (w : World) : Code.Ends (readChunks paths) w
    (fun _ w' ↦ w'.diags = w.diags ∧ w'.acts = w.acts) fun e w' ↦ e ≠ 0 ∧ ¬ w'.Ok ∧ w'.acts = w.acts := by
  induction paths generalizing w with
  | nil => exact .pure ⟨rfl, rfl⟩
  | cons path paths ih =>
      rw [readChunks]
      refine (readChunk_ends path w).bind fun chunk w₁ h₁ ↦ ?_
      refine ((ih w₁).mono (fun _ _ h ↦ ?_) fun _ _ h ↦ ?_).bind fun _ _ h ↦ .pure h
      · exact ⟨h.1.trans h₁.1, h.2.trans h₁.2⟩
      · exact ⟨h.1, h.2.1, h.2.2.trans h₁.2⟩

theorem readInputs_ends (args : Args) (w : World) : Code.Ends (readInputs args) w
    (fun _ w' ↦ w'.diags = w.diags ∧ w'.acts = w.acts) fun e w' ↦ e ≠ 0 ∧ ¬ w'.Ok ∧ w'.acts = w.acts := by
  refine .ite (fun _ ↦ ?_) fun _ ↦ (readChunks_ends _ w).bind fun _ _ h ↦ .pure h
  exact (readStdin_ends w).noExit.bind fun _ _ h ↦ .pure h

/-! ## The rules -/

theorem condIds_ends (f : LexFile) (loc : SourceLoc) (conds : List (List Byte)) (w : World) :
    Code.Ends (condIds f loc conds) w (fun ids w' ↦ w' = w ∧ conds.mapM f.condId = some ids)
      fun e w' ↦ e ≠ 0 ∧ ¬ w'.Ok ∧ w'.acts = w.acts := by
  induction conds with
  | nil => exact .pure ⟨rfl, rfl⟩
  | cons cn conds ih =>
      rw [condIds]
      cases hcn : f.condId cn with
      | none => exact ends_fail (by decide)
      | some c =>
          refine ih.bind fun ids w' h ↦ .pure ⟨h.1, ?_⟩
          rw [List.mapM_cons, hcn, h.2]
          rfl

/-- **The rules.**  If no error is reported, the automaton is the one of the rules, and in any case it is
one of some rules. -/
theorem addRules_ends (fuel : Nat) (f : LexFile) (rs : List Rule) (i k : Nat) (nfa : NFA) (w : World) :
    Code.Ends (Driver.addRules fuel f rs i k nfa) w
      (fun nfa' w' ↦ w'.acts = w.acts ∧ (w'.Ok → w.Ok ∧ f.addRules fuel rs i k nfa = some nfa') ∧
        ∃ specs, nfa' = (nfa.addRules k specs).withEof nfa'.eofRules)
      fun e w' ↦ e ≠ 0 ∧ ¬ w'.Ok ∧ w'.acts = w.acts := by
  induction rs generalizing i k nfa w with
  | nil => exact .pure ⟨rfl, fun h ↦ ⟨h, rfl⟩, [], rfl⟩
  | cons r rs ih =>
      rw [Driver.addRules]
      refine (condIds_ends f r.loc r.conds w).bind fun ids w' h ↦ ?_
      obtain ⟨rfl, hids⟩ := h
      have hsites : f.sites r = some { conds := ids, anyState := r.anyState } := by
        rw [LexFile.sites, hids]
        rfl
      refine .ite (fun heof ↦ (ih (i + 1) k _ w').mono (fun nfa' w'' h ↦ ⟨h.1, fun hok ↦ ?_, ?_⟩)
        fun _ _ h ↦ h) fun heof ↦ ?_
      · refine ⟨(h.2.1 hok).1, ?_⟩
        rw [LexFile.addRules, hsites]
        exact (if_pos heof).trans (h.2.1 hok).2
      · obtain ⟨specs, hspecs⟩ := h.2.2
        refine ⟨specs, hspecs.trans ?_⟩
        have hblind := NFA.addRules_withEof nfa ((nfa.siteConds { conds := ids, anyState := r.anyState }).foldl
          (fun rs c ↦ rs.modify c (· ++ [i])) nfa.eofRules) k specs
        have hlists := congrArg (NFA.withEof · nfa'.eofRules) hblind
        exact hlists
      · refine .bind (Q := fun q w'' ↦ w'' = w' ∧ parsePattern fuel
          { macros := f.resolver, ci := f.options.caseInsensitive, loc := r.loc } r.pattern = some q)
          (.lift fun q hq ↦ ⟨rfl, hq⟩) fun q w'' hq ↦ ?_
        obtain ⟨⟨tree, trailLen, eol⟩, diags⟩ := q
        obtain ⟨rfl, hparse⟩ := hq
        refine .bind (Q := fun _ w₁ ↦ w₁.acts = w''.acts ∧ w₁.diags = w''.diags ++ diags) (.modify ⟨rfl, rfl⟩)
          fun _ w₁ h₁ ↦ ?_
        cases tree with
        | none =>
            exact (ends_fail (by decide)).mono (fun _ _ h ↦ h) fun _ _ h ↦ ⟨h.1, h.2.1, h.2.2.trans h₁.1⟩
        | some tree =>
            refine (ih (i + 1) (k + 1) _ w₁).mono (fun nfa' w₂ h ↦ ⟨h.1.trans h₁.1, fun hok ↦ ?_, ?_⟩)
              fun _ _ h ↦ ⟨h.1, h.2.1, h.2.2.trans h₁.1⟩
            · obtain ⟨hok₁, hrest⟩ := h.2.1 hok
              have hdiags := Diag.ok_append.1 ((congrArg Diag.ok h₁.2).symm.trans hok₁)
              refine ⟨hdiags.1, ?_⟩
              rw [LexFile.addRules, hsites]
              dsimp only [Option.bind_eq_bind, Option.bind_some]
              rw [if_neg heof, hparse]
              exact (if_pos hdiags.2).trans hrest
            · obtain ⟨specs, hspecs⟩ := h.2.2
              exact ⟨⟨tree, { conds := ids, anyState := r.anyState }, trailLen⟩ :: specs, hspecs⟩

/-! ## The input of `emit_c` -/

theorem diagOk_ends (w : World) : Code.Ends diagOk w (fun b w' ↦ w' = w ∧ (b = true ↔ w.Ok))
    fun _ _ ↦ False := by
  intro p hp
  obtain rfl := Option.some.inj hp
  exact ⟨rfl, Iff.rfl⟩

theorem checkReject_ends (f : LexFile) (nfa : NFA) (w : World) : Code.Ends (checkReject f nfa) w
    (fun _ w' ↦ w' = w ∧ (usesReject f = true → ∀ v ∈ nfa.ruleTrail, 0 ≤ v))
    fun e w' ↦ e ≠ 0 ∧ ¬ w'.Ok ∧ w'.acts = w.acts := by
  refine .ite (fun hreject ↦ ?_) fun hreject ↦ .pure ⟨rfl, fun h ↦ absurd h hreject⟩
  cases hfind : nfa.ruleTrail.findIdx? (· < 0) with
  | none =>
      refine .pure ⟨rfl, fun _ v hv ↦ not_lt.1 ?_⟩
      exact of_decide_eq_false (List.findIdx?_eq_none_iff.1 hfind v hv)
  | some i => exact ends_fail (by decide)

theorem readSkeleton_ends (args : Args) (w : World) : Code.Ends (readSkeleton args) w
    (fun _ w' ↦ w' = w) fun e w' ↦ e ≠ 0 ∧ ¬ w'.Ok ∧ w'.acts = w.acts := by
  refine .ite (fun _ ↦ .pure rfl) fun _ ↦ ?_
  refine (readFile_ends args.skeletonPath w).noExit.bind fun o w' h ↦ ?_
  obtain ⟨rfl, -⟩ := h
  cases o with
  | some buf => exact .pure rfl
  | none => exact ends_fail (by decide)

/-- The input of `emit_c` is what the source and the command line say. -/
structure Compiled (args : Args) (label : Path) (source : List Byte) (cg : CodegenInput) : Prop where
  parsed : ∃ f ds, parseLexFile (text label) source = some (some f, ds) ∧ Diag.ok ds = true ∧
    cg.file = override args f
  nfa : ∃ fuel, cg.file.nfa fuel = some cg.nfa
  dfa : buildDfa cg.nfa (cg.compress != .full) (cg.compress == .compress) = some cg.dfa
  usesReject : cg.usesReject = Driver.usesReject cg.file
  trail : cg.usesReject = true → ∀ v ∈ cg.nfa.ruleTrail, 0 ≤ v
  compress : cg.compress = args.compress

/-- **A file**: no error and what it says, or an error and the end of the program. -/
theorem compileSource_ends (fuel : Nat) (args : Args) (label : Path) (source : List Byte) {w : World}
    (hw : w.Ok) : Code.Ends (compileSource fuel args label source) w
      (fun cg w' ↦ w'.Ok ∧ w'.acts = w.acts ∧ Compiled args label source cg)
      fun e w' ↦ e ≠ 0 ∧ ¬ w'.Ok ∧ w'.acts = w.acts := by
  refine .bind (Q := fun q w' ↦ w' = w ∧ parseLexFile (text label) source = some q)
    (.lift fun q hq ↦ ⟨rfl, hq⟩) fun q w' hq ↦ ?_
  obtain ⟨file, diags⟩ := q
  obtain ⟨rfl, hparse⟩ := hq
  have hfile : ∃ out, file = if Diag.ok diags then some out else none := by
    obtain ⟨r, -, hr⟩ := Option.map_eq_some_iff.1 hparse
    obtain ⟨rfl, rfl⟩ := Prod.mk.inj hr
    exact ⟨_, rfl⟩
  obtain ⟨out, rfl⟩ := hfile
  refine .bind (Q := fun _ w₁ ↦ w₁.acts = w'.acts ∧ w₁.diags = w'.diags ++ diags) (.modify ⟨rfl, rfl⟩)
    fun _ w₁ h₁ ↦ ?_
  cases hok : Diag.ok diags with
  | false =>
      refine .exit ⟨by decide, fun h ↦ ?_, h₁.1⟩
      rw [World.Ok, h₁.2, Diag.ok_append, hok] at h
      exact absurd h.2 Bool.false_ne_true
  | true =>
      rw [hok] at hparse
      dsimp only [if_true]
      refine (addRules_ends fuel (override args out) (override args out).rules 0 0 _ w₁).mono
        (fun _ _ h ↦ h) (fun _ _ h ↦ ⟨h.1, h.2.1, h.2.2.trans h₁.1⟩) |>.bind fun nfa w₂ h₂ ↦ ?_
      refine (diagOk_ends w₂).noExit.bind fun b w₃ h₃ ↦ ?_
      obtain ⟨rfl, hb⟩ := h₃
      refine .ite (fun hnot ↦ .exit ⟨by decide, fun h ↦ ?_, h₂.1.trans h₁.1⟩) fun hnot ↦ ?_
      · rw [hb.2 h] at hnot
        exact absurd hnot (by decide)
      · have hok₃ : w₃.Ok := hb.1 (by cases b with
          | true => rfl
          | false => exact absurd rfl hnot)
        refine ((checkReject_ends _ nfa w₃).mono (fun _ _ h ↦ h)
          fun _ _ h ↦ ⟨h.1, h.2.1, h.2.2.trans (h₂.1.trans h₁.1)⟩).bind fun _ w₄ h₄ ↦ ?_
        obtain ⟨rfl, htrail⟩ := h₄
        refine .bind (Q := fun dfa w₅ ↦ w₅ = w₄ ∧
          buildDfa nfa (args.compress != .full) (args.compress == .compress) = some dfa)
          (.lift fun _ h ↦ ⟨rfl, h⟩) fun dfa w₅ h₅ ↦ ?_
        obtain ⟨rfl, hdfa⟩ := h₅
        refine ((readSkeleton_ends args w₅).mono (fun _ _ h ↦ h)
          fun _ _ h ↦ ⟨h.1, h.2.1, h.2.2.trans (h₂.1.trans h₁.1)⟩).bind fun skeleton w₆ h₆ ↦ ?_
        obtain rfl := h₆
        exact .pure ⟨hok₃, h₂.1.trans h₁.1, ⟨out, diags, hparse, hok, rfl⟩, ⟨fuel, (h₂.2.1 hok₃).2⟩, hdfa,
          rfl, htrail, rfl⟩

/-! ## What is written in the end -/

section Write

variable {std : StdSort Nat} {args : Args} {cg : CodegenInput} {w : World}

theorem writeStringToPath_ends {path : Path} {content : Content} (hw : w.Ok)
    (h : Act.Of std cg (.wrote path content)) : Code.Ends (writeStringToPath path content) w
      (fun b w' ↦ (b = true ↔ w'.Ok) ∧ w.Grew (Act.Of std cg) w' ∧ (b = true → .wrote path content ∈ w'.acts))
      (Failed (Act.Of std cg) w) := by
  have hfail : ∀ msg (w₁ : World), w.Grew (Act.Of std cg) w₁ →
      Code.Ends (do error {} msg; return false : Driver Bool) w₁ (fun b w' ↦ (b = true ↔ w'.Ok) ∧
        w.Grew (Act.Of std cg) w' ∧ (b = true → .wrote path content ∈ w'.acts))
        (Failed (Act.Of std cg) w) := by
    intro msg w₁ h₁
    refine (ends_error_pure.mono (fun b w' hb ↦ ?_) fun _ _ h ↦ h).noExit
    obtain ⟨rfl, hnot, hacts⟩ := hb
    exact ⟨iff_of_false Bool.false_ne_true hnot, h₁.trans (.of_eq hacts), fun h ↦ absurd h Bool.false_ne_true⟩
  refine (openWrite_ends (P := Act.Of std cg) (.opened path)).noExit.bind
    fun b w₁ h₁ ↦ .ite (fun _ ↦ ?_) fun _ ↦ hfail _ w₁ h₁.2
  refine (writeAll_ends h).noExit.bind fun b w₂ h₂ ↦ .ite (fun hb ↦ .pure ⟨iff_of_true rfl ?_, h₁.2.trans h₂.2.1,
    fun _ ↦ h₂.2.2 hb⟩) fun _ ↦ hfail _ w₂ (h₁.2.trans h₂.2.1)
  exact (congrArg Diag.ok (h₂.1.trans h₁.1)).trans hw

/-- The end of the program if something could not be written. -/
theorem ends_unless {x : Driver Bool} {a : Act} (hx : Code.Ends x w
    (fun b w' ↦ (b = true ↔ w'.Ok) ∧ w.Grew (Act.Of std cg) w' ∧ (b = true → a ∈ w'.acts))
      (Failed (Act.Of std cg) w)) :
    Code.Ends (do if !(← x) then Code.exit 1) w (fun _ w' ↦ w'.Ok ∧ w.Grew (Act.Of std cg) w' ∧ a ∈ w'.acts)
      (Failed (Act.Of std cg) w) := by
  refine hx.bind fun b w' h ↦ ?_
  cases b with
  | true => exact .pure ⟨h.1.1 rfl, h.2.1, h.2.2 rfl⟩
  | false => exact .exit ⟨by decide, fun hok ↦ absurd (h.1.2 hok) Bool.false_ne_true, h.2.1⟩

/-- What the command line asks for. -/
inductive Act.Wanted (std : StdSort Nat) (args : Args) (cg : CodegenInput) : Act → Prop
  | printed (h : args.toStdout = true) : Wanted std args cg (.printed (.scanner cg))
  | scanner (h : args.toStdout = false) : Wanted std args cg (.wrote args.outputPath (.scanner cg))
  | tables (h : args.tablesPath ≠ []) : Wanted std args cg (.wrote args.tablesPath (.bytes (tablesFile std cg)))
  | header (h : args.headerPath ≠ []) : Wanted std args cg (.wrote
      (if args.headerPath = ascii "_default_" then defaultHeader args.outputPath else args.headerPath)
      (.header cg))

theorem writeScanner_ends (hw : w.Ok) : Code.Ends (writeScanner args cg) w
    (fun _ w' ↦ w'.Ok ∧ w.Grew (Act.Of std cg) w' ∧ (if args.toStdout then .printed (.scanner cg)
      else .wrote args.outputPath (.scanner cg)) ∈ w'.acts) (Failed (Act.Of std cg) w) := by
  refine .ite (fun ht ↦ ?_) fun ht ↦ ?_
  · rw [if_pos ht]
    refine (print_ends (P := Act.Of std cg) .printed).noExit.bind fun b w₁ h₁ ↦ ?_
    cases b with
    | true => exact .pure ⟨(congrArg Diag.ok h₁.1).trans hw, h₁.2.1, h₁.2.2 rfl⟩
    | false =>
        exact (ends_fail (by decide)).mono (fun _ _ h ↦ h)
          fun _ _ h ↦ ⟨h.1, h.2.1, h₁.2.1.trans (.of_eq h.2.2)⟩
  · rw [if_neg ht]
    exact ends_unless (writeStringToPath_ends hw (.scanner _))

theorem writeTables_ends (hw : w.Ok) : Code.Ends (writeTables std args cg) w
    (fun _ w' ↦ w'.Ok ∧ w.Grew (Act.Of std cg) w' ∧
      (args.tablesPath ≠ [] → .wrote args.tablesPath (.bytes (tablesFile std cg)) ∈ w'.acts))
    (Failed (Act.Of std cg) w) := by
  refine .ite (fun _ ↦ ?_) fun hnil ↦ .pure ⟨hw, .of_eq rfl, fun h ↦ absurd h hnil⟩
  have hfile : Code.Ends (writeTablesFile args.tablesPath (tablesFile std cg)) w
      (fun b w' ↦ w'.diags = w.diags ∧ w.Grew (Act.Of std cg) w' ∧
        (b = true → .wrote args.tablesPath (.bytes (tablesFile std cg)) ∈ w'.acts))
      (Failed (Act.Of std cg) w) := by
    refine (openWrite_ends (P := Act.Of std cg) (.opened _)).noExit.bind fun b w₁ h₁ ↦ .ite (fun _ ↦ ?_)
      fun _ ↦ .pure ⟨h₁.1, h₁.2, fun h ↦ absurd h Bool.false_ne_true⟩
    exact ((writeAll_ends (P := Act.Of std cg) (.tables _)).mono
      (fun _ _ h ↦ ⟨h.1.trans h₁.1, h₁.2.trans h.2.1, h.2.2⟩) fun _ _ h ↦ h).noExit
  refine hfile.bind fun b w₁ h₁ ↦ ?_
  cases b with
  | true => exact .pure ⟨(congrArg Diag.ok h₁.1).trans hw, h₁.2.1, fun _ ↦ h₁.2.2 rfl⟩
  | false =>
      exact (ends_fail (by decide)).mono (fun _ _ h ↦ h)
        fun _ _ h ↦ ⟨h.1, h.2.1, h₁.2.1.trans (.of_eq h.2.2)⟩

theorem writeHeader_ends (hw : w.Ok) : Code.Ends (writeHeader args cg) w
    (fun _ w' ↦ w'.Ok ∧ w.Grew (Act.Of std cg) w' ∧ (args.headerPath ≠ [] → .wrote
      (if args.headerPath = ascii "_default_" then defaultHeader args.outputPath else args.headerPath)
      (.header cg) ∈ w'.acts))
    (Failed (Act.Of std cg) w) := by
  refine .ite (fun _ ↦ ?_) fun hnil ↦ .pure ⟨hw, .of_eq rfl, fun h ↦ absurd h hnil⟩
  exact (ends_unless (writeStringToPath_ends hw (.header _))).mono (fun _ _ h ↦ ⟨h.1, h.2.1, fun _ ↦ h.2.2⟩)
    fun _ _ h ↦ h

/-- **Everything is written, or an error is reported.** -/
theorem write_ends (hw : w.Ok) : Code.Ends (do
      writeScanner args cg
      writeTables std args cg
      writeHeader args cg
      return if ← diagOk then 0 else 1 : Driver Nat) w
    (fun rc w' ↦ (rc = 0 ↔ w'.Ok) ∧ w.Grew (Act.Of std cg) w' ∧ ∀ a, Act.Wanted std args cg a → a ∈ w'.acts)
    (Failed (Act.Of std cg) w) := by
  refine (writeScanner_ends hw).bind fun _ w₁ h₁ ↦ ?_
  refine ((writeTables_ends h₁.1).mono (fun _ _ h ↦ h) fun _ _ h ↦ ⟨h.1, h.2.1, h₁.2.1.trans h.2.2⟩).bind fun _ w₂ h₂ ↦ ?_
  refine ((writeHeader_ends h₂.1).mono (fun _ _ h ↦ h)
    fun _ _ h ↦ ⟨h.1, h.2.1, h₁.2.1.trans (h₂.2.1.trans h.2.2)⟩).bind fun _ w₃ h₃ ↦ ?_
  refine (diagOk_ends w₃).noExit.bind fun b w₄ h₄ ↦ .pure ?_
  obtain ⟨rfl, hb⟩ := h₄
  refine ⟨iff_of_true (if_pos (hb.2 h₃.1)) h₃.1, h₁.2.1.trans (h₂.2.1.trans h₃.2.1), ?_⟩
  rintro _ (ht | ht | htables | hheader)
  · exact h₃.2.1.mem (h₂.2.1.mem (by simpa only [ht, if_true] using h₁.2.2))
  · exact h₃.2.1.mem (h₂.2.1.mem (by simpa only [ht, Bool.false_eq_true, if_false] using h₁.2.2))
  · exact h₃.2.1.mem (h₂.2.2 htables)
  · exact h₃.2.2 hheader

end Write

/-! ## What is right about it -/

/-- The tables that `emit_c` emits. -/
def CodegenInput.tables (std : StdSort Nat) (cg : CodegenInput) : Tables :=
  emitTables std cg.compress cg.usesReject cg.nfa cg.dfa

/-- The scanner is one of the grammar: its tables are, and let it scan; it has the body with `REJECT` just
if an action has that word, and then no trailing context that this body cannot cut off; and at the end of
the input each condition has its first rule for it. -/
structure CodegenInput.Right (std : StdSort Nat) (cg : CodegenInput) (G : Grammar) : Prop where
  implements : (cg.tables std).Implements G
  scan : (cg.tables std).Scan G cg.usesReject
  reject : cg.usesReject = true ↔ ∃ r ∈ cg.file.rules, ∃ pre post, r.action = pre ++ ascii "REJECT" ++ post ∧
    (∀ b ∈ pre.getLast?, inWord b = false) ∧ ∀ b ∈ post.head?, inWord b = false
  trail : cg.usesReject = true → ∀ j, 0 ≤ G.trailLen j
  eof : ∀ c < cg.file.conds.length + 1, (cg.nfa.eofRules.getD c []).head? = cg.file.eofRule c

theorem Compiled.right {args : Args} {label : Path} {source : List Byte} {cg : CodegenInput}
    (h : Compiled args label source cg) (std : StdSort Nat) :
    ∃ fuel G, cg.file.grammar fuel = some G ∧ cg.Right std G := by
  obtain ⟨fuel, hnfa⟩ := h.nfa
  obtain ⟨G, dfa, t, hG, hgen, ht, ha, he⟩ := LexFile.implements_grammar hnfa std cg.compress cg.usesReject
  have htables : cg.tables std = t := by
    obtain ⟨dfa', hdfa', hrest⟩ := Option.bind_eq_some_iff.1 hgen
    obtain rfl := Option.some.inj (h.dfa.symm.trans hdfa')
    exact (Prod.mk.inj (Option.some.inj hrest)).2
  have hconds : 0 < G.condNames.length := by
    obtain ⟨specs, -, hspecs⟩ := Option.bind_eq_some_iff.1 hG
    obtain rfl := Option.some.inj hspecs
    exact Nat.succ_pos _
  refine ⟨fuel, G, hG, ?_⟩
  rw [← htables] at ht ha he
  refine ⟨ht, ht.scan hconds ha he, ?_, fun hreject j ↦ ?_, fun c hc ↦ LexFile.head_eofRules hnfa hc⟩
  · rw [h.usesReject, Driver.usesReject, List.any_eq_true]
    exact exists_congr fun r ↦ and_congr_right fun _ ↦ containsWord_iff (List.cons_ne_nil _ _) (by decide +kernel)
  · -- the lengths of the rules are those that the automaton has
    have hlen : G.trailLen j = cg.nfa.ruleTrail.getD j 0 := by
      obtain ⟨G', hG', hnfa'⟩ := LexFile.nfa_eq hnfa
      obtain rfl := Option.some.inj (hG.symm.trans hG')
      rw [hnfa']
      exact (G.realizes.ruleTrail j).symm
    rw [hlen, List.getD_eq_getElem?_getD]
    cases hj : cg.nfa.ruleTrail[j]? with
    | none => exact le_rfl
    | some v => exact h.trail hreject v (List.mem_of_getElem? hj)

/-- **How a run of the generator ends.**  On the command line; on an input that cannot be read or is wrong,
with nothing written but what `-b` asks for; or with a scanner of the grammar of the file, its tables and
its header, all that was asked for if the exit code is 0. -/
inductive Outcome (std : StdSort Nat) (argv : List (List Byte)) (w : World) : Nat → World → Prop
  | left {rc w'} (hargs : parseArgs argv w = some (.inl rc, w')) (hacts : w.Grew Act.Preliminary w') :
      Outcome std argv w rc w'
  | failed {args w₁ rc w'} (hargs : parseArgs argv w = some (.inr args, w₁)) (hrc : rc ≠ 0)
      (hacts : w.Grew Act.Preliminary w') : Outcome std argv w rc w'
  | compiled {args w₁ label source w₂ cg fuel G rc w'} (hargs : parseArgs argv w = some (.inr args, w₁))
      (hinputs : readInputs args w₁ = some (.inr (label, source), w₂))
      (hcg : Compiled args label (normaliseSource source) cg) (hG : cg.file.grammar fuel = some G)
      (hright : cg.Right std G) (hbefore : w.Grew Act.Preliminary w₁) (hafter : w₁.Grew (Act.Of std cg) w')
      (hall : rc = 0 → ∀ a, Act.Wanted std args cg a → a ∈ w'.acts) : Outcome std argv w rc w'

theorem main_outcome {fuel : Nat} {std : StdSort Nat} {argv : List (List Byte)} {w w' : World}
    {r : Nat ⊕ Nat} (hmain : Driver.main fuel std argv w = some (r, w')) (hw : w.Ok) :
    (r.elim id id = 0 ↔ w'.Ok) ∧ Outcome std argv w (r.elim id id) w' := by
  rcases Code.of_bind hmain with ⟨e, w₁, hargs, hp⟩ | ⟨args, w₁, hargs, hmain⟩
  · obtain ⟨rfl, rfl⟩ := Prod.mk.inj hp
    have hleft := parseArgs_ends argv hw _ hargs
    exact ⟨hleft.1, .left hargs hleft.2⟩
  have hbefore := parseArgs_ends argv hw _ hargs
  rcases Code.of_bind hmain with ⟨e, w₂, hinputs, hp⟩ | ⟨⟨label, source⟩, w₂, hinputs, hmain⟩
  · obtain ⟨rfl, rfl⟩ := Prod.mk.inj hp
    have hfail := readInputs_ends args w₁ _ hinputs
    exact ⟨iff_of_false hfail.1 hfail.2.1, .failed hargs hfail.1 (hbefore.2.trans (.of_eq hfail.2.2))⟩
  have hread := readInputs_ends args w₁ _ hinputs
  have hok₂ : w₂.Ok := (congrArg Diag.ok hread.1).trans hbefore.1
  rcases Code.of_bind hmain with ⟨e, w₃, hcg, hp⟩ | ⟨cg, w₃, hcg, hmain⟩
  · obtain ⟨rfl, rfl⟩ := Prod.mk.inj hp
    have hfail := compileSource_ends fuel args label _ hok₂ _ hcg
    exact ⟨iff_of_false hfail.1 hfail.2.1, .failed hargs hfail.1
      (hbefore.2.trans (.of_eq (hfail.2.2.trans hread.2)))⟩
  obtain ⟨hok₃, hacts, hcompiled⟩ := compileSource_ends fuel args label _ hok₂ _ hcg
  obtain ⟨fuel', G, hG, hright⟩ := hcompiled.right std
  have hsame : w₁.Grew (Act.Of std cg) w₃ := .of_eq (hacts.trans hread.2)
  have hwrite := @write_ends std args cg _ hok₃ _ hmain
  cases r with
  | inl e =>
      exact ⟨iff_of_false hwrite.1 hwrite.2.1, .compiled hargs hinputs hcompiled hG hright hbefore.2
        (hsame.trans hwrite.2.2) fun hzero ↦ absurd hzero hwrite.1⟩
  | inr rc =>
      exact ⟨hwrite.1, .compiled hargs hinputs hcompiled hG hright hbefore.2 (hsame.trans hwrite.2.1)
        fun _ ↦ hwrite.2.2⟩

/-- **The generator is correct.**  No failure is silent, and the run ends in one of the ways above. -/
theorem coreMain_outcome {fuel : Nat} {std : StdSort Nat} {argv : List (List Byte)} {w w' : World}
    {rc : Nat} (h : coreMain fuel std argv w = some (rc, w')) (hw : w.Ok) :
    (rc = 0 ↔ w'.Ok) ∧ Outcome std argv w rc w' := by
  obtain ⟨⟨r, w''⟩, hmain, hr⟩ := Option.map_eq_some_iff.1 h
  obtain ⟨rfl, rfl⟩ := Prod.mk.inj hr
  exact main_outcome hmain hw

/-- The file of the only rule `a`, with the line ends of another system. -/
def letterWorld : World :=
  { files := fun path ↦ if path = ascii "a.l" then some (ascii "%%\x0d\na\tb();\x0d\n") else none }

theorem coreMain_outcome_letter : letterWorld.Ok ∧ ∃ w',
    coreMain 2 (.insertion Nat) [ascii "a.l"] letterWorld = some (0, w') ∧
      (0 = 0 ↔ w'.Ok) ∧ Outcome (.insertion Nat) [ascii "a.l"] letterWorld 0 w' := by
  have hrun : (coreMain 2 (.insertion Nat) [ascii "a.l"] letterWorld).map Prod.fst = some 0 := by decide +kernel
  obtain ⟨⟨rc, w'⟩, h, hrc⟩ := Option.map_eq_some_iff.1 hrun
  obtain rfl : rc = 0 := hrc
  exact ⟨rfl, w', h, coreMain_outcome h rfl⟩

/-! ## The tables file -/

/-- The lists of rules for the end of the input do not matter for the tables. -/
theorem generate_withEof (std : StdSort Nat) (mode : CompressMode) (usesReject : Bool) (nfa : NFA)
    (l : List (List Nat)) : generate std mode usesReject (nfa.withEof l) = generate std mode usesReject nfa := rfl

/-- The numbers that the tables hold, and their sizes, are `int`s. -/
def Tables.FitInts (t : Tables) : Prop :=
  (∀ a, ∀ v ∈ t.arrays a, int32 v = v) ∧ ∀ a, (t.arrays a).length < 2147483648

/-- The tables file of a file loads into the scanner of the file. -/
theorem Compiled.fload {args : Args} {label : Path} {source : List Byte} {cg : CodegenInput}
    (h : Compiled args label source cg) {std : StdSort Nat} (hints : (cg.tables std).FitInts)
    (hrules : 0 < cg.nfa.ruleTrail.length) {m : Arrays}
    (hm : (loaderConsts std cg.compress cg.nfa cg.dfa).Sized m) :
    yytablesFload (loaderConsts std cg.compress cg.nfa cg.dfa) (some (tablesFile std cg)) m =
      (0, (cg.tables std).arrays) := by
  obtain ⟨fuel, hnfa⟩ := h.nfa
  obtain ⟨G, hG, heq⟩ := LexFile.nfa_eq hnfa
  generalize cg.nfa.eofRules = l at heq
  have hgen : generate std cg.compress cg.usesReject G.nfa = some (cg.dfa, cg.tables std) := by
    rw [← generate_withEof std cg.compress cg.usesReject G.nfa l, ← heq, generate, h.dfa]
    rfl
  -- the scanner and its file are those of the grammar
  let S : Scanner std := ⟨cg.compress, cg.usesReject, G, cg.dfa, cg.tables std, hgen, hints.1, hints.2⟩
  have hconsts : loaderConsts std cg.compress cg.nfa cg.dfa = S.consts := by
    rw [heq]
    rfl
  have hfile : tablesFile std cg = S.file (ascii "yy") := by
    rw [tablesFile, heq]
    rfl
  have hS : 0 < S.nrules := by
    rw [heq] at hrules
    exact hrules
  rw [hconsts] at hm ⊢
  rw [hfile]
  exact Scanner.Fits.fload_file ⟨⟨rfl, rfl, rfl, rfl, rfl⟩, rfl⟩ hS (by decide) hm

/-- **The tables file loads.**  A run that is asked for a tables file and ends with exit code 0 has written
one that the scanner, which it has written too, loads: its tables then are what they were. -/
theorem coreMain_tables_load {fuel : Nat} {std : StdSort Nat} {argv : List (List Byte)} {w w₁ w' : World}
    {args : Args} (h : coreMain fuel std argv w = some (0, w')) (hw : w.Ok)
    (hargs : parseArgs argv w = some (.inr args, w₁)) (htables : args.tablesPath ≠ []) :
    ∃ cg bytes, (.wrote args.tablesPath (.bytes bytes) ∈ w'.acts) ∧
      (.printed (.scanner cg) ∈ w'.acts ∨ .wrote args.outputPath (.scanner cg) ∈ w'.acts) ∧
      ((cg.tables std).FitInts → 0 < cg.nfa.ruleTrail.length →
        ∀ m, (loaderConsts std cg.compress cg.nfa cg.dfa).Sized m →
          yytablesFload (loaderConsts std cg.compress cg.nfa cg.dfa) (some bytes) m =
            (0, (cg.tables std).arrays)) := by
  obtain ⟨⟨r, w''⟩, hmain, hr⟩ := Option.map_eq_some_iff.1 h
  obtain ⟨hcode, rfl⟩ := Prod.mk.inj hr
  obtain ⟨-, hout⟩ := main_outcome hmain hw
  dsimp only at hcode
  rw [hcode] at hout
  cases hout with
  | left hleft => exact absurd (hargs.symm.trans hleft) (by rintro ⟨⟩)
  | failed _ hrc => exact absurd rfl hrc
  | compiled hargs' _ hcg _ _ _ _ hall =>
      obtain ⟨hsame, -⟩ := Prod.mk.inj (Option.some.inj (hargs.symm.trans hargs'))
      obtain rfl := Sum.inr.inj hsame
      refine ⟨_, _, hall rfl _ (.tables htables), ?_, fun hints hrules m hm ↦ hcg.fload hints hrules hm⟩
      cases hto : args.toStdout with
      | true => exact Or.inl (hall rfl _ (.printed hto))
      | false => exact Or.inr (hall rfl _ (.scanner hto))

/-- The tables of the rule `a` in a file of their own. -/
theorem coreMain_tables_load_letter :
    letterWorld.Ok ∧ ∃ args w₁ w',
      coreMain 2 (.insertion Nat) [ascii "a.l", ascii "--tables-file=a.tbl"] letterWorld = some (0, w') ∧
      parseArgs [ascii "a.l", ascii "--tables-file=a.tbl"] letterWorld = some (.inr args, w₁) ∧
      args.tablesPath ≠ [] ∧ ∃ cg bytes, (.wrote args.tablesPath (.bytes bytes) ∈ w'.acts) ∧
        (.printed (.scanner cg) ∈ w'.acts ∨ .wrote args.outputPath (.scanner cg) ∈ w'.acts) := by
  have hrun : (coreMain 2 (.insertion Nat) [ascii "a.l", ascii "--tables-file=a.tbl"] letterWorld).map Prod.fst =
      some 0 := by decide +kernel
  obtain ⟨⟨rc, w'⟩, h, hrc⟩ := Option.map_eq_some_iff.1 hrun
  obtain rfl : rc = 0 := hrc
  have hargs : parseArgs [ascii "a.l", ascii "--tables-file=a.tbl"] letterWorld = some (.inr
      { inputPaths := [ascii "a.l"], tablesPath := ascii "a.tbl", outputPath := ascii "lex.yy.c" },
      letterWorld) := rfl
  obtain ⟨cg, bytes, hbytes, hcg, -⟩ := coreMain_tables_load h rfl hargs (List.cons_ne_nil _ _)
  exact ⟨rfl, _, _, w', h, hargs, List.cons_ne_nil _ _, cg, bytes, hbytes, hcg⟩

end LexCpp
