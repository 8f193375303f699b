import LexCpp.Driver.Core

/-!
# Line ends

The generator in surroundings in which some newlines have carriage returns before them does what it does
without them: it exits with the same code, reports the same errors in the same places, and writes the
same scanner (`coreMain_recoded`).  A file for `-S` is copied into the scanner as it is, so that is where
its carriage returns go.
-/

namespace LexCpp

open Driver

/-! ## What differs -/

/-- The same input of `emit_c`, but for carriage returns in the text for `-S`. -/
def CodegenInput.Recoded (cg' cg : CodegenInput) : Prop :=
  ∃ skeleton, LexCpp.Recoded cg'.runtimeOverride skeleton ∧ cg = { cg' with runtimeOverride := skeleton }

inductive Content.Recoded : Content → Content → Prop
  | bytes (text : List Byte) : Recoded (.bytes text) (.bytes text)
  | scanner {cg' cg : CodegenInput} (h : cg'.Recoded cg) : Recoded (.scanner cg') (.scanner cg)
  | header {cg' cg : CodegenInput} (h : cg'.Recoded cg) : Recoded (.header cg') (.header cg)

inductive Act.Recoded : Act → Act → Prop
  | opened (path : Path) : Recoded (.opened path) (.opened path)
  | wrote (path : Path) {content' content : Content} (h : content'.Recoded content) :
      Recoded (.wrote path content') (.wrote path content)
  | printed {content' content : Content} (h : content'.Recoded content) :
      Recoded (.printed content') (.printed content)

/-- Surroundings with carriage returns before some of the newlines that can be read. -/
structure World.Recoded (w' w : World) : Prop where
  stdin : LexCpp.Recoded w'.stdin w.stdin
  files : ∀ path, Option.Rel LexCpp.Recoded (w'.files path) (w.files path)
  canOpen : w'.canOpen = w.canOpen
  canWrite : w'.canWrite = w.canWrite
  stdoutOk : w'.stdoutOk = w.stdoutOk
  acts : List.Forall₂ Act.Recoded w'.acts w.acts
  diags : w'.diags = w.diags

/-- The two runs of a part end alike. -/
abbrev Driver.Alike {α : Type} (V : α → α → Prop) (x y : Driver α) : Prop := Code.Relates World.Recoded V x y

namespace World.Recoded

variable {w w' : World}

theorem files_update (h : w'.Recoded w) (path : Path) {text : List Byte} (htext : carriageReturn ∉ text) (p : Path) :
    Option.Rel LexCpp.Recoded (Function.update w'.files path (some text) p)
      (Function.update w.files path (some text) p) := by
  by_cases hp : p = path
  · subst hp
    rw [Function.update_self, Function.update_self]
    exact .some (.refl htext)
  · rw [Function.update_of_ne hp, Function.update_of_ne hp]
    exact h.files p

theorem acts_append (h : w'.Recoded w) {a' a : Act} (ha : a'.Recoded a) :
    List.Forall₂ Act.Recoded (w'.acts ++ [a']) (w.acts ++ [a]) := List.rel_append h.acts (.cons ha .nil)

theorem ite {v v' : World} {b b' : Bool} (hb : b' = b) (hv : v'.Recoded v) (hw : w'.Recoded w) :
    World.Recoded (if b' then v' else w') (if b then v else w) := by
  subst hb
  split_ifs
  · exact hv
  · exact hw

end World.Recoded

/-! ## The platform -/

namespace Driver

variable {α : Type} {V : α → α → Prop}

theorem error_alike (loc : SourceLoc) (msg : String) : Alike Eq (error loc msg) (error loc msg) :=
  .modify fun _ _ h ↦ { h with diags := congrArg (· ++ _) h.diags }

theorem reportAll_alike (ds : List Diag) : Alike Eq (reportAll ds) (reportAll ds) :=
  .modify fun _ _ h ↦ { h with diags := congrArg (· ++ _) h.diags }

theorem diagOk_alike : Alike Eq diagOk diagOk :=
  fun _ _ h ↦ .some ⟨.inr (congrArg Diag.ok h.diags), h⟩

theorem readFile_alike (path : Path) : Alike (Option.Rel Recoded) (readFile path) (readFile path) :=
  fun _ _ h ↦ .some ⟨.inr (h.files path), h⟩

theorem readStdin_alike : Alike Recoded readStdin readStdin :=
  fun _ _ h ↦ .some ⟨.inr h.stdin, { h with stdin := .refl List.not_mem_nil }⟩

theorem openWrite_alike (path : Path) : Alike Eq (openWrite path) (openWrite path) := by
  intro w' w h
  have hpath := congrFun h.canOpen path
  refine .some ⟨.inr hpath, .ite hpath ?_ h⟩
  exact { h with files := h.files_update path List.not_mem_nil, acts := h.acts_append (.opened path) }

theorem writeBytes_alike (path : Path) {text : List Byte} (htext : carriageReturn ∉ text) :
    Alike Eq (writeBytes path text) (writeBytes path text) := by
  intro w' w h
  have hpath := congrFun h.canWrite path
  refine .some ⟨.inr hpath, .ite hpath ?_ h⟩
  exact { h with files := h.files_update path htext, acts := h.acts_append (.wrote path (.bytes text)) }

theorem writeAll_alike (path : Path) {content' content : Content} (hcontent : content'.Recoded content) :
    Alike Eq (writeAll path content') (writeAll path content) := by
  intro w' w h
  have hpath := congrFun h.canWrite path
  exact .some ⟨.inr hpath, .ite hpath { h with acts := h.acts_append (.wrote path hcontent) } h⟩

theorem print_alike {content' content : Content} (hcontent : content'.Recoded content) :
    Alike Eq (print content') (print content) := fun _ _ h ↦
  .some ⟨.inr h.stdoutOk, .ite h.stdoutOk { h with acts := h.acts_append (.printed hcontent) } h⟩

/-- An error and the end of the program. -/
theorem fail_alike (loc : SourceLoc) (msg : String) (rc : Nat) :
    Alike V (do error loc msg; Code.exit rc) (do error loc msg; Code.exit rc) :=
  (error_alike loc msg).bind fun _ _ _ ↦ .exit rc

/-- Two ways to go on after the same answer. -/
theorem cond_alike {x y : Driver Bool} {f g f' g' : Driver α} (hxy : Alike Eq x y) (hf : Alike V f g)
    (hf' : Alike V f' g') : Alike V (do if ← x then f else f') (do if ← y then g else g') := by
  refine hxy.bind fun a b hab ↦ ?_
  subst hab
  exact .ite (fun _ ↦ hf) fun _ ↦ hf'

/-- Nothing more, unless the answer is no. -/
theorem unless_alike {x y : Driver Bool} {f g : Driver Unit} (hxy : Alike Eq x y) (hfg : Alike Eq f g) :
    Alike Eq (do if !(← x) then f) (do if !(← y) then g) := by
  refine hxy.bind fun a b hab ↦ ?_
  subst hab
  exact .ite (fun _ ↦ hfg) fun _ ↦ .pure rfl

theorem writeStringToPath_alike (path : Path) {content' content : Content} (hcontent : content'.Recoded content) :
    Alike Eq (writeStringToPath path content') (writeStringToPath path content) :=
  cond_alike (openWrite_alike path)
    (cond_alike (writeAll_alike path hcontent) (.pure rfl) ((error_alike _ _).bind fun _ _ _ ↦ .pure rfl))
    ((error_alike _ _).bind fun _ _ _ ↦ .pure rfl)

theorem writeTablesFile_alike (path : Path) (bytes : List Byte) :
    Alike Eq (writeTablesFile path bytes) (writeTablesFile path bytes) :=
  cond_alike (openWrite_alike path) (writeAll_alike path (.bytes bytes)) (.pure rfl)

/-! ## The parts of the generator -/

theorem writeBackup_alike (a : List Byte) : Alike Eq (writeBackup a) (writeBackup a) := by
  refine (openWrite_alike _).bind fun b b' hb ↦ ?_
  subst hb
  refine .ite (fun _ ↦ (writeBytes_alike _ (by decide)).bind fun _ _ _ ↦ .pure rfl) fun _ ↦ .pure rfl

theorem parseArgs_alike (argv : List (List Byte)) : Alike Eq (parseArgs argv) (parseArgs argv) := by
  refine .bind (V := Eq) ?_ fun out out' hout ↦ ?_
  · refine parseArgsLoop_induction (P := fun x ↦ Alike Eq x x) ?_ ?_ ?_ ?_ argv {}
    · exact fun out ↦ .pure rfl
    · exact fun text _ ↦ (print_alike (.bytes text)).bind fun _ _ _ ↦ .exit 0
    · exact fun msg ↦ fail_alike {} msg 2
    · exact fun a x hx ↦ (writeBackup_alike a).bind fun _ _ _ ↦ hx
  · subst hout
    exact .pure rfl

theorem readChunk_alike (path : Path) : Alike Recoded (readChunk path) (readChunk path) := by
  refine .ite (fun _ ↦ readStdin_alike) fun _ ↦ (readFile_alike path).bind fun o' o ho ↦ ?_
  cases ho with
  | some hchunk => exact .pure hchunk
  | none => exact fail_alike _ _ 1

theorem readChunks_alike (paths : List Path) :
    Alike (List.Forall₂ Recoded) (readChunks paths) (readChunks paths) := by
  induction paths with
  | nil => exact .pure .nil
  | cons path paths ih =>
      exact (readChunk_alike path).bind fun _ _ hchunk ↦ ih.bind fun _ _ hchunks ↦ .pure (.cons hchunk hchunks)

/-- The same label, and the same text when the line ends are made the same. -/
theorem readInputs_alike (args : Args) : Alike (fun p' p ↦ p'.1 = p.1 ∧ normaliseSource p'.2 = normaliseSource p.2)
    (readInputs args) (readInputs args) := by
  refine .ite (fun _ ↦ readStdin_alike.bind fun _ _ h ↦ .pure ⟨rfl, h.normaliseSource_eq⟩) fun _ ↦ ?_
  exact (readChunks_alike _).bind fun _ _ h ↦ .pure ⟨rfl, normaliseSource_joinChunks h⟩

theorem condIds_alike (f : LexFile) (loc : SourceLoc) (conds : List (List Byte)) :
    Alike Eq (condIds f loc conds) (condIds f loc conds) := by
  induction conds with
  | nil => exact .pure rfl
  | cons cn conds ih =>
      rw [condIds]
      cases f.condId cn with
      | some c =>
          refine ih.bind fun ids ids' hids ↦ .pure ?_
          rw [hids]
      | none => exact fail_alike _ _ 1

theorem addRules_alike (fuel : Nat) (f : LexFile) (rs : List Rule) (i k : Nat) (nfa : NFA) :
    Alike Eq (Driver.addRules fuel f rs i k nfa) (Driver.addRules fuel f rs i k nfa) := by
  induction rs generalizing i k nfa with
  | nil => exact .pure rfl
  | cons r rs ih =>
      rw [Driver.addRules]
      refine (condIds_alike f r.loc r.conds).bind fun ids ids' hids ↦ ?_
      subst hids
      refine .ite (fun _ ↦ ih _ _ _) fun _ ↦ (Code.Relates.lift _).bind fun q q' hq ↦ ?_
      subst hq
      refine (reportAll_alike _).bind fun _ _ _ ↦ ?_
      obtain ⟨⟨tree, trailLen, eol⟩, diags⟩ := q
      cases tree with
      | some tree => exact ih _ _ _
      | none => exact fail_alike _ _ 1

theorem checkReject_alike (f : LexFile) (nfa : NFA) : Alike Eq (checkReject f nfa) (checkReject f nfa) := by
  refine .ite (fun _ ↦ ?_) fun _ ↦ .pure rfl
  cases nfa.ruleTrail.findIdx? (· < 0) with
  | none => exact .pure rfl
  | some i => exact fail_alike _ _ 1

theorem readSkeleton_alike (args : Args) : Alike Recoded (readSkeleton args) (readSkeleton args) := by
  refine .ite (fun _ ↦ .pure (.refl List.not_mem_nil)) fun _ ↦ (readFile_alike _).bind fun o' o ho ↦ ?_
  cases ho with
  | some hbuf => exact .pure hbuf
  | none => exact fail_alike _ _ 1

theorem compileSource_alike (fuel : Nat) (args : Args) (label : Path) (source : List Byte) :
    Alike CodegenInput.Recoded (compileSource fuel args label source) (compileSource fuel args label source) := by
  refine (Code.Relates.lift _).bind fun q q' hq ↦ ?_
  subst hq
  obtain ⟨file, diags⟩ := q
  refine (reportAll_alike _).bind fun _ _ _ ↦ ?_
  cases file with
  | none => exact .exit 1
  | some f =>
      refine (addRules_alike _ _ _ _ _ _).bind fun nfa nfa' hnfa ↦ ?_
      subst hnfa
      refine diagOk_alike.bind fun ok ok' hok ↦ ?_
      subst hok
      refine .ite (fun _ ↦ .exit 1) fun _ ↦ (checkReject_alike _ nfa).bind fun _ _ _ ↦ ?_
      refine (Code.Relates.lift _).bind fun dfa dfa' hdfa ↦ ?_
      subst hdfa
      exact (readSkeleton_alike args).bind fun _ skeleton h ↦ .pure ⟨skeleton, h, rfl⟩

theorem write_alike (std : StdSort Nat) (args : Args) {cg' cg : CodegenInput} (h : cg'.Recoded cg) :
    Alike Eq (do
      writeScanner args cg'
      writeTables std args cg'
      writeHeader args cg'
      return if ← diagOk then 0 else 1) (do
      writeScanner args cg
      writeTables std args cg
      writeHeader args cg
      return if ← diagOk then 0 else 1) := by
  have htables : tablesFile std cg' = tablesFile std cg := by
    obtain ⟨skeleton, -, rfl⟩ := h
    rfl
  refine .bind (V := Eq) (.ite (fun _ ↦ ?_) fun _ ↦ ?_) fun _ _ _ ↦ .bind (V := Eq) (.ite (fun _ ↦ ?_) fun _ ↦ .pure rfl)
    fun _ _ _ ↦ .bind (V := Eq) (.ite (fun _ ↦ ?_) fun _ ↦ .pure rfl) fun _ _ _ ↦ ?_
  · exact unless_alike (print_alike (.scanner h)) (fail_alike _ _ 1)
  · exact unless_alike (writeStringToPath_alike _ (.scanner h)) (.exit 1)
  · rw [htables]
    exact unless_alike (writeTablesFile_alike _ _) (fail_alike _ _ 1)
  · exact unless_alike (writeStringToPath_alike _ (.header h)) (.exit 1)
  · refine diagOk_alike.bind fun ok ok' hok ↦ ?_
    subst hok
    exact .pure rfl

theorem main_alike (fuel : Nat) (std : StdSort Nat) (argv : List (List Byte)) :
    Alike Eq (Driver.main fuel std argv) (Driver.main fuel std argv) := by
  refine (parseArgs_alike argv).bind fun args args' hargs ↦ ?_
  subst hargs
  refine (readInputs_alike args).bind fun p' p hp ↦ ?_
  obtain ⟨label, source'⟩ := p'
  obtain ⟨_, source⟩ := p
  obtain ⟨rfl, hsource⟩ := hp
  dsimp only at hsource ⊢
  rw [hsource]
  exact (compileSource_alike fuel args label _).bind fun cg' cg hcg ↦ write_alike std args hcg

end Driver

/-- **Line ends do not matter**, in the input files, on the standard input or in a file that is read after
it was written. -/
theorem coreMain_recoded {w w' : World} (h : w'.Recoded w) (fuel : Nat) (std : StdSort Nat)
    (argv : List (List Byte)) : Option.Rel (fun p' p ↦ p'.1 = p.1 ∧ p'.2.Recoded p.2)
      (coreMain fuel std argv w') (coreMain fuel std argv w) := by
  have hmain := main_alike fuel std argv w' w h
  rw [coreMain, coreMain]
  generalize Driver.main fuel std argv w' = p', Driver.main fuel std argv w = p at hmain ⊢
  cases hmain with
  | none => exact .none
  | @some p' p hp =>
      obtain ⟨hcode, hw⟩ := hp
      obtain ⟨code', v'⟩ := p'
      obtain ⟨code, v⟩ := p
      refine .some ⟨?_, hw⟩
      cases hcode with
      | inl hcode => exact hcode
      | inr hcode => exact hcode

/-- The file of the only rule `a`. -/
def letterFile : List Byte := ascii "%%\na\tb();\n"

theorem coreMain_recoded_crlf : Option.Rel (fun p' p ↦ p'.1 = p.1 ∧ p'.2.Recoded p.2)
    (coreMain 2 (.insertion Nat) [ascii "-t"] { stdin := crlf letterFile })
    (coreMain 2 (.insertion Nat) [ascii "-t"] { stdin := letterFile }) := by
  have hworlds : World.Recoded { stdin := crlf letterFile } { stdin := letterFile } :=
    ⟨.crlf (by decide), fun _ ↦ .none, rfl, rfl, rfl, .nil, rfl⟩
  exact coreMain_recoded hworlds 2 _ _

end LexCpp
