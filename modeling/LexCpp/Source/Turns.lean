import LexCpp.Source.Onward

/-!
# The turns of the section loops

What one turn of `parse_section1` and of `parse_section2` does: it takes at least one byte, and
what it adds to the file is labelled with the line that it starts on, but for three paths that
are left out here (`section1Labels`, `section2Labels`).  The loops end because of the former
(`parseLexFile_ends`).
-/

namespace LexCpp

/-! ## Labelled code -/

/-- Code, and where it is said to start. -/
abbrev Labelled := List Byte × SourceLoc

namespace LexFile

def top (f : LexFile) : Labelled := (f.sectionTop, f.sectionTopLoc)

def verbatim (f : LexFile) : Labelled := (f.section1Verbatim, f.section1Loc)

def prologue (f : LexFile) : Labelled := (f.section2Prologue, f.section2Loc)

end LexFile

namespace Labelled

/-- Code keeps its label. -/
def Kept (p p' : Labelled) : Prop := p.1 ≠ [] → p'.1 ≠ [] ∧ p'.2 = p.2

/-- Code keeps its label, and the first code gets this one. -/
def Grows (file : String) (line : Nat) (p p' : Labelled) : Prop :=
  Kept p p' ∧ (p.1 = [] → p'.1 ≠ [] → p'.2.file = file ∧ p'.2.line = line)

variable {file : String} {line : Nat} {p p' p'' : Labelled}

theorem Kept.refl (p : Labelled) : Kept p p := fun h ↦ ⟨h, rfl⟩

theorem Kept.trans (h : Kept p p') (h' : Kept p' p'') : Kept p p'' := fun hp ↦
  ⟨(h' (h hp).1).1, (h' (h hp).1).2.trans (h hp).2⟩

theorem Grows.refl (p : Labelled) : Grows file line p p := ⟨Kept.refl p, fun h h' ↦ absurd h h'⟩

/-- More code, with the label of the first. -/
theorem Grows.append {start : SourceLoc} (hfile : start.file = file) (hline : start.line = line)
    (p : Labelled) (code : List Byte) :
    Grows file line p (p.1 ++ code, if p.1 = [] then start else p.2) := by
  refine ⟨fun h ↦ ⟨fun h' ↦ h (List.append_eq_nil_iff.1 h').1, if_neg h⟩, fun h _ ↦ ?_⟩
  change (if p.1 = [] then start else p.2).file = file ∧ (if p.1 = [] then start else p.2).line = line
  rw [if_pos h]
  exact ⟨hfile, hline⟩

/-- More code, without a look at the label. -/
theorem Grows.append_of_ne {p : Labelled} (h : p.1 ≠ []) (code : List Byte) :
    Grows file line p (p.1 ++ code, p.2) :=
  ⟨fun _ ↦ ⟨fun h' ↦ h (List.append_eq_nil_iff.1 h').1, rfl⟩, fun h' ↦ absurd h' h⟩

end Labelled

namespace Reader

open Labelled

/-! ## Turns -/

/-- From `s` to `s'` the reader has gone on, and what it adds is labelled with the line of `s`. -/
structure Turn (file : String) (s s' : ReaderState) : Prop where
  onward : Onward s s'
  rules : ∃ new, s'.out.rules = s.out.rules ++ new ∧
    ∀ r ∈ new, r.loc.file = file ∧ r.loc.line = s.line
  top : Grows file s.line s.out.top s'.out.top
  verbatim : Grows file s.line s.out.verbatim s'.out.verbatim
  prologue : Grows file s.line s.out.prologue s'.out.prologue
  epilogue : s'.out.section3 = s.out.section3

namespace Turn

variable {file : String} {s s' s'' : ReaderState}

/-- Nothing with a label is added. -/
theorem of_same (h : Onward s s') (hrules : s'.out.rules = s.out.rules) (htop : s'.out.top = s.out.top)
    (hverbatim : s'.out.verbatim = s.out.verbatim) (hprologue : s'.out.prologue = s.out.prologue)
    (hepilogue : s'.out.section3 = s.out.section3) : Turn file s s' where
  onward := h
  rules := ⟨[], by rw [hrules, List.append_nil], fun _ hr ↦ absurd hr List.not_mem_nil⟩
  top := htop ▸ .refl _
  verbatim := hverbatim ▸ .refl _
  prologue := hprologue ▸ .refl _
  epilogue := hepilogue

theorem of_out (h : Onward s s') (hout : s'.out = s.out) : Turn file s s' :=
  of_same h (by rw [hout]) (by rw [hout]) (by rw [hout]) (by rw [hout]) (by rw [hout])

/-- Nothing is added before. -/
theorem of_moved {n : Nat} (h : Moved s n s') (h' : Turn file s' s'') (hline : s'.line = s.line) :
    Turn file s s'' where
  onward := h.onward.trans h'.onward
  rules := by
    rw [← h.out, ← hline]
    exact h'.rules
  top := by
    rw [← h.out, ← hline]
    exact h'.top
  verbatim := by
    rw [← h.out, ← hline]
    exact h'.verbatim
  prologue := by
    rw [← h.out, ← hline]
    exact h'.prologue
  epilogue := h'.epilogue.trans (by rw [h.out])

/-- A rule is added. -/
theorem of_rule {r : Rule} (h : Onward s s') (hr : r.loc.file = file ∧ r.loc.line = s.line)
    (hout : s'.out = { s.out with rules := s.out.rules ++ [r] }) : Turn file s s' where
  onward := h
  rules := ⟨[r], by rw [hout], fun r' hr' ↦ List.mem_singleton.1 hr' ▸ hr⟩
  top := hout ▸ .refl _
  verbatim := hout ▸ .refl _
  prologue := hout ▸ .refl _
  epilogue := by rw [hout]

/-- Code for the start of the generated file is added. -/
theorem of_top {p : Labelled} (h : Onward s s') (hp : Grows file s.line s.out.top p)
    (hout : s'.out = { s.out with sectionTop := p.1, sectionTopLoc := p.2 }) : Turn file s s' where
  onward := h
  rules := ⟨[], by rw [hout, List.append_nil], fun _ hr ↦ absurd hr List.not_mem_nil⟩
  top := hout ▸ hp
  verbatim := hout ▸ .refl _
  prologue := hout ▸ .refl _
  epilogue := by rw [hout]

/-- Code at file scope is added. -/
theorem of_verbatim {p : Labelled} (h : Onward s s') (hp : Grows file s.line s.out.verbatim p)
    (hout : s'.out = { s.out with section1Verbatim := p.1, section1Loc := p.2 }) : Turn file s s' where
  onward := h
  rules := ⟨[], by rw [hout, List.append_nil], fun _ hr ↦ absurd hr List.not_mem_nil⟩
  top := hout ▸ .refl _
  verbatim := hout ▸ hp
  prologue := hout ▸ .refl _
  epilogue := by rw [hout]

end Turn

/-- Code for the top of the scanner is added. -/
theorem Moved.turn_addPrologue {file : String} {n : Nat} {s s' : ReaderState} (h : Moved s n s')
    {start : SourceLoc} (hfile : start.file = file)
    (hline : s.out.section2Prologue = [] → start.line = s.line) (code : List Byte) :
    Returns (addPrologue start code) s' fun _ s'' ↦ s''.rest.length ≤ n ∧ Turn file s s'' := by
  refine ⟨(), _, rfl, h.le, h.onward.trans (.of_eq rfl rfl), ⟨[], ?_, fun _ hr ↦ absurd hr List.not_mem_nil⟩,
    h.out ▸ .refl _, h.out ▸ .refl _, ?_, by rw [← h.out]⟩
  · rw [List.append_nil, ← h.out]
  · change Grows file s.line s.out.prologue (s'.out.prologue.1 ++ code,
      if s'.out.prologue.1 = [] then start else s'.out.prologue.2)
    rw [h.out]
    by_cases hnil : s.out.prologue.1 = []
    · exact .append hfile (hline hnil) _ code
    · rw [if_neg hnil]
      exact .append_of_ne hnil code

theorem Moved.turn {file : String} {n : Nat} {s s' : ReaderState} (h : Moved s n s') :
    Turn file s s' := .of_out h.onward h.out

/-- The method returns after a turn that takes at least one byte. -/
def Turns {α : Type} (file : String) (x : Reader α) (s : ReaderState) : Prop :=
  Returns x s fun _ s' ↦ s'.rest.length ≤ s.rest.length - 1 ∧ Turn file s s'

theorem Moves.turns {α : Type} {file : String} {x : Reader α} {s : ReaderState} (h : Takes x s) :
    Turns file x s := Returns.mono h fun _ _ hs ↦ ⟨hs.le, hs.turn⟩

/-! ## Section 2 -/

section Section2

variable {file : String} {s : ReaderState}

theorem addRule_turns {s₁ : ReaderState} {r : Rule} (h : Moved s (s.rest.length - 1) s₁)
    (hr : r.loc.file = file ∧ r.loc.line = s.line) :
    Returns (modifyOut fun out ↦ { out with rules := out.rules ++ [r] }) s₁
      fun _ s' ↦ s'.rest.length ≤ s.rest.length - 1 ∧ Turn file s s' :=
  ⟨(), _, rfl, h.le, .of_rule (h.onward.trans (.of_eq rfl rfl)) hr (by rw [← h.out])⟩

/-- A rule is labelled with the line it starts on. -/
theorem parseRule_turns (hne : s.rest ≠ []) (hgo : patternStops 0 false false (s.rest.getD 0 0) = false) :
    Turns file (parseRule file) s := by
  -- the part after the prefix
  have hend : ∀ (sites : ScBlock) (s₁ : ReaderState), Moved s s.rest.length s₁ →
      Moves readPattern s₁ (s.rest.length - 1) → (after s₁ 7).rest.length ≤ s.rest.length - 1 →
      Returns (do
        let rule : Rule := { loc := ⟨file, s.line, s.col⟩, conds := sites.conds, anyState := sites.anyState }
        if (← peek) = chr '<' ∧ (← peekAt 1) = chr '<' ∧ (← get).rest.take 7 = eofMark then
          modify (taken^[7])
          skipBlanks
          let action ← readAction
          modifyOut fun out ↦ { out with rules := out.rules ++ [{ rule with eof := true, action }] }
        else
          let pattern ← readPattern
          if pattern = [] then
            report ⟨.error, ⟨file, s.line, s.col⟩, "empty pattern"⟩
            let _ ← restOfLine
          else
            skipBlanks
            let action ← readAction
            modifyOut fun out ↦ { out with rules := out.rules ++ [{ rule with pattern, action }] }) s₁
        fun _ s' ↦ s'.rest.length ≤ s.rest.length - 1 ∧ Turn file s s' := by
    intro sites s₁ h₁ hpattern heof
    refine Returns.step (eval_peek s₁) <| Returns.step (eval_peekAt s₁ 1) <| Returns.step (eval_get s₁) <|
      Returns.ite (fun _ ↦ ?_) fun _ ↦ ?_
    · have h₂ : Moved s (s.rest.length - 1) (after s₁ 7) :=
        h₁.trans ⟨Onward.after s₁ 7, out_after s₁ 7, heof⟩
      refine Returns.step (eval_modify _ s₁) <| Returns.bind (Moves.skipBlanks (after s₁ 7)) fun _ s₃ h₃ ↦
        Returns.bind (Moves.readAction s₃) fun action s₄ h₄ ↦ addRule_turns ?_ ⟨rfl, rfl⟩
      exact (h₂.trans h₃).trans ⟨h₄.onward, h₄.out, h₄.le.trans (h₃.le.trans h₂.le)⟩
    · refine Returns.bind hpattern fun pattern s₂ h₂ ↦ Returns.ite (fun _ ↦ ?_) fun _ ↦ ?_
      · refine Returns.bind (Moves.report _ s₂) fun _ s₃ h₃ ↦ Returns.bind (Moves.restOfLine s₃) fun _ s₄ h₄ ↦
          Returns.pure ⟨h₄.le.trans (h₃.le.trans h₂.le), ?_⟩
        exact (((h₁.trans h₂).trans h₃).trans h₄).turn
      · refine Returns.bind (Moves.skipBlanks s₂) fun _ s₃ h₃ ↦ Returns.bind (Moves.readAction s₃)
          fun action s₄ h₄ ↦ addRule_turns ?_ ⟨rfl, rfl⟩
        exact ((h₁.trans h₂).trans h₃).trans ⟨h₄.onward, h₄.out, h₄.le.trans (h₃.le.trans h₂.le)⟩
  refine Returns.step (eval_loc s file) <| Returns.step (eval_peek s) <| Returns.step (eval_peekAt s 1) <|
    Returns.ite (fun _ ↦ ?_) fun _ ↦ ?_
  · refine Returns.bind (Moves.readConds s) fun sites s₁ h₁ ↦ hend sites s₁ ?_ ?_ ?_
    · exact ⟨h₁.onward, h₁.out, h₁.onward.length_le⟩
    · exact (Moves.readPattern s₁).mono h₁.le
    · exact ((Onward.after s₁ 7).length_le).trans h₁.le
  · refine Returns.step (show innermost s = some (s.scBlocks.head?.getD {}, s) from rfl) <| hend _ s ⟨.refl s, rfl, le_rfl⟩ (Moves.readPattern_takes hne hgo) ?_
    rw [rest_after, List.length_drop]
    exact Nat.sub_le_sub_left (by decide) _

theorem topLevel_turns (hne : s.rest ≠ []) {c : Byte} (hc : s.rest.getD 0 0 = c)
    (hgo : patternStops 0 false false c = false) : Turns file (topLevel file c) s := by
  have hrule : ∀ s₁, Moved s s.rest.length s₁ → s₁.rest = s.rest ∧ s₁.line = s.line →
      Returns (parseRule file) s₁ fun _ s' ↦ s'.rest.length ≤ s.rest.length - 1 ∧ Turn file s s' := by
    intro s₁ h₁ hsame
    refine Returns.mono (parseRule_turns (hsame.1 ▸ hne) (by rw [hsame.1, hc]; exact hgo)) fun _ s' hs' ↦ ?_
    exact ⟨hsame.1 ▸ hs'.1, .of_moved h₁ hs'.2 hsame.2⟩
  have hopen : ∀ s₁, Moved s s.rest.length s₁ → s₁.rest = s.rest ∧ s₁.line = s.line →
      Returns (do
        let opened ← if c = chr '<' ∧ (← peekAt 1) ≠ chr '<' then tryOpener else pure false
        if opened then return
        parseRule file) s₁ fun _ s' ↦ s'.rest.length ≤ s.rest.length - 1 ∧ Turn file s s' := by
    intro s₁ h₁ hsame
    refine Returns.step (eval_peekAt s₁ 1) <| Returns.ite (fun _ ↦ ?_) fun _ ↦ hrule s₁ h₁ hsame
    refine Returns.bind (Moves.tryOpener s₁) fun opened s₂ h₂ ↦ ?_
    cases opened with
    | true => exact Returns.pure ⟨hsame.1 ▸ h₂.1.le, (h₁.trans h₂.1).turn⟩
    | false =>
        have hback := h₂.2 rfl
        refine hrule s₂ (h₁.trans ⟨h₂.1.onward, h₂.1.out, ?_⟩)
          ⟨hback.1.trans hsame.1, hback.2.trans hsame.2⟩
        rw [hback.1, hsame.1]
  refine Returns.step (eval_get s) <| Returns.ite (fun hclose ↦ ?_) fun _ ↦
    hopen s ⟨.refl s, rfl, le_rfl⟩ ⟨rfl, rfl⟩
  refine Returns.bind (Moves.tryCloser (hc.trans hclose.1)) fun closed s₁ h₁ ↦ ?_
  cases closed with
  | true => exact Returns.pure ⟨h₁.1.le, h₁.1.turn⟩
  | false => exact hopen s₁ h₁.1 (h₁.2 rfl)

/-- An indented line with C code for the top of the scanner. -/
def isCodeLine (s : ReaderState) : Bool :=
  let r := s.rest.dropWhile isBlank
  isBlank (s.rest.getD 0 0) && !r.isEmpty && r.getD 0 0 != newline && r.getD 0 0 != chr '<' &&
    !(r.getD 0 0 = chr '/' && r.getD 1 0 = chr '*') && s.scBlocks.isEmpty

/-- The first code for the top of the scanner is labelled with the line it starts on, unless it is
an indented line that has ended. -/
def section2Labels (s : ReaderState) : Prop :=
  s.out.section2Prologue = [] → s.out.rules = [] → isCodeLine s = true → newline ∉ s.rest

instance (s : ReaderState) : Decidable (section2Labels s) :=
  inferInstanceAs (Decidable (_ → _ → _ → _))

theorem indentedLine_turns (hblank : isBlank (s.rest.getD 0 0) = true) :
    Returns (indentedLine file) s fun _ s' ↦ s'.rest.length ≤ s.rest.length - 1 ∧
      Onward s s' ∧ (section2Labels s → Turn file s s') := by
  have hturns : ∀ {x : Reader Unit} {s₁}, Moved s (s.rest.length - 1) s₁ → s₁.line = s.line →
      Returns x s₁ (fun _ s' ↦ s'.rest.length ≤ s₁.rest.length ∧ Turn file s₁ s') →
      Returns x s₁ fun _ s' ↦ s'.rest.length ≤ s.rest.length - 1 ∧
        Onward s s' ∧ (section2Labels s → Turn file s s') := by
    intro x s₁ h₁ hline hx
    refine Returns.mono hx fun _ s' hs' ↦ ?_
    have hturn := Turn.of_moved h₁ hs'.2 hline
    exact ⟨hs'.1.trans h₁.le, hturn.onward, fun _ ↦ hturn⟩
  have hmoves : ∀ {x : Reader Unit} {s₁ : ReaderState}, Moves x s₁ s₁.rest.length →
      Returns x s₁ fun _ s' ↦ s'.rest.length ≤ s₁.rest.length ∧ Turn file s₁ s' := fun hx ↦
    Returns.mono hx fun _ _ hs' ↦ ⟨hs'.le, hs'.turn⟩
  -- the blanks, also from the state that the reader goes back to
  have hskip : ∀ s₀ : ReaderState, s₀.rest = s.rest → s₀.line = s.line → s₀.out = s.out →
      Moved s (s.rest.length - 1) (after s₀ (s₀.rest.takeWhile isBlank).length) ∧
      (after s₀ (s₀.rest.takeWhile isBlank).length).line = s.line ∧
      (after s₀ (s₀.rest.takeWhile isBlank).length).rest = s.rest.dropWhile isBlank := by
    intro s₀ hrest hline hout
    have hdrop : (after s₀ (s₀.rest.takeWhile isBlank).length).rest = s.rest.dropWhile isBlank := by
      rw [← hrest]
      exact rest_after_append List.takeWhile_append_dropWhile.symm
    refine ⟨⟨(Onward.of_eq hrest hline).trans (.after s₀ _), (out_after s₀ _).trans hout, ?_⟩,
      (line_skipBlanks s₀).trans hline, hdrop⟩
    rw [hdrop]
    cases hr : s.rest with
    | nil => rfl
    | cons c r =>
        rw [hr, List.getD_cons_zero] at hblank
        rw [List.dropWhile_cons_of_pos hblank]
        exact (List.dropWhile_suffix isBlank).length_le
  have hnonblank : isBlank ((s.rest.dropWhile isBlank).getD 0 0) = false := by
    have hnot := List.head?_dropWhile_not isBlank s.rest
    cases hr : s.rest.dropWhile isBlank with
    | nil => rfl
    | cons c r =>
        rw [hr] at hnot
        exact Bool.eq_false_of_not_eq_true (by simpa using hnot)
  obtain ⟨h₁, hline, hrest⟩ := hskip s rfl rfl rfl
  refine Returns.step (eval_get s) <| Returns.step (eval_skipBlanks s) <| Returns.step (eval_atEnd _) <|
    Returns.step (eval_peek _) <| Returns.ite (fun _ ↦ ?_) fun hstop ↦ ?_
  · exact hturns h₁ hline (hmoves (Moves.skipNewline _))
  rw [hrest, Bool.or_eq_true, not_or, List.isEmpty_iff, decide_eq_true_eq] at hstop
  have hgo : patternStops 0 false false ((s.rest.dropWhile isBlank).getD 0 0) = false := by
    rw [patternStops, hnonblank, decide_eq_false hstop.2]
    rfl
  refine Returns.step (eval_peek _) <| Returns.step (eval_peekAt _ 1) <| Returns.ite (fun _ ↦ ?_) fun hcomment ↦ ?_
  · exact hturns h₁ hline (hmoves ((Moves.skipComment _).mono (Nat.sub_le _ _)))
  refine Returns.step (eval_peek _) <| Returns.step (eval_peek _) <| Returns.step (eval_get _) <|
    Returns.ite (fun _ ↦ ?_) fun hopen ↦ Returns.step (eval_get _) <| Returns.ite (fun _ ↦ ?_) fun hblocks ↦ ?_
  · obtain ⟨h₂, hline₂, hrest₂⟩ := hskip { after s (s.rest.takeWhile isBlank).length with
      rest := s.rest, line := s.line, col := s.col } rfl rfl (out_after s _)
    refine Returns.step (eval_restore _ s) <| Returns.step (eval_skipBlanks _) <| Returns.step (eval_peek _) <|
      hturns h₂ hline₂ (Returns.mono (topLevel_turns ?_ rfl ?_) fun _ _ hs' ↦
        ⟨hs'.1.trans (Nat.sub_le _ _), hs'.2⟩)
    · rw [hrest₂]
      exact hstop.1
    · rw [hrest₂]
      exact hgo
  · refine hturns h₁ hline (Returns.mono (parseRule_turns ?_ ?_) fun _ _ hs' ↦ ⟨hs'.1.trans (Nat.sub_le _ _), hs'.2⟩)
    · rw [hrest]
      exact hstop.1
    · rw [hrest]
      exact hgo
  · have hne : s.rest ≠ [] := fun h ↦ hstop.1 (by rw [h]; rfl)
    refine Returns.step (eval_restore _ s) <| Returns.bind (Moves.readLineKeepNl_takes hne) fun line s₂ h₂ ↦
      Returns.step (eval_get s₂) ?_
    have hmoved : Moved s (s.rest.length - 1) s₂ :=
      ⟨(Onward.of_eq rfl rfl).trans h₂.onward, h₂.out.trans (out_after s _), h₂.le⟩
    refine Returns.ite (fun hrules ↦ Returns.step (eval_loc s₂ file) ?_) fun _ ↦
      Returns.pure ⟨h₂.le, hmoved.onward, fun _ ↦ hmoved.turn⟩
    by_cases hlabels : section2Labels s
    · refine Returns.mono (hmoved.turn_addPrologue rfl (fun hnil ↦ hmoved.onward.line_eq ?_) line) fun _ _ hs' ↦
        ⟨hs'.1, hs'.2.onward, fun _ ↦ hs'.2⟩
      refine hlabels hnil (hmoved.out ▸ hrules) ?_
      rw [hrest] at hcomment hopen
      rw [scBlocks_after, not_not] at hblocks
      rw [not_or] at hopen
      simp only [isCodeLine, hblank, hblocks, List.isEmpty_nil, Bool.true_and, Bool.and_true, Bool.and_eq_true,
        Bool.not_eq_true', List.isEmpty_eq_false_iff, bne_iff_ne, Bool.and_eq_false_iff, decide_eq_false_iff_not]
      exact ⟨⟨⟨hstop.1, hstop.2⟩, hopen.1⟩, not_and_or.1 hcomment⟩
    · exact ⟨(), _, rfl, h₂.le, hmoved.onward.trans (.of_eq rfl rfl), fun h ↦ absurd h hlabels⟩

variable (file) in
/-- One turn of `parse_section2`. -/
theorem section2Step_turns (hne : s.rest ≠ []) : Returns (section2Step file) s fun _ s' ↦
    s'.rest.length ≤ s.rest.length - 1 ∧ Onward s s' ∧ (section2Labels s → Turn file s s') := by
  have hturns : ∀ {x : Reader Unit}, Turns file x s → ∀ again : Bool,
      Returns (do x; return again) s fun _ s' ↦ s'.rest.length ≤ s.rest.length - 1 ∧ Onward s s' ∧
        (section2Labels s → Turn file s s') := fun hx _ ↦
    Returns.bind hx fun _ _ hs' ↦ Returns.pure ⟨hs'.1, hs'.2.onward, fun _ ↦ hs'.2⟩
  refine Returns.step (eval_peek s) <| Returns.ite (fun _ ↦ hturns (Moves.turns (Moves.skip s)) true) fun hnl ↦
    Returns.step (eval_peekAt s 1) <| Returns.ite (fun _ ↦ ?_) fun _ ↦ Returns.step (eval_peekAt s 1) <|
    Returns.ite (fun _ ↦ ?_) fun _ ↦ Returns.step (eval_peekAt s 1) <|
    Returns.ite (fun _ ↦ hturns (Moves.turns (Moves.skipComment s)) true) fun _ ↦
    Returns.ite (fun hblank ↦ ?_) fun hblank ↦ ?_
  · refine Returns.bind (Moves.skip s) fun _ s₁ h₁ ↦ Returns.bind (Moves.skip s₁) fun _ s₂ h₂ ↦
      Returns.bind (Moves.restOfLine s₂) fun _ s₃ h₃ ↦ Returns.pure ?_
    have hturn : Turn file s s₃ := ((h₁.trans h₂).trans h₃).turn
    exact ⟨h₃.le.trans (h₂.le.trans ((Nat.sub_le _ _).trans h₁.le)), hturn.onward, fun _ ↦ hturn⟩
  · refine Returns.step (eval_loc s file) <| Returns.bind (Moves.verbatimBlock s) fun code s₁ h₁ ↦
      Returns.bind (h₁.turn_addPrologue rfl (fun _ ↦ rfl) code) fun _ s₂ h₂ ↦ Returns.pure ?_
    exact ⟨h₂.1, h₂.2.onward, fun _ ↦ h₂.2⟩
  · exact Returns.bind (indentedLine_turns hblank) fun _ _ hs' ↦ Returns.pure hs'
  · refine hturns (topLevel_turns hne rfl ?_) true
    rw [patternStops, Bool.eq_false_of_not_eq_true hblank, decide_eq_false hnl]
    rfl

end Section2

/-! ## Section 1 -/

section Section1

variable {file : String} {s : ReaderState}

/-- A line that starts with `%%` and is not the divider. -/
def isStray (s : ReaderState) : Bool :=
  let r := (s.rest.drop 2).dropWhile isBlank
  s.rest.getD 0 0 = chr '%' && s.rest.getD 1 0 = chr '%' && !r.isEmpty && r.getD 0 0 != newline

/-- The first code at file scope is labelled with the line it starts on, unless it is an indented
line; and the line is still right, unless `%%` starts a line that is not the divider. -/
def section1Labels (s : ReaderState) : Prop :=
  isStray s = false ∧ (s.out.section1Verbatim = [] → isBlank (s.rest.getD 0 0) = false)

instance (s : ReaderState) : Decidable (section1Labels s) := inferInstanceAs (Decidable (_ ∧ (_ → _)))

theorem Moved.turn_modifyOut {n : Nat} {s' : ReaderState} (h : Moved s n s') {f : LexFile → LexFile}
    (hrules : ∀ o, (f o).rules = o.rules) (htop : ∀ o, (f o).top = o.top)
    (hverbatim : ∀ o, (f o).verbatim = o.verbatim) (hprologue : ∀ o, (f o).prologue = o.prologue)
    (hepilogue : ∀ o, (f o).section3 = o.section3) :
    Returns (modifyOut f) s' fun _ s'' ↦ s''.rest.length ≤ n ∧ Turn file s s'' := by
  refine ⟨(), _, rfl, h.le, .of_same (h.onward.trans (.of_eq rfl rfl)) ?_ ?_ ?_ ?_ ?_⟩
  · exact (hrules _).trans (by rw [h.out])
  · exact (htop _).trans (by rw [h.out])
  · exact (hverbatim _).trans (by rw [h.out])
  · exact (hprologue _).trans (by rw [h.out])
  · exact (hepilogue _).trans (by rw [h.out])

/-! ### Options -/

/-- Only the options have changed. -/
def SetsOptions (s s' : ReaderState) : Prop :=
  s'.rest = s.rest ∧ s'.line = s.line ∧ ∃ o, s'.out = { s.out with options := o }

theorem SetsOptions.refl (s : ReaderState) : SetsOptions s s := ⟨rfl, rfl, s.out.options, rfl⟩

theorem SetsOptions.trans {s s' s'' : ReaderState} (h : SetsOptions s s') (h' : SetsOptions s' s'') :
    SetsOptions s s'' := by
  obtain ⟨hrest, hline, o, ho⟩ := h
  obtain ⟨hrest', hline', o', ho'⟩ := h'
  exact ⟨hrest'.trans hrest, hline'.trans hline, o', by rw [ho', ho]⟩

theorem applyOption_setsOptions (tok : List Byte) :
    Returns (applyOption file tok) s fun _ s' ↦ SetsOptions s s' := by
  refine Returns.step (eval_get s) ?_
  cases setOption s.out.options _ _ with
  | some o => exact ⟨(), _, rfl, rfl, rfl, o, rfl⟩
  | none =>
      refine Returns.ite (fun _ ↦ ?_) fun _ ↦ Returns.ite (fun _ ↦ ?_) fun _ ↦ Returns.pure (.refl s)
      · exact Returns.step (eval_loc s file) ⟨(), _, rfl, .refl s⟩
      · exact Returns.step (eval_loc s file) ⟨(), _, rfl, .refl s⟩

theorem length_optionToken_le (inQuoted escaped : Bool) (text : List Byte) :
    (optionToken inQuoted escaped text).2.length ≤ text.length := by
  induction text generalizing inQuoted escaped with
  | nil => exact le_rfl
  | cons c cs ih =>
      rw [optionToken]
      split_ifs
      · exact le_rfl
      all_goals exact (ih _ _).trans (Nat.le_succ _)

/-- A token has at least one byte. -/
theorem length_optionToken_lt {c : Byte} (hc : isBlank c = false) (cs : List Byte) :
    (optionToken false false (c :: cs)).2.length < (c :: cs).length := by
  rw [optionToken, if_neg (by rw [hc]; decide)]
  exact Nat.lt_succ_of_le (length_optionToken_le _ _ cs)

theorem parseOptions_setsOptions {n : Nat} {text : List Byte} (hn : text.length < n) :
    Returns (parseOptions file n text) s fun _ s' ↦ SetsOptions s s' := by
  induction n generalizing text s with
  | zero => exact absurd hn (Nat.not_lt_zero _)
  | succ n ih =>
      have hle := (List.dropWhile_suffix isBlank (l := text)).length_le
      have hnot := List.head?_dropWhile_not isBlank text
      rw [parseOptions]
      cases hr : text.dropWhile isBlank with
      | nil => exact Returns.pure (.refl s)
      | cons c cs =>
          rw [hr] at hnot hle
          refine Returns.bind (applyOption_setsOptions _) fun _ s₁ h₁ ↦
            Returns.mono (ih ?_) fun _ _ ↦ h₁.trans
          have hlt := length_optionToken_lt (Bool.eq_false_of_not_eq_true (by simpa using hnot)) cs
          exact hlt.trans_le (hle.trans (Nat.le_of_lt_succ hn))

/-! ### Lines -/

theorem definition_turns (hne : s.rest ≠ []) (hc : isIdentStart (s.rest.getD 0 0) = true) :
    Turns file definition s := by
  have hcont : isIdentCont (s.rest.getD 0 0) = true := by
    simp only [isIdentStart, isIdentCont, isAlnum, Bool.or_eq_true] at hc ⊢
    exact hc.elim (fun h ↦ Or.inl (Or.inl (Or.inl h))) fun h ↦ Or.inl (Or.inr h)
  refine Returns.bind (Moves.takeWhile_takes hne hcont) fun name s₁ h₁ ↦
    Returns.bind (Moves.skipBlanks s₁) fun _ s₂ h₂ ↦ Returns.bind (Moves.restOfLine s₂) fun pat s₃ h₃ ↦ ?_
  have h : Moved s (s.rest.length - 1) s₃ :=
    (h₁.trans h₂).trans ⟨h₃.onward, h₃.out, h₃.le.trans (h₂.le.trans h₁.le)⟩
  exact Returns.ite (fun _ ↦ h.turn_modifyOut (fun _ ↦ rfl) (fun _ ↦ rfl) (fun _ ↦ rfl) (fun _ ↦ rfl) fun _ ↦ rfl)
    fun _ ↦ Returns.pure ⟨h.le, h.turn⟩

variable (file) in
/-- A line of section 1. -/
theorem section1Line_turns (hne : s.rest ≠ []) {c : Byte} (hc : s.rest.getD 0 0 = c) (hnl : c ≠ newline) :
    Returns (section1Line file c) s fun _ s' ↦ s'.rest.length ≤ s.rest.length - 1 ∧ Onward s s' ∧
      ((s.out.section1Verbatim = [] → isBlank c = false) → Turn file s s') := by
  have hturns : ∀ {x : Reader Unit}, Turns file x s → Returns x s fun _ s' ↦
      s'.rest.length ≤ s.rest.length - 1 ∧ Onward s s' ∧
        ((s.out.section1Verbatim = [] → isBlank c = false) → Turn file s s') := fun hx ↦
    Returns.mono hx fun _ _ hs' ↦ ⟨hs'.1, hs'.2.onward, fun _ ↦ hs'.2⟩
  refine Returns.step (eval_peekAt s 1) <| Returns.ite (fun _ ↦ ?_) fun _ ↦ Returns.step (eval_get s) <|
    Returns.ite (fun hoption ↦ ?_) fun _ ↦ Returns.step (eval_peekAt s 1) <| Returns.step (eval_peekAt s 1) <|
    Returns.step (eval_peekAt s 2) <| Returns.ite (fun _ ↦ ?_) fun _ ↦ Returns.step (eval_peekAt s 1) <|
    Returns.ite (fun _ ↦ hturns (Moves.turns (Moves.skipComment s))) fun _ ↦ Returns.ite (fun hblank ↦ ?_) fun _ ↦
    Returns.ite (fun hident ↦ hturns (definition_turns hne (hc ▸ hident))) fun _ ↦ hturns ?_
  · refine hturns <| Returns.step (eval_loc s file) <| Returns.step (eval_modifyOut s _) <|
      Returns.bind (Moves.verbatimBlock _) fun code s₂ h₂ ↦ ⟨(), _, rfl, h₂.le, ?_⟩
    have hgrows : Grows file s.line s.out.verbatim
        (s.out.verbatim.1 ++ code, if s.out.verbatim.1 = [] then ⟨file, s.line, s.col⟩ else s.out.verbatim.2) :=
      .append rfl rfl s.out.verbatim code
    refine .of_verbatim (h₂.onward.trans (.of_eq rfl rfl)) hgrows ?_
    dsimp only
    rw [h₂.out]
    rfl
  · have hfirst : (!isBlank (s.rest.getD 0 0) && s.rest.getD 0 0 != newline) = true := by
      obtain ⟨c, r, hr⟩ := List.exists_cons_of_ne_nil hne
      rw [hr] at hoption ⊢
      obtain rfl : c = chr '%' := List.head_eq_of_cons_eq hoption
      rw [List.getD_cons_zero]
      decide
    refine hturns <| Returns.bind (Moves.takeWhile_takes (p := fun b ↦ !isBlank b && b != newline) hne hfirst)
      fun _ s₁ h₁ ↦ Returns.bind (Moves.restOfLine s₁) fun rest s₂ h₂ ↦
      Returns.mono (parseOptions_setsOptions (Nat.lt_succ_self _)) fun _ s₃ h₃ ↦ ?_
    obtain ⟨hrest, hline, o, hout⟩ := h₃
    have hmoved := h₁.trans h₂
    rw [hmoved.out] at hout
    refine ⟨by rw [hrest]; exact h₂.le.trans h₁.le, ?_⟩
    exact .of_same (hmoved.onward.trans (.of_eq hrest hline)) (by rw [hout]) (by rw [hout]; rfl)
      (by rw [hout]; rfl) (by rw [hout]; rfl) (by rw [hout])
  · refine hturns <| Returns.step (eval_peekAt s 1) <| Returns.bind (Moves.skip s) fun _ s₁ h₁ ↦
      Returns.bind (Moves.skip s₁) fun _ s₂ h₂ ↦ Returns.bind (Moves.restOfLine s₂) fun rest s₃ h₃ ↦ ?_
    have h : Moved s (s.rest.length - 1) s₃ :=
      (h₁.trans h₂).trans ⟨h₃.onward, h₃.out, h₃.le.trans (h₂.le.trans ((Nat.sub_le _ _).trans h₁.le))⟩
    exact h.turn_modifyOut (fun _ ↦ rfl) (fun _ ↦ rfl) (fun _ ↦ rfl) (fun _ ↦ rfl) fun _ ↦ rfl
  · refine Returns.bind (Moves.readLineKeepNl_takes hne) fun line s₁ h₁ ↦
      ⟨(), _, rfl, h₁.le, h₁.onward.trans (.of_eq rfl rfl), fun hlabels ↦ ?_⟩
    refine .of_verbatim (h₁.onward.trans (.of_eq rfl rfl)) (p := (s.out.section1Verbatim ++ line, s.out.section1Loc))
      (Grows.append_of_ne (fun hnil ↦ ?_) line) ?_
    · exact absurd ((hlabels hnil).symm.trans hblank) Bool.false_ne_true
    · change { s₁.out with section1Verbatim := s₁.out.section1Verbatim ++ line } = _
      rw [h₁.out]
  · refine Returns.step (eval_loc s file) <| Returns.step (eval_report s _) <|
      Returns.bind (Moves.restOfLine_takes hne (hc ▸ hnl)) fun _ s₂ h₂ ↦ Returns.pure ⟨h₂.le, ?_⟩
    exact .of_out ((Onward.of_eq rfl rfl).trans h₂.onward) h₂.out

variable (file) in
/-- A line with `%%` is the divider, or it is stray. -/
theorem tryDivider_turns (hne : s.rest ≠ []) (h0 : s.rest.getD 0 0 = chr '%') (h1 : s.rest.getD 1 0 = chr '%') :
    Returns tryDivider s fun _ s' ↦ s'.rest <:+ s.rest ∧ s'.rest.length ≤ s.rest.length - 1 ∧
      (isStray s = false → Turn file s s') := by
  have hrest : (after (taken (taken s)) ((taken (taken s)).rest.takeWhile isBlank).length).rest =
      (s.rest.drop 2).dropWhile isBlank := by
    rw [rest_after_append List.takeWhile_append_dropWhile.symm, rest_taken, rest_taken]
    simp only [List.tail_drop, ← List.drop_one, List.drop_drop]
  have hmoved : Moved s (s.rest.length - 1)
      (after (taken (taken s)) ((taken (taken s)).rest.takeWhile isBlank).length) := by
    have honward := (Onward.taken (taken s)).trans (.after _ ((taken (taken s)).rest.takeWhile isBlank).length)
    refine ⟨(Onward.taken s).trans honward, ?_, honward.length_le.trans ?_⟩
    · rw [out_after, out_taken, out_taken]
    · rw [rest_taken]
      exact List.length_tail.le
  refine Returns.step (eval_get s) <| Returns.step (eval_skip s) <| Returns.step (eval_skip _) <|
    Returns.step (eval_skipBlanks _) <| Returns.step (eval_peek _) <| Returns.ite (fun _ ↦ ?_) fun hnl ↦
    Returns.step (eval_atEnd _) <| Returns.ite (fun _ ↦ ?_) fun hend ↦ ?_
  · refine Returns.bind (Moves.skip _) fun _ s₁ h₁ ↦ Returns.pure ?_
    have h := hmoved.trans h₁
    exact ⟨h.onward.suffix, h.le.trans ((Nat.sub_le _ _).trans hmoved.le), fun _ ↦ h.turn⟩
  · exact Returns.pure ⟨hmoved.onward.suffix, hmoved.le, fun _ ↦ hmoved.turn⟩
  · have hstray : isStray s = true := by
      rw [hrest] at hnl hend
      simp only [isStray, h0, h1, decide_true, Bool.true_and, Bool.and_eq_true, Bool.not_eq_true', bne_iff_ne]
      exact ⟨Bool.eq_false_of_not_eq_true hend, hnl⟩
    refine Returns.step (eval_modify _ _) <| Returns.bind (Moves.readLineKeepNl_takes hne) fun line s₁ h₁ ↦ ?_
    exact ⟨_, _, rfl, h₁.onward.suffix, h₁.le, fun h ↦ absurd (hstray.symm.trans h) (by decide)⟩

variable (file) in
/-- A `%top` block, or the reader is where it was. -/
theorem tryTop_turns (htop : s.rest.take 4 = ascii "%top") :
    Returns (tryTop file) s fun took s' ↦ if took then s'.rest.length ≤ s.rest.length - 1 ∧ Turn file s s'
      else Moved s s.rest.length s' ∧ s'.rest = s.rest ∧ s'.line = s.line := by
  have hline : (after (after s 4) ((after s 4).rest.takeWhile isBlank).length).line = s.line := by
    rw [line_skipBlanks, line_after]
    rw [htop]
    decide
  have honward := (Onward.after s 4).trans (.after _ ((after s 4).rest.takeWhile isBlank).length)
  have hout : (after (after s 4) ((after s 4).rest.takeWhile isBlank).length).out = s.out := by
    rw [out_after, out_after]
  refine Returns.step (eval_get s) <| Returns.step (eval_modify _ s) <| Returns.step (eval_skipBlanks _) <|
    Returns.step (eval_peek _) <| Returns.ite (fun _ ↦ ?_) fun _ ↦ ?_
  · refine Returns.step (eval_loc _ file) <| Returns.bind (Moves.skip _) fun _ s₁ h₁ ↦
      Returns.step (eval_remaining s₁) <| Returns.bind (Moves.topLoop (Nat.lt_succ_self _)) fun code s₂ h₂ ↦
      Returns.step (eval_modifyOut s₂ _) <| Returns.bind (Moves.restOfLine _) fun _ s₃ h₃ ↦ Returns.pure ?_
    rw [if_pos rfl]
    refine ⟨h₃.le.trans (h₂.le.trans (h₁.le.trans (Nat.sub_le_sub_right honward.length_le 1))), ?_⟩
    have hgrows : ∀ col, Grows file s.line s.out.top
        (s.out.top.1 ++ code, if s.out.top.1 = [] then ⟨file, _, col⟩ else s.out.top.2) := fun col ↦
      .append rfl hline s.out.top code
    refine .of_top (((honward.trans h₁.onward).trans h₂.onward).trans ((Onward.of_eq rfl rfl).trans h₃.onward))
      (hgrows (after (after s 4) ((after s 4).rest.takeWhile isBlank).length).col) (h₃.out.trans ?_)
    have hout₂ := h₂.out.trans (h₁.out.trans hout)
    dsimp only
    rw [hout₂]
    rfl
  · refine Returns.step (eval_restore _ s) (Returns.pure ⟨⟨.of_eq rfl rfl, hout, le_rfl⟩, rfl, rfl⟩)

variable (file) in
/-- One turn of `parse_section1`. -/
theorem section1Step_turns (hne : s.rest ≠ []) : Returns (section1Step file) s fun _ s' ↦
    s'.rest <:+ s.rest ∧ s'.rest.length ≤ s.rest.length - 1 ∧ (section1Labels s → Turn file s s') := by
  have hturns : ∀ {x : Reader Unit}, Turns file x s → ∀ again : Bool,
      Returns (do x; return again) s fun _ s' ↦ s'.rest <:+ s.rest ∧ s'.rest.length ≤ s.rest.length - 1 ∧
        (section1Labels s → Turn file s s') := fun hx _ ↦
    Returns.bind hx fun _ _ hs' ↦ Returns.pure ⟨hs'.2.onward.suffix, hs'.1, fun _ ↦ hs'.2⟩
  refine Returns.step (eval_peek s) <| Returns.ite (fun _ ↦ hturns (Moves.turns (Moves.skip s)) true) fun hnl ↦
    Returns.step (eval_peekAt s 1) <| Returns.ite (fun hdivider ↦ ?_) fun _ ↦ Returns.step (eval_get s) ?_
  · refine Returns.bind (tryDivider_turns file hne hdivider.1 hdivider.2) fun _ _ hs' ↦ Returns.pure ?_
    exact ⟨hs'.1, hs'.2.1, fun h ↦ hs'.2.2 h.1⟩
  have hline : ∀ s₁, Moved s s.rest.length s₁ → s₁.rest = s.rest → s₁.line = s.line →
      Returns (do
        section1Line file (s.rest.getD 0 0)
        return true) s₁ fun _ s' ↦ s'.rest <:+ s.rest ∧ s'.rest.length ≤ s.rest.length - 1 ∧
          (section1Labels s → Turn file s s') := by
    intro s₁ h₁ hrest hl
    refine Returns.bind (section1Line_turns file (hrest ▸ hne) (by rw [hrest]) hnl) fun _ s' hs' ↦
      Returns.pure ⟨hrest ▸ hs'.2.1.suffix, hrest ▸ hs'.1, fun h ↦ ?_⟩
    exact .of_moved h₁ (hs'.2.2 fun hnil ↦ h.2 (h₁.out ▸ hnil)) hl
  refine Returns.ite (fun htop ↦ ?_) fun _ ↦ hline s ⟨.refl s, rfl, le_rfl⟩ rfl rfl
  refine Returns.bind (tryTop_turns file htop) fun took s₁ h₁ ↦ ?_
  cases took with
  | true => exact Returns.pure ⟨h₁.2.onward.suffix, h₁.1, fun _ ↦ h₁.2⟩
  | false => exact hline s₁ h₁.1 h₁.2.1 h₁.2.2

end Section1

/-! ## The loops -/

/-- A section: turns until one is the last, or nothing is left. -/
def turnLoop (step : Reader Bool) : Nat → Reader Unit
  | 0 => outOfFuel
  | n + 1 => do
      if ← atEnd then return
      if ← step then turnLoop step n

theorem section1Loop_eq (file : String) (n : Nat) :
    section1Loop file n = turnLoop (section1Step file) n := by
  induction n with
  | zero => rfl
  | succ n ih => rw [section1Loop, turnLoop, ih]

theorem section2Loop_eq (file : String) (n : Nat) :
    section2Loop file n = turnLoop (section2Step file) n := by
  induction n with
  | zero => rfl
  | succ n ih => rw [section2Loop, turnLoop, ih]

/-- Turns that take something come to an end. -/
theorem turnLoop_returns {step : Reader Bool}
    (hstep : ∀ s, s.rest ≠ [] → Returns step s fun _ s' ↦ s'.rest.length ≤ s.rest.length - 1)
    {n : Nat} {s : ReaderState} (hn : s.rest.length < n) :
    Returns (turnLoop step n) s fun _ s' ↦ s'.rest.length ≤ s.rest.length := by
  induction n generalizing s with
  | zero => exact absurd hn (Nat.not_lt_zero _)
  | succ n ih =>
      refine Returns.step (eval_atEnd s) <| Returns.ite (fun _ ↦ Returns.pure le_rfl) fun hend ↦ ?_
      have hne : s.rest ≠ [] := fun h ↦ hend (by rw [h]; rfl)
      refine Returns.bind (hstep s hne) fun again s₁ h₁ ↦ Returns.ite (fun _ ↦ ?_) fun _ ↦ ?_
      · refine Returns.mono (ih ?_) fun _ _ hs' ↦ hs'.trans (h₁.trans (Nat.sub_le _ _))
        exact (Nat.lt_of_le_pred (List.length_pos_of_ne_nil hne) h₁).trans_le (Nat.le_of_lt_succ hn)
      · exact Returns.pure (h₁.trans (Nat.sub_le _ _))

theorem parse_returns (file : String) (s : ReaderState) : Returns (parse file) s fun _ _ ↦ True := by
  have hsection1 : Returns (parseSection1 file) s fun _ _ ↦ True := by
    refine Returns.step (eval_remaining s) ?_
    rw [section1Loop_eq]
    refine Returns.mono (turnLoop_returns (fun s hne ↦ ?_) (Nat.lt_succ_self _)) fun _ _ _ ↦ trivial
    exact Returns.mono (section1Step_turns file hne) fun _ _ hs' ↦ hs'.2.1
  have hsection2 : ∀ s, Returns (parseSection2 file) s fun _ _ ↦ True := by
    refine fun s ↦ Returns.step (eval_remaining s) ?_
    rw [section2Loop_eq]
    refine Returns.mono (turnLoop_returns (fun s hne ↦ ?_) (Nat.lt_succ_self _)) fun _ _ _ ↦ trivial
    exact Returns.mono (section2Step_turns file hne) fun _ _ hs' ↦ hs'.1
  have hsection3 : ∀ s, Returns (parseSection3 file) s fun _ _ ↦ True := fun s ↦
    Returns.step (eval_loc s file) <| Returns.bind (Moves.takeWhile (fun _ ↦ true) s) fun _ _ _ ↦ ⟨(), _, rfl, trivial⟩
  refine Returns.bind hsection1 fun _ s₁ _ ↦ Returns.step (eval_atEnd s₁) ?_
  have hend : ∀ s₂, Returns (do if !(← atEnd) then parseSection3 file) s₂ fun _ _ ↦ True := fun s₂ ↦
    Returns.step (eval_atEnd s₂) <| Returns.ite (fun _ ↦ hsection3 s₂) fun _ ↦ Returns.pure trivial
  exact Returns.ite (fun _ ↦ Returns.bind (hsection2 s₁) fun _ s₂ _ ↦ hend s₂) fun _ ↦ hend s₁

/-- Each name takes bytes, so the names are the same for every number of turns that is enough. -/
theorem startConds_of_lt (exclusive : Bool) {n m : Nat} {text : List Byte} (hn : text.length < n)
    (hm : text.length < m) : startConds exclusive n text = startConds exclusive m text := by
  induction n generalizing m text with
  | zero => exact absurd hn (Nat.not_lt_zero _)
  | succ n ih =>
      cases m with
      | zero => exact absurd hm (Nat.not_lt_zero _)
      | succ m =>
          rw [startConds, startConds]
          generalize hisCond : (fun b : Byte ↦ isAlnum b || decide (b = chr '_')) = isCond
          have hsuffix := List.dropWhile_suffix isSpace (l := text)
          cases hname : (text.dropWhile isSpace).takeWhile isCond with
          | nil => rfl
          | cons b name =>
              have hlt : ((text.dropWhile isSpace).dropWhile isCond).length < text.length := by
                have hlen := congrArg List.length
                  (List.takeWhile_append_dropWhile (p := isCond) (l := text.dropWhile isSpace))
                rw [hname, List.length_append, List.length_cons] at hlen
                exact (by omega : _ < (text.dropWhile isSpace).length).trans_le hsuffix.length_le
              exact congrArg (List.cons _) (ih (hlt.trans_le (Nat.le_of_lt_succ hn))
                (hlt.trans_le (Nat.le_of_lt_succ hm)))

end Reader

open Reader in
/-- Reading a file ends: every turn of the section loops takes at least one byte. -/
theorem parseLexFile_ends (path : String) :
    (∀ contents, (parseLexFile path contents).isSome = true) ∧
    (∀ s, s.rest ≠ [] → ∃ again s', section1Step path s = some (again, s') ∧
      s'.rest <:+ s.rest ∧ s'.rest.length < s.rest.length) ∧
    (∀ s, s.rest ≠ [] → ∃ again s', section2Step path s = some (again, s') ∧
      s'.rest <:+ s.rest ∧ s'.rest.length < s.rest.length) ∧
    ∀ exclusive text n, text.length < n →
      startConds exclusive n text = startConds exclusive (text.length + 1) text := by
  have hlt : ∀ {s s' : ReaderState}, s.rest ≠ [] → s'.rest.length ≤ s.rest.length - 1 →
      s'.rest.length < s.rest.length := fun hne hle ↦ Nat.lt_of_le_pred (List.length_pos_of_ne_nil hne) hle
  refine ⟨fun contents ↦ ?_, fun s hne ↦ ?_, fun s hne ↦ ?_, fun exclusive text n hn ↦
    startConds_of_lt exclusive hn (Nat.lt_succ_self _)⟩
  · obtain ⟨_, s', hparse, -⟩ := parse_returns path { rest := contents, out := { origin := ⟨path, 1, 1⟩ } }
    rw [parseLexFile, hparse]
    rfl
  · obtain ⟨again, s', hs', hsuffix, hle, -⟩ := section1Step_turns path hne
    exact ⟨again, s', hs', hsuffix, hlt hne hle⟩
  · obtain ⟨again, s', hs', hle, honward, -⟩ := section2Step_turns path hne
    exact ⟨again, s', hs', honward.suffix, hlt hne hle⟩

end LexCpp
