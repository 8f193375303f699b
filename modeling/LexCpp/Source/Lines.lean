import LexCpp.Regex.Reading
import LexCpp.Source.Turns

/-!
# Source lines

The lines that the reader notes for rules and for blocks of code, and the lines that the
generated scanner and the diagnostics give.
-/

namespace LexCpp

/-! ## What is emitted -/

/-- `emit_line_directive`. -/
def emitLineDirective (loc : SourceLoc) : List Byte :=
  ascii "#line " ++ Parser.decimal loc.line ++ ascii " \"" ++
    ((ascii loc.file).flatMap fun c : Byte ↦ if c = chr '\\' ∨ c = chr '"' then [chr '\\', c] else [c]) ++
    ascii "\"\n"

/-- The label of code, if there is code. -/
def Labelled.label (p : Labelled) : List SourceLoc := if p.1 = [] then [] else [p.2]

namespace LexFile

def epilogue (f : LexFile) : Labelled := (f.section3, f.section3Loc)

/-- The blocks of code that are put together from several places. -/
def blocks : List (LexFile → Labelled) := [top, verbatim, prologue]

/-- The rules with a pattern, in the order of their numbers. -/
def patternRules (f : LexFile) : List Rule := f.rules.filter fun r ↦ !r.eof

/-- The places in the source for which `emit_c` writes a `#line` directive, in order: blocks of
code and the actions of rules. -/
def lineDirectives (f : LexFile) : List SourceLoc :=
  (blocks.flatMap fun p ↦ (p f).label) ++
    ((f.patternRules.filter fun r ↦ r.action ≠ ascii "|").map fun r ↦ r.loc) ++ f.epilogue.label

/-- `yy_rule_line`. -/
def yyRuleLine (f : LexFile) : List Nat :=
  if f.patternRules = [] then [0] else f.patternRules.map fun r ↦ r.loc.line

/-- The place that the diagnostic about the variable trailing context of rule `i` gives, in
`main`: the number of a pattern rule is taken for an index among all rules. -/
def trailDiagLoc (f : LexFile) (i : Nat) : SourceLoc := (f.rules[i]?.map fun r ↦ r.loc).getD {}

/-- With no `<<EOF>>` rule among the first ones, the numbers of these are their indices. -/
theorem trailDiagLoc_eq {out : LexFile} {i : Nat} {r : Rule} (hr : out.patternRules[i]? = some r)
    (heof : ∀ r' ∈ out.rules.take (i + 1), r'.eof = false) : out.trailDiagLoc i = r.loc := by
  have hfront : out.patternRules =
      out.rules.take (i + 1) ++ (out.rules.drop (i + 1)).filter fun r ↦ !r.eof := by
    have hall : (out.rules.take (i + 1)).filter (fun r ↦ !r.eof) = out.rules.take (i + 1) :=
      List.filter_eq_self.2 fun r' hr' ↦ by rw [heof r' hr']; rfl
    rw [patternRules, ← List.take_append_drop (i + 1) out.rules, List.filter_append,
      List.take_append_drop, hall]
  rcases Nat.lt_or_ge i out.rules.length with hlt | hge
  · rw [hfront, List.getElem?_append_left (by rw [List.length_take]; omega),
      List.getElem?_take_of_lt (Nat.lt_succ_self i)] at hr
    rw [trailDiagLoc, hr]
    rfl
  · have hlen : out.patternRules.length ≤ i := (List.length_filter_le _ _).trans hge
    rw [List.getElem?_eq_none hlen] at hr
    exact absurd hr (by rintro ⟨⟩)

end LexFile

namespace Reader

open Labelled

/-! ## Runs -/

/-- The turns of a loop, each with the states before and after it. -/
def turns (step : Reader Bool) : Nat → ReaderState → List (ReaderState × ReaderState)
  | 0, _ => []
  | n + 1, s =>
      if s.rest = [] then []
      else match step s with
        | none => []
        | some (again, s') => (s, s') :: if again then turns step n s' else []

/-- The reader at the start of a file. -/
def start (path : String) (contents : List Byte) : ReaderState :=
  { rest := contents, out := { origin := ⟨path, 1, 1⟩ } }

def section1Turns (path : String) (contents : List Byte) : List (ReaderState × ReaderState) :=
  turns (section1Step path) (contents.length + 1) (start path contents)

def section2Turns (path : String) (contents : List Byte) : List (ReaderState × ReaderState) :=
  match parseSection1 path (start path contents) with
  | none => []
  | some (_, s) => turns (section2Step path) (s.rest.length + 1) s

/-- The turns of both loops. -/
def fileTurns (path : String) (contents : List Byte) : List (ReaderState × ReaderState) :=
  section1Turns path contents ++ section2Turns path contents

/-- The rules that a turn adds. -/
def rulesRead (t : ReaderState × ReaderState) : List Rule :=
  t.2.out.rules.drop t.1.out.rules.length

/-- The turn adds the first code of a block. -/
def Begins (p : LexFile → Labelled) (t : ReaderState × ReaderState) : Prop :=
  (p t.1.out).1 = [] ∧ (p t.2.out).1 ≠ []

instance (p : LexFile → Labelled) (t : ReaderState × ReaderState) : Decidable (Begins p t) :=
  inferInstanceAs (Decidable (_ ∧ _))

/-- Later on, code has kept its label, and so have the rules. -/
structure Later (s s' : ReaderState) : Prop where
  onward : Onward s s'
  top : Kept s.out.top s'.out.top
  verbatim : Kept s.out.verbatim s'.out.verbatim
  prologue : Kept s.out.prologue s'.out.prologue
  epilogue : s'.out.section3 = s.out.section3

namespace Later

variable {s s' s'' : ReaderState}

theorem refl (s : ReaderState) : Later s s := ⟨.refl s, .refl _, .refl _, .refl _, rfl⟩

theorem trans (h : Later s s') (h' : Later s' s'') : Later s s'' :=
  ⟨h.onward.trans h'.onward, h.top.trans h'.top, h.verbatim.trans h'.verbatim,
    h.prologue.trans h'.prologue, h'.epilogue.trans h.epilogue⟩

end Later

theorem Turn.later {file : String} {s s' : ReaderState} (h : Turn file s s') : Later s s' :=
  ⟨h.onward, h.top.1, h.verbatim.1, h.prologue.1, h.epilogue⟩

theorem Turn.rules_eq {file : String} {t : ReaderState × ReaderState} (h : Turn file t.1 t.2) :
    t.2.out.rules = t.1.out.rules ++ rulesRead t ∧
      ∀ r ∈ rulesRead t, r.loc.file = file ∧ r.loc.line = t.1.line := by
  obtain ⟨new, hnew, hloc⟩ := h.rules
  have hread : rulesRead t = new := by rw [rulesRead, hnew, List.drop_left]
  rw [hread]
  exact ⟨hnew, hloc⟩

/-- Code that is there in the end was first added in some turn. -/
theorem exists_first_turn {step : Reader Bool} {n : Nat} {s f : ReaderState} (p : LexFile → Labelled)
    (hf : turnLoop step n s = some ((), f)) (hnil : (p s.out).1 = []) (hne : (p f.out).1 ≠ []) :
    ∃ t ∈ turns step n s, Begins p t := by
  induction n generalizing s with
  | zero => exact absurd hf (by rintro ⟨⟩)
  | succ n ih =>
      rw [turnLoop, eval_bind_of (eval_atEnd s)] at hf
      rw [turns]
      by_cases hend : s.rest = []
      · rw [hend] at hf
        obtain rfl := (Prod.mk.inj (Option.some.inj hf)).2
        exact absurd hnil hne
      · rw [List.isEmpty_eq_false_iff.2 hend] at hf
        obtain ⟨again, s', hstep, hf⟩ := exists_of_eval_bind hf
        rw [if_neg hend]
        simp only [hstep]
        by_cases hnil' : (p s'.out).1 = []
        · cases again with
          | false =>
              obtain rfl := (Prod.mk.inj (Option.some.inj hf)).2
              exact absurd hnil' hne
          | true =>
              obtain ⟨t, ht, hfirst⟩ := ih hf hnil'
              exact ⟨t, List.mem_cons_of_mem _ ht, hfirst⟩
        · exact ⟨(s, s'), List.mem_cons_self, hnil, hnil'⟩

/-- A run of a loop. -/
theorem turnLoop_turns {file : String} {step : Reader Bool} {n : Nat} {s f : ReaderState}
    (hf : turnLoop step n s = some ((), f)) (hturn : ∀ t ∈ turns step n s, Turn file t.1 t.2) :
    Later s f ∧ (∀ t ∈ turns step n s, Onward s t.1 ∧ Later t.2 f) ∧
      f.out.rules = s.out.rules ++ (turns step n s).flatMap rulesRead := by
  induction n generalizing s with
  | zero => exact absurd hf (by rintro ⟨⟩)
  | succ n ih =>
      rw [turns] at hturn ⊢
      rw [turnLoop, eval_bind_of (eval_atEnd s)] at hf
      by_cases hnil : s.rest = []
      · rw [if_pos hnil] at hturn ⊢
        rw [hnil] at hf
        obtain rfl := (Prod.mk.inj (Option.some.inj hf)).2
        exact ⟨.refl s, fun t ht ↦ absurd ht List.not_mem_nil, (List.append_nil _).symm⟩
      · have hend : s.rest.isEmpty = false := List.isEmpty_eq_false_iff.2 hnil
        rw [if_neg hnil] at hturn ⊢
        rw [hend] at hf
        obtain ⟨again, s', hstep, hf⟩ := exists_of_eval_bind hf
        simp only [hstep] at hturn ⊢
        have hfirst := hturn (s, s') List.mem_cons_self
        have hrules := (Turn.rules_eq (t := (s, s')) hfirst).1
        cases again with
        | false =>
            obtain rfl := (Prod.mk.inj (Option.some.inj hf)).2
            refine ⟨hfirst.later, fun t ht ↦ ?_, ?_⟩
            · obtain rfl := List.mem_singleton.1 ht
              exact ⟨.refl s, .refl _⟩
            · rw [if_neg Bool.false_ne_true, List.flatMap_cons, List.flatMap_nil, List.append_nil]
              exact hrules
        | true =>
            have hrec := ih hf fun t ht ↦ hturn t (List.mem_cons_of_mem _ ht)
            refine ⟨hfirst.later.trans hrec.1, fun t ht ↦ ?_, ?_⟩
            · rcases List.mem_cons.1 ht with rfl | ht
              · exact ⟨.refl s, hrec.1⟩
              · exact ⟨hfirst.onward.trans (hrec.2.1 t ht).1, (hrec.2.1 t ht).2⟩
            · rw [if_pos rfl, List.flatMap_cons, ← List.append_assoc, ← hrules]
              exact hrec.2.2

/-! ## Lines -/

/-- The line that the reader is on: one more than the newlines before. -/
def lineOf (contents : List Byte) (s : ReaderState) : Nat :=
  1 + (contents.take (contents.length - s.rest.length)).count newline

theorem Onward.line_eq_lineOf {path : String} {contents : List Byte} {s : ReaderState}
    (h : Onward (start path contents) s) (hlen : contents.count newline < 4294967295) :
    s.line = lineOf contents s := by
  obtain ⟨w, hw, hline⟩ := h
  change contents = w ++ s.rest at hw
  have htake : contents.take (contents.length - s.rest.length) = w := by
    rw [hw, List.length_append, Nat.add_sub_cancel, List.take_left]
  have hcount : w.count newline ≤ contents.count newline := by
    rw [hw, List.count_append]
    exact Nat.le_add_right _ _
  rw [lineOf, htake, hline]
  exact lineAfter_eq (by change 1 + w.count newline < _; omega)

/-- Every line is right: those that the reader is on when a turn starts, and those that it notes
for the rules and for the first code of each block, which are those of the turns that they are
read in. -/
structure ExactLines (path : String) (contents : List Byte) (out : LexFile) : Prop where
  line : ∀ t ∈ fileTurns path contents, t.1.line = lineOf contents t.1
  rules : out.rules = (fileTurns path contents).flatMap rulesRead
  rule : ∀ t ∈ fileTurns path contents, ∀ r ∈ rulesRead t,
    r.loc.file = path ∧ r.loc.line = lineOf contents t.1
  begins : ∀ p ∈ LexFile.blocks, (p out).1 ≠ [] → ∃ t ∈ fileTurns path contents, Begins p t
  block : ∀ p ∈ LexFile.blocks, ∀ t ∈ fileTurns path contents, Begins p t →
    (p out).1 ≠ [] ∧ (p out).2.file = path ∧ (p out).2.line = lineOf contents t.1
  epilogue : out.section3 ≠ [] → out.section3Loc.file = path ∧ out.section3Loc.line =
    1 + (contents.take (contents.length - out.section3.length)).count newline

/-- The paths on which a line is lost are not taken. -/
structure KeepsLines (path : String) (contents : List Byte) : Prop where
  section1 : ∀ t ∈ section1Turns path contents, section1Labels t.1
  section2 : ∀ t ∈ section2Turns path contents, section2Labels t.1
  length_lt : contents.count newline < 4294967295

theorem mem_turns {step : Reader Bool} {n : Nat} {s : ReaderState} {t : ReaderState × ReaderState}
    (ht : t ∈ turns step n s) : t.1.rest ≠ [] ∧ ∃ again, step t.1 = some (again, t.2) := by
  induction n generalizing s with
  | zero => exact absurd ht List.not_mem_nil
  | succ n ih =>
      rw [turns] at ht
      split_ifs at ht with hnil
      · exact absurd ht List.not_mem_nil
      · cases hstep : step s with
        | none =>
            rw [hstep] at ht
            exact absurd ht List.not_mem_nil
        | some r =>
            rw [hstep] at ht
            rcases List.mem_cons.1 ht with rfl | ht
            · exact ⟨hnil, r.1, hstep⟩
            · split_ifs at ht with hagain
              · exact ih ht
              · exact absurd ht List.not_mem_nil

theorem KeepsLines.turn {path : String} {contents : List Byte} (h : KeepsLines path contents) :
    ∀ t ∈ fileTurns path contents, Turn path t.1 t.2 := by
  intro t ht
  rcases List.mem_append.1 ht with ht | ht
  · obtain ⟨hne, again, hstep⟩ := mem_turns ht
    exact ((section1Step_turns path hne).ensures again t.2 hstep).2.2 (h.section1 t ht)
  · have hlabels := h.section2 t ht
    unfold section2Turns at ht
    split at ht
    · exact absurd ht List.not_mem_nil
    · obtain ⟨hne, again, hstep⟩ := mem_turns ht
      exact ((section2Step_turns path hne).ensures again t.2 hstep).2.2 hlabels

/-- The run of both loops. -/
theorem KeepsLines.run {path : String} {contents : List Byte} (h : KeepsLines path contents)
    {f : ReaderState} (hf : parse path (start path contents) = some ((), f)) :
    ∃ s, Later (start path contents) s ∧
      (∀ t ∈ fileTurns path contents, Onward (start path contents) t.1 ∧ Later t.2 s) ∧
      s.out.rules = (fileTurns path contents).flatMap rulesRead ∧
      (∀ p : LexFile → Labelled, (p (start path contents).out).1 = [] → (p s.out).1 ≠ [] →
        ∃ t ∈ fileTurns path contents, Begins p t) ∧
      (s.rest = [] ∧ f = s ∨ parseSection3 path s = some ((), f)) := by
  have hend : ∀ s, (do if !(← atEnd) then parseSection3 path : Reader Unit) s = some ((), f) →
      s.rest = [] ∧ f = s ∨ parseSection3 path s = some ((), f) := by
    intro s hs
    rw [eval_bind_of (eval_atEnd s)] at hs
    by_cases hnil : s.rest = []
    · rw [hnil] at hs
      exact Or.inl ⟨hnil, (Prod.mk.inj (Option.some.inj hs)).2.symm⟩
    · rw [List.isEmpty_eq_false_iff.2 hnil] at hs
      exact Or.inr hs
  obtain ⟨_, s₁, hsection1, hf⟩ := exists_of_eval_bind hf
  have hturns₂ : section2Turns path contents = turns (section2Step path) (s₁.rest.length + 1) s₁ := by
    rw [section2Turns, hsection1]
  have hturn := h.turn
  rw [fileTurns, hturns₂] at hturn ⊢
  rw [parseSection1, eval_bind_of (eval_remaining _), section1Loop_eq] at hsection1
  have hfirst₁ := fun p ↦ exists_first_turn p hsection1
  obtain ⟨hlater₁, hmem₁, hrules₁⟩ := turnLoop_turns hsection1 fun t ht ↦ hturn t (List.mem_append_left _ ht)
  rw [eval_bind_of (eval_atEnd s₁)] at hf
  by_cases hnil : s₁.rest = []
  · rw [hnil] at hf
    have hnone : turns (section2Step path) (s₁.rest.length + 1) s₁ = [] := by rw [turns, if_pos hnil]
    rw [hnone, List.append_nil]
    exact ⟨s₁, hlater₁, hmem₁, hrules₁, hfirst₁, hend s₁ hf⟩
  · rw [List.isEmpty_eq_false_iff.2 hnil] at hf
    obtain ⟨_, s₂, hsection2, hf⟩ := exists_of_eval_bind hf
    rw [parseSection2, eval_bind_of (eval_remaining _), section2Loop_eq] at hsection2
    obtain ⟨hlater₂, hmem₂, hrules₂⟩ := turnLoop_turns hsection2 fun t ht ↦ hturn t (List.mem_append_right _ ht)
    refine ⟨s₂, hlater₁.trans hlater₂, fun t ht ↦ ?_, ?_, fun p hstart hne ↦ ?_, hend s₂ hf⟩
    · rcases List.mem_append.1 ht with ht | ht
      · exact ⟨(hmem₁ t ht).1, (hmem₁ t ht).2.trans hlater₂⟩
      · exact ⟨hlater₁.onward.trans (hmem₂ t ht).1, (hmem₂ t ht).2⟩
    · rw [hrules₂, hrules₁, List.flatMap_append]
      rfl
    · by_cases hmid : (p s₁.out).1 = []
      · obtain ⟨t, ht, hfirst⟩ := exists_first_turn p hsection2 hmid hne
        exact ⟨t, List.mem_append_right _ ht, hfirst⟩
      · obtain ⟨t, ht, hfirst⟩ := hfirst₁ p hstart hmid
        exact ⟨t, List.mem_append_left _ ht, hfirst⟩

theorem eval_parseSection3 (path : String) (s : ReaderState) : parseSection3 path s =
    some ((), { after s s.rest.length with
      out := { s.out with section3 := s.rest, section3Loc := ⟨path, s.line, s.col⟩ } }) := by
  have hall : takeWhile (fun _ ↦ true) s = some (s.rest, after s s.rest.length) :=
    eval_takeWhile (List.append_nil _).symm (fun _ _ ↦ rfl) fun _ hc ↦ absurd hc (by simp)
  rw [parseSection3, eval_bind_of (eval_loc s path), eval_bind_of hall, eval_modifyOut, out_after]

/-- In a file without the lines that lose count, every line is right. -/
theorem KeepsLines.exactLines {path : String} {contents : List Byte} (h : KeepsLines path contents)
    {f : ReaderState} (hf : parse path (start path contents) = some ((), f)) :
    ExactLines path contents f.out := by
  obtain ⟨s, hlater, hmem, hrules, hexists, hsection3⟩ := h.run hf
  -- section 3 changes nothing else
  have hsame : f.out.rules = s.out.rules ∧ f.out.top = s.out.top ∧ f.out.verbatim = s.out.verbatim ∧
      f.out.prologue = s.out.prologue := by
    rcases hsection3 with ⟨-, rfl⟩ | hsection3
    · exact ⟨rfl, rfl, rfl, rfl⟩
    · rw [eval_parseSection3] at hsection3
      obtain rfl := (Prod.mk.inj (Option.some.inj hsection3)).2
      exact ⟨rfl, rfl, rfl, rfl⟩
  have hblocks : ∀ p ∈ LexFile.blocks, p f.out = p s.out ∧ (p (start path contents).out).1 = [] ∧
      ∀ t ∈ fileTurns path contents,
        Grows path t.1.line (p t.1.out) (p t.2.out) ∧ Kept (p t.2.out) (p s.out) := by
    intro p hp
    simp only [LexFile.blocks, List.mem_cons, List.not_mem_nil, or_false] at hp
    rcases hp with rfl | rfl | rfl
    · exact ⟨hsame.2.1, rfl, fun t ht ↦ ⟨(h.turn t ht).top, (hmem t ht).2.top⟩⟩
    · exact ⟨hsame.2.2.1, rfl, fun t ht ↦ ⟨(h.turn t ht).verbatim, (hmem t ht).2.verbatim⟩⟩
    · exact ⟨hsame.2.2.2, rfl, fun t ht ↦ ⟨(h.turn t ht).prologue, (hmem t ht).2.prologue⟩⟩
  have hline : ∀ t ∈ fileTurns path contents, t.1.line = lineOf contents t.1 := fun t ht ↦
    (hmem t ht).1.line_eq_lineOf h.length_lt
  refine ⟨hline, hsame.1.trans hrules, fun t ht r hr ↦ ?_, fun p hp hne ↦ ?_, fun p hp t ht hbegins ↦ ?_,
    fun hne ↦ ?_⟩
  · rw [← hline t ht]
    exact (Turn.rules_eq (h.turn t ht)).2 r hr
  · obtain ⟨heq, hnil, -⟩ := hblocks p hp
    exact hexists p hnil (heq ▸ hne)
  · -- the first code is labelled in its turn, and keeps the label
    obtain ⟨heq, -, hturn⟩ := hblocks p hp
    obtain ⟨hgrows, hkept⟩ := hturn t ht
    rw [heq, (hkept hbegins.2).2, ← hline t ht]
    exact ⟨(hkept hbegins.2).1, hgrows.2 hbegins.1 hbegins.2⟩
  · rcases hsection3 with ⟨-, rfl⟩ | hsection3
    · exact absurd hlater.epilogue hne
    · rw [eval_parseSection3] at hsection3
      obtain rfl := (Prod.mk.inj (Option.some.inj hsection3)).2
      exact ⟨rfl, hlater.onward.line_eq_lineOf h.length_lt⟩

/-! ## Emitted lines -/

/-- The `#line` directive for this line of the file. -/
def directiveAt (path : String) (line : Nat) : List Byte := emitLineDirective ⟨path, line, 0⟩

/-- The true lines of the rules of a kind. -/
def ruleLines (path : String) (contents : List Byte) (keep : Rule → Bool) : List Nat :=
  (fileTurns path contents).flatMap fun t ↦ ((rulesRead t).filter keep).map fun _ ↦ lineOf contents t.1

/-- The true line of the first code of a block. -/
def blockLine (path : String) (contents : List Byte) (p : LexFile → Labelled) : List Nat :=
  ((fileTurns path contents).find? fun t ↦ Begins p t).toList.map fun t ↦ lineOf contents t.1

/-- The lines that are emitted are the true ones: in the `#line` directives, in `yy_rule_line`,
and in the diagnostic about variable trailing context if no `<<EOF>>` rule comes before the rule
that it is about. -/
structure EmitsLines (path : String) (contents : List Byte) (out : LexFile) : Prop where
  directives : out.lineDirectives.map emitLineDirective =
    ((LexFile.blocks.flatMap (blockLine path contents)) ++
      ruleLines path contents (fun r ↦ !r.eof && r.action ≠ ascii "|") ++
      if out.section3 = [] then []
      else [1 + (contents.take (contents.length - out.section3.length)).count newline]).map
        (directiveAt path)
  ruleLine : out.yyRuleLine =
    if out.patternRules = [] then [0] else ruleLines path contents fun r ↦ !r.eof
  trailDiag : ∀ i r, out.patternRules[i]? = some r → (∀ r' ∈ out.rules.take (i + 1), r'.eof = false) →
    out.trailDiagLoc i = r.loc

theorem ExactLines.map_filter {path : String} {contents : List Byte} {out : LexFile}
    (h : ExactLines path contents out) {α : Type} (keep : Rule → Bool) (f : String × Nat → α) :
    (out.rules.filter keep).map (fun r ↦ f (r.loc.file, r.loc.line)) =
      (ruleLines path contents keep).map fun line ↦ f (path, line) := by
  rw [h.rules, ruleLines, List.filter_flatMap, List.map_flatMap, List.map_flatMap]
  refine List.flatMap_congr fun t ht ↦ ?_
  rw [List.map_map]
  refine List.map_congr_left fun r hr ↦ ?_
  obtain ⟨hfile, hline⟩ := h.rule t ht r (List.mem_filter.1 hr).1
  rw [hfile, hline]
  rfl

theorem emitLineDirective_eq (loc : SourceLoc) : emitLineDirective loc = directiveAt loc.file loc.line := rfl

/-- A block is labelled with the line of the turn that begins it, if there is one. -/
theorem ExactLines.label {path : String} {contents : List Byte} {out : LexFile}
    (h : ExactLines path contents out) {p : LexFile → Labelled} (hp : p ∈ LexFile.blocks) :
    (p out).label.map emitLineDirective = (blockLine path contents p).map (directiveAt path) := by
  rw [blockLine]
  cases hfind : (fileTurns path contents).find? fun t ↦ Begins p t with
  | none =>
      have hnil : (p out).1 = [] := by
        by_contra hne
        obtain ⟨t, ht, hbegins⟩ := h.begins p hp hne
        exact List.find?_eq_none.1 hfind t ht (decide_eq_true hbegins)
      rw [Labelled.label, if_pos hnil]
      rfl
  | some t =>
      have hdecide : decide (Begins p t) = true :=
        List.find?_some (p := fun t ↦ decide (Begins p t)) hfind
      have hbegins : Begins p t := of_decide_eq_true hdecide
      obtain ⟨hne, hfile, hline⟩ := h.block p hp t (List.mem_of_find?_eq_some hfind) hbegins
      rw [Labelled.label, if_neg hne, List.map_singleton, emitLineDirective_eq, hfile, hline]
      rfl

theorem ExactLines.label_epilogue {path : String} {contents : List Byte} {out : LexFile}
    (h : ExactLines path contents out) : out.epilogue.label.map emitLineDirective =
      (if out.section3 = [] then []
        else [1 + (contents.take (contents.length - out.section3.length)).count newline]).map
          (directiveAt path) := by
  by_cases hnil : out.section3 = []
  · rw [if_pos hnil, Labelled.label, LexFile.epilogue, if_pos hnil]
    rfl
  · obtain ⟨hfile, hline⟩ := h.epilogue hnil
    rw [if_neg hnil, Labelled.label, LexFile.epilogue, if_neg hnil, List.map_singleton, emitLineDirective_eq,
      hfile, hline]
    rfl

/-- What is exact is emitted so. -/
theorem ExactLines.emitsLines {path : String} {contents : List Byte} {out : LexFile}
    (h : ExactLines path contents out) : EmitsLines path contents out where
  directives := by
    have hblocks : (LexFile.blocks.flatMap fun p ↦ (p out).label).map emitLineDirective =
        (LexFile.blocks.flatMap (blockLine path contents)).map (directiveAt path) := by
      rw [List.map_flatMap, List.map_flatMap]
      exact List.flatMap_congr fun p hp ↦ h.label hp
    have hrules : ((out.patternRules.filter fun r ↦ r.action ≠ ascii "|").map fun r ↦ r.loc).map
        emitLineDirective = (ruleLines path contents fun r ↦ !r.eof && r.action ≠ ascii "|").map
          (directiveAt path) := by
      rw [List.map_map, LexFile.patternRules, List.filter_filter,
        ← h.map_filter _ fun p ↦ directiveAt p.1 p.2]
      simp only [Bool.and_comm]
      rfl
    rw [LexFile.lineDirectives, List.map_append, List.map_append, hblocks, hrules, h.label_epilogue,
      List.map_append, List.map_append]
  ruleLine := by
    have hlines := h.map_filter (fun r ↦ !r.eof) Prod.snd
    have hsame : (ruleLines path contents fun r ↦ !r.eof).map (fun line ↦ (path, line).2) =
        ruleLines path contents fun r ↦ !r.eof := List.map_id _
    rw [hsame] at hlines
    rw [LexFile.yyRuleLine, ← hlines]
    rfl
  trailDiag _ _ hr heof := LexFile.trailDiagLoc_eq hr heof

/-- The lines are exact, and emitted so, if no path is taken on which one is lost. -/
theorem lines_exact {path : String} {contents : List Byte} (h : KeepsLines path contents) :
    ∃ f, parse path (start path contents) = some ((), f) ∧ ExactLines path contents f.out ∧
      EmitsLines path contents f.out := by
  obtain ⟨_, f, hf, -⟩ := parse_returns path (start path contents)
  exact ⟨f, hf, h.exactLines hf, (h.exactLines hf).emitsLines⟩

/-- A file with code in each section. -/
theorem lines_exact_example :
    ∃ f, parse "f.l" (start "f.l" (ascii "%\x7b\nint n;\n%\x7d\nD x\n%%\n\nab n++;\n%%\nint m;\n")) = some ((), f) ∧
      ExactLines "f.l" (ascii "%\x7b\nint n;\n%\x7d\nD x\n%%\n\nab n++;\n%%\nint m;\n") f.out ∧
      EmitsLines "f.l" (ascii "%\x7b\nint n;\n%\x7d\nD x\n%%\n\nab n++;\n%%\nint m;\n") f.out :=
  lines_exact ⟨by decide +kernel, by decide +kernel, by decide +kernel⟩

/-- With `%%x` in section 1 the reader counts lines from 1 again. -/
theorem lines_not_exact : ¬ ∃ f, parse "f.l" (start "f.l" (ascii "\n%%x\n%%\na b;\n")) = some ((), f) ∧
    ExactLines "f.l" (ascii "\n%%x\n%%\na b;\n") f.out := by
  rintro ⟨f, -, hexact⟩
  have hlines : ¬ ∀ t ∈ fileTurns "f.l" (ascii "\n%%x\n%%\na b;\n"),
      t.1.line = lineOf (ascii "\n%%x\n%%\na b;\n") t.1 := by decide +kernel
  exact hlines hexact.line


end Reader

end LexCpp
