import LexCpp.Regex.Classes
import LexCpp.Regex.Ends

/-!
# The way through a pattern and its macros

The calls of `parse_primary` that `parse_regex` makes, in the pattern and in the macros that it
expands.  The environment of a call tells which macros are being expanded there: no two of them
are the same, and a reference to one of them is an error.
-/

namespace LexCpp

namespace Parser

/-- A call of `parse_primary`. -/
structure Visit where
  env : ParseEnv
  s : ParseState

namespace Visit

/-- The call is made at a reference to the macro `name`, which `k` follows. -/
def Refers (v : Visit) (name k : List Byte) : Prop :=
  v.s.rest.head? = some (chr '{') ∧ Reference name v.s.rest.tail k

/-- The call returns without an error. -/
def ErrorFree (v : Visit) : Prop :=
  ∃ n o s', parsePrimary (parseAlt n) v.env v.s = some (o, s') ∧ Diag.ok s'.diags = true

end Visit

section Visits

variable (rec : ParseEnv → Parser Node) (visits : ParseEnv → ParseState → List Visit)
  (env : ParseEnv)

/-- The calls in the expansion of a reference. -/
def macroVisits (s : ParseState) : List Visit :=
  match readWhile isNameByte s.rest.tail.length { s with rest := s.rest.tail } with
  | none => []
  | some (name, s') =>
      if name = [] ∨ s'.rest.getD 0 0 ≠ chr '}' then []
      else if name ∈ env.expanding then []
      else
        match env.macros name with
        | none => []
        | some exp => visits { env with expanding := name :: env.expanding } { s' with rest := exp }

/-- A call, and those in its group or its expansion. -/
def primaryVisits (s : ParseState) : List Visit :=
  ⟨env, s⟩ ::
    if s.rest.getD 0 0 = chr '(' then visits env { s with rest := s.rest.tail }
    else if s.rest.getD 0 0 = chr '{' then macroVisits visits env s
    else []

def concatVisits : Nat → ParseState → List Visit
  | 0, _ => []
  | n + 1, s =>
      if s.rest.isEmpty || isConcatTerminator (s.rest.getD 0 0) then []
      else
        primaryVisits visits env s ++
          match parsePostfix rec env s with
          | some (some _, s') => concatVisits n s'
          | _ => []

def altVisits : Nat → ParseState → List Visit
  | 0, _ => []
  | n + 1, s =>
      if s.rest.getD 0 0 ≠ chr '|' then []
      else
        concatVisits rec visits env (s.rest.tail.length + 1) { s with rest := s.rest.tail } ++
          match parseConcat rec env { s with rest := s.rest.tail } with
          | some (_, s') => altVisits n s'
          | none => []

end Visits

def parseAltVisits : Nat → ParseEnv → ParseState → List Visit
  | 0, _, _ => []
  | fuel + 1, env, s =>
      concatVisits (parseAlt fuel) (parseAltVisits fuel) env (s.rest.length + 1) s ++
        match parseConcat (parseAlt fuel) env s with
        | some (_, s') =>
            altVisits (parseAlt fuel) (parseAltVisits fuel) env (s'.rest.length + 1) s'
        | none => []

/-- What `^` leaves. -/
def afterBol (src : List Byte) : List Byte := if src.getD 0 0 = chr '^' then src.tail else src

end Parser

/-- The calls of `parse_primary` that `parse_regex` makes. -/
def visits (fuel : Nat) (env : ParseEnv) (src : List Byte) : List Parser.Visit :=
  Parser.parseAltVisits fuel env { rest := Parser.afterBol src }

namespace Parser

/-! ## Environments -/

section Envs

variable {P : ParseEnv → Prop} {rec : ParseEnv → Parser Node}
  {visits : ParseEnv → ParseState → List Visit} {env : ParseEnv}

/-- What holds of an environment and stays when a macro is expanded. -/
structure Expands (P : ParseEnv → Prop) : Prop where
  expand : ∀ env name exp, P env → name ∉ env.expanding → env.macros name = some exp →
    P { env with expanding := name :: env.expanding }

theorem Expands.macroVisits (hP : Expands P) (hrec : ∀ env s, P env → ∀ v ∈ visits env s, P v.env)
    (henv : P env) (s : ParseState) : ∀ v ∈ macroVisits visits env s, P v.env := by
  intro v hv
  unfold Parser.macroVisits at hv
  cases hread : readWhile isNameByte s.rest.tail.length { s with rest := s.rest.tail } with
  | none =>
      rw [hread] at hv
      exact absurd hv List.not_mem_nil
  | some r =>
      obtain ⟨name, s'⟩ := r
      rw [hread] at hv
      simp only at hv
      split_ifs at hv with hname hfresh
      · exact absurd hv List.not_mem_nil
      · exact absurd hv List.not_mem_nil
      · cases hexp : env.macros name with
        | none =>
            rw [hexp] at hv
            exact absurd hv List.not_mem_nil
        | some exp =>
            rw [hexp] at hv
            exact hrec _ _ (hP.expand env name exp henv hfresh hexp) v hv

theorem Expands.primaryVisits (hP : Expands P) (hrec : ∀ env s, P env → ∀ v ∈ visits env s, P v.env)
    (henv : P env) (s : ParseState) : ∀ v ∈ primaryVisits visits env s, P v.env := by
  intro v hv
  rcases List.mem_cons.1 hv with rfl | hv
  · exact henv
  · split_ifs at hv
    · exact hrec env _ henv v hv
    · exact hP.macroVisits hrec henv s v hv
    · exact absurd hv List.not_mem_nil

theorem Expands.concatVisits (hP : Expands P) (hrec : ∀ env s, P env → ∀ v ∈ visits env s, P v.env)
    (henv : P env) (n : Nat) (s : ParseState) : ∀ v ∈ concatVisits rec visits env n s, P v.env := by
  induction n generalizing s with
  | zero => exact fun v hv ↦ absurd hv List.not_mem_nil
  | succ n ih =>
      intro v hv
      unfold Parser.concatVisits at hv
      split_ifs at hv
      · exact absurd hv List.not_mem_nil
      · rcases List.mem_append.1 hv with hv | hv
        · exact hP.primaryVisits hrec henv s v hv
        · split at hv
          · exact ih _ v hv
          · exact absurd hv List.not_mem_nil

theorem Expands.altVisits (hP : Expands P) (hrec : ∀ env s, P env → ∀ v ∈ visits env s, P v.env)
    (henv : P env) (n : Nat) (s : ParseState) : ∀ v ∈ altVisits rec visits env n s, P v.env := by
  induction n generalizing s with
  | zero => exact fun v hv ↦ absurd hv List.not_mem_nil
  | succ n ih =>
      intro v hv
      unfold Parser.altVisits at hv
      split_ifs at hv
      · exact absurd hv List.not_mem_nil
      · rcases List.mem_append.1 hv with hv | hv
        · exact hP.concatVisits hrec henv _ _ v hv
        · split at hv
          · exact ih _ v hv
          · exact absurd hv List.not_mem_nil

/-- It holds wherever the parser comes. -/
theorem Expands.parseAltVisits (hP : Expands P) {fuel : Nat} (henv : P env) (s : ParseState) :
    ∀ v ∈ parseAltVisits fuel env s, P v.env := by
  induction fuel generalizing env s with
  | zero => exact fun v hv ↦ absurd hv List.not_mem_nil
  | succ fuel ih =>
      intro v hv
      have hrec : ∀ env s, P env → ∀ v ∈ Parser.parseAltVisits fuel env s, P v.env :=
        fun env s henv ↦ ih henv s
      rcases List.mem_append.1 hv with hv | hv
      · exact hP.concatVisits hrec henv _ _ v hv
      · split at hv
        · exact hP.altVisits hrec henv _ _ v hv
        · exact absurd hv List.not_mem_nil

end Envs

/-- Macros are not expanded inside of themselves, so there are at most as many expansions around a
call as there are macros. -/
theorem length_expanding_le {fuel : Nat} {env : ParseEnv} {names : Finset (List Byte)}
    (hnames : ∀ name, env.macros name ≠ none → name ∈ names) (henv : env.expanding = [])
    (s : ParseState) : ∀ v ∈ parseAltVisits fuel env s, v.env.expanding.length ≤ names.card := by
  have hP : Expands fun e ↦ e.macros = env.macros ∧ e.expanding.Nodup ∧
      ∀ name ∈ e.expanding, name ∈ names := by
    refine ⟨fun e name exp h hfresh hexp ↦ ⟨h.1, List.nodup_cons.2 ⟨hfresh, h.2.1⟩, ?_⟩⟩
    rintro name' (_ | ⟨_, hname⟩)
    · refine hnames name ?_
      rw [← h.1, hexp]
      exact Option.some_ne_none exp
    · exact h.2.2 name' hname
  intro v hv
  obtain ⟨-, hnodup, hmem⟩ := hP.parseAltVisits
    ⟨rfl, by rw [henv]; exact List.nodup_nil, by rw [henv]; exact fun _ h ↦ absurd h List.not_mem_nil⟩
    s v hv
  rw [← List.toFinset_card_of_nodup hnodup]
  exact Finset.card_le_card fun name h ↦ hmem name (List.mem_toFinset.1 h)

/-! ## Calls without errors -/

/-- What returns without an error started without one, and its calls are without errors. -/
def Accounted {α : Type} (x : Parser α) (s : ParseState) (vs : List Visit) : Prop :=
  Ensures x s fun _ s' ↦ Diag.ok s'.diags = true → Diag.ok s.diags = true ∧ ∀ v ∈ vs, v.ErrorFree

namespace Accounted

variable {α β : Type} {x y : Parser α} {z : Parser β} {s : ParseState} {vs vs' : List Visit}

theorem bind {f : β → Parser α} (hz : Accounted z s vs)
    (hf : ∀ b s', z s = some (b, s') → Accounted (f b) s' vs') : Accounted (z >>= f) s (vs ++ vs') := by
  intro a s'' hrun hok
  obtain ⟨b, s', hzrun, hfrun⟩ := exists_of_eval_bind hrun
  obtain ⟨hok', hvs'⟩ := hf b s' hzrun a s'' hfrun hok
  obtain ⟨hok₀, hvs⟩ := hz b s' hzrun hok'
  exact ⟨hok₀, List.forall_mem_append.2 ⟨hvs, hvs'⟩⟩

/-- A step without calls. -/
theorem step {f : β → Parser α} (hz : KeepsErrors z)
    (hf : ∀ b s', z s = some (b, s') → Accounted (f b) s' vs) : Accounted (z >>= f) s vs := by
  intro a s'' hrun hok
  obtain ⟨b, s', hzrun, hfrun⟩ := exists_of_eval_bind hrun
  obtain ⟨hok', hvs⟩ := hf b s' hzrun a s'' hfrun hok
  exact ⟨hz s b s' hzrun hok', hvs⟩

/-- The last step with calls. -/
theorem last {f : β → Parser α} (hz : Accounted z s vs) (hf : ∀ b, KeepsErrors (f b)) :
    Accounted (z >>= f) s vs := by
  intro a s'' hrun hok
  obtain ⟨b, s', hzrun, hfrun⟩ := exists_of_eval_bind hrun
  exact hz b s' hzrun (hf b s' a s'' hfrun hok)

theorem of_keepsErrors (h : KeepsErrors x) : Accounted x s [] := fun a s' hrun hok ↦
  ⟨h s a s' hrun hok, fun _ hv ↦ absurd hv List.not_mem_nil⟩

theorem ite {c : Prop} [Decidable c] (hx : c → Accounted x s vs) (hy : ¬ c → Accounted y s vs) :
    Accounted (if c then x else y) s vs :=
  ensures_ite.2 ⟨fun h ↦ hx h, fun h ↦ hy h⟩

theorem none : Accounted (outOfFuel : Parser α) s vs := ensures_outOfFuel

section Recursion

variable {n : Nat} {env : ParseEnv}

theorem parseMacro (hrec : ∀ env s, Accounted (parseAlt n env) s (parseAltVisits n env s))
    (s : ParseState) : Accounted (parseMacro (parseAlt n) env) s (macroVisits (parseAltVisits n) env s) := by
  refine step .save fun start s₁ h₁ ↦ step .skip fun _ s₂ h₂ ↦ step .remaining fun m s₃ h₃ ↦
    step (.readWhile _ _) fun name s' hname ↦ ?_
  obtain ⟨rfl, rfl⟩ := Prod.mk.inj (Option.some.inj h₁)
  obtain ⟨-, rfl⟩ := Prod.mk.inj (Option.some.inj h₂)
  obtain ⟨rfl, rfl⟩ := Prod.mk.inj (Option.some.inj h₃)
  simp only at hname
  unfold macroVisits
  rw [hname]
  refine step .peek fun c s₄ h₄ ↦ ?_
  obtain ⟨rfl, rfl⟩ := Prod.mk.inj (Option.some.inj h₄)
  by_cases hliteral : name = [] ∨ s'.rest.getD 0 0 ≠ chr '}'
  · rw [if_pos hliteral]
    simp only [if_pos hliteral]
    exact of_keepsErrors ((KeepsErrors.restore _).bind fun _ ↦ KeepsErrors.skip.bind fun _ ↦ .pure _)
  rw [if_neg hliteral]
  simp only [if_neg hliteral]
  refine step .skip fun _ s₅ h₅ ↦ ?_
  by_cases hfresh : name ∈ env.expanding
  · rw [if_pos hfresh, if_pos hfresh]
    exact of_keepsErrors ((KeepsErrors.report _).bind fun _ ↦ .pure _)
  rw [if_neg hfresh, if_neg hfresh]
  cases env.macros name with
  | none => exact of_keepsErrors ((KeepsErrors.report _).bind fun _ ↦ .pure _)
  | some exp =>
      refine step .save fun after s₆ h₆ ↦ step (.restore exp) fun _ s₇ h₇ ↦ ?_
      obtain ⟨-, rfl⟩ := Prod.mk.inj (Option.some.inj h₅)
      obtain ⟨-, rfl⟩ := Prod.mk.inj (Option.some.inj h₆)
      obtain ⟨-, rfl⟩ := Prod.mk.inj (Option.some.inj h₇)
      exact (hrec _ _).last fun inner ↦ (KeepsErrors.restore _).bind fun _ ↦ .pure _

variable (hrec : ∀ env s, Accounted (parseAlt n env) s (parseAltVisits n env s))
include hrec

theorem parsePrimary (s : ParseState) :
    Accounted (parsePrimary (parseAlt n) env) s (primaryVisits (parseAltVisits n) env s) := by
  suffices hbelow : Accounted (Parser.parsePrimary (parseAlt n) env) s
      (if s.rest.getD 0 0 = chr '(' then parseAltVisits n env { s with rest := s.rest.tail }
        else if s.rest.getD 0 0 = chr '{' then macroVisits (parseAltVisits n) env s else []) by
    intro o s' hrun hok
    obtain ⟨hok₀, hvs⟩ := hbelow o s' hrun hok
    exact ⟨hok₀, List.forall_mem_cons.2 ⟨⟨n, o, s', hrun, hok⟩, hvs⟩⟩
  have hlast : ∀ t : Node, KeepsErrors (Pure.pure (some t) : Parser (Option Node)) := fun t ↦ .pure _
  have hother : ∀ {c : Byte} {x : Parser (Option Node)}, s.rest.getD 0 0 = c → c ≠ chr '(' →
      c ≠ chr '{' → KeepsErrors x → Accounted x s
        (if s.rest.getD 0 0 = chr '(' then parseAltVisits n env { s with rest := s.rest.tail }
          else if s.rest.getD 0 0 = chr '{' then macroVisits (parseAltVisits n) env s else []) := by
    rintro c x rfl hgroup hbrace hx
    rw [if_neg hgroup, if_neg hbrace]
    exact of_keepsErrors hx
  unfold Parser.parsePrimary
  refine step .peek fun c s₁ h₁ ↦ ?_
  obtain ⟨rfl, rfl⟩ := Prod.mk.inj (Option.some.inj h₁)
  refine ite (fun hc ↦ ?_) fun hgroup ↦ ite (fun hc ↦ ?_) fun _ ↦ ite (fun hc ↦ ?_) fun _ ↦
    ite (fun hc ↦ ?_) fun hbrace ↦ ite (fun _ ↦ ?_) fun _ ↦ ite (fun _ ↦ ?_) fun _ ↦
    ite (fun _ ↦ ?_) fun _ ↦ ite (fun _ ↦ ?_) fun _ ↦ ?_
  · rw [if_pos hc]
    refine step .skip fun _ s₂ h₂ ↦ ?_
    obtain ⟨-, rfl⟩ := Prod.mk.inj (Option.some.inj h₂)
    exact (hrec env _).last fun inner ↦ KeepsErrors.peek.bind fun _ ↦
      .ite ((KeepsErrors.report _).bind fun _ ↦ .pure _) (KeepsErrors.skip.bind fun _ ↦ hlast _)
  · exact hother hc (by decide) (by decide) ((KeepsErrors.parseClass env).bind hlast)
  · exact hother hc (by decide) (by decide) ((KeepsErrors.parseQuoted env).bind hlast)
  · rw [if_neg hgroup, if_pos hc]
    exact (parseMacro hrec s).last hlast
  all_goals refine hother rfl hgroup hbrace ?_
  · exact KeepsErrors.skip.bind fun _ ↦ hlast _
  · exact (KeepsErrors.readEscapeByte.bind fun _ ↦ .pure _).bind hlast
  · exact .pure _
  · exact .pure _
  · exact KeepsErrors.skip.bind fun _ ↦ hlast _

theorem parsePostfix (s : ParseState) :
    Accounted (parsePostfix (parseAlt n) env) s (primaryVisits (parseAltVisits n) env s) := by
  refine (parsePrimary hrec s).last fun o ↦ ?_
  cases o with
  | none => exact .pure _
  | some p =>
      have hskip : ∀ t : Node, KeepsErrors (do Parser.skip; return some t) := fun t ↦
        KeepsErrors.skip.bind fun _ ↦ .pure _
      exact KeepsErrors.peek.bind fun c ↦ .ite (hskip _) <| .ite (hskip _) <| .ite (hskip _) <|
        (KeepsErrors.peekAt 1).bind fun _ ↦ .ite ((KeepsErrors.parseRepeat p).bind fun _ ↦ .pure _)
          (.pure _)

theorem concatLoop (m : Nat) (acc : Option Node) (s : ParseState) :
    Accounted (concatLoop (parseAlt n) env m acc) s
      (concatVisits (parseAlt n) (parseAltVisits n) env m s) := by
  induction m generalizing acc s with
  | zero => exact none
  | succ m ih =>
      unfold Parser.concatLoop concatVisits
      refine step .atEnd fun e s₁ h₁ ↦ step .peek fun c s₂ h₂ ↦ ?_
      obtain ⟨rfl, rfl⟩ := Prod.mk.inj (Option.some.inj h₁)
      obtain ⟨rfl, rfl⟩ := Prod.mk.inj (Option.some.inj h₂)
      by_cases hstop : (s.rest.isEmpty || isConcatTerminator (s.rest.getD 0 0)) = true
      · rw [if_pos hstop, if_pos hstop]
        exact of_keepsErrors (.pure _)
      rw [if_neg hstop, if_neg hstop]
      refine (parsePostfix hrec s).bind fun o s₃ h₃ ↦ ?_
      rw [h₃]
      cases o with
      | none => exact of_keepsErrors (.pure _)
      | some p => exact ih (some (concat acc p)) s₃

theorem parseConcat (s : ParseState) : Accounted (parseConcat (parseAlt n) env) s
    (concatVisits (parseAlt n) (parseAltVisits n) env (s.rest.length + 1) s) := by
  refine step .remaining fun m s₁ h₁ ↦ ?_
  obtain ⟨rfl, rfl⟩ := Prod.mk.inj (Option.some.inj h₁)
  exact (concatLoop hrec _ _ s).last fun _ ↦ .pure _

theorem altLoop (m : Nat) (l : Node) (s : ParseState) :
    Accounted (altLoop (parseAlt n) env m l) s (altVisits (parseAlt n) (parseAltVisits n) env m s) := by
  induction m generalizing l s with
  | zero => exact none
  | succ m ih =>
      unfold Parser.altLoop altVisits
      refine step .peek fun c s₁ h₁ ↦ ?_
      obtain ⟨rfl, rfl⟩ := Prod.mk.inj (Option.some.inj h₁)
      by_cases hstop : s.rest.getD 0 0 ≠ chr '|'
      · rw [if_pos hstop, if_pos hstop]
        exact of_keepsErrors (.pure _)
      rw [if_neg hstop, if_neg hstop]
      refine step .skip fun _ s₂ h₂ ↦ ?_
      obtain ⟨-, rfl⟩ := Prod.mk.inj (Option.some.inj h₂)
      refine (parseConcat hrec _).bind fun r s₃ h₃ ↦ ?_
      rw [h₃]
      exact ih (.alt l r) s₃

end Recursion

theorem parseAlt (fuel : Nat) (env : ParseEnv) (s : ParseState) :
    Accounted (parseAlt fuel env) s (parseAltVisits fuel env s) := by
  induction fuel generalizing env s with
  | zero => exact none
  | succ fuel ih =>
      unfold Parser.parseAlt parseAltVisits
      refine (parseConcat ih s).bind fun l s₁ h₁ ↦ ?_
      rw [h₁]
      refine step .remaining fun m s₂ h₂ ↦ ?_
      obtain ⟨rfl, rfl⟩ := Prod.mk.inj (Option.some.inj h₂)
      exact altLoop ih _ l s₁

end Accounted

/-- A call at a reference expands it. -/
theorem Visit.Refers.expanded {v : Visit} {name k : List Byte} (h : v.Refers name k)
    (hv : v.ErrorFree) : ∃ n t s', expandMacro (parseAlt n) v.env name ⟨k, v.s.diags⟩ = some (t, s') ∧
      Diag.ok s'.diags = true := by
  obtain ⟨n, o, s', hrun, hok⟩ := hv
  obtain ⟨env, rest, diags⟩ := v
  obtain ⟨hhead, href⟩ := h
  obtain ⟨r, rfl⟩ : ∃ r, rest = chr '{' :: r := by
    cases rest with
    | nil => exact absurd hhead (Option.some_ne_none _).symm
    | cons b r => exact ⟨r, by rw [Option.some.inj hhead]⟩
  have hname : (do return some (← parseMacro (parseAlt n) env) : Parser (Option Node))
      ⟨chr '{' :: r, diags⟩ = some (o, s') := hrun
  obtain ⟨t, s₁, hexpand, hlast⟩ := exists_of_eval_bind hname
  obtain ⟨-, rfl⟩ := Prod.mk.inj (Option.some.inj hlast)
  refine ⟨n, t, s₁, ?_, hok⟩
  exact (eval_parseMacro_reference href).symm.trans hexpand

end Parser

/-- The calls of a parse without errors are without errors. -/
theorem visits_errorFree {fuel : Nat} {env : ParseEnv} {src : List Byte} {o : Option Node}
    {diags : List Diag} (h : parseRegex fuel env src = some (o, diags)) (hok : Diag.ok diags = true) :
    ∀ v ∈ visits fuel env src, v.ErrorFree := by
  obtain ⟨⟨o', s'⟩, hrun, heq⟩ := Option.map_eq_some_iff.1 h
  obtain ⟨rfl, rfl⟩ := Prod.mk.inj heq
  have htop : Parser.Accounted (Parser.parseTop fuel env) { rest := src } (visits fuel env src) := by
    refine .step (.accept '^') fun bol s₁ h₁ ↦ ?_
    have hs₁ : s₁ = { rest := Parser.afterBol src } := by
      rw [Parser.eval_accept] at h₁
      unfold Parser.afterBol
      split_ifs at h₁ ⊢
      · exact (Prod.mk.inj (Option.some.inj h₁)).2.symm
      · exact (Prod.mk.inj (Option.some.inj h₁)).2.symm
    rw [hs₁]
    exact (Parser.Accounted.parseAlt fuel env _).last fun body ↦ (Parser.KeepsErrors.accept '$').bind
      fun eol ↦ Parser.KeepsErrors.atEnd.bind fun _ ↦ .ite (Parser.KeepsErrors.peek.bind fun _ ↦
        (Parser.KeepsErrors.report _).bind fun _ ↦ .pure _) (.pure _)
  exact (htop _ _ hrun hok).2

/-- **Regex parsing ends**, whatever the macros: there is fuel for every text, expansions are never
nested deeper than there are macros, and a reference to a macro that is being expanded is an
error. -/
theorem parseRegex_ends {env : ParseEnv} {names : Finset (List Byte)} (henv : env.expanding = [])
    (hnames : ∀ name, name ∈ names ↔ env.macros name ≠ none) (src : List Byte) :
    (∃ fuel, ∀ m, fuel ≤ m → ∃ r, parseRegex m env src = some r) ∧
    ∀ m, (∀ v ∈ visits m env src, v.env.expanding.length ≤ names.card) ∧
      ∀ o diags, parseRegex m env src = some (o, diags) →
        (∃ v ∈ visits m env src, ∃ name k, v.Refers name k ∧ name ∈ v.env.expanding) →
        Diag.ok diags = false := by
  refine ⟨exists_parseRegex (fun name ↦ (hnames name).2) src, fun m ↦ ⟨fun v hv ↦ ?_, ?_⟩⟩
  · exact Parser.length_expanding_le (fun name ↦ (hnames name).2) henv _ v hv
  · rintro o diags h ⟨v, hv, name, k, href, hname⟩
    refine Bool.eq_false_iff.2 fun hok ↦ ?_
    obtain ⟨n, t, s', hrun, hok'⟩ := href.expanded (visits_errorFree h hok v hv)
    rw [Parser.expandMacro, if_pos hname] at hrun
    obtain ⟨-, rfl⟩ := Prod.mk.inj (Option.some.inj hrun)
    exact (Parser.not_ok_error _ _ _).1 hok'

/-- The macro `A`, defined as `({A})`, and no other. -/
def selfReference : ParseEnv where
  macros name := if name = [65] then some ([40, 123, 65, 125, 41] : List Byte) else none

/-- The pattern `{A}`. -/
theorem parseRegex_ends_selfReference :
    (∃ fuel, ∀ m, fuel ≤ m → ∃ r, parseRegex m selfReference [123, 65, 125] = some r) ∧
    ∀ m, (∀ v ∈ visits m selfReference [123, 65, 125],
        v.env.expanding.length ≤ ({[65]} : Finset (List Byte)).card) ∧
      ∀ o diags, parseRegex m selfReference [123, 65, 125] = some (o, diags) →
        (∃ v ∈ visits m selfReference [123, 65, 125], ∃ name k, v.Refers name k ∧
          name ∈ v.env.expanding) → Diag.ok diags = false := by
  refine parseRegex_ends rfl (fun name ↦ ?_) _
  rw [Finset.mem_singleton]
  by_cases hname : name = [65] <;> simp [selfReference, hname]

end LexCpp
