import LexCpp.Regex.Follows
import LexCpp.Regex.Visits

/-!
# What a parse leaves

An alternation that is read without an error ends where the text does, or before a byte that
nothing in it accounts for: a `)` that no `(` opens, a `$` or a NUL.  `parse_top` and the groups look
at what is left, `parse_macro` does not.
-/

namespace LexCpp

namespace Parser

/-! ## Stray bytes -/

/-- The bytes that nothing is made of but themselves. -/
def isOrdinary (b : Byte) : Bool :=
  !decide (b ∈ [chr '\\', chr '[', chr '"', chr '(', chr ')', chr '$', 0])

/-- Some byte of the text is stray, `depth` groups being open.  Bracket expressions and strings are
read as the parser reads them; `n` is the number of turns. -/
def strayFrom (env : ParseEnv) : Nat → Nat → List Byte → Bool
  | 0, _, _ => false
  | _, _, [] => false
  | n + 1, depth, c :: r =>
      if c = chr '\\' then strayFrom env n depth (if r.getD 0 0 = 0 then r else r.tail)
      else if c = chr '[' then
        match parseClass env ⟨c :: r, []⟩ with
        | some (_, s) => strayFrom env n depth s.rest
        | none => false
      else if c = chr '"' then
        match parseQuoted env ⟨c :: r, []⟩ with
        | some (_, s) => strayFrom env n depth s.rest
        | none => false
      else if c = chr '(' then strayFrom env n (depth + 1) r
      else if c = chr ')' then
        match depth with
        | 0 => true
        | depth + 1 => strayFrom env n depth r
      else if c = chr '$' ∨ c = 0 then true
      else strayFrom env n depth r

/-- Outside of escapes, bracket expressions and strings, the text has a `)` that closes nothing, a `$`
or a NUL. -/
def hasStray (env : ParseEnv) (depth : Nat) (r : List Byte) : Bool := strayFrom env r.length depth r

/-- Turns enough. -/
theorem strayFrom_eq (env : ParseEnv) {n : Nat} (depth : Nat) {r : List Byte} (hn : r.length ≤ n) :
    strayFrom env n depth r = hasStray env depth r := by
  suffices hfuel : ∀ {n m : Nat} {r : List Byte} {depth : Nat}, r.length ≤ n → r.length ≤ m →
      strayFrom env n depth r = strayFrom env m depth r from hfuel hn le_rfl
  intro n
  induction n with
  | zero =>
      intro m r depth hn _
      obtain rfl := List.eq_nil_of_length_eq_zero (Nat.le_zero.1 hn)
      cases m <;> rfl
  | succ n ih =>
      intro m r depth hn hm
      cases r with
      | nil => cases m <;> rfl
      | cons c r =>
          obtain ⟨m, rfl⟩ := Nat.exists_eq_add_one_of_ne_zero (Nat.ne_zero_of_lt hm)
          have hn : r.length ≤ n := Nat.le_of_succ_le_succ hn
          have hm : r.length ≤ m := Nat.le_of_succ_le_succ hm
          have hescape : (if r.getD 0 0 = 0 then r else r.tail).length ≤ r.length := by
            split_ifs
            · exact le_rfl
            · exact List.length_tail.le.trans (Nat.sub_le _ _)
          have hread : ∀ {x : Parser Node}, (∀ s, Takes x s) →
              (match x ⟨c :: r, []⟩ with
                | some (_, s) => strayFrom env n depth s.rest
                | none => false) =
              match x ⟨c :: r, []⟩ with
                | some (_, s) => strayFrom env m depth s.rest
                | none => false := by
            intro x hx
            obtain ⟨t, s, hrun, hlen⟩ := hx ⟨c :: r, []⟩
            simp only [hrun]
            have hlen : s.rest.length ≤ r.length := hlen
            exact ih (hlen.trans hn) (hlen.trans hm)
          unfold strayFrom
          refine if_congr Iff.rfl (ih (hescape.trans hn) (hescape.trans hm)) <|
            if_congr Iff.rfl (hread (Ends.parseClass env)) <|
            if_congr Iff.rfl (hread (Ends.parseQuoted env)) <| if_congr Iff.rfl (ih hn hm) <|
            if_congr Iff.rfl ?_ <| if_congr Iff.rfl rfl (ih hn hm)
          cases depth with
          | zero => rfl
          | succ depth => exact ih hn hm

section Equations

variable (env : ParseEnv) (depth : Nat) {c : Byte} {r : List Byte}

@[simp] theorem hasStray_nil : hasStray env depth [] = false := rfl

theorem hasStray_cons (c : Byte) (r : List Byte) : hasStray env depth (c :: r) =
    if c = chr '\\' then hasStray env depth (if r.getD 0 0 = 0 then r else r.tail)
    else if c = chr '[' then
      match parseClass env ⟨c :: r, []⟩ with
      | some (_, s) => hasStray env depth s.rest
      | none => false
    else if c = chr '"' then
      match parseQuoted env ⟨c :: r, []⟩ with
      | some (_, s) => hasStray env depth s.rest
      | none => false
    else if c = chr '(' then hasStray env (depth + 1) r
    else if c = chr ')' then
      match depth with
      | 0 => true
      | depth + 1 => hasStray env depth r
    else if c = chr '$' ∨ c = 0 then true
    else hasStray env depth r := by
  have hescape : (if r.getD 0 0 = 0 then r else r.tail).length ≤ r.length := by
    split_ifs
    · exact le_rfl
    · exact List.length_tail.le.trans (Nat.sub_le _ _)
  have hread : ∀ {x : Parser Node}, (∀ s, Takes x s) →
      (match x ⟨c :: r, []⟩ with
        | some (_, s) => strayFrom env r.length depth s.rest
        | none => false) =
      match x ⟨c :: r, []⟩ with
        | some (_, s) => hasStray env depth s.rest
        | none => false := by
    intro x hx
    obtain ⟨t, s, hrun, hlen⟩ := hx ⟨c :: r, []⟩
    simp only [hrun]
    exact strayFrom_eq env depth hlen
  change strayFrom env (r.length + 1) depth (c :: r) = _
  unfold strayFrom
  refine if_congr Iff.rfl (strayFrom_eq env depth hescape) <|
    if_congr Iff.rfl (hread (Ends.parseClass env)) <|
    if_congr Iff.rfl (hread (Ends.parseQuoted env)) <|
    if_congr Iff.rfl (strayFrom_eq env _ le_rfl) <| if_congr Iff.rfl ?_ <|
    if_congr Iff.rfl rfl (strayFrom_eq env _ le_rfl)
  cases depth with
  | zero => rfl
  | succ depth => exact strayFrom_eq env _ le_rfl

theorem hasStray_open : hasStray env depth (chr '(' :: r) = hasStray env (depth + 1) r := by
  rw [hasStray_cons, if_neg (by decide), if_neg (by decide), if_neg (by decide), if_pos rfl]

theorem hasStray_close : hasStray env (depth + 1) (chr ')' :: r) = hasStray env depth r := by
  rw [hasStray_cons, if_neg (by decide), if_neg (by decide), if_neg (by decide), if_neg (by decide),
    if_pos rfl]

/-- A `)` that closes nothing is stray. -/
theorem hasStray_closing : hasStray env 0 (chr ')' :: r) = true := by
  rw [hasStray_cons, if_neg (by decide), if_neg (by decide), if_neg (by decide), if_neg (by decide),
    if_pos rfl]

theorem hasStray_dollar : hasStray env depth (chr '$' :: r) = true := by
  rw [hasStray_cons, if_neg (by decide), if_neg (by decide), if_neg (by decide), if_neg (by decide),
    if_neg (by decide), if_pos (Or.inl rfl)]

theorem hasStray_nul : hasStray env depth (0 :: r) = true := by
  rw [hasStray_cons, if_neg (by decide), if_neg (by decide), if_neg (by decide), if_neg (by decide),
    if_neg (by decide), if_pos (Or.inr rfl)]

theorem hasStray_escape : hasStray env depth (chr '\\' :: r) =
    hasStray env depth (if r.getD 0 0 = 0 then r else r.tail) := by
  rw [hasStray_cons, if_pos rfl]

theorem hasStray_ordinary (hc : isOrdinary c = true) :
    hasStray env depth (c :: r) = hasStray env depth r := by
  simp only [isOrdinary, List.mem_cons, List.not_mem_nil, or_false, Bool.not_eq_true',
    decide_eq_false_iff_not, not_or] at hc
  obtain ⟨hescape, hclass, hquoted, hopen, hclose, hdollar, hzero⟩ := hc
  rw [hasStray_cons, if_neg hescape, if_neg hclass, if_neg hquoted, if_neg hopen, if_neg hclose,
    if_neg (not_or.2 ⟨hdollar, hzero⟩)]

theorem hasStray_ordinaries {w : List Byte} (hw : ∀ c ∈ w, isOrdinary c = true) :
    hasStray env depth (w ++ r) = hasStray env depth r := by
  induction w with
  | nil => rfl
  | cons c w ih =>
      rw [List.cons_append, hasStray_ordinary env depth (hw c List.mem_cons_self)]
      exact ih fun b hb ↦ hw b (List.mem_cons_of_mem c hb)

/-- A bracket expression, whatever has been reported before. -/
theorem hasStray_class {d : List Diag} {t : Node} {s : ParseState}
    (h : parseClass env ⟨chr '[' :: r, d⟩ = some (t, s)) :
    hasStray env depth (chr '[' :: r) = hasStray env depth s.rest := by
  obtain ⟨ws, -, hrun⟩ := (parseClass_local env).rerun h []
  rw [hasStray_cons, if_neg (by decide), if_pos rfl, hrun]

theorem hasStray_quoted {d : List Diag} {t : Node} {s : ParseState}
    (h : parseQuoted env ⟨chr '"' :: r, d⟩ = some (t, s)) :
    hasStray env depth (chr '"' :: r) = hasStray env depth s.rest := by
  obtain ⟨ws, -, hrun⟩ := (parseQuoted_local env).rerun h []
  rw [hasStray_cons, if_neg (by decide), if_neg (by decide), if_pos rfl, hrun]

end Equations

theorem isOrdinary_of_isXdigit {b : Byte} (hb : isXdigit b = true) : isOrdinary b = true := by
  revert b
  decide +kernel

theorem isXdigit_of_isOctal {b : Byte} (hb : isOctal b = true) : isXdigit b = true := by
  revert b
  decide +kernel

theorem isOrdinary_of_isNameByte {b : Byte} (hb : isNameByte b = true) : isOrdinary b = true := by
  revert b
  decide +kernel

theorem Bounds.isOrdinary {b : List Byte} {lo hi : Nat} (h : Bounds b lo hi) :
    ∀ c ∈ b ++ [chr '}'], isOrdinary c = true :=
  h.forall_mem (fun _ hc ↦ isOrdinary_of_isXdigit (by rw [isXdigit, hc]; rfl)) (by decide) (by decide)

/-- What a backslash makes of the byte after it. -/
def escapeAfter (c : Byte) : Parser Byte :=
  if c = 0 then return 0
  else
    match controlEscapes.find? fun e ↦ chr e.1 = c with
    | some e => do
        skip
        return Fin.ofNat 256 e.2
    | none =>
        if isOctal c then do return Fin.ofNat 256 (← readOctal 3 0)
        else if c = chr 'x' then do
          skip
          return Fin.ofNat 256 (← readHex 2 0)
        else do
          skip
          return c

theorem eval_readEscapeByte (b : Byte) (r : List Byte) (d : List Diag) :
    readEscapeByte ⟨b :: r, d⟩ = escapeAfter (r.getD 0 0) ⟨r, d⟩ := by
  rw [readEscapeByte, eval_bind_of (eval_skip _), eval_bind_of (eval_peek _)]
  rfl

/-! ## Skipped text -/

/-- What returns without an error started without one, and the text that it took has no stray byte,
however many groups are open. -/
def SkipsAt {α : Type} (env : ParseEnv) (x : Parser α) (s : ParseState) : Prop :=
  Ensures x s fun _ s' ↦ Diag.ok s'.diags = true → Diag.ok s.diags = true ∧
    ∀ depth, hasStray env depth s.rest = hasStray env depth s'.rest

namespace SkipsAt

variable {α β : Type} {env : ParseEnv} {x : Parser α} {s : ParseState}

theorem bind {z : Parser β} {f : β → Parser α} (hz : SkipsAt env z s)
    (hf : ∀ b s', z s = some (b, s') → SkipsAt env (f b) s') : SkipsAt env (z >>= f) s := by
  intro a s'' hrun hok
  obtain ⟨b, s', hzrun, hfrun⟩ := exists_of_eval_bind hrun
  obtain ⟨hok', hf⟩ := hf b s' hzrun a s'' hfrun hok
  obtain ⟨hok₀, hz⟩ := hz b s' hzrun hok'
  exact ⟨hok₀, fun depth ↦ (hz depth).trans (hf depth)⟩

theorem pure (a : α) : SkipsAt env (pure a) s := ensures_pure.2 fun hok ↦ ⟨hok, fun _ ↦ rfl⟩

theorem none : SkipsAt env (outOfFuel : Parser α) s := ensures_outOfFuel

/-- What stays in place. -/
theorem stay {z : Parser β} {f : β → Parser α} {b : β} (hz : z s = some (b, s)) (hf : SkipsAt env (f b) s) :
    SkipsAt env (z >>= f) s := by
  intro a s'' hrun
  rw [eval_bind_of hz] at hrun
  exact hf a s'' hrun

theorem ite {c : Prop} [Decidable c] {y : Parser α} (hx : c → SkipsAt env x s)
    (hy : ¬ c → SkipsAt env y s) : SkipsAt env (if c then x else y) s :=
  ensures_ite.2 ⟨fun h ↦ hx h, fun h ↦ hy h⟩

theorem error {loc : SourceLoc} {msg : String} {f : Unit → Parser α} (hf : ∀ u, KeepsErrors (f u)) :
    SkipsAt env (report ⟨.error, loc, msg⟩ >>= f) s := by
  intro a s'' hrun hok
  obtain ⟨u, s', hreport, hfrun⟩ := exists_of_eval_bind hrun
  have hok' := hf u s' a s'' hfrun hok
  obtain ⟨-, rfl⟩ := Prod.mk.inj (Option.some.inj hreport)
  exact absurd hok' fun h ↦ (not_ok_error _ _ _).1 h

/-- A byte that is skipped. -/
theorem skip (h : ∀ depth, hasStray env depth s.rest = hasStray env depth s.rest.tail) :
    SkipsAt env skip s := ensures_skip.2 fun hok ↦ ⟨hok, h⟩

theorem advance (h : ∀ depth, hasStray env depth s.rest = hasStray env depth s.rest.tail) :
    SkipsAt env advance s := ensures_advance.2 fun hok ↦ ⟨hok, h⟩

theorem tail_of_ordinary (h : isOrdinary (s.rest.getD 0 0) = true) (depth : Nat) :
    hasStray env depth s.rest = hasStray env depth s.rest.tail := by
  cases hr : s.rest with
  | nil => rfl
  | cons c r =>
      rw [hr] at h
      exact hasStray_ordinary env depth h

theorem readOctal (n v : Nat) (s : ParseState) : SkipsAt env (readOctal n v) s := by
  induction n generalizing v s with
  | zero => exact pure v
  | succ n ih =>
      refine stay (eval_peek s) (ite (fun _ ↦ pure v) fun hc ↦ ?_)
      refine (advance (tail_of_ordinary (isOrdinary_of_isXdigit ?_))).bind fun d s' _ ↦ ih _ s'
      rw [Bool.not_eq_true, Bool.not_eq_false'] at hc
      exact isXdigit_of_isOctal hc

theorem readHex (n v : Nat) (s : ParseState) : SkipsAt env (readHex n v) s := by
  induction n generalizing v s with
  | zero => exact pure v
  | succ n ih =>
      refine stay (eval_peek s) (ite (fun _ ↦ pure v) fun hc ↦ ?_)
      refine (advance (tail_of_ordinary (isOrdinary_of_isXdigit ?_))).bind fun d s' _ ↦ ih _ s'
      rwa [Bool.not_eq_true, Bool.not_eq_false'] at hc

theorem escapeAfter {r : List Byte} {d : List Diag} {a : Byte} {s' : ParseState}
    (hrun : escapeAfter (r.getD 0 0) ⟨r, d⟩ = some (a, s')) (hok : Diag.ok s'.diags = true) :
    Diag.ok d = true ∧ ∀ depth,
      hasStray env depth (if r.getD 0 0 = 0 then r else r.tail) = hasStray env depth s'.rest := by
  unfold Parser.escapeAfter at hrun
  by_cases hzero : r.getD 0 0 = 0
  · rw [if_pos hzero] at hrun ⊢
    obtain ⟨-, rfl⟩ := Prod.mk.inj (Option.some.inj hrun)
    exact ⟨hok, fun _ ↦ rfl⟩
  rw [if_neg hzero] at hrun ⊢
  have hskip : ∀ v : Byte, (do Parser.skip; return v : Parser Byte) ⟨r, d⟩ = some (a, s') →
      Diag.ok d = true ∧ ∀ depth, hasStray env depth r.tail = hasStray env depth s'.rest := by
    intro v hrun
    obtain ⟨-, rfl⟩ := Prod.mk.inj (Option.some.inj hrun)
    exact ⟨hok, fun _ ↦ rfl⟩
  cases hfind : controlEscapes.find? fun e ↦ chr e.1 = r.getD 0 0 with
  | some e =>
      simp only [hfind] at hrun
      exact hskip _ hrun
  | none =>
      simp only [hfind] at hrun
      by_cases hoctal : isOctal (r.getD 0 0) = true
      · rw [if_pos hoctal] at hrun
        obtain ⟨v, s₁, h₁, h₂⟩ := exists_of_eval_bind hrun
        obtain ⟨-, rfl⟩ := Prod.mk.inj (Option.some.inj h₂)
        obtain ⟨hok₀, hdigits⟩ := readOctal 3 0 ⟨r, d⟩ v s₁ h₁ hok
        have hfirst : isOrdinary (r.getD 0 0) = true :=
          isOrdinary_of_isXdigit (isXdigit_of_isOctal hoctal)
        exact ⟨hok₀, fun depth ↦ (tail_of_ordinary (s := ⟨r, d⟩) hfirst depth).symm.trans (hdigits depth)⟩
      rw [if_neg hoctal] at hrun
      by_cases hx : r.getD 0 0 = chr 'x'
      · rw [if_pos hx, eval_bind_of (eval_skip _)] at hrun
        obtain ⟨v, s₁, h₁, h₂⟩ := exists_of_eval_bind hrun
        obtain ⟨-, rfl⟩ := Prod.mk.inj (Option.some.inj h₂)
        exact readHex 2 0 ⟨r.tail, d⟩ v s₁ h₁ hok
      · rw [if_neg hx] at hrun
        exact hskip _ hrun

theorem readEscapeByte (hs : s.rest.getD 0 0 = chr '\\') : SkipsAt env readEscapeByte s := by
  obtain ⟨rest, d⟩ := s
  cases rest with
  | nil => exact absurd (show (0 : Byte) = chr '\\' from hs) (by decide)
  | cons b r =>
      obtain rfl : b = chr '\\' := hs
      intro a s' hrun hok
      rw [eval_readEscapeByte] at hrun
      obtain ⟨hok₀, hskip⟩ := escapeAfter hrun hok
      exact ⟨hok₀, fun depth ↦ (hasStray_escape env depth).trans (hskip depth)⟩

/-! ### The functions that call each other -/

section Recursion

variable {env₀ : ParseEnv} {rec : ParseEnv → Parser Node}

theorem expandMacro (hmode : SameMode env₀ env)
    (hrec : ∀ env, SameMode env₀ env → ∀ s, SkipsAt env₀ (rec env) s) (name : List Byte) (s : ParseState) :
    SkipsAt env₀ (expandMacro rec env name) s := by
  unfold Parser.expandMacro
  refine ite (fun _ ↦ error fun _ ↦ .pure _) fun _ ↦ ?_
  cases env.macros name with
  | none => exact error fun _ ↦ .pure _
  | some exp =>
      intro t s' hrun hok
      simp only at hrun
      rw [eval_bind_of (eval_save s), eval_bind_of (eval_restore s exp)] at hrun
      obtain ⟨inner, s₁, h₁, h₂⟩ := exists_of_eval_bind hrun
      obtain ⟨-, rfl⟩ := Prod.mk.inj (Option.some.inj h₂)
      exact ⟨(hrec { env with expanding := name :: env.expanding } ⟨hmode.ci, hmode.loc⟩ _ inner s₁ h₁ hok).1, fun _ ↦ rfl⟩

variable (hrec : ∀ env, SameMode env₀ env → ∀ s, SkipsAt env₀ (rec env) s) (hmode : SameMode env₀ env)
include hrec hmode

theorem parseMacro {r : List Byte} {d : List Diag} : SkipsAt env₀ (parseMacro rec env) ⟨chr '{' :: r, d⟩ := by
  intro t s' hrun hok
  have hbrace : ∀ depth, hasStray env₀ depth (chr '{' :: r) = hasStray env₀ depth r := fun depth ↦
    hasStray_ordinary env₀ depth (by decide)
  by_cases href : ∃ name k, Reference name r k
  · obtain ⟨name, k, href⟩ := href
    rw [eval_parseMacro_reference href] at hrun
    obtain ⟨hok₀, hexpand⟩ := expandMacro hmode hrec name ⟨k, d⟩ t s' hrun hok
    refine ⟨hok₀, fun depth ↦ (hbrace depth).trans (Eq.trans ?_ (hexpand depth))⟩
    rw [href.eq, hasStray_ordinaries env₀ depth fun b hb ↦ isOrdinary_of_isNameByte (href.bytes b hb)]
    exact hasStray_ordinary env₀ depth (by decide)
  · rw [eval_parseMacro_literal fun name k h ↦ href ⟨name, k, h⟩] at hrun
    obtain ⟨-, rfl⟩ := Prod.mk.inj (Option.some.inj hrun)
    exact ⟨hok, hbrace⟩

theorem parsePrimary (s : ParseState) : SkipsAt env₀ (parsePrimary rec env) s := by
  by_cases hopen : s.rest.getD 0 0 = chr '('
  · obtain ⟨rest, d⟩ := s
    cases rest with
    | nil => exact absurd (show (0 : Byte) = chr '(' from hopen) (by decide)
    | cons b r =>
        obtain rfl : b = chr '(' := hopen
        intro o s' hrun hok
        rw [eval_parsePrimary_open] at hrun
        obtain ⟨inner, s₁, h₁, h₂⟩ := exists_of_eval_bind hrun
        rw [closeGroup, eval_bind_of (eval_peek s₁), eval_ite] at h₂
        by_cases hclose : s₁.rest.getD 0 0 ≠ chr ')'
        · rw [if_pos hclose] at h₂
          obtain ⟨-, rfl⟩ := Prod.mk.inj (Option.some.inj h₂)
          exact absurd hok fun h ↦ (not_ok_error _ _ _).1 h
        · rw [if_neg hclose] at h₂
          obtain ⟨-, rfl⟩ := Prod.mk.inj (Option.some.inj h₂)
          obtain ⟨hok₀, hinner⟩ := hrec env hmode ⟨r, d⟩ inner s₁ h₁ hok
          refine ⟨hok₀, fun depth ↦ ?_⟩
          change hasStray env₀ depth (chr '(' :: r) = hasStray env₀ depth s₁.rest.tail
          rw [hasStray_open, hinner (depth + 1)]
          rw [not_not] at hclose
          cases hr : s₁.rest with
          | nil =>
              rw [hr] at hclose
              exact absurd hclose (by decide)
          | cons c k =>
              rw [hr] at hclose
              rw [show c = chr ')' from hclose]
              exact hasStray_close env₀ depth
  have hordinary : ∀ t : Node, isOrdinary (s.rest.getD 0 0) = true →
      SkipsAt env₀ (do Parser.skip; return some t : Parser (Option Node)) s := fun t h ↦
    (skip (tail_of_ordinary h)).bind fun _ s' _ ↦ pure _
  have hcons : ∀ {c : Byte}, s.rest.getD 0 0 = c → c ≠ 0 → s.rest = c :: s.rest.tail := by
    intro c hc hne
    cases hr : s.rest with
    | nil =>
        rw [hr] at hc
        exact absurd hc.symm hne
    | cons b r =>
        rw [hr] at hc
        rw [show b = c from hc]
        rfl
  unfold Parser.parsePrimary
  refine stay (eval_peek s) <| ite (fun h ↦ absurd h hopen) fun _ ↦ ite (fun hc ↦ ?_) fun hclass ↦
    ite (fun hc ↦ ?_) fun hquoted ↦ ite (fun hc ↦ ?_) fun _ ↦ ite (fun hc ↦ ?_) fun _ ↦
    ite (fun hc ↦ ?_) fun hescape ↦ ite (fun _ ↦ pure _) fun hterm ↦ ite (fun _ ↦ pure _) fun hzero ↦ ?_
  · refine bind (fun t s' hrun hok ↦ ?_) fun _ _ _ ↦ pure _
    refine ⟨KeepsErrors.parseClass env s t s' hrun hok, fun depth ↦ ?_⟩
    rw [hmode.parseClass_eq] at hrun
    rw [hcons hc (by decide)]
    refine hasStray_class env₀ depth (d := s.diags) (t := t) ?_
    rw [← hcons hc (by decide)]
    exact hrun
  · refine bind (fun t s' hrun hok ↦ ?_) fun _ _ _ ↦ pure _
    refine ⟨KeepsErrors.parseQuoted env s t s' hrun hok, fun depth ↦ ?_⟩
    rw [hmode.parseQuoted_eq] at hrun
    rw [hcons hc (by decide)]
    refine hasStray_quoted env₀ depth (d := s.diags) (t := t) ?_
    rw [← hcons hc (by decide)]
    exact hrun
  · refine bind ?_ fun _ _ _ ↦ pure _
    have hname := parseMacro hrec hmode (r := s.rest.tail) (d := s.diags)
    rwa [← hcons hc (by decide)] at hname
  · exact hordinary _ (by rw [hc]; decide)
  · exact ((readEscapeByte hc).bind fun _ _ _ ↦ pure _).bind fun _ _ _ ↦ pure _
  · refine hordinary _ ?_
    rw [not_or, not_or] at hterm
    simp only [isOrdinary, List.mem_cons, List.not_mem_nil, or_false, Bool.not_eq_true',
      decide_eq_false_iff_not, not_or]
    exact ⟨hescape, hclass, hquoted, hopen, hterm.1, hterm.2.2, hzero⟩

omit hrec hmode in
theorem parseOperator (p : Node) (s : ParseState) : SkipsAt env₀ (parseOperator p) s := by
  have hskip : ∀ {c : Byte} (t : Node), isOrdinary c = true → s.rest.getD 0 0 = c →
      SkipsAt env₀ (do Parser.skip; return some t : Parser (Option Node)) s := fun t hc h ↦
    (skip (tail_of_ordinary (h ▸ hc))).bind fun _ s' _ ↦ pure _
  unfold Parser.parseOperator
  refine stay (eval_peek s) <| ite (hskip _ (by decide)) fun _ ↦ ite (hskip _ (by decide)) fun _ ↦
    ite (hskip _ (by decide)) fun _ ↦ stay (eval_peekAt s 1) <| ite (fun hc ↦ ?_) fun _ ↦ pure _
  refine bind (fun t s' hrun hok ↦ ?_) fun _ _ _ ↦ pure _
  obtain ⟨rest, d⟩ := s
  cases rest with
  | nil => exact absurd (show (0 : Byte) = chr '{' from hc.1) (by decide)
  | cons b r =>
      obtain rfl : b = chr '{' := hc.1
      by_cases hbounds : ∃ b lo hi k, Bounds b lo hi ∧ r = b ++ chr '}' :: k
      · obtain ⟨b, lo, hi, k, hb, rfl⟩ := hbounds
        rw [eval_parseRepeat_bounds hb] at hrun
        obtain ⟨-, rfl⟩ := Prod.mk.inj (Option.some.inj hrun)
        refine ⟨hok, fun depth ↦ ?_⟩
        have hordinary : ∀ c ∈ chr '{' :: (b ++ [chr '}']), isOrdinary c = true := by
          intro c hc
          rcases List.mem_cons.1 hc with rfl | hc
          · decide
          · exact hb.isOrdinary c hc
        have hskip := hasStray_ordinaries env₀ depth (r := k) hordinary
        simpa using hskip
      · rw [eval_parseRepeat_none fun b lo hi k hb h ↦ hbounds ⟨b, lo, hi, k, hb, h⟩] at hrun
        obtain ⟨-, rfl⟩ := Prod.mk.inj (Option.some.inj hrun)
        exact ⟨hok, fun _ ↦ rfl⟩

theorem parsePostfix (s : ParseState) : SkipsAt env₀ (parsePostfix rec env) s := by
  rw [parsePostfix_eq]
  refine (parsePrimary hrec hmode s).bind fun o s' _ ↦ ?_
  cases o with
  | none => exact pure _
  | some p => exact parseOperator p s'

theorem concatLoop (n : Nat) (acc : Option Node) (s : ParseState) :
    SkipsAt env₀ (concatLoop rec env n acc) s := by
  induction n generalizing acc s with
  | zero => exact none
  | succ n ih =>
      refine stay (eval_atEnd s) <| stay (eval_peek s) <| ite (fun _ ↦ pure acc) fun _ ↦
        (parsePostfix hrec hmode s).bind fun o s' _ ↦ ?_
      cases o with
      | none => exact pure acc
      | some p => exact ih _ s'

theorem parseConcat (s : ParseState) : SkipsAt env₀ (parseConcat rec env) s :=
  stay (eval_remaining s) <| (concatLoop hrec hmode _ .none s).bind fun _ _ _ ↦ pure _

theorem altLoop (n : Nat) (l : Node) (s : ParseState) : SkipsAt env₀ (altLoop rec env n l) s := by
  induction n generalizing l s with
  | zero => exact none
  | succ n ih =>
      refine stay (eval_peek s) <| ite (fun _ ↦ pure l) fun hbar ↦ ?_
      rw [not_not] at hbar
      refine (skip (tail_of_ordinary (by rw [hbar]; decide))).bind fun _ s₁ _ ↦ ?_
      exact (parseConcat hrec hmode s₁).bind fun r s₂ _ ↦ ih _ s₂

end Recursion

theorem parseAlt {env₀ : ParseEnv} (n : Nat) {env : ParseEnv} (hmode : SameMode env₀ env) (s : ParseState) :
    SkipsAt env₀ (parseAlt n env) s := by
  induction n generalizing env s with
  | zero => exact none
  | succ n ih =>
      have hrec : ∀ env, SameMode env₀ env → ∀ s, SkipsAt env₀ (Parser.parseAlt n env) s :=
        fun env hmode s ↦ ih hmode s
      refine (parseConcat hrec hmode s).bind fun l s₁ _ ↦ stay (eval_remaining s₁) ?_
      exact altLoop hrec hmode _ l s₁

end SkipsAt

/-! ## Where an alternation ends -/

section Ends

variable {rec : ParseEnv → Parser Node} {env : ParseEnv}

/-- An operand is missing only where there is an error, or a byte that ends the alternation. -/
theorem parsePrimary_none {s : ParseState} (hterm : isConcatTerminator (s.rest.getD 0 0) = false) :
    Ensures (parsePrimary rec env) s fun o s' ↦ o = none → Diag.ok s'.diags = false := by
  simp only [isConcatTerminator, Bool.or_eq_false_iff, decide_eq_false_iff_not] at hterm
  obtain ⟨⟨⟨hzero, hbar⟩, hclose⟩, hdollar⟩ := hterm
  have hsome : ∀ (t : Node) (s' : ParseState), Ensures (pure (some t) : Parser (Option Node)) s'
      fun o s' ↦ o = none → Diag.ok s'.diags = false := fun t s' ↦
    ensures_pure.2 fun h ↦ absurd h (Option.some_ne_none t)
  have hthen : ∀ x : Parser Node, Ensures (do return some (← x)) s
      fun o s' ↦ o = none → Diag.ok s'.diags = false := fun x ↦
    ensures_bind.2 fun t s' _ ↦ hsome t s'
  have hskip : ∀ t : Node, Ensures (do skip; return some t) s
      fun o s' ↦ o = none → Diag.ok s'.diags = false := fun t ↦
    ensures_bind.2 fun _ s' _ ↦ hsome t s'
  refine ensures_bind.2 (ensures_peek.2 (ensures_ite.2 ⟨fun _ ↦ ?_, fun _ ↦ ?_⟩))
  · refine ensures_bind.2 (ensures_skip.2 (ensures_bind.2 fun inner s₁ _ ↦ ?_))
    refine ensures_bind.2 (ensures_peek.2 (ensures_ite.2 ⟨fun _ ↦ ?_, fun _ ↦ ?_⟩))
    · refine ensures_bind.2 (ensures_report.2 (ensures_pure.2 fun _ ↦ Bool.eq_false_iff.2 fun h ↦ ?_))
      exact (not_ok_error _ _ _).1 h
    · exact ensures_bind.2 (ensures_skip.2 (hsome inner _))
  refine ensures_ite.2 ⟨fun _ ↦ hthen _, fun _ ↦ ensures_ite.2 ⟨fun _ ↦ hthen _, fun _ ↦
    ensures_ite.2 ⟨fun _ ↦ hthen _, fun _ ↦ ensures_ite.2 ⟨fun _ ↦ hskip _, fun _ ↦
    ensures_ite.2 ⟨fun _ ↦ hthen _, fun _ ↦ ensures_ite.2 ⟨fun h ↦ ?_, fun _ ↦
    ensures_ite.2 ⟨fun h ↦ absurd h hzero, fun _ ↦ hskip _⟩⟩⟩⟩⟩⟩⟩
  rcases h with h | h | h
  · exact absurd h hclose
  · exact absurd h hbar
  · exact absurd h hdollar

theorem parsePostfix_none {s : ParseState} (hterm : isConcatTerminator (s.rest.getD 0 0) = false) :
    Ensures (parsePostfix rec env) s fun o s' ↦ o = none → Diag.ok s'.diags = false := by
  rw [parsePostfix_eq]
  refine ensures_bind.2 ((parsePrimary_none hterm).mono fun o s₁ ho ↦ ?_)
  cases o with
  | none => exact ensures_pure.2 ho
  | some p =>
      have hyields : Yields (parseOperator p) fun o ↦ o ≠ none := by
        have hsome : ∀ t : Node, Yields (pure (some t)) fun o : Option Node ↦ o ≠ none := fun t ↦
          .pure (Option.some_ne_none t)
        exact .seq fun _ ↦ .ite (fun _ ↦ .seq fun _ ↦ hsome _) fun _ ↦ .ite (fun _ ↦ .seq fun _ ↦ hsome _)
          fun _ ↦ .ite (fun _ ↦ .seq fun _ ↦ hsome _) fun _ ↦ .seq fun _ ↦
          .ite (fun _ ↦ .seq fun _ ↦ hsome _) fun _ ↦ hsome _
      exact (hyields s₁).mono fun o s' ho h ↦ absurd h ho

theorem concatLoop_ends (n : Nat) (acc : Option Node) (s : ParseState) :
    Ensures (concatLoop rec env n acc) s fun _ s' ↦
      Diag.ok s'.diags = true → concatStops s'.rest = true := by
  induction n generalizing acc s with
  | zero => exact ensures_outOfFuel
  | succ n ih =>
      refine ensures_bind.2 (ensures_atEnd.2 (ensures_bind.2 (ensures_peek.2 (ensures_ite.2
        ⟨fun hstop ↦ ensures_pure.2 fun _ ↦ hstop, fun hstop ↦ ensures_bind.2 ?_⟩))))
      rw [Bool.or_eq_true, not_or, Bool.not_eq_true, Bool.not_eq_true] at hstop
      refine (parsePostfix_none hstop.2).mono fun o s₁ ho ↦ ?_
      cases o with
      | none =>
          refine ensures_pure.2 fun hok ↦ ?_
          rw [ho rfl] at hok
          exact absurd hok Bool.false_ne_true
      | some p => exact ih _ s₁

theorem parseConcat_ends (s : ParseState) : Ensures (parseConcat rec env) s fun _ s' ↦
    Diag.ok s'.diags = true → concatStops s'.rest = true :=
  ensures_bind.2 (ensures_remaining.2 (ensures_bind.2 ((concatLoop_ends _ _ s).mono fun _ _ h ↦
    ensures_pure.2 h)))

theorem altLoop_ends (n : Nat) (l : Node) {s : ParseState}
    (hs : Diag.ok s.diags = true → concatStops s.rest = true) :
    Ensures (altLoop rec env n l) s fun _ s' ↦
      Diag.ok s'.diags = true → concatStops s'.rest = true ∧ s'.rest.getD 0 0 ≠ chr '|' := by
  induction n generalizing l s with
  | zero => exact ensures_outOfFuel
  | succ n ih =>
      refine ensures_bind.2 (ensures_peek.2 (ensures_ite.2
        ⟨fun hbar ↦ ensures_pure.2 fun hok ↦ ⟨hs hok, hbar⟩, fun _ ↦ ?_⟩))
      refine ensures_bind.2 (ensures_skip.2 (ensures_bind.2 ((parseConcat_ends _).mono fun r s₁ h₁ ↦ ?_)))
      exact ih _ h₁

/-- An alternation without an error ends with the text, or before a stray byte. -/
theorem parseAlt_ends (n : Nat) (env : ParseEnv) (s : ParseState) :
    Ensures (parseAlt n env) s fun _ s' ↦
      Diag.ok s'.diags = true → (hasStray env 0 s'.rest = false ↔ s'.rest = []) := by
  cases n with
  | zero => exact ensures_outOfFuel
  | succ n =>
      refine ensures_bind.2 ((parseConcat_ends s).mono fun l s₁ h₁ ↦ ensures_bind.2 (ensures_remaining.2 ?_))
      refine (altLoop_ends _ l h₁).mono fun t s' h hok ↦ ?_
      obtain ⟨hstop, hbar⟩ := h hok
      cases hr : s'.rest with
      | nil => exact iff_of_true rfl rfl
      | cons c r =>
          rw [hr] at hstop hbar
          have hc : isConcatTerminator c = true := by simpa [concatStops] using hstop
          have hbar : c ≠ chr '|' := hbar
          refine iff_of_false (fun h ↦ ?_) (List.cons_ne_nil c r)
          simp only [isConcatTerminator, Bool.or_eq_true, decide_eq_true_eq] at hc
          rcases hc with ((rfl | hc) | rfl) | rfl
          · exact Bool.noConfusion ((hasStray_nul env 0).symm.trans h)
          · exact absurd hc hbar
          · exact Bool.noConfusion ((hasStray_closing env).symm.trans h)
          · exact Bool.noConfusion ((hasStray_dollar env 0).symm.trans h)

end Ends

/-- The text of an alternation that is read without an error is read to its end, if and only if no
byte of it is stray. -/
theorem parseAlt_complete_iff {n : Nat} {env : ParseEnv} {s s' : ParseState} {t : Node}
    (hrun : parseAlt n env s = some (t, s')) (hok : Diag.ok s'.diags = true) :
    s'.rest = [] ↔ hasStray env 0 s.rest = false := by
  rw [(SkipsAt.parseAlt n ⟨rfl, rfl⟩ s t s' hrun hok).2 0, parseAlt_ends n env s t s' hrun hok]

/-- How far the text is read depends on neither the fuel nor what has been reported. -/
theorem parseAlt_rest {n n' : Nat} {env : ParseEnv} {r : List Byte} {d d' : List Diag} {t t' : Node}
    {s s' : ParseState} (h : parseAlt n env ⟨r, d⟩ = some (t, s)) (h' : parseAlt n' env ⟨r, d'⟩ = some (t', s')) :
    s.rest = s'.rest := by
  obtain ⟨ws, -, hrun⟩ := (parseAlt_local (le_max_left n n') env).rerun h []
  obtain ⟨ws', -, hrun'⟩ := (parseAlt_local (le_max_right n n') env).rerun h' []
  exact congrArg (fun o ↦ o.2.rest) (Option.some.inj (hrun.symm.trans hrun'))

theorem parseTop_complete {fuel : Nat} {env : ParseEnv} {s s' : ParseState} {o : Option Node}
    (hrun : parseTop fuel env s = some (o, s')) (hok : Diag.ok s'.diags = true) : s'.rest = [] := by
  obtain ⟨bol, s₁, -, hrun⟩ := exists_of_eval_bind hrun
  obtain ⟨body, s₂, -, hrun⟩ := exists_of_eval_bind hrun
  obtain ⟨eol, s₃, -, hrun⟩ := exists_of_eval_bind hrun
  rw [eval_bind_of (eval_atEnd s₃), eval_ite] at hrun
  by_cases hend : s₃.rest = []
  · rw [hend] at hrun
    obtain ⟨-, rfl⟩ := Prod.mk.inj (Option.some.inj hrun)
    exact hend
  · rw [if_pos (by simpa using hend), eval_bind_of (eval_peek s₃)] at hrun
    obtain ⟨-, rfl⟩ := Prod.mk.inj (Option.some.inj hrun)
    exact absurd hok fun h ↦ (not_ok_error _ _ _).1 h

/-- A reference that is expanded without an error has its expansion read. -/
theorem Visit.Refers.reads {v : Visit} {name k exp : List Byte} (h : v.Refers name k) (hv : v.ErrorFree)
    (hexp : v.env.macros name = some exp) : ∃ n d t s',
      parseAlt n { v.env with expanding := name :: v.env.expanding } ⟨exp, d⟩ = some (t, s') ∧
      Diag.ok s'.diags = true := by
  obtain ⟨n, t, s', hrun, hok⟩ := h.expanded hv
  by_cases hname : name ∈ v.env.expanding
  · rw [expandMacro, if_pos hname] at hrun
    obtain ⟨-, rfl⟩ := Prod.mk.inj (Option.some.inj hrun)
    exact absurd hok fun h ↦ (not_ok_error _ _ _).1 h
  · rw [expandMacro, if_neg hname, hexp] at hrun
    simp only at hrun
    rw [eval_bind_of (eval_save _), eval_bind_of (eval_restore _ exp)] at hrun
    obtain ⟨inner, s₁, hinner, hlast⟩ := exists_of_eval_bind hrun
    obtain ⟨-, rfl⟩ := Prod.mk.inj (Option.some.inj hlast)
    exact ⟨n, _, inner, s₁, hinner, hok⟩

end Parser

/-! ## Nothing is ignored -/

/-- Every byte of the pattern is read, and every byte of the expansions of the macros that it refers
to. -/
def AllRead (fuel : Nat) (env : ParseEnv) (src : List Byte) : Prop :=
  (Parser.parseTop fuel env { rest := src }).map (fun r ↦ r.2.rest) = some [] ∧
  ∀ v ∈ visits fuel env src, ∀ name k exp, v.Refers name k → v.env.macros name = some exp →
    ∀ n d t s', Parser.parseAlt n { v.env with expanding := name :: v.env.expanding } ⟨exp, d⟩ = some (t, s') →
      s'.rest = []

/-- The environment of a call differs in the macros that are being expanded, at most. -/
theorem Parser.visits_env (fuel : Nat) (env : ParseEnv) (src : List Byte) :
    ∀ v ∈ visits fuel env src, v.env.macros = env.macros ∧ SameMode env v.env := by
  have hP : Expands fun e ↦ e.macros = env.macros ∧ SameMode env e :=
    ⟨fun e name exp h _ _ ↦ ⟨h.1, h.2.ci, h.2.loc⟩⟩
  exact fun v hv ↦ hP.parseAltVisits ⟨rfl, rfl, rfl⟩ _ v hv

theorem Parser.hasStray_congr {env env' : ParseEnv} (h : SameMode env env') (depth : Nat) (r : List Byte) :
    hasStray env' depth r = hasStray env depth r := by
  suffices hfrom : ∀ n depth r, strayFrom env' n depth r = strayFrom env n depth r from hfrom _ _ _
  intro n
  induction n with
  | zero => exact fun _ _ ↦ rfl
  | succ n ih =>
      intro depth r
      cases r with
      | nil => rfl
      | cons c r =>
          unfold strayFrom
          simp only [h.parseClass_eq, h.parseQuoted_eq, ih]

/-- The macro `x`, defined as `a)b`, and no other. -/
def strayClosing : ParseEnv where
  macros name := if name = [120] then some ([40, 97, 41, 98, 41] : List Byte) else none

/-- The pattern `{x}`: the parse of the expansion `(a)b)` stops at the last byte, and no error is
recorded. -/
theorem strayClosing_ignored :
    ∃ o diags, parseRegex 3 strayClosing [123, 120, 125] = some (o, diags) ∧ Diag.ok diags = true ∧
      ¬ AllRead 3 strayClosing [123, 120, 125] := by
  refine ⟨_, _, rfl, rfl, fun h ↦ ?_⟩
  have hrest := h.2 ⟨strayClosing, { rest := [123, 120, 125] }⟩ List.mem_cons_self [120] []
    [40, 97, 41, 98, 41] ⟨rfl, ⟨rfl, by decide, by decide +kernel⟩⟩ rfl 2 [] _ _ rfl
  exact absurd hrest (by decide)

/-- **Nothing is ignored.**  Of a pattern that is read without an error every byte is read, and every
byte of the expansions, if and only if no expansion has a stray byte. -/
theorem allRead_iff {fuel : Nat} {env : ParseEnv} {src : List Byte} {o : Option Node} {diags : List Diag}
    (h : parseRegex fuel env src = some (o, diags)) (hok : Diag.ok diags = true) :
    AllRead fuel env src ↔ ∀ v ∈ visits fuel env src, ∀ name k exp, v.Refers name k →
      env.macros name = some exp → Parser.hasStray env 0 exp = false := by
  have htop : (Parser.parseTop fuel env { rest := src }).map (fun r ↦ r.2.rest) = some [] := by
    obtain ⟨⟨o', s'⟩, hrun, heq⟩ := Option.map_eq_some_iff.1 h
    obtain ⟨-, rfl⟩ := Prod.mk.inj heq
    rw [hrun, Option.map_some, Parser.parseTop_complete hrun hok]
  refine (and_iff_right htop).trans (forall_congr' fun v ↦ forall_congr' fun hv ↦ forall_congr' fun name ↦
    forall_congr' fun k ↦ forall_congr' fun exp ↦ forall_congr' fun href ↦ ?_)
  obtain ⟨hmacros, hmode⟩ := Parser.visits_env fuel env src v hv
  rw [hmacros]
  refine forall_congr' fun hexp ↦ ?_
  obtain ⟨n, d, t, s', hrun, hok⟩ := href.reads (visits_errorFree h hok v hv) (hmacros ▸ hexp)
  have hstray := Parser.parseAlt_complete_iff hrun hok
  have hsame : Parser.SameMode env { v.env with expanding := name :: v.env.expanding } :=
    ⟨hmode.ci, hmode.loc⟩
  rw [Parser.hasStray_congr hsame] at hstray
  rw [← hstray]
  refine ⟨fun hread ↦ hread n d t s' hrun, fun hrest n₁ d₁ t₁ s₁ hrun₁ ↦ ?_⟩
  exact (Parser.parseAlt_rest hrun₁ hrun).trans hrest

theorem allRead_iff_strayClosing :
    AllRead 3 strayClosing [123, 120, 125] ↔ ∀ v ∈ visits 3 strayClosing [123, 120, 125],
      ∀ name k exp, v.Refers name k → strayClosing.macros name = some exp →
        Parser.hasStray strayClosing 0 exp = false :=
  allRead_iff rfl rfl

end LexCpp
