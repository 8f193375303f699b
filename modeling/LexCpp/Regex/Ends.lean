import LexCpp.Control.Returns
import LexCpp.Regex.Reading

/-!
# The parser ends

Every method returns and leaves no more text than it was given, and those that run in a loop
leave less.  Groups are shorter than the text they are in, and a macro is not expanded inside of
its own expansion, so the depth of the recursion is bounded as well.
-/

namespace LexCpp

namespace Parser

/-! ## Items of bracket expressions -/

/-- A byte or a range, after the items `cls`. -/
def byteItem (env : ParseEnv) (cls : ByteSet) : Parser ByteSet := do
  let a ← readClassByte
  if (← peek) = chr '-' ∧ (← peekAt 1) ≠ chr ']' ∧ (← peekAt 1) ≠ 0 then
    skip
    let b ← readClassByte
    return cls.addRangeCi a b env.ci
  else return cls.addByteCi a env.ci

/-- One item of a bracket expression, after the items `cls`. -/
def classItem (env : ParseEnv) (cls : ByteSet) : Parser ByteSet := do
  let posix ←
    if (← peek) = chr '[' ∧ (← peekAt 1) = chr ':' then tryPosixClass env else pure none
  match posix with
  | some bs => return cls.addAll bs
  | none => byteItem env cls

/-- Where the items end. -/
def classStops (first : Bool) (r : List Byte) : Bool :=
  r.isEmpty || !(first || r.getD 0 0 != chr ']')

/-- The loop reads item after item. -/
theorem classLoop_succ (env : ParseEnv) (n : Nat) (first : Bool) (cls : ByteSet) (s : ParseState) :
    classLoop env (n + 1) first cls s =
      if classStops first s.rest = true then some (cls, s)
      else (classItem env cls >>= classLoop env n false) s := by
  rw [classLoop, eval_bind_of (eval_atEnd s), eval_bind_of (eval_peek s), eval_ite]
  refine if_congr Iff.rfl rfl ?_
  unfold classItem byteItem
  simp only [bind_assoc]
  rw [eval_bind_of (eval_peek s), eval_bind_of (eval_peekAt s 1), eval_bind_of (eval_peek s),
    eval_bind_of (eval_peekAt s 1)]
  by_cases hposix : s.rest.getD 0 0 = chr '[' ∧ s.rest.getD 1 0 = chr ':'
  · rw [if_pos hposix, if_pos hposix, bind_assoc]
    refine congrFun (bind_congr fun o ↦ ?_) s
    cases o with
    | some bs => exact (pure_bind _ _).symm
    | none =>
        simp only [bind_assoc]
        refine bind_congr fun a ↦ bind_congr fun c ↦ bind_congr fun c' ↦ bind_congr fun c'' ↦ ?_
        split_ifs
        · simp only [bind_assoc, pure_bind]
        · simp only [pure_bind]
  · rw [if_neg hposix, if_neg hposix, bind_assoc]
    refine congrFun (bind_congr fun o ↦ ?_) s
    cases o with
    | some bs => exact (pure_bind _ _).symm
    | none =>
        simp only [bind_assoc]
        refine bind_congr fun a ↦ bind_congr fun c ↦ bind_congr fun c' ↦ bind_congr fun c'' ↦ ?_
        split_ifs
        · simp only [bind_assoc, pure_bind]
        · simp only [pure_bind]


/-! ## Methods that return -/

/-- The method returns, and at most `n` bytes are left. -/
def Ends {α : Type} (x : Parser α) (s : ParseState) (n : Nat) : Prop :=
  Returns x s fun _ s' ↦ s'.rest.length ≤ n

/-- The method returns, and takes something if there is anything. -/
def Takes {α : Type} (x : Parser α) (s : ParseState) : Prop := Ends x s (s.rest.length - 1)

namespace Ends

variable {α β : Type} {x : Parser α} {s : ParseState} {n m : Nat}

theorem mono (h : Ends x s n) (hnm : n ≤ m) : Ends x s m := Returns.mono h fun _ _ hs ↦ hs.trans hnm

theorem pure (a : α) (h : s.rest.length ≤ n) : Ends (pure a) s n := Returns.pure h

theorem bind {z : Parser β} {f : β → Parser α} (hz : Ends z s m)
    (hf : ∀ b s', s'.rest.length ≤ m → Ends (f b) s' n) : Ends (z >>= f) s n := Returns.bind hz hf

theorem step {z : Parser β} {f : β → Parser α} {b : β} {s' : ParseState} (hz : z s = some (b, s'))
    (hf : Ends (f b) s' n) : Ends (z >>= f) s n := Returns.step hz hf

theorem skip (s : ParseState) : Takes skip s := ⟨_, _, rfl, List.length_tail.le⟩

theorem advance (s : ParseState) : Takes advance s := ⟨_, _, rfl, List.length_tail.le⟩

theorem accept (c : Char) (s : ParseState) : Ends (accept c) s s.rest.length := by
  unfold Parser.accept
  refine step (eval_peek s) (Returns.ite (fun _ ↦ ?_) fun _ ↦ pure false le_rfl)
  exact (skip s).bind fun _ s' hs' ↦ pure true (hs'.trans (Nat.sub_le _ _))

theorem readWhile (p : Byte → Bool) (n : Nat) (s : ParseState) :
    Ends (readWhile p n) s s.rest.length := by
  induction n generalizing s with
  | zero => exact pure [] le_rfl
  | succ n ih =>
      refine step (eval_atEnd s) (step (eval_peek s) (Returns.ite (fun _ ↦ pure [] le_rfl) fun _ ↦ ?_))
      refine (advance s).bind fun b s' hs' ↦ (ih s').bind fun w s'' hs'' ↦ pure _ ?_
      exact hs''.trans (hs'.trans (Nat.sub_le _ _))

theorem readOctal (n v : Nat) (s : ParseState) : Ends (readOctal n v) s s.rest.length := by
  induction n generalizing v s with
  | zero => exact pure v le_rfl
  | succ n ih =>
      refine step (eval_peek s) (Returns.ite (fun _ ↦ pure v le_rfl) fun _ ↦ ?_)
      exact (advance s).bind fun d s' hs' ↦ (ih _ s').mono (hs'.trans (Nat.sub_le _ _))

theorem readHex (n v : Nat) (s : ParseState) : Ends (readHex n v) s s.rest.length := by
  induction n generalizing v s with
  | zero => exact pure v le_rfl
  | succ n ih =>
      refine step (eval_peek s) (Returns.ite (fun _ ↦ pure v le_rfl) fun _ ↦ ?_)
      exact (advance s).bind fun d s' hs' ↦ (ih _ s').mono (hs'.trans (Nat.sub_le _ _))

theorem readEscapeByte (s : ParseState) : Takes readEscapeByte s := by
  refine (skip s).bind fun _ s₁ h₁ ↦ step (eval_peek s₁) (Returns.ite (fun _ ↦ pure 0 h₁) fun _ ↦ ?_)
  have hskip : ∀ c : Byte, Ends (do Parser.skip; return c) s₁ (s.rest.length - 1) := fun c ↦
    (skip s₁).bind fun _ s₂ h₂ ↦ pure c (h₂.trans ((Nat.sub_le _ _).trans h₁))
  cases controlEscapes.find? fun e ↦ chr e.1 = s₁.rest.getD 0 0 with
  | some e => exact hskip _
  | none =>
      refine Returns.ite (fun _ ↦ ?_) fun _ ↦ Returns.ite (fun _ ↦ ?_) fun _ ↦ hskip _
      · exact (readOctal 3 0 s₁).bind fun v s₂ h₂ ↦ pure _ (h₂.trans h₁)
      · refine (skip s₁).bind fun _ s₂ h₂ ↦ (readHex 2 0 s₂).bind fun v s₃ h₃ ↦ pure _ ?_
        exact h₃.trans (h₂.trans ((Nat.sub_le _ _).trans h₁))

theorem readClassByte (s : ParseState) : Takes readClassByte s :=
  step (eval_peek s) (Returns.ite (fun _ ↦ readEscapeByte s) fun _ ↦ advance s)

/-- A POSIX class takes its brackets. -/
theorem tryPosixClass (env : ParseEnv) (s : ParseState) :
    Returns (tryPosixClass env) s fun o s' ↦ s'.rest.length ≤ s.rest.length ∧
      (o ≠ none → s'.rest.length ≤ s.rest.length - 1) := by
  unfold Parser.tryPosixClass
  refine Returns.step (eval_save s) <| Returns.bind (skip s) fun _ s₁ h₁ ↦
    Returns.bind (skip s₁) fun _ s₂ h₂ ↦ Returns.bind (readWhile isAlpha 16 s₂) fun name s₃ h₃ ↦
    Returns.step (eval_peek s₃) <| Returns.step (eval_peekAt s₃ 1) <|
    Returns.ite (fun _ ↦ ?_) fun _ ↦ ?_
  · exact Returns.step (eval_restore s₃ s.rest) (Returns.pure ⟨le_rfl, fun h ↦ absurd rfl h⟩)
  · refine Returns.bind (skip s₃) fun _ s₄ h₄ ↦ Returns.bind (skip s₄) fun _ s₅ h₅ ↦ ?_
    cases posixBytes name env.ci with
    | some bs =>
        have hle : s₅.rest.length ≤ s.rest.length - 1 := by omega
        exact Returns.pure ⟨hle.trans (Nat.sub_le _ _), fun _ ↦ hle⟩
    | none =>
        refine Returns.step (eval_report s₅ _) (Returns.step (eval_restore _ s.rest) ?_)
        exact Returns.pure ⟨le_rfl, fun h ↦ absurd rfl h⟩

/-- An item takes something, unless nothing is left. -/
theorem classItem (env : ParseEnv) (cls : ByteSet) (s : ParseState) : Takes (classItem env cls) s := by
  have hbyte : ∀ s₁ : ParseState, s₁.rest.length ≤ s.rest.length →
      Ends (byteItem env cls) s₁ (s.rest.length - 1) := by
    intro s₁ h₁
    refine (readClassByte s₁).bind fun a s₂ h₂ ↦ step (eval_peek s₂) <| step (eval_peekAt s₂ 1) <|
      step (eval_peekAt s₂ 1) <| Returns.ite (fun _ ↦ ?_) fun _ ↦ ?_
    · refine (skip s₂).bind fun _ s₃ h₃ ↦ (readClassByte s₃).bind fun b s₄ h₄ ↦ pure _ ?_
      omega
    · exact pure _ (h₂.trans (Nat.sub_le_sub_right h₁ 1))
  unfold Parser.classItem
  refine step (eval_peek s) <| step (eval_peekAt s 1) <| Returns.ite (fun _ ↦ ?_) fun _ ↦ ?_
  · refine Returns.bind (tryPosixClass env s) fun o s₁ h₁ ↦ ?_
    cases o with
    | some bs => exact pure _ (h₁.2 (Option.some_ne_none bs))
    | none => exact hbyte s₁ h₁.1
  · exact hbyte s le_rfl

theorem classLoop (env : ParseEnv) {n : Nat} (first : Bool) (cls : ByteSet) {s : ParseState}
    (hn : s.rest.length < n) : Ends (classLoop env n first cls) s s.rest.length := by
  induction n generalizing first cls s with
  | zero => exact absurd hn (Nat.not_lt_zero _)
  | succ n ih =>
      unfold Ends Returns
      rw [classLoop_succ]
      by_cases hstop : classStops first s.rest = true
      · rw [if_pos hstop]
        exact ⟨_, _, rfl, le_rfl⟩
      · rw [if_neg hstop]
        have hne : s.rest.length ≠ 0 := fun hlen ↦ hstop (by
          rw [classStops, List.eq_nil_of_length_eq_zero hlen]
          rfl)
        refine (classItem env cls s).bind fun cls' s₁ h₁ ↦ (ih false cls' ?_).mono ?_
        · omega
        · exact h₁.trans (Nat.sub_le _ _)

/-- A loop that is given as many turns as there are bytes, and one more. -/
theorem loop {X : Nat → Parser α} (h : ∀ n, s.rest.length < n → Ends (X n) s m) :
    Ends (remaining >>= fun n ↦ X (n + 1)) s m :=
  step (eval_remaining s) (h _ (Nat.lt_succ_self _))

theorem parseClass (env : ParseEnv) (s : ParseState) : Takes (parseClass env) s := by
  refine (skip s).bind fun _ s₁ h₁ ↦ (accept '^' s₁).bind fun neg s₂ h₂ ↦ step (eval_remaining s₂) <|
    (classLoop env true {} (Nat.lt_succ_self _)).bind fun cls s₃ h₃ ↦ step (eval_peek s₃) <|
    Returns.ite (fun _ ↦ ?_) fun _ ↦ ?_
  · exact step (eval_report s₃ _) (pure _ (h₃.trans (h₂.trans h₁)))
  · refine (skip s₃).bind fun _ s₄ h₄ ↦ pure _ ?_
    exact h₄.trans ((Nat.sub_le _ _).trans (h₃.trans (h₂.trans h₁)))

theorem quotedLoop (env : ParseEnv) {n : Nat} (acc : Option Node) {s : ParseState}
    (hn : s.rest.length < n) : Ends (quotedLoop env n acc) s s.rest.length := by
  induction n generalizing acc s with
  | zero => exact absurd hn (Nat.not_lt_zero _)
  | succ n ih =>
      refine step (eval_atEnd s) <| step (eval_peek s) <| Returns.ite (fun _ ↦ pure _ le_rfl) fun hstop ↦ ?_
      have hne : s.rest.length ≠ 0 := fun hlen ↦ hstop (by
        rw [List.eq_nil_of_length_eq_zero hlen]
        rfl)
      refine (readClassByte s).bind fun b s₁ h₁ ↦ (ih _ ?_).mono (h₁.trans (Nat.sub_le _ _))
      omega

theorem parseQuoted (env : ParseEnv) (s : ParseState) : Takes (parseQuoted env) s := by
  refine (skip s).bind fun _ s₁ h₁ ↦ step (eval_remaining s₁) <|
    (quotedLoop env none (Nat.lt_succ_self _)).bind fun acc s₂ h₂ ↦ step (eval_peek s₂) <|
    Returns.ite (fun _ ↦ ?_) fun _ ↦ ?_
  · exact step (eval_report s₂ _) (pure _ (h₂.trans h₁))
  · refine (skip s₂).bind fun _ s₃ h₃ ↦ pure _ ?_
    exact h₃.trans ((Nat.sub_le _ _).trans (h₂.trans h₁))

theorem parseUpper (lo : Nat) (s : ParseState) : Ends (parseUpper lo) s s.rest.length := by
  refine step (eval_peek s) <| Returns.ite (fun _ ↦ pure lo le_rfl) fun _ ↦
    (skip s).bind fun _ s₁ h₁ ↦ step (eval_peek s₁) <| Returns.ite (fun _ ↦ ?_) fun _ ↦ ?_
  · refine step (eval_remaining s₁) <| (readWhile isDigit _ s₁).bind fun w s₂ h₂ ↦ pure _ ?_
    exact h₂.trans (h₁.trans (Nat.sub_le _ _))
  · exact pure kInf (h₁.trans (Nat.sub_le _ _))

theorem parseRepeat (p : Node) (s : ParseState) : Ends (parseRepeat p) s s.rest.length := by
  have hback : ∀ s' : ParseState, Ends (do restore s.rest; return p) s' s.rest.length := fun s' ↦
    step (eval_restore s' s.rest) (pure p le_rfl)
  refine step (eval_save s) <| (skip s).bind fun _ s₁ h₁ ↦ step (eval_remaining s₁) <|
    (readWhile isDigit _ s₁).bind fun w s₂ h₂ ↦ Returns.ite (fun _ ↦ hback s₂) fun _ ↦
    (parseUpper _ s₂).bind fun hi s₃ h₃ ↦ step (eval_peek s₃) <|
    Returns.ite (fun _ ↦ hback s₃) fun _ ↦ (skip s₃).bind fun _ s₄ h₄ ↦ pure _ ?_
  omega

/-! ## The functions that call each other -/

section Recursion

variable {rec : ParseEnv → Parser Node} {env : ParseEnv}

theorem parseMacro
    (hname : ∀ name exp s, env.macros name = some exp → name ∉ env.expanding → s.rest = exp →
      Ends (rec { env with expanding := name :: env.expanding }) s s.rest.length)
    (s : ParseState) : Takes (parseMacro rec env) s := by
  refine step (eval_save s) <| (skip s).bind fun _ s₁ h₁ ↦ step (eval_remaining s₁) <|
    (readWhile isNameByte _ s₁).bind fun name s₂ h₂ ↦ step (eval_peek s₂) <|
    Returns.ite (fun _ ↦ ?_) fun _ ↦ (skip s₂).bind fun _ s₃ h₃ ↦ Returns.ite (fun _ ↦ ?_) fun hfresh ↦ ?_
  · refine step (eval_restore s₂ s.rest) <| (skip _).bind fun _ s₃ h₃ ↦ pure _ h₃
  · refine step (eval_report s₃ _) (pure _ ?_)
    exact h₃.trans ((Nat.sub_le _ _).trans (h₂.trans h₁))
  · have hle : s₃.rest.length ≤ s.rest.length - 1 := h₃.trans ((Nat.sub_le _ _).trans (h₂.trans h₁))
    cases hexp : env.macros name with
    | none => exact step (eval_report s₃ _) (pure _ hle)
    | some exp =>
        refine step (eval_save s₃) <| step (eval_restore s₃ exp) <|
          (hname name exp _ hexp hfresh rfl).bind fun inner s₄ h₄ ↦
          step (eval_restore s₄ s₃.rest) (pure inner hle)

/-- An operand that is neither a group nor a brace takes something. -/
theorem primary_leaf {s : ParseState} (hopen : s.rest.getD 0 0 ≠ chr '(')
    (hbrace : s.rest.getD 0 0 ≠ chr '{') (hterm : isConcatTerminator (s.rest.getD 0 0) = false) :
    Takes (Parser.parsePrimary rec env) s := by
  simp only [isConcatTerminator, Bool.or_eq_false_iff, decide_eq_false_iff_not] at hterm
  obtain ⟨⟨⟨hzero, hbar⟩, hclose⟩, hdollar⟩ := hterm
  refine step (eval_peek s) <| Returns.ite (fun h ↦ absurd h hopen) fun _ ↦ Returns.ite (fun _ ↦ ?_) fun _ ↦
    Returns.ite (fun _ ↦ ?_) fun _ ↦ Returns.ite (fun h ↦ absurd h hbrace) fun _ ↦
    Returns.ite (fun _ ↦ ?_) fun _ ↦ Returns.ite (fun _ ↦ ?_) fun _ ↦
    Returns.ite (fun h ↦ ?_) fun _ ↦ Returns.ite (fun h ↦ absurd h hzero) fun _ ↦ ?_
  · exact Returns.bind (parseClass env s) fun t s₁ h₁ ↦ pure _ h₁
  · exact Returns.bind (parseQuoted env s) fun t s₁ h₁ ↦ pure _ h₁
  · exact Returns.bind (skip s) fun _ s₁ h₁ ↦ pure _ h₁
  · unfold Parser.parseEscapeAtom
    rw [bind_assoc]
    exact Returns.bind (readEscapeByte s) fun b s₁ h₁ ↦ pure _ h₁
  · rcases h with h | h | h
    · exact absurd h hclose
    · exact absurd h hbar
    · exact absurd h hdollar
  · exact Returns.bind (skip s) fun _ s₁ h₁ ↦ pure _ h₁

variable (hname : ∀ name exp s, env.macros name = some exp → name ∉ env.expanding → s.rest = exp →
  Ends (rec { env with expanding := name :: env.expanding }) s s.rest.length)
include hname

theorem parsePrimary {n : Nat} (hgroup : ∀ s, s.rest.length < n → Ends (rec env) s s.rest.length)
    {s : ParseState} (hs : s.rest.length ≤ n) :
    Returns (parsePrimary rec env) s fun o s' ↦ s'.rest.length ≤ s.rest.length ∧
      (o ≠ none → s'.rest.length ≤ s.rest.length - 1) := by
  have hnone : ∀ s' : ParseState, s'.rest.length ≤ s.rest.length →
      Returns (Pure.pure none) s' fun (o : Option Node) s' ↦ s'.rest.length ≤ s.rest.length ∧
        (o ≠ none → s'.rest.length ≤ s.rest.length - 1) := fun s' h ↦
    Returns.pure ⟨h, fun ho ↦ absurd rfl ho⟩
  have hsome : ∀ (t : Node) (s' : ParseState), s'.rest.length ≤ s.rest.length - 1 →
      Returns (Pure.pure (some t)) s' fun (o : Option Node) s' ↦ s'.rest.length ≤ s.rest.length ∧
        (o ≠ none → s'.rest.length ≤ s.rest.length - 1) := fun t s' h ↦
    Returns.pure ⟨h.trans (Nat.sub_le _ _), fun _ ↦ h⟩
  unfold Parser.parsePrimary
  refine Returns.step (eval_peek s) <| Returns.ite (fun hopen ↦ ?_) fun _ ↦ Returns.ite (fun _ ↦ ?_) fun _ ↦
    Returns.ite (fun _ ↦ ?_) fun _ ↦ Returns.ite (fun _ ↦ ?_) fun _ ↦ Returns.ite (fun _ ↦ ?_) fun _ ↦
    Returns.ite (fun _ ↦ ?_) fun _ ↦ Returns.ite (fun _ ↦ hnone s le_rfl) fun _ ↦
    Returns.ite (fun _ ↦ hnone s le_rfl) fun _ ↦ ?_
  · have hne : s.rest.length ≠ 0 := fun hlen ↦ by
      rw [List.eq_nil_of_length_eq_zero hlen] at hopen
      exact absurd hopen (by decide)
    refine Returns.bind (skip s) fun _ s₁ h₁ ↦ Returns.bind (hgroup s₁ (by omega)) fun inner s₂ h₂ ↦
      Returns.step (eval_peek s₂) <| Returns.ite (fun _ ↦ ?_) fun _ ↦ ?_
    · exact Returns.step (eval_report s₂ _) (hnone _ (h₂.trans (h₁.trans (Nat.sub_le _ _))))
    · refine Returns.bind (skip s₂) fun _ s₃ h₃ ↦ hsome _ _ ?_
      exact h₃.trans ((Nat.sub_le _ _).trans (h₂.trans h₁))
  · exact Returns.bind (parseClass env s) fun t s₁ h₁ ↦ hsome t s₁ h₁
  · exact Returns.bind (parseQuoted env s) fun t s₁ h₁ ↦ hsome t s₁ h₁
  · exact Returns.bind (parseMacro hname s) fun t s₁ h₁ ↦ hsome t s₁ h₁
  · exact Returns.bind (skip s) fun _ s₁ h₁ ↦ hsome _ s₁ h₁
  · unfold Parser.parseEscapeAtom
    rw [bind_assoc]
    exact Returns.bind (readEscapeByte s) fun b s₁ h₁ ↦ hsome _ s₁ h₁
  · exact Returns.bind (skip s) fun _ s₁ h₁ ↦ hsome _ s₁ h₁

theorem parsePostfix {n : Nat} (hgroup : ∀ s, s.rest.length < n → Ends (rec env) s s.rest.length)
    {s : ParseState} (hs : s.rest.length ≤ n) :
    Returns (parsePostfix rec env) s fun o s' ↦ s'.rest.length ≤ s.rest.length ∧
      (o ≠ none → s'.rest.length ≤ s.rest.length - 1) := by
  have hsome : ∀ (t : Node) (s' : ParseState), s'.rest.length ≤ s.rest.length - 1 →
      Returns (Pure.pure (some t)) s' fun (o : Option Node) s' ↦ s'.rest.length ≤ s.rest.length ∧
        (o ≠ none → s'.rest.length ≤ s.rest.length - 1) := fun t s' h ↦
    Returns.pure ⟨h.trans (Nat.sub_le _ _), fun _ ↦ h⟩
  unfold Parser.parsePostfix
  refine Returns.bind (parsePrimary hname hgroup hs) fun o s₁ h₁ ↦ ?_
  cases o with
  | none => exact Returns.pure ⟨h₁.1, fun ho ↦ absurd rfl ho⟩
  | some p =>
      have hle := h₁.2 (Option.some_ne_none p)
      have hskip : ∀ t : Node, Returns (do Parser.skip; return some t) s₁ fun o s' ↦
          s'.rest.length ≤ s.rest.length ∧ (o ≠ none → s'.rest.length ≤ s.rest.length - 1) := fun t ↦
        Returns.bind (skip s₁) fun _ s₂ h₂ ↦ hsome t s₂ (h₂.trans ((Nat.sub_le _ _).trans hle))
      refine Returns.step (eval_peek s₁) <| Returns.ite (fun _ ↦ hskip _) fun _ ↦
        Returns.ite (fun _ ↦ hskip _) fun _ ↦ Returns.ite (fun _ ↦ hskip _) fun _ ↦
        Returns.step (eval_peekAt s₁ 1) <| Returns.ite (fun _ ↦ ?_) fun _ ↦ hsome p s₁ hle
      exact Returns.bind (parseRepeat p s₁) fun t s₂ h₂ ↦ hsome t s₂ (h₂.trans hle)

theorem concatLoop {n m : Nat} (hgroup : ∀ s, s.rest.length < n → Ends (rec env) s s.rest.length)
    (acc : Option Node) {s : ParseState} (hs : s.rest.length ≤ n) (hm : s.rest.length < m) :
    Ends (concatLoop rec env m acc) s s.rest.length := by
  induction m generalizing acc s with
  | zero => exact absurd hm (Nat.not_lt_zero _)
  | succ m ih =>
      refine step (eval_atEnd s) <| step (eval_peek s) <| Returns.ite (fun _ ↦ pure _ le_rfl) fun hstop ↦ ?_
      have hne : s.rest.length ≠ 0 := fun hlen ↦ hstop (by
        rw [List.eq_nil_of_length_eq_zero hlen]
        rfl)
      refine Returns.bind (parsePostfix hname hgroup hs) fun o s₁ h₁ ↦ ?_
      cases o with
      | none => exact pure _ h₁.1
      | some p =>
          have hle := h₁.2 (Option.some_ne_none p)
          exact (ih _ (h₁.1.trans hs) (by omega)).mono h₁.1

theorem parseConcat {n : Nat} (hgroup : ∀ s, s.rest.length < n → Ends (rec env) s s.rest.length)
    {s : ParseState} (hs : s.rest.length ≤ n) : Ends (parseConcat rec env) s s.rest.length :=
  step (eval_remaining s) <| (concatLoop hname hgroup none hs (Nat.lt_succ_self _)).bind
    fun _ _ h₁ ↦ pure _ h₁

theorem altLoop {n m : Nat} (hgroup : ∀ s, s.rest.length < n → Ends (rec env) s s.rest.length)
    (l : Node) {s : ParseState} (hs : s.rest.length ≤ n) (hm : s.rest.length < m) :
    Ends (altLoop rec env m l) s s.rest.length := by
  induction m generalizing l s with
  | zero => exact absurd hm (Nat.not_lt_zero _)
  | succ m ih =>
      refine step (eval_peek s) <| Returns.ite (fun _ ↦ pure _ le_rfl) fun hbar ↦ ?_
      have hne : s.rest.length ≠ 0 := fun hlen ↦ hbar (by
        rw [List.eq_nil_of_length_eq_zero hlen]
        decide)
      refine (skip s).bind fun _ s₁ h₁ ↦ ?_
      have hs₁ : s₁.rest.length ≤ n := h₁.trans ((Nat.sub_le _ _).trans hs)
      refine (parseConcat hname hgroup hs₁).bind fun r s₂ h₂ ↦ ?_
      exact (ih _ (h₂.trans hs₁) (by omega)).mono (h₂.trans (h₁.trans (Nat.sub_le _ _)))

end Recursion

/-- Fuel for what is left and for the expansions of the macros that are not being expanded. -/
theorem parseAlt {fuel : Nat} {env : ParseEnv} {names : Finset (List Byte)} {len : Nat}
    (hnames : ∀ name exp, env.macros name = some exp → name ∈ names ∧ exp.length ≤ len) {s : ParseState}
    (hfuel : (names.filter (· ∉ env.expanding)).card * (len + 1) + s.rest.length < fuel) :
    Ends (parseAlt fuel env) s s.rest.length := by
  induction fuel generalizing env s with
  | zero => exact absurd hfuel (Nat.not_lt_zero _)
  | succ fuel ih =>
      have hgroup : ∀ s', s'.rest.length < s.rest.length →
          Ends (Parser.parseAlt fuel env) s' s'.rest.length := fun s' hs' ↦ ih hnames (by omega)
      have hname : ∀ name exp s', env.macros name = some exp → name ∉ env.expanding → s'.rest = exp →
          Ends (Parser.parseAlt fuel { env with expanding := name :: env.expanding }) s'
            s'.rest.length := by
        intro name exp s' hexp hfresh hs'
        obtain ⟨hname, hlen⟩ := hnames name exp hexp
        have hsame : ∀ name' exp, ({ env with expanding := name :: env.expanding } : ParseEnv).macros
            name' = some exp → name' ∈ names ∧ exp.length ≤ len := hnames
        refine ih hsame ?_
        -- one macro more is being expanded, and its text is not longer than `len`
        have hcard : (names.filter (· ∉ name :: env.expanding)).card <
            (names.filter (· ∉ env.expanding)).card := by
          refine Finset.card_lt_card ((Finset.ssubset_iff_of_subset fun x hx ↦ ?_).2 ⟨name, ?_, ?_⟩)
          · rw [Finset.mem_filter, List.mem_cons, not_or] at hx
            exact Finset.mem_filter.2 ⟨hx.1, hx.2.2⟩
          · exact Finset.mem_filter.2 ⟨hname, hfresh⟩
          · exact fun hx ↦ (Finset.mem_filter.1 hx).2 List.mem_cons_self
        have hmul := Nat.mul_le_mul_right (len + 1) hcard
        rw [Nat.succ_mul] at hmul
        rw [hs']
        change (names.filter (· ∉ name :: env.expanding)).card * (len + 1) + exp.length < fuel
        omega
      unfold Parser.parseAlt
      refine (parseConcat hname hgroup le_rfl).bind fun l s₁ h₁ ↦ step (eval_remaining s₁) ?_
      exact (altLoop hname hgroup l h₁ (Nat.lt_succ_self _)).mono h₁

end Ends

end Parser

/-- **Parsing ends.**  With finitely many macros, recursive ones included, there is fuel for every
text. -/
theorem exists_parseRegex {env : ParseEnv} {names : Finset (List Byte)}
    (hnames : ∀ name, env.macros name ≠ none → name ∈ names) (src : List Byte) :
    ∃ fuel, ∀ m, fuel ≤ m → ∃ r, parseRegex m env src = some r := by
  have hlen : ∀ name exp, env.macros name = some exp → name ∈ names ∧
      exp.length ≤ names.sup fun name ↦ ((env.macros name).getD []).length := by
    intro name exp hexp
    have hname : name ∈ names := hnames name (by rw [hexp]; exact Option.some_ne_none exp)
    refine ⟨hname, ?_⟩
    have hsup := Finset.le_sup (f := fun name ↦ ((env.macros name).getD []).length) hname
    simpa only [hexp, Option.getD_some] using hsup
  refine ⟨names.card * ((names.sup fun name ↦ ((env.macros name).getD []).length) + 1) + src.length + 1,
    fun m hm ↦ ?_⟩
  have hcard := Nat.mul_le_mul_right ((names.sup fun name ↦ ((env.macros name).getD []).length) + 1)
    (Finset.card_filter_le names (· ∉ env.expanding))
  suffices htop : Parser.Ends (Parser.parseTop m env) { rest := src } src.length by
    obtain ⟨o, s', hrun, -⟩ := htop
    exact ⟨_, by rw [parseRegex, hrun]; rfl⟩
  refine (Parser.Ends.accept '^' _).bind fun bol s₁ h₁ ↦ ?_
  have hsrc : s₁.rest.length ≤ src.length := h₁
  refine (Parser.Ends.parseAlt hlen (by omega)).bind fun body s₂ h₂ ↦ ?_
  refine (Parser.Ends.accept '$' s₂).bind fun eol s₃ h₃ ↦ Parser.Ends.step (Parser.eval_atEnd s₃) ?_
  have hle : s₃.rest.length ≤ src.length := h₃.trans (h₂.trans hsrc)
  refine Returns.ite (fun _ ↦ ?_) fun _ ↦ ?_
  · exact Parser.Ends.step (Parser.eval_peek s₃)
      (Parser.Ends.step (Parser.eval_report s₃ _) (Parser.Ends.pure _ hle))
  · exact Parser.Ends.pure _ hle

end LexCpp
