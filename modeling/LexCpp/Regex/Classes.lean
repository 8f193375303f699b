import LexCpp.Nfa.Compile
import LexCpp.Regex.Caseless

/-!
# Bracket expressions and their classes

A class without bytes is the label of an edge that reads nothing.  The parser makes one from a
negated bracket expression that lists all the bytes, and from nothing else; `classCalls` are the
bracket expressions that it reads on the way through a pattern and its macros.
-/

namespace LexCpp

/-! ## The calls of `parse_class` -/

namespace Parser

/-- A call of `parse_class`: the environment, and the state with its `[` ahead. -/
structure ClassCall where
  env : ParseEnv
  s : ParseState

/-- The items of a negated bracket expression list every byte there is. -/
def ClassCall.negatesAll (c : ClassCall) : Bool :=
  decide (c.s.rest.getD 1 0 = chr '^') &&
    match classLoop c.env ((c.s.rest.drop 2).length + 1) true {} { c.s with rest := c.s.rest.drop 2 } with
    | some (cls, _) => (List.finRange 256).all cls.test
    | none => false

section Calls

variable (rec : ParseEnv → Parser Node) (calls : ParseEnv → ParseState → List ClassCall)
  (env : ParseEnv)

/-- The calls below `parse_macro`: those of an expansion. -/
def macroCalls (s : ParseState) : List ClassCall :=
  match readWhile isNameByte s.rest.tail.length { s with rest := s.rest.tail } with
  | none => []
  | some (name, s') =>
      if name = [] ∨ s'.rest.getD 0 0 ≠ chr '\x7d' then []
      else if name ∈ env.expanding then []
      else
        match env.macros name with
        | none => []
        | some exp => calls { env with expanding := name :: env.expanding } { s' with rest := exp }

/-- The calls below `parse_primary`. -/
def primaryCalls (s : ParseState) : List ClassCall :=
  let c := s.rest.getD 0 0
  if c = chr '(' then calls env { s with rest := s.rest.tail }
  else if c = chr '[' then [⟨env, s⟩]
  else if c = chr '\x7b' then macroCalls calls env s
  else []

/-- The calls of the loop of `parse_concat`. -/
def concatCalls : Nat → ParseState → List ClassCall
  | 0, _ => []
  | n + 1, s =>
      if s.rest.isEmpty || isConcatTerminator (s.rest.getD 0 0) then []
      else
        primaryCalls calls env s ++
          match parsePostfix rec env s with
          | some (some _, s') => concatCalls n s'
          | _ => []

/-- The calls of the loop of `parse_alt`. -/
def altCalls : Nat → ParseState → List ClassCall
  | 0, _ => []
  | n + 1, s =>
      if s.rest.getD 0 0 ≠ chr '|' then []
      else
        concatCalls rec calls env (s.rest.tail.length + 1) { s with rest := s.rest.tail } ++
          match parseConcat rec env { s with rest := s.rest.tail } with
          | some (_, s') => altCalls n s'
          | none => []

end Calls

/-- The calls below `parse_alt`. -/
def parseAltCalls : Nat → ParseEnv → ParseState → List ClassCall
  | 0, _, _ => []
  | fuel + 1, env, s =>
      concatCalls (parseAlt fuel) (parseAltCalls fuel) env (s.rest.length + 1) s ++
        match parseConcat (parseAlt fuel) env s with
        | some (_, s') =>
            altCalls (parseAlt fuel) (parseAltCalls fuel) env (s'.rest.length + 1) s'
        | none => []

end Parser

/-- The bracket expressions that `parse_regex` reads, in a pattern and in the macros it expands. -/
def classCalls (fuel : Nat) (env : ParseEnv) (src : List Byte) : List Parser.ClassCall :=
  Parser.parseAltCalls fuel env { rest := if src.getD 0 0 = chr '^' then src.tail else src }

/-! ## Errors stay -/

namespace Parser

/-- An error that has been reported is still there. -/
def KeepsErrors {α : Type} (x : Parser α) : Prop :=
  ∀ s, Ensures x s fun _ s' ↦ Diag.ok s'.diags = true → Diag.ok s.diags = true

namespace KeepsErrors

variable {α β : Type} {x y : Parser α}

theorem pure (a : α) : KeepsErrors (pure a) := fun _ ↦ ensures_pure.2 id

theorem bind {z : Parser β} {f : β → Parser α} (hz : KeepsErrors z) (hf : ∀ b, KeepsErrors (f b)) :
    KeepsErrors (z >>= f) :=
  fun s ↦ ensures_bind.2 ((hz s).mono fun b s' hs ↦ (hf b s').mono fun _ _ h hok ↦ hs (h hok))

theorem ite {c : Prop} [Decidable c] (hx : KeepsErrors x) (hy : KeepsErrors y) :
    KeepsErrors (if c then x else y) :=
  fun s ↦ ensures_ite.2 ⟨fun _ ↦ hx s, fun _ ↦ hy s⟩

theorem none : KeepsErrors (outOfFuel : Parser α) := fun _ ↦ ensures_outOfFuel

theorem atEnd : KeepsErrors atEnd := fun _ ↦ ensures_atEnd.2 id

theorem peekAt (k : Nat) : KeepsErrors (peekAt k) := fun _ ↦ ensures_peekAt.2 id

theorem peek : KeepsErrors peek := peekAt 0

theorem skip : KeepsErrors skip := fun _ ↦ ensures_skip.2 id

theorem advance : KeepsErrors advance := fun _ ↦ ensures_advance.2 id

theorem save : KeepsErrors save := fun _ ↦ ensures_save.2 id

theorem restore (rest : List Byte) : KeepsErrors (restore rest) := fun _ ↦ ensures_restore.2 id

theorem remaining : KeepsErrors remaining := fun _ ↦ ensures_remaining.2 id

theorem report (d : Diag) : KeepsErrors (report d) := fun _ ↦
  ensures_report.2 fun h ↦ (Diag.ok_append.1 h).1

theorem accept (c : Char) : KeepsErrors (accept c) :=
  peek.bind fun _ ↦ .ite (skip.bind fun _ ↦ pure _) (pure _)

theorem readWhile (p : Byte → Bool) (n : Nat) : KeepsErrors (readWhile p n) := by
  induction n with
  | zero => exact pure _
  | succ n ih =>
      exact atEnd.bind fun _ ↦ peek.bind fun _ ↦ .ite (pure _) <|
        advance.bind fun _ ↦ ih.bind fun _ ↦ pure _

theorem readOctal (n v : Nat) : KeepsErrors (readOctal n v) := by
  induction n generalizing v with
  | zero => exact pure _
  | succ n ih => exact peek.bind fun _ ↦ .ite (pure _) (advance.bind fun _ ↦ ih _)

theorem readHex (n v : Nat) : KeepsErrors (readHex n v) := by
  induction n generalizing v with
  | zero => exact pure _
  | succ n ih => exact peek.bind fun _ ↦ .ite (pure _) (advance.bind fun _ ↦ ih _)

theorem readEscapeByte : KeepsErrors readEscapeByte := by
  refine skip.bind fun _ ↦ peek.bind fun c ↦ .ite (pure _) ?_
  cases controlEscapes.find? fun e ↦ chr e.1 = c with
  | some e => exact skip.bind fun _ ↦ pure _
  | none =>
      exact .ite ((readOctal 3 0).bind fun _ ↦ pure _) <|
        .ite (skip.bind fun _ ↦ (readHex 2 0).bind fun _ ↦ pure _) (skip.bind fun _ ↦ pure _)

theorem readClassByte : KeepsErrors readClassByte :=
  peek.bind fun _ ↦ .ite readEscapeByte advance

theorem tryPosixClass (env : ParseEnv) : KeepsErrors (tryPosixClass env) := by
  refine save.bind fun _ ↦ skip.bind fun _ ↦ skip.bind fun _ ↦ (readWhile isAlpha 16).bind fun name ↦
    peek.bind fun _ ↦ (peekAt 1).bind fun _ ↦ .ite ((restore _).bind fun _ ↦ pure _) <|
    skip.bind fun _ ↦ skip.bind fun _ ↦ ?_
  cases posixBytes name env.ci with
  | some bs => exact pure _
  | none => exact (report _).bind fun _ ↦ (restore _).bind fun _ ↦ pure _

theorem classLoop (env : ParseEnv) (n : Nat) (first : Bool) (cls : ByteSet) :
    KeepsErrors (classLoop env n first cls) := by
  induction n generalizing first cls with
  | zero => exact none
  | succ n ih =>
      refine atEnd.bind fun _ ↦ peek.bind fun _ ↦ .ite (pure _) <| peek.bind fun _ ↦
        (peekAt 1).bind fun _ ↦ .ite ((tryPosixClass env).bind ?_) ((pure _).bind ?_)
      all_goals
        intro posix
        cases posix with
        | some bs => exact ih _ _
        | none =>
            exact readClassByte.bind fun _ ↦ peek.bind fun _ ↦ (peekAt 1).bind fun _ ↦
              (peekAt 1).bind fun _ ↦ .ite (skip.bind fun _ ↦ readClassByte.bind fun _ ↦ ih _ _) (ih _ _)

theorem parseClass (env : ParseEnv) : KeepsErrors (parseClass env) :=
  skip.bind fun _ ↦ (accept '^').bind fun _ ↦ remaining.bind fun _ ↦ (classLoop env _ _ _).bind fun _ ↦
    peek.bind fun _ ↦ .ite ((report _).bind fun _ ↦ pure _) (skip.bind fun _ ↦ pure _)

theorem quotedLoop (env : ParseEnv) (n : Nat) (acc : Option Node) :
    KeepsErrors (quotedLoop env n acc) := by
  induction n generalizing acc with
  | zero => exact none
  | succ n ih =>
      exact atEnd.bind fun _ ↦ peek.bind fun _ ↦ .ite (pure _) (readClassByte.bind fun _ ↦ ih _)

theorem parseQuoted (env : ParseEnv) : KeepsErrors (parseQuoted env) :=
  skip.bind fun _ ↦ remaining.bind fun _ ↦ (quotedLoop env _ _).bind fun _ ↦ peek.bind fun _ ↦
    .ite ((report _).bind fun _ ↦ pure _) (skip.bind fun _ ↦ pure _)

theorem parseUpper (lo : Nat) : KeepsErrors (parseUpper lo) :=
  peek.bind fun _ ↦ .ite (pure _) <| skip.bind fun _ ↦ peek.bind fun _ ↦
    .ite (remaining.bind fun _ ↦ (readWhile _ _).bind fun _ ↦ pure _) (pure _)

theorem parseRepeat (p : Node) : KeepsErrors (parseRepeat p) :=
  save.bind fun _ ↦ skip.bind fun _ ↦ remaining.bind fun _ ↦ (readWhile _ _).bind fun _ ↦
    .ite ((restore _).bind fun _ ↦ pure _) <| (parseUpper _).bind fun _ ↦ peek.bind fun _ ↦
    .ite ((restore _).bind fun _ ↦ pure _) (skip.bind fun _ ↦ pure _)

end KeepsErrors

end Parser

/-! ## Sets with bytes in them -/

namespace ByteSet

theorem empty_eq_false_iff {s : ByteSet} : s.empty = false ↔ ∃ b, s.test b = true := by
  rw [← Bool.not_eq_true, empty_iff, not_forall]
  simp only [Bool.not_eq_false]

theorem empty_addAll {s : ByteSet} {bs : List Byte} (hbs : bs ≠ []) : (s.addAll bs).empty = false := by
  obtain ⟨b, w, rfl⟩ := List.exists_cons_of_ne_nil hbs
  exact empty_eq_false_iff.2 ⟨b, by simp⟩

theorem test_addByteCi_self (s : ByteSet) (b : Byte) (ci : Bool) : (s.addByteCi b ci).test b = true := by
  unfold addByteCi
  simp only
  split_ifs <;> simp

theorem test_addByteCi_mono {s : ByteSet} {c : Byte} (h : s.test c = true) (b : Byte) (ci : Bool) :
    (s.addByteCi b ci).test c = true := by
  unfold addByteCi
  simp only
  split_ifs <;> simp [h]

theorem test_addRangeCi {s : ByteSet} (lo hi : Byte) (ci : Bool) :
    (s.addRangeCi lo hi ci).test lo = true := by
  have hmem : lo ∈ byteRange (min lo hi) (max lo hi) := by
    simp [byteRange]
  have hmono : ∀ (bs : List Byte) (s : ByteSet) (c : Byte), (s.test c = true ∨ c ∈ bs) →
      (bs.foldl (fun s b ↦ s.addByteCi b ci) s).test c = true := by
    intro bs
    induction bs with
    | nil => exact fun s c h ↦ h.resolve_right (by simp)
    | cons b bs ih =>
        intro s c h
        refine ih _ c ?_
        rcases h with h | h
        · exact Or.inl (test_addByteCi_mono h b ci)
        · rcases List.mem_cons.1 h with rfl | h
          · exact Or.inl (test_addByteCi_self s c ci)
          · exact Or.inr h
  exact hmono _ s lo (Or.inr hmem)

theorem empty_inverse_iff {s : ByteSet} : s.inverse.empty = true ↔ ∀ b, s.test b = true := by
  rw [empty_iff]
  simp only [test_inverse, Bool.not_eq_false']

end ByteSet

namespace Parser

theorem ite_ne_nil {c : Prop} [Decidable c] {bs : List Byte} {o : Option (List Byte)}
    (hbs : bs ≠ []) (ho : ∀ x ∈ o, x ≠ []) : ∀ x ∈ (if c then some bs else o), x ≠ [] := by
  intro x hx
  split_ifs at hx
  · exact Option.some.inj hx ▸ hbs
  · exact ho x hx

/-- Every POSIX class has a byte. -/
theorem posixBytes_ne_nil (name : List Byte) (ci : Bool) : ∀ bs ∈ posixBytes name ci, bs ≠ [] := by
  unfold posixBytes
  refine ite_ne_nil (by decide +kernel) <| ite_ne_nil ?_ <| ite_ne_nil ?_ <|
    ite_ne_nil (by decide +kernel) <| ite_ne_nil (by decide +kernel) <|
    ite_ne_nil (by decide +kernel) <| ite_ne_nil (by decide +kernel) <|
    ite_ne_nil (by decide +kernel) <| ite_ne_nil (by decide +kernel) <|
    ite_ne_nil (by decide +kernel) <| ite_ne_nil (by decide +kernel) <|
    ite_ne_nil (by decide +kernel) ?_
  · exact List.append_ne_nil_of_left_ne_nil (by decide +kernel) _
  · exact List.append_ne_nil_of_left_ne_nil (by decide +kernel) _
  · exact fun bs hbs ↦ absurd hbs (Option.not_mem_none bs)

theorem tryPosixClass_ne_nil (env : ParseEnv) :
    Yields (tryPosixClass env) fun o ↦ ∀ bs ∈ o, bs ≠ [] := by
  have hnone : Yields (pure none) fun o : Option (List Byte) ↦ ∀ bs ∈ o, bs ≠ [] := .pure (by simp)
  unfold tryPosixClass
  refine .seq fun _ ↦ .seq fun _ ↦ .seq fun _ ↦ .seq fun name ↦ .seq fun _ ↦ .seq fun _ ↦
    .ite (fun _ ↦ .seq fun _ ↦ hnone) fun _ ↦ .seq fun _ ↦ .seq fun _ ↦ ?_
  have hname := posixBytes_ne_nil name env.ci
  cases hbs : posixBytes name env.ci with
  | none => exact .seq fun _ ↦ .seq fun _ ↦ hnone
  | some bs => exact .pure (hbs ▸ hname)

/-- The loop leaves a set with bytes, unless it finds nothing at all. -/
theorem classLoop_nonempty (env : ParseEnv) (n : Nat) {first : Bool} {cls : ByteSet} {s : ParseState}
    (h : cls.empty = false ∨ (first = true ∧ s.rest ≠ [])) :
    Ensures (classLoop env n first cls) s fun cls' _ ↦ cls'.empty = false := by
  induction n generalizing first cls s with
  | zero => exact ensures_outOfFuel
  | succ n ih =>
      have hnext : ∀ cls : ByteSet, cls.empty = false →
          Yields (classLoop env n false cls) fun cls' ↦ cls'.empty = false := fun cls hcls s ↦
        ih (Or.inl hcls)
      have hposix : Yields (pure none) fun o : Option (List Byte) ↦ ∀ bs ∈ o, bs ≠ [] :=
        .pure (by simp)
      unfold classLoop
      refine ensures_bind.2 (ensures_atEnd.2 (ensures_bind.2 (ensures_peek.2 (ensures_ite.2
        ⟨fun hstop ↦ ensures_pure.2 ?_, fun _ ↦ ?_⟩))))
      · refine h.resolve_right fun hfirst ↦ ?_
        rw [hfirst.1, Bool.true_or, Bool.not_true, Bool.or_false, List.isEmpty_iff] at hstop
        exact hfirst.2 hstop
      · suffices hturn : Yields _ fun cls' : ByteSet ↦ cls'.empty = false from hturn s
        refine .seq fun _ ↦ .seq fun _ ↦ .ite (fun _ ↦ .bind (tryPosixClass_ne_nil env) ?_) fun _ ↦
          .bind hposix ?_
        all_goals
          intro o ho
          cases o with
          | some bs => exact hnext _ (ByteSet.empty_addAll (ho bs rfl))
          | none =>
              refine .seq fun a ↦ .seq fun _ ↦ .seq fun _ ↦ .seq fun _ ↦ .ite (fun _ ↦ ?_) fun _ ↦ ?_
              · refine .seq fun _ ↦ .seq fun b ↦ hnext _ (ByteSet.empty_eq_false_iff.2 ⟨a, ?_⟩)
                exact ByteSet.test_addRangeCi a b env.ci
              · refine hnext _ (ByteSet.empty_eq_false_iff.2 ⟨a, ?_⟩)
                exact ByteSet.test_addByteCi_self cls a env.ci

/-! ## What the calls account for -/

/-- Whatever returns without an error started without one, and its result is as asked for if and
only if what it started from was, and none of the calls negates all the bytes. -/
def Accounts {α : Type} (x : Parser α) (s : ParseState) (B : Prop) (calls : List ClassCall)
    (N : α → Prop) : Prop :=
  Ensures x s fun a s' ↦ Diag.ok s'.diags = true →
    Diag.ok s.diags = true ∧ (N a ↔ B ∧ ∀ c ∈ calls, c.negatesAll = false)

/-- The tree has no empty class. -/
def Solid (t : Node) : Prop := t.classesNonempty = true

theorem solid_cls {s : ByteSet} : Solid (.cls s) ↔ s.empty = false := by
  unfold Solid Node.classesNonempty Node.all
  rw [Bool.not_eq_true']

theorem not_ok_error (ds : List Diag) (loc : SourceLoc) (msg : String) :
    Diag.ok (ds ++ [⟨.error, loc, msg⟩]) = true ↔ False := by
  rw [Diag.ok_append]
  exact iff_false_intro fun h ↦ absurd h.2 (by simp [Diag.ok])

theorem parseClass_accounts (env : ParseEnv) (s : ParseState) :
    Accounts (parseClass env) s True [⟨env, s⟩] Solid := by
  intro t s' hrun hok
  refine ⟨KeepsErrors.parseClass env s t s' hrun hok, ?_⟩
  rw [List.forall_mem_singleton, true_and]
  have htail : s.rest.tail.getD 0 0 = s.rest.getD 1 0 := by cases s.rest <;> rfl
  have hdrop : s.rest.tail.tail = s.rest.drop 2 := by rw [← List.drop_one, ← List.drop_one, List.drop_drop]
  rw [parseClass, eval_bind_of (eval_skip s)] at hrun
  obtain ⟨neg, s₂, haccept, hrun⟩ := exists_of_eval_bind hrun
  rw [eval_bind_of (eval_remaining s₂)] at hrun
  obtain ⟨cls, s₃, hloop, hrun⟩ := exists_of_eval_bind hrun
  rw [eval_bind_of (eval_peek s₃), eval_ite] at hrun
  by_cases hclose : s₃.rest.getD 0 0 ≠ chr ']'
  · rw [if_pos hclose] at hrun
    obtain ⟨-, rfl⟩ := Prod.mk.inj (Option.some.inj hrun)
    exact absurd hok (fun h ↦ (not_ok_error _ _ _).1 h)
  rw [if_neg hclose, eval_bind_of (eval_skip s₃)] at hrun
  obtain ⟨rfl, -⟩ := Prod.mk.inj (Option.some.inj hrun)
  rw [eval_accept] at haccept
  simp only at haccept
  rw [htail, hdrop] at haccept
  unfold ClassCall.negatesAll
  split_ifs at haccept with hneg
  · obtain ⟨rfl, rfl⟩ := Prod.mk.inj (Option.some.inj haccept)
    simp only at hloop
    rw [decide_eq_true hneg, Bool.true_and]
    simp only [hloop]
    change Solid (.cls cls.inverse) ↔ _
    rw [solid_cls, ← Bool.not_eq_true, ByteSet.empty_inverse_iff, ← Bool.not_eq_true, List.all_eq_true]
    simp
  · obtain ⟨rfl, rfl⟩ := Prod.mk.inj (Option.some.inj haccept)
    rw [decide_eq_false hneg, Bool.false_and]
    refine iff_of_true (solid_cls.2 ?_) rfl
    refine classLoop_nonempty env _ (Or.inr ⟨rfl, fun hnil ↦ hclose ?_⟩) cls s₃ hloop
    simp only at hloop hnil
    rw [hnil] at hloop
    have hstay : classLoop env 1 true {} { s with rest := [] } = some ({}, { s with rest := [] }) := rfl
    obtain ⟨-, rfl⟩ := Prod.mk.inj (Option.some.inj (hstay.symm.trans hloop))
    change (0 : Byte) ≠ chr ']'
    decide

namespace Accounts

variable {α β : Type} {x : Parser α} {z : Parser β} {s : ParseState} {B : Prop} {N : α → Prop}
  {M : β → Prop} {calls calls' : List ClassCall}

theorem bind {f : β → Parser α} (hz : Accounts z s B calls M)
    (hf : ∀ b s', z s = some (b, s') → Accounts (f b) s' (M b) calls' N) :
    Accounts (z >>= f) s B (calls ++ calls') N := by
  intro a s'' hrun hok
  obtain ⟨b, s', hzrun, hfrun⟩ := exists_of_eval_bind hrun
  obtain ⟨hok', hN⟩ := hf b s' hzrun a s'' hfrun hok
  obtain ⟨hok₀, hM⟩ := hz b s' hzrun hok'
  refine ⟨hok₀, ?_⟩
  rw [hN, hM, List.forall_mem_append, and_assoc]

/-- A step without calls. -/
theorem step {f : β → Parser α} (hz : KeepsErrors z)
    (hf : ∀ b s', z s = some (b, s') → Accounts (f b) s' B calls N) :
    Accounts (z >>= f) s B calls N := by
  intro a s'' hrun hok
  obtain ⟨b, s', hzrun, hfrun⟩ := exists_of_eval_bind hrun
  obtain ⟨hok', hN⟩ := hf b s' hzrun a s'' hfrun hok
  exact ⟨hz s b s' hzrun hok', hN⟩

/-- The last step. -/
theorem last {f : β → Parser α} (hz : Accounts z s B calls M)
    (hf : ∀ b s', z s = some (b, s') → Accounts (f b) s' (M b) [] N) :
    Accounts (z >>= f) s B calls N := by
  rw [← List.append_nil calls]
  exact hz.bind hf

theorem pure {a : α} (h : N a ↔ B) : Accounts (pure a) s B [] N :=
  ensures_pure.2 fun hok ↦ ⟨hok, by rw [h]; simp⟩

theorem ite {c : Prop} [Decidable c] {y : Parser α} (hx : c → Accounts x s B calls N)
    (hy : ¬ c → Accounts y s B calls N) : Accounts (if c then x else y) s B calls N :=
  ensures_ite.2 ⟨fun h ↦ hx h, fun h ↦ hy h⟩

/-- An error is not accounted for. -/
theorem error {loc : SourceLoc} {msg : String} {a : α} :
    Accounts (do report ⟨.error, loc, msg⟩; Pure.pure a) s B calls N :=
  ensures_bind.2 (ensures_report.2 (ensures_pure.2 fun hok ↦
    absurd hok fun h ↦ (not_ok_error _ _ _).1 h))

theorem of_yields (hx : KeepsErrors x) (h : Yields x fun a ↦ N a ↔ B) : Accounts x s B [] N := by
  intro a s' hrun hok
  have hN : N a ↔ B := h s a s' hrun
  exact ⟨hx s a s' hrun hok, by rw [hN]; simp⟩

theorem none : Accounts (outOfFuel : Parser α) s B calls N := ensures_outOfFuel

end Accounts

/-- What is solid about a tree that may be missing. -/
def SolidAll (o : Option Node) : Prop := ∀ t ∈ o, Solid t

theorem solidAll_some {t : Node} : SolidAll (some t) ↔ Solid t := by simp [SolidAll]

theorem solidAll_none : SolidAll none ↔ True := by simp [SolidAll]

theorem solidAll_concat {o : Option Node} {t : Node} :
    SolidAll (some (concat o t)) ↔ SolidAll o ∧ Solid t := by
  rw [solidAll_some]
  cases o with
  | none => rw [solidAll_none, true_and]; rfl
  | some a =>
      rw [solidAll_some]
      simp [Solid, Node.classesNonempty, Node.all, concat]

theorem solid_star {p : Node} : Solid (.star p) ↔ Solid p := by
  simp [Solid, Node.classesNonempty, Node.all]

theorem solid_plus {p : Node} : Solid (.plus p) ↔ Solid p := by
  simp [Solid, Node.classesNonempty, Node.all]

theorem solid_question {p : Node} : Solid (.question p) ↔ Solid p := by
  simp [Solid, Node.classesNonempty, Node.all]

theorem solid_rep {lo hi : Nat} {p : Node} : Solid (.rep lo hi p) ↔ Solid p := by
  simp [Solid, Node.classesNonempty, Node.all]

theorem solid_alt {a b : Node} : Solid (.alt a b) ↔ Solid a ∧ Solid b := by
  simp [Solid, Node.classesNonempty, Node.all]

theorem solid_litNode (b : Byte) (ci : Bool) : Solid (litNode b ci) ↔ True := by
  rw [litNode, solid_cls, iff_true, ByteSet.empty_eq_false_iff]
  exact ⟨b, ByteSet.test_addByteCi_self _ b ci⟩

theorem solid_getD {o : Option Node} : Solid (o.getD .empty) ↔ SolidAll o := by
  cases o with
  | none => rw [solidAll_none]; exact iff_true_intro rfl
  | some t => rw [solidAll_some]; rfl

section Recursion

variable {rec : ParseEnv → Parser Node} {calls : ParseEnv → ParseState → List ClassCall}
  {env : ParseEnv}

theorem quotedLoop_solid (n : Nat) {acc : Option Node} (hacc : SolidAll acc) :
    Yields (quotedLoop env n acc) SolidAll := by
  induction n generalizing acc with
  | zero => exact .none
  | succ n ih =>
      unfold quotedLoop
      refine .seq fun _ ↦ .seq fun _ ↦ .ite (fun _ ↦ .pure hacc) fun _ ↦ .seq fun b ↦ ih ?_
      exact solidAll_concat.2 ⟨hacc, (solid_litNode b env.ci).2 trivial⟩

theorem parseQuoted_accounts {s : ParseState} : Accounts (parseQuoted env) s True [] Solid := by
  refine .of_yields (.parseQuoted env) ?_
  unfold parseQuoted
  refine .seq fun _ ↦ .seq fun n ↦ .bind (quotedLoop_solid (n + 1) (solidAll_none.2 trivial))
    fun acc hacc ↦ .seq fun _ ↦ .ite (fun _ ↦ .seq fun _ ↦ .pure ?_) fun _ ↦ .seq fun _ ↦ .pure ?_
  all_goals exact iff_true_intro (solid_getD.2 hacc)

variable (hrec : ∀ env s, Accounts (rec env) s True (calls env s) Solid)

include hrec

theorem parseMacro_accounts (s : ParseState) :
    Accounts (parseMacro rec env) s True (macroCalls calls env s) Solid := by
  unfold parseMacro macroCalls
  refine .step .save fun start s₁ h₁ ↦ .step .skip fun _ s₂ h₂ ↦ .step .remaining fun n s₃ h₃ ↦
    .step (.readWhile _ _) fun name s' hname ↦ ?_
  obtain ⟨rfl, rfl⟩ := Prod.mk.inj (Option.some.inj h₁)
  obtain ⟨-, rfl⟩ := Prod.mk.inj (Option.some.inj h₂)
  obtain ⟨rfl, rfl⟩ := Prod.mk.inj (Option.some.inj h₃)
  simp only at hname
  rw [hname]
  refine .step .peek fun c s₄ h₄ ↦ ?_
  obtain ⟨rfl, rfl⟩ := Prod.mk.inj (Option.some.inj h₄)
  simp only
  by_cases hopen : name = [] ∨ s'.rest.getD 0 0 ≠ chr '\x7d'
  · rw [if_pos hopen, if_pos hopen]
    exact .step (.restore _) fun _ _ _ ↦ .step .skip fun _ _ _ ↦ .pure (solid_litNode _ _)
  rw [if_neg hopen, if_neg hopen]
  refine .step .skip fun _ s₅ h₅ ↦ ?_
  by_cases hexp : name ∈ env.expanding
  · rw [if_pos hexp, if_pos hexp]
    exact .error
  rw [if_neg hexp, if_neg hexp]
  cases hm : env.macros name with
  | none => exact .error
  | some exp =>
      refine .step .save fun after s₆ h₆ ↦ .step (.restore _) fun _ s₇ h₇ ↦ ?_
      obtain ⟨-, rfl⟩ := Prod.mk.inj (Option.some.inj h₅)
      obtain ⟨rfl, rfl⟩ := Prod.mk.inj (Option.some.inj h₆)
      obtain ⟨-, rfl⟩ := Prod.mk.inj (Option.some.inj h₇)
      exact (hrec _ _).last fun inner _ _ ↦ .step (.restore _) fun _ _ _ ↦ .pure Iff.rfl

theorem parsePrimary_accounts (s : ParseState) :
    Accounts (parsePrimary rec env) s True (primaryCalls calls env s) SolidAll := by
  unfold parsePrimary primaryCalls
  refine .step .peek fun c s₁ h₁ ↦ ?_
  obtain ⟨rfl, rfl⟩ := Prod.mk.inj (Option.some.inj h₁)
  simp only
  by_cases hopen : s.rest.getD 0 0 = chr '('
  · rw [if_pos hopen, if_pos hopen]
    refine .step .skip fun _ s₂ h₂ ↦ ?_
    obtain ⟨-, rfl⟩ := Prod.mk.inj (Option.some.inj h₂)
    refine (hrec _ _).last fun inner _ _ ↦ .step .peek fun _ _ _ ↦ .ite (fun _ ↦ .error) fun _ ↦ ?_
    exact .step .skip fun _ _ _ ↦ .pure solidAll_some
  rw [if_neg hopen, if_neg hopen]
  by_cases hclass : s.rest.getD 0 0 = chr '['
  · rw [if_pos hclass, if_pos hclass]
    exact (parseClass_accounts env s).last fun _ _ _ ↦ .pure solidAll_some
  rw [if_neg hclass, if_neg hclass]
  by_cases hquote : s.rest.getD 0 0 = chr '"'
  · rw [if_pos hquote, if_neg (by rw [hquote]; decide)]
    exact parseQuoted_accounts.last fun _ _ _ ↦ .pure solidAll_some
  rw [if_neg hquote]
  by_cases hbrace : s.rest.getD 0 0 = chr '\x7b'
  · rw [if_pos hbrace, if_pos hbrace]
    exact (parseMacro_accounts hrec s).last fun _ _ _ ↦ .pure solidAll_some
  rw [if_neg hbrace, if_neg hbrace]
  refine .ite (fun _ ↦ ?_) fun _ ↦ .ite (fun _ ↦ ?_) fun _ ↦ .ite (fun _ ↦ .pure solidAll_none)
    fun _ ↦ .ite (fun _ ↦ .pure solidAll_none) fun _ ↦ ?_
  · refine .step .skip fun _ _ _ ↦ .pure (solidAll_some.trans (iff_true_intro ?_))
    exact solid_cls.2 (ByteSet.empty_addAll (by decide +kernel))
  · refine .step (.bind .readEscapeByte fun _ ↦ .pure _) fun t s₂ ht ↦ .pure ?_
    obtain ⟨b, s₃, -, hb⟩ := exists_of_eval_bind ht
    obtain ⟨rfl, -⟩ := Prod.mk.inj (Option.some.inj hb)
    exact solidAll_some.trans (solid_litNode b env.ci)
  · exact .step .skip fun _ _ _ ↦ .pure (solidAll_some.trans (solid_litNode _ _))

theorem parsePostfix_accounts (s : ParseState) :
    Accounts (parsePostfix rec env) s True (primaryCalls calls env s) SolidAll := by
  unfold parsePostfix
  refine (parsePrimary_accounts hrec s).last fun o s₁ _ ↦ ?_
  cases o with
  | none => exact .pure Iff.rfl
  | some p =>
      refine .step .peek fun c _ _ ↦ .ite (fun _ ↦ ?_) fun _ ↦ .ite (fun _ ↦ ?_) fun _ ↦
        .ite (fun _ ↦ ?_) fun _ ↦ .step (.peekAt 1) fun _ s₂ _ ↦ .ite (fun _ ↦ ?_) fun _ ↦ .pure Iff.rfl
      · exact .step .skip fun _ _ _ ↦ .pure (solidAll_some.trans (solid_star.trans solidAll_some.symm))
      · exact .step .skip fun _ _ _ ↦ .pure (solidAll_some.trans (solid_plus.trans solidAll_some.symm))
      · exact .step .skip fun _ _ _ ↦ .pure (solidAll_some.trans (solid_question.trans solidAll_some.symm))
      · refine (Accounts.of_yields (.parseRepeat p) ?_).last fun t _ _ ↦ .pure solidAll_some
        unfold parseRepeat
        refine .seq fun _ ↦ .seq fun _ ↦ .seq fun _ ↦ .seq fun _ ↦
          .ite (fun _ ↦ .seq fun _ ↦ .pure solidAll_some.symm) fun _ ↦ .seq fun _ ↦ .seq fun _ ↦
          .ite (fun _ ↦ .seq fun _ ↦ .pure solidAll_some.symm) fun _ ↦ .seq fun _ ↦ .pure ?_
        exact solid_rep.trans solidAll_some.symm

theorem concatLoop_accounts (n : Nat) (acc : Option Node) (s : ParseState) :
    Accounts (concatLoop rec env n acc) s (SolidAll acc) (concatCalls rec calls env n s)
      SolidAll := by
  induction n generalizing acc s with
  | zero => exact .none
  | succ n ih =>
      unfold concatLoop concatCalls
      refine .step .atEnd fun e s₁ h₁ ↦ .step .peek fun c s₂ h₂ ↦ ?_
      obtain ⟨rfl, rfl⟩ := Prod.mk.inj (Option.some.inj h₁)
      obtain ⟨rfl, rfl⟩ := Prod.mk.inj (Option.some.inj h₂)
      by_cases hstop : (s.rest.isEmpty || isConcatTerminator (s.rest.getD 0 0)) = true
      · rw [if_pos hstop, if_pos hstop]
        exact .pure Iff.rfl
      rw [if_neg hstop, if_neg hstop]
      have hpost : Accounts (parsePostfix rec env) s (SolidAll acc) (primaryCalls calls env s)
          fun o ↦ SolidAll acc ∧ SolidAll o := by
        intro o s' hrun hok
        obtain ⟨hok', hN⟩ := parsePostfix_accounts hrec s o s' hrun hok
        exact ⟨hok', and_congr_right fun _ ↦ hN.trans (iff_of_eq (true_and _))⟩
      refine hpost.bind fun o s₃ h₃ ↦ ?_
      rw [h₃]
      cases o with
      | none => exact .pure (by rw [solidAll_none, and_true])
      | some p =>
          have hrest := ih (some (concat acc p)) s₃
          rwa [solidAll_concat, ← solidAll_some] at hrest

theorem parseConcat_accounts (s : ParseState) : Accounts (parseConcat rec env) s True
    (concatCalls rec calls env (s.rest.length + 1) s) Solid := by
  unfold parseConcat
  refine .step .remaining fun n s₁ h₁ ↦ ?_
  obtain ⟨rfl, rfl⟩ := Prod.mk.inj (Option.some.inj h₁)
  have hloop : Accounts (concatLoop rec env (s.rest.length + 1) none) s (SolidAll none)
      (concatCalls rec calls env (s.rest.length + 1) s) SolidAll :=
    concatLoop_accounts hrec (s.rest.length + 1) none s
  rw [solidAll_none] at hloop
  exact hloop.last fun o _ _ ↦ .pure solid_getD

theorem altLoop_accounts (n : Nat) (l : Node) (s : ParseState) :
    Accounts (altLoop rec env n l) s (Solid l) (altCalls rec calls env n s) Solid := by
  induction n generalizing l s with
  | zero => exact .none
  | succ n ih =>
      unfold altLoop altCalls
      refine .step .peek fun c s₁ h₁ ↦ ?_
      obtain ⟨rfl, rfl⟩ := Prod.mk.inj (Option.some.inj h₁)
      by_cases hstop : s.rest.getD 0 0 ≠ chr '|'
      · rw [if_pos hstop, if_pos hstop]
        exact .pure Iff.rfl
      rw [if_neg hstop, if_neg hstop]
      refine .step .skip fun _ s₂ h₂ ↦ ?_
      obtain ⟨-, rfl⟩ := Prod.mk.inj (Option.some.inj h₂)
      have hconcat : Accounts (parseConcat rec env) { s with rest := s.rest.tail } (Solid l)
          (concatCalls rec calls env (s.rest.tail.length + 1) { s with rest := s.rest.tail })
          fun r ↦ Solid l ∧ Solid r := by
        intro r s' hrun hok
        obtain ⟨hok', hN⟩ := parseConcat_accounts hrec _ r s' hrun hok
        exact ⟨hok', and_congr_right fun _ ↦ hN.trans (iff_of_eq (true_and _))⟩
      refine hconcat.bind fun r s₃ h₃ ↦ ?_
      rw [h₃]
      have hrest := ih (.alt l r) s₃
      rwa [solid_alt] at hrest

end Recursion

theorem parseAlt_accounts (fuel : Nat) (env : ParseEnv) (s : ParseState) :
    Accounts (parseAlt fuel env) s True (parseAltCalls fuel env s) Solid := by
  induction fuel generalizing env s with
  | zero => exact .none
  | succ fuel ih =>
      unfold parseAlt parseAltCalls
      refine (parseConcat_accounts ih s).bind fun l s₁ h₁ ↦ ?_
      rw [h₁]
      refine .step .remaining fun n s₂ h₂ ↦ ?_
      obtain ⟨rfl, rfl⟩ := Prod.mk.inj (Option.some.inj h₂)
      exact altLoop_accounts ih (s₁.rest.length + 1) l s₁

end Parser

theorem Node.classesNonempty_withBol (bol : Bool) (t : Node) :
    (t.withBol bol).classesNonempty = t.classesNonempty := by
  cases bol <;> simp [withBol, classesNonempty, all]

theorem Node.classesNonempty_withEol (eol : Bool) (t : Node) :
    (t.withEol eol).classesNonempty = t.classesNonempty := by
  cases eol <;> simp [withEol, classesNonempty, all]

/-- **Empty classes come from negations of all the bytes.** -/
theorem parseRegex_classesNonempty_iff {fuel : Nat} {env : ParseEnv} {src : List Byte} {t : Node}
    {diags : List Diag} (h : parseRegex fuel env src = some (some t, diags))
    (hok : Diag.ok diags = true) :
    t.classesNonempty = true ↔ ∀ c ∈ classCalls fuel env src, c.negatesAll = false := by
  obtain ⟨⟨o, s'⟩, hrun, heq⟩ := Option.map_eq_some_iff.1 h
  obtain ⟨rfl, rfl⟩ := Prod.mk.inj heq
  have htop : Parser.Accounts (Parser.parseTop fuel env) { rest := src } True
      (classCalls fuel env src) Parser.SolidAll := by
    unfold Parser.parseTop classCalls
    refine .step (.accept '^') fun bol s₁ h₁ ↦ ?_
    have hs₁ : s₁ = { rest := if src.getD 0 0 = chr '^' then src.tail else src } := by
      rw [Parser.eval_accept] at h₁
      split_ifs at h₁ ⊢
      · exact (Prod.mk.inj (Option.some.inj h₁)).2.symm
      · exact (Prod.mk.inj (Option.some.inj h₁)).2.symm
    subst hs₁
    refine (Parser.parseAlt_accounts fuel env _).last fun body s₂ _ ↦ .step (.accept '$')
      fun eol s₃ _ ↦ .step .atEnd fun _ s₄ _ ↦ .ite (fun _ ↦ ?_) fun _ ↦ .pure ?_
    · exact .step .peek fun _ _ _ ↦ .error
    · rw [Parser.solidAll_some]
      change (Node.withBol bol (Node.withEol eol body)).classesNonempty = true ↔
        body.classesNonempty = true
      rw [Node.classesNonempty_withBol, Node.classesNonempty_withEol]
  have hN := (htop _ _ hrun hok).2
  rwa [Parser.solidAll_some, true_and] at hN

/-! ## What a class consumes -/

theorem Node.classesNonempty_iff (t : Node) :
    t.classesNonempty = true ↔ ∀ s ∈ t.classes, s.empty = false := by
  unfold classesNonempty
  induction t with
  | cls s => simp [all, classes]
  | concat a b iha ihb | alt a b iha ihb =>
      simp only [all, classes, Bool.and_eq_true, Bool.true_and, iha, ihb, List.forall_mem_append]
  | star a ih | plus a ih | question a ih | rep lo hi a ih =>
      simp only [all, classes, Bool.true_and, ih]
  | empty | anchorBOL | anchorEOL | trailBoundary => simp [all, classes]

/-- The fragment of a class reads its one-byte strings, unless there are none: then it reads
nothing, and nothing else. -/
theorem compile_cls_iff (s : ByteSet) (nfa : NFA) :
    (∀ w, w ∈ (NFA.compile (.cls s) nfa).2.auto.between (NFA.compile (.cls s) nfa).1.s
        (NFA.compile (.cls s) nfa).1.e ↔ ∃ b, s.test b = true ∧ w = [b]) ↔ s.empty = false := by
  rw [(NFA.compile_compiles (.cls s) nfa).between_exit]
  constructor
  · intro h
    refine Bool.eq_false_iff.2 fun hs ↦ ?_
    have hnil : [] ∈ (Node.cls s).reads := by
      change [] ∈ s.edgeLang
      rw [ByteSet.edgeLang, if_pos hs]
      exact Language.nil_mem_one
    obtain ⟨b, -, hb⟩ := (h []).1 hnil
    exact absurd hb (List.cons_ne_nil b []).symm
  · intro hs w
    change w ∈ s.edgeLang ↔ _
    rw [ByteSet.edgeLang_of_nonempty hs, ByteSet.mem_lang]

/-- **A class consumes one byte** unless it is empty.  All the classes of a pattern that is read
without an error are compiled into fragments that read exactly their one-byte strings, if and only
if no negated bracket expression in the pattern, or in a macro it expands, lists every byte. -/
theorem classes_consume_one_iff {fuel : Nat} {env : ParseEnv} {src : List Byte} {t : Node}
    {diags : List Diag} (h : parseRegex fuel env src = some (some t, diags))
    (hok : Diag.ok diags = true) :
    (∀ s ∈ t.classes, ∀ nfa : NFA, ∀ w,
      w ∈ (NFA.compile (.cls s) nfa).2.auto.between (NFA.compile (.cls s) nfa).1.s
        (NFA.compile (.cls s) nfa).1.e ↔ ∃ b, s.test b = true ∧ w = [b]) ↔
    ∀ c ∈ classCalls fuel env src, c.negatesAll = false := by
  rw [← parseRegex_classesNonempty_iff h hok, Node.classesNonempty_iff]
  refine forall₂_congr fun s _ ↦ ⟨fun hs ↦ ?_, fun hs nfa ↦ (compile_cls_iff s nfa).2 hs⟩
  exact (compile_cls_iff s {}).1 (hs {})

/-- `[^a]` is compiled into a fragment that reads every byte but `a`. -/
theorem classes_consume_one_negated :
    ∃ t diags, parseRegex 1 { macros := fun _ ↦ none } [91, 94, 97, 93] = some (some t, diags) ∧
      ∀ s ∈ t.classes, ∀ nfa : NFA, ∀ w,
        w ∈ (NFA.compile (.cls s) nfa).2.auto.between (NFA.compile (.cls s) nfa).1.s
          (NFA.compile (.cls s) nfa).1.e ↔ ∃ b, s.test b = true ∧ w = [b] := by
  have hrun : parseRegex 1 { macros := fun _ ↦ none } [91, 94, 97, 93] =
      some (some (.cls (ByteSet.addAll {} ((List.finRange 256).filter fun b ↦ b ≠ 97))), []) := by
    decide +kernel
  refine ⟨_, _, hrun, (classes_consume_one_iff hrun rfl).2 ?_⟩
  decide +kernel

/-- `[^\x00-\xff]`, read without an error, has a class whose fragment reads nothing at all. -/
theorem empty_class_reads_nothing :
    parseRegex 1 { macros := fun _ ↦ none } [91, 94, 92, 120, 48, 48, 45, 92, 120, 102, 102, 93] =
        some (some (.cls {}), []) ∧
      ¬ ∀ s ∈ (Node.cls {}).classes, ∀ nfa : NFA, ∀ w,
        w ∈ (NFA.compile (.cls s) nfa).2.auto.between (NFA.compile (.cls s) nfa).1.s
          (NFA.compile (.cls s) nfa).1.e ↔ ∃ b, s.test b = true ∧ w = [b] := by
  refine ⟨by decide +kernel, fun h ↦ ?_⟩
  have hcls := (compile_cls_iff {} {}).1 (h {} List.mem_cons_self {})
  exact absurd hcls (by decide)

end LexCpp
