import LexCpp.Regex.Local
import LexCpp.Regex.Pattern

/-!
# One parser after another

A parser *follows* another if on a text of its own it gives the same result and reports the same.
The texts are the same but for the references to macros, in whose place there may be a group.
What holds of groups and of references holds of the whole of `parse_alt`: its text is put together
from theirs and from the bytes that it takes in between.
-/

namespace LexCpp

namespace Parser

variable {α β : Type}

/-- The bytes that a method takes. -/
def taken (x : Parser α) (s : ParseState) : List Byte :=
  match x s with
  | some (_, s') => s.rest.take (s.rest.length - s'.rest.length)
  | none => []

/-- On `w`, `y` does what `x` does from `s`, whatever comes after that looks the same.  If `raw`, then
`w` is what `x` takes; unless `strict`, nothing is said where `x` reports an error. -/
def Follows (raw strict : Prop) (x : Parser α) (y : Nat → Parser α) (s : ParseState) (w : List Byte) :
    Prop :=
  ∀ a s', x s = some (a, s') → ∃ ws, s'.diags = s.diags ++ ws ∧ (raw → s.rest = w ++ s'.rest) ∧
    (strict ∨ Diag.ok ws = true → ∀ k, Agree s'.rest k → Agree s.rest (w ++ k) ∧
      ∀ m d, (w ++ k).length < m → y m ⟨w ++ k, d⟩ = some (a, ⟨k, d ++ ws⟩))

theorem taken_eq {x : Parser α} {s s' : ParseState} {a : α} {u : List Byte} (h : x s = some (a, s'))
    (hu : s.rest = u ++ s'.rest) : taken x s = u := by
  rw [taken, h, hu, List.length_append]
  simp

namespace Follows

variable {raw strict : Prop} {x : Parser α} {y : Nat → Parser α} {s : ParseState} {w : List Byte}

theorem of_local (h : LocalAt x y s) : Follows raw strict x y s (taken x s) := by
  intro a s' hrun
  obtain ⟨u, ws, hu, hws, hk⟩ := h a s' hrun
  rw [taken_eq hrun hu]
  exact ⟨ws, hws, fun _ ↦ hu, fun _ k hagree ↦ ⟨hu ▸ hagree.append u, hk k hagree⟩⟩

theorem local_of_raw (h : Follows True True x y s w) : LocalAt x y s := by
  intro a s' hrun
  obtain ⟨ws, hws, hraw, hk⟩ := h a s' hrun
  exact ⟨w, ws, hraw trivial, hws, fun k hagree ↦ (hk (Or.inl trivial) k hagree).2⟩

theorem congr {w' : List Byte} (h : Follows raw strict x y s w) (hw : w = w') :
    Follows raw strict x y s w' := hw ▸ h

theorem none : Follows raw strict (outOfFuel : Parser α) y s w :=
  fun _ _ h ↦ absurd h (Option.some_ne_none _).symm

theorem pure (a : α) : Follows raw strict (pure a) (fun _ ↦ pure a) s [] := by
  intro a' s' h
  obtain ⟨rfl, rfl⟩ := Prod.mk.inj (Option.some.inj h)
  refine ⟨[], (List.append_nil _).symm, fun _ ↦ rfl, fun _ k hagree ↦ ⟨hagree, fun m d _ ↦ ?_⟩⟩
  rw [List.append_nil]
  rfl

theorem bind {z : Parser β} {v : Nat → Parser β} {f : β → Parser α} {g : Nat → β → Parser α}
    {w' : List Byte} (hz : Follows raw strict z v s w)
    (hf : ∀ b s', z s = some (b, s') → Follows raw strict (f b) (fun m ↦ g m b) s' w') :
    Follows raw strict (z >>= f) (fun m ↦ v m >>= g m) s (w ++ w') := by
  intro a s' h
  obtain ⟨b, s₁, h₁, h₂⟩ := exists_of_eval_bind h
  obtain ⟨ws₁, hws₁, hraw₁, hk₁⟩ := hz b s₁ h₁
  obtain ⟨ws₂, hws₂, hraw₂, hk₂⟩ := hf b s₁ h₁ a s' h₂
  refine ⟨ws₁ ++ ws₂, ?_, fun hraw ↦ ?_, fun hok k hagree ↦ ?_⟩
  · rw [hws₂, hws₁, List.append_assoc]
  · rw [hraw₁ hraw, hraw₂ hraw, List.append_assoc]
  · have hok₁ : strict ∨ Diag.ok ws₁ = true := hok.imp_right fun h ↦ (Diag.ok_append.1 h).1
    have hok₂ : strict ∨ Diag.ok ws₂ = true := hok.imp_right fun h ↦ (Diag.ok_append.1 h).2
    obtain ⟨hagree₂, heval₂⟩ := hk₂ hok₂ k hagree
    obtain ⟨hagree₁, heval₁⟩ := hk₁ hok₁ (w' ++ k) hagree₂
    rw [List.append_assoc]
    refine ⟨hagree₁, fun m d hm ↦ ?_⟩
    change (v m >>= g m) _ = _
    rw [eval_bind_of (heval₁ m d hm), ← List.append_assoc d]
    exact heval₂ m (d ++ ws₁) (lt_of_le_of_lt (List.suffix_append w _).length_le hm)

/-- A turn of a loop, which takes something. -/
theorem turn {z v : Parser β} {f : β → Parser α} {g : Nat → β → Parser α} {w' : List Byte}
    (hz : Follows raw strict z (fun _ ↦ v) s w)
    (hne : ∀ b s' ws, z s = some (b, s') → s'.diags = s.diags ++ ws → strict ∨ Diag.ok ws = true → w ≠ [])
    (hf : ∀ b s', z s = some (b, s') → Follows raw strict (f b) (fun m ↦ g m b) s' w') :
    Follows raw strict (z >>= f) (fun m ↦ v >>= g (m - 1)) s (w ++ w') := by
  intro a s' h
  obtain ⟨b, s₁, h₁, h₂⟩ := exists_of_eval_bind h
  obtain ⟨ws₁, hws₁, hraw₁, hk₁⟩ := hz b s₁ h₁
  obtain ⟨ws₂, hws₂, hraw₂, hk₂⟩ := hf b s₁ h₁ a s' h₂
  refine ⟨ws₁ ++ ws₂, ?_, fun hraw ↦ ?_, fun hok k hagree ↦ ?_⟩
  · rw [hws₂, hws₁, List.append_assoc]
  · rw [hraw₁ hraw, hraw₂ hraw, List.append_assoc]
  · have hok₁ : strict ∨ Diag.ok ws₁ = true := hok.imp_right fun h ↦ (Diag.ok_append.1 h).1
    have hok₂ : strict ∨ Diag.ok ws₂ = true := hok.imp_right fun h ↦ (Diag.ok_append.1 h).2
    obtain ⟨hagree₂, heval₂⟩ := hk₂ hok₂ k hagree
    obtain ⟨hagree₁, heval₁⟩ := hk₁ hok₁ (w' ++ k) hagree₂
    rw [List.append_assoc]
    refine ⟨hagree₁, fun m d hm ↦ ?_⟩
    have hpos := List.length_pos_of_ne_nil (hne b s₁ ws₁ h₁ hws₁ hok₁)
    rw [List.length_append] at hm
    obtain ⟨m, rfl⟩ := Nat.exists_eq_add_one_of_ne_zero (Nat.ne_zero_of_lt hm)
    change (v >>= g m) _ = _
    rw [eval_bind_of (heval₁ _ d (Nat.lt_succ_self _)), ← List.append_assoc d]
    exact heval₂ m (d ++ ws₁) (by omega)

/-- A test of the text ahead that texts which look the same pass alike. -/
theorem look {x' : Parser α} {y' : Nat → Parser α} {z : Parser α} {v : Nat → Parser α}
    {c : List Byte → Prop} [DecidablePred c] (hc : ∀ r k, Agree r k → (c k ↔ c r))
    (hx : c s.rest → Follows raw strict x y s w) (hx' : ¬ c s.rest → Follows raw strict x' y' s w)
    (hz : z s = if c s.rest then x s else x' s)
    (hv : ∀ m s, v (m + 1) s = if c s.rest then y (m + 1) s else y' (m + 1) s) :
    Follows raw strict z v s w := by
  intro a s' h
  rw [hz] at h
  by_cases hs : c s.rest
  · rw [if_pos hs] at h
    obtain ⟨ws, hws, hraw, hk⟩ := hx hs a s' h
    refine ⟨ws, hws, hraw, fun hok k hagree ↦ ?_⟩
    obtain ⟨hagree', heval⟩ := hk hok k hagree
    refine ⟨hagree', fun m d hm ↦ ?_⟩
    obtain ⟨m, rfl⟩ := Nat.exists_eq_add_one_of_ne_zero (Nat.ne_zero_of_lt hm)
    rw [hv, if_pos ((hc _ _ hagree').2 hs)]
    exact heval _ d hm
  · rw [if_neg hs] at h
    obtain ⟨ws, hws, hraw, hk⟩ := hx' hs a s' h
    refine ⟨ws, hws, hraw, fun hok k hagree ↦ ?_⟩
    obtain ⟨hagree', heval⟩ := hk hok k hagree
    refine ⟨hagree', fun m d hm ↦ ?_⟩
    obtain ⟨m, rfl⟩ := Nat.exists_eq_add_one_of_ne_zero (Nat.ne_zero_of_lt hm)
    rw [hv, if_neg fun hs' ↦ hs ((hc _ _ hagree').1 hs')]
    exact heval _ d hm

/-- Nothing is taken, because of what is ahead. -/
theorem stay {a : α} {c : List Byte → Prop} (hc : ∀ r k, Agree r k → (c k ↔ c r)) (hs : c s.rest)
    (hx : x s = some (a, s)) (hy : ∀ m s, c s.rest → y (m + 1) s = some (a, s)) :
    Follows raw strict x y s [] := by
  intro a' s' h
  obtain ⟨rfl, rfl⟩ := Prod.mk.inj (Option.some.inj (hx.symm.trans h))
  refine ⟨[], (List.append_nil _).symm, fun _ ↦ rfl, fun _ k hagree ↦ ⟨hagree, fun m d hm ↦ ?_⟩⟩
  obtain ⟨m, rfl⟩ := Nat.exists_eq_add_one_of_ne_zero (Nat.ne_zero_of_lt hm)
  rw [List.append_nil]
  exact hy m _ ((hc _ _ hagree).2 hs)

/-- Past a byte that both take. -/
theorem cons {x' : Parser α} {y' : Nat → Parser α} {b : Byte} {r : List Byte} {d : List Diag}
    (h : Follows raw strict x' y' ⟨r, d⟩ w) (hx : x ⟨b :: r, d⟩ = x' ⟨r, d⟩)
    (hy : ∀ m r d, y m ⟨b :: r, d⟩ = y' m ⟨r, d⟩) : Follows raw strict x y ⟨b :: r, d⟩ (b :: w) := by
  intro a s' hrun
  obtain ⟨ws, hws, hraw, hk⟩ := h a s' (hx.symm.trans hrun)
  refine ⟨ws, hws, fun hr ↦ congrArg (b :: ·) (hraw hr), fun hok k hagree ↦ ?_⟩
  obtain ⟨hagree', heval⟩ := hk hok k hagree
  refine ⟨hagree'.cons b, fun m d hm ↦ ?_⟩
  rw [List.cons_append, hy]
  exact heval m d (Nat.lt_of_succ_lt hm)

/-- A loop with as many turns as there are bytes, and one more. -/
theorem loop {X Y : Nat → Parser α} (hX : Follows raw strict (X (s.rest.length + 1)) Y s w) :
    Follows raw strict (remaining >>= fun n ↦ X (n + 1)) (fun _ ↦ remaining >>= fun n ↦ Y (n + 1)) s w := by
  intro a s' h
  obtain ⟨ws, hws, hraw, hk⟩ := hX a s' h
  refine ⟨ws, hws, hraw, fun hok k hagree ↦ ?_⟩
  obtain ⟨hagree', heval⟩ := hk hok k hagree
  exact ⟨hagree', fun _ d _ ↦ heval _ d (Nat.lt_succ_self _)⟩

end Follows

/-! ## The mode of a parser -/

/-- Environments that differ in their macros at most. -/
structure SameMode (env env' : ParseEnv) : Prop where
  ci : env'.ci = env.ci
  loc : env'.loc = env.loc

namespace SameMode

variable {env env' : ParseEnv} (h : SameMode env env')
include h

theorem classItem_eq (cls : ByteSet) : classItem env' cls = classItem env cls := by
  unfold classItem byteItem tryPosixClass
  rw [h.ci, h.loc]

theorem classLoop_eq (n : Nat) (first : Bool) (cls : ByteSet) :
    classLoop env' n first cls = classLoop env n first cls := by
  induction n generalizing first cls with
  | zero => rfl
  | succ n ih =>
      funext s
      have hnext : classLoop env' n false = classLoop env n false := funext fun cls ↦ ih false cls
      rw [classLoop_succ, classLoop_succ, h.classItem_eq, hnext]

theorem parseClass_eq : parseClass env' = parseClass env := by
  unfold parseClass
  simp only [h.classLoop_eq, h.loc]

theorem quotedLoop_eq (n : Nat) (acc : Option Node) : quotedLoop env' n acc = quotedLoop env n acc := by
  induction n generalizing acc with
  | zero => rfl
  | succ n ih =>
      unfold quotedLoop
      simp only [h.ci, ih]

theorem parseQuoted_eq : parseQuoted env' = parseQuoted env := by
  unfold parseQuoted
  simp only [h.quotedLoop_eq, h.loc]

theorem parseEscapeAtom_eq : parseEscapeAtom env' = parseEscapeAtom env := by
  unfold parseEscapeAtom
  rw [h.ci]

end SameMode

/-! ## Texts -/

/-- The end of a group. -/
def closeGroup (env : ParseEnv) (inner : Node) : Parser (Option Node) := do
  if (← peek) ≠ chr ')' then
    report ⟨.error, env.loc, "unmatched '(' in regex"⟩
    return none
  skip
  return some inner

section Texts

variable (rec : ParseEnv → Parser Node) (env : ParseEnv) (groupText : ParseState → List Byte)
  (referenceText : List Byte → List Byte)

/-- The text for what `parse_macro` takes: that for the reference, or the brace. -/
def macroText (s : ParseState) : List Byte :=
  match readWhile isNameByte s.rest.tail.length { s with rest := s.rest.tail } with
  | some (name, s') => if name = [] ∨ s'.rest.getD 0 0 ≠ chr '}' then [chr '{'] else referenceText name
  | none => []

/-- The text for what `parse_primary` takes. -/
def primaryText (s : ParseState) : List Byte :=
  if s.rest.getD 0 0 = chr '(' then
    chr '(' :: (groupText { s with rest := s.rest.tail } ++
      match rec env { s with rest := s.rest.tail } with
      | some (inner, s') => taken (closeGroup env inner) s'
      | none => [])
  else if s.rest.getD 0 0 = chr '{' then macroText referenceText s
  else taken (parsePrimary rec env) s

def postfixText (s : ParseState) : List Byte :=
  primaryText rec env groupText referenceText s ++
    match parsePrimary rec env s with
    | some (some p, s') => taken (parseOperator p) s'
    | _ => []

def concatText : Nat → ParseState → List Byte
  | 0, _ => []
  | n + 1, s =>
      if s.rest.isEmpty || isConcatTerminator (s.rest.getD 0 0) then []
      else
        postfixText rec env groupText referenceText s ++
          match parsePostfix rec env s with
          | some (some _, s') => concatText n s'
          | _ => []

def altText : Nat → ParseState → List Byte
  | 0, _ => []
  | n + 1, s =>
      if s.rest.getD 0 0 ≠ chr '|' then []
      else
        chr '|' :: (concatText rec env groupText referenceText (s.rest.tail.length + 1)
            { s with rest := s.rest.tail } ++
          match parseConcat rec env { s with rest := s.rest.tail } with
          | some (_, s') => altText n s'
          | none => [])

/-- The text for what `parse_alt` takes, one level of groups and references further out. -/
def parseAltTextStep (s : ParseState) : List Byte :=
  concatText rec env groupText referenceText (s.rest.length + 1) s ++
    match parseConcat rec env s with
    | some (_, s') => altText rec env groupText referenceText (s'.rest.length + 1) s'
    | none => []

end Texts

theorem closeGroup_local (env : ParseEnv) (inner : Node) :
    Local (closeGroup env inner) fun _ ↦ closeGroup env inner := by
  refine Local.peek_ite (p := fun c ↦ c ≠ chr ')') (by decide) ?_ ?_
  · exact (Local.report _).bind fun _ ↦ .pure _
  · exact Local.skip.bind fun _ ↦ .pure _

theorem eval_parsePrimary_open (rec : ParseEnv → Parser Node) (env : ParseEnv) (r : List Byte)
    (d : List Diag) : parsePrimary rec env ⟨chr '(' :: r, d⟩ = (rec env >>= closeGroup env) ⟨r, d⟩ := by
  rw [parsePrimary, eval_bind_of (eval_peek _)]
  refine (congrFun (if_pos rfl) _).trans ?_
  rw [eval_bind_of (eval_skip _)]
  rfl

theorem eval_parsePrimary_brace (rec : ParseEnv → Parser Node) (env : ParseEnv) (r : List Byte)
    (d : List Diag) : parsePrimary rec env ⟨chr '{' :: r, d⟩ =
      (do return some (← parseMacro rec env) : Parser (Option Node)) ⟨chr '{' :: r, d⟩ := by
  rw [parsePrimary, eval_bind_of (eval_peek _)]
  rfl

theorem macroText_reference {referenceText : List Byte → List Byte} {name r k : List Byte} {d : List Diag}
    (h : Reference name r k) : macroText referenceText ⟨chr '{' :: r, d⟩ = referenceText name := by
  have hread : readWhile isNameByte r.length ⟨r, d⟩ = some (name, ⟨chr '}' :: k, d⟩) :=
    eval_readName h le_rfl
  have hgo : ¬ (name = [] ∨ (chr '}' :: k).getD 0 0 ≠ chr '}') := not_or.2 ⟨h.ne_nil, not_not.2 rfl⟩
  unfold macroText
  simp only [List.tail_cons, hread]
  exact if_neg hgo

theorem macroText_literal {referenceText : List Byte → List Byte} {r : List Byte} {d : List Diag}
    (h : ∀ name k, ¬ Reference name r k) : macroText referenceText ⟨chr '{' :: r, d⟩ = [chr '{'] := by
  have hread : readWhile isNameByte r.length ⟨r, d⟩ =
      some (r.takeWhile isNameByte, ⟨r.dropWhile isNameByte, d⟩) := eval_readWhile_all isNameByte le_rfl
  unfold macroText
  simp only [List.tail_cons, hread]
  exact if_pos (stops_of_literal h)

/-! ## The functions that call each other -/

section Recursion

variable {raw strict : Prop} {rec rec' : ParseEnv → Parser Node} {env env' : ParseEnv}
  {groupText : ParseState → List Byte} {referenceText : List Byte → List Byte}

/-- What a reference does, its text does in place of it. -/
def FollowsReference (raw strict : Prop) (rec rec' : ParseEnv → Parser Node) (env env' : ParseEnv)
    (name w : List Byte) : Prop :=
  ∀ k d a s', expandMacro rec env name ⟨k, d⟩ = some (a, s') → ∃ ws, s' = ⟨k, d ++ ws⟩ ∧
    (raw → w = chr '{' :: (name ++ [chr '}'])) ∧ (strict ∨ Diag.ok ws = true →
      (w = chr '{' :: (name ++ [chr '}']) ∨ ∃ v, w = chr '(' :: v) ∧
      ∀ k d, parsePrimary rec' env' ⟨w ++ k, d⟩ = some (some a, ⟨k, d ++ ws⟩))

theorem isOpenByte_of_isNameByte {b : Byte} (hb : isNameByte b = true) : isOpenByte b = true := by
  revert b
  decide +kernel

theorem parsePrimary_leaf (hmode : SameMode env env') {s : ParseState} (hopen : s.rest.getD 0 0 ≠ chr '(')
    (hbrace : s.rest.getD 0 0 ≠ chr '{') :
    LocalAt (parsePrimary rec env) (fun _ ↦ parsePrimary rec' env') s := by
  have hsome : ∀ {x : Parser Node}, Local x (fun _ ↦ x) →
      Local (do return some (← x)) fun _ ↦ (do return some (← x) : Parser (Option Node)) := fun hx ↦
    hx.bind fun t ↦ .pure (some t)
  have hskip : ∀ t : Node, Local (do skip; return some t) fun _ ↦ (do skip; return some t) := fun t ↦
    Local.skip.bind fun _ ↦ .pure (some t)
  refine LocalAt.peek hbrace (Local.ite (fun h ↦ absurd h hopen) (fun _ ↦ ?_) s)
  refine Local.ite (fun _ ↦ ?_) fun _ ↦ Local.ite (fun _ ↦ ?_) fun _ ↦
    Local.ite (fun h ↦ absurd h hbrace) fun _ ↦ Local.ite (fun _ ↦ hskip _) fun _ ↦
    Local.ite (fun _ ↦ ?_) fun _ ↦ Local.ite (fun _ ↦ .pure none) fun _ ↦
    Local.ite (fun _ ↦ .pure none) fun _ ↦ ?_
  · rw [hmode.parseClass_eq]
    exact hsome (parseClass_local env)
  · rw [hmode.parseQuoted_eq]
    exact hsome (parseQuoted_local env)
  · rw [hmode.parseEscapeAtom_eq]
    exact hsome (parseEscapeAtom_local env)
  · rw [hmode.ci]
    exact hskip _

/-- Where the parts of a concatenation end. -/
def concatStops (r : List Byte) : Bool := r.isEmpty || isConcatTerminator (r.getD 0 0)

theorem concatStops_eq {r k : List Byte} (h : Agree r k) : concatStops k = concatStops r := by
  rw [concatStops, concatStops, h.isEmpty_eq, h.head_test (p := isConcatTerminator) (by decide)]

/-- What follows a part of a concatenation. -/
def concatNext (rec : ParseEnv → Parser Node) (env : ParseEnv) (acc o : Option Node) (n : Nat) :
    Parser (Option Node) :=
  match o with
  | none => pure acc
  | some p => concatLoop rec env n (some (concat acc p))

theorem concatLoop_succ (rec : ParseEnv → Parser Node) (env : ParseEnv) (n : Nat) (acc : Option Node)
    (s : ParseState) : concatLoop rec env (n + 1) acc s =
      if concatStops s.rest = true then some (acc, s)
      else (parsePostfix rec env >>= fun o ↦ concatNext rec env acc o n) s := by
  rw [concatLoop, eval_bind_of (eval_atEnd s), eval_bind_of (eval_peek s), eval_ite]
  rfl

variable (hmode : SameMode env env')
  (hgroup : ∀ s, Follows raw strict (rec env) (fun _ ↦ rec' env') s (groupText s))
  (href : ∀ name, name ≠ [] → (∀ b ∈ name, isNameByte b = true) →
    FollowsReference raw strict rec rec' env env' name (referenceText name))
include hmode hgroup href

theorem parsePrimary_follows (s : ParseState) :
    Follows raw strict (parsePrimary rec env) (fun _ ↦ parsePrimary rec' env') s
      (primaryText rec env groupText referenceText s) := by
  unfold primaryText
  by_cases hopen : s.rest.getD 0 0 = chr '('
  · rw [if_pos hopen]
    obtain ⟨rest, d⟩ := s
    cases rest with
    | nil => exact absurd (show (0 : Byte) = chr '(' from hopen) (by decide)
    | cons b r =>
        obtain rfl : b = chr '(' := hopen
        have hinner : Follows raw strict (rec env >>= closeGroup env) (fun _ ↦ rec' env' >>= closeGroup env)
            ⟨r, d⟩ (groupText ⟨r, d⟩ ++
              match rec env ⟨r, d⟩ with
              | some (inner, s') => taken (closeGroup env inner) s'
              | none => []) := by
          refine (hgroup ⟨r, d⟩).bind fun inner s' hrun ↦ ?_
          rw [hrun]
          exact Follows.of_local (closeGroup_local env inner s')
        refine hinner.cons (eval_parsePrimary_open rec env r d) fun _ r d ↦ ?_
        rw [eval_parsePrimary_open]
        unfold closeGroup
        rw [hmode.loc]
  rw [if_neg hopen]
  by_cases hbrace : s.rest.getD 0 0 = chr '{'
  · rw [if_pos hbrace]
    obtain ⟨rest, d⟩ := s
    cases rest with
    | nil => exact absurd (show (0 : Byte) = chr '{' from hbrace) (by decide)
    | cons b r =>
        obtain rfl : b = chr '{' := hbrace
        by_cases href' : ∃ name k, Reference name r k
        · obtain ⟨name, k, hname⟩ := href'
          rw [macroText_reference hname]
          intro o s' hrun
          rw [eval_parsePrimary_brace] at hrun
          obtain ⟨t, s₁, hexpand, hlast⟩ := exists_of_eval_bind hrun
          obtain ⟨rfl, rfl⟩ := Prod.mk.inj (Option.some.inj hlast)
          rw [eval_parseMacro_reference hname] at hexpand
          obtain ⟨ws, rfl, hraw, hok⟩ := href name hname.ne_nil hname.bytes k d t s₁ hexpand
          refine ⟨ws, rfl, fun h ↦ ?_, fun h k' hagree ↦ ?_⟩
          · rw [hraw h, hname.eq]
            simp
          · obtain ⟨hshape, heval⟩ := hok h
            refine ⟨?_, fun _ d _ ↦ heval k' d⟩
            rcases hshape with hw | ⟨v, hw⟩
            · rw [hw, hname.eq]
              have htail := (hagree.append (name ++ [chr '}'])).cons (chr '{')
              simpa using htail
            · rw [hw]
              exact .brace _ _
        · have hlit : ∀ name k, ¬ Reference name r k := fun name k h ↦ href' ⟨name, k, h⟩
          rw [macroText_literal hlit]
          intro o s' hrun
          rw [eval_parsePrimary_brace, eval_bind_of (eval_parseMacro_literal hlit)] at hrun
          obtain ⟨rfl, rfl⟩ := Prod.mk.inj (Option.some.inj hrun)
          refine ⟨[], (List.append_nil _).symm, fun _ ↦ rfl, fun _ k hagree ↦ ⟨hagree.cons _, fun _ d' _ ↦ ?_⟩⟩
          have hlit' : ∀ name k', ¬ Reference name k k' := by
            rintro name k' ⟨rfl, hne, hbytes⟩
            have hplain : ∀ b ∈ name ++ [chr '}'], isOpenByte b = true := by
              have hclose : isOpenByte (chr '}') = true := by decide
              exact List.forall_mem_append.2 ⟨fun b hb ↦ isOpenByte_of_isNameByte (hbytes b hb),
                List.forall_mem_singleton.2 hclose⟩
            have hagree' : Agree r (name ++ [chr '}'] ++ k') := by simpa using hagree
            obtain ⟨r', rfl, -⟩ := hagree'.of_append' hplain
            exact hlit name r' ⟨by simp, hne, hbytes⟩
          change parsePrimary rec' env' ⟨chr '{' :: k, d'⟩ = _
          rw [eval_parsePrimary_brace, eval_bind_of (eval_parseMacro_literal hlit'), hmode.ci,
            List.append_nil]
          rfl
  · rw [if_neg hbrace]
    exact Follows.of_local (parsePrimary_leaf hmode hopen hbrace)

omit hmode hgroup in
/-- An operand has a text. -/
theorem primaryText_ne_nil {s s' : ParseState} {o : Option Node} {ws : List Diag}
    (hne : s.rest ≠ []) (hterm : isConcatTerminator (s.rest.getD 0 0) = false)
    (hrun : parsePrimary rec env s = some (o, s')) (hws : s'.diags = s.diags ++ ws)
    (hok : strict ∨ Diag.ok ws = true) : primaryText rec env groupText referenceText s ≠ [] := by
  unfold primaryText
  by_cases hopen : s.rest.getD 0 0 = chr '('
  · rw [if_pos hopen]
    exact List.cons_ne_nil _ _
  rw [if_neg hopen]
  by_cases hbrace : s.rest.getD 0 0 = chr '{'
  · rw [if_pos hbrace]
    obtain ⟨rest, d⟩ := s
    cases rest with
    | nil => exact absurd rfl hne
    | cons b r =>
        obtain rfl : b = chr '{' := hbrace
        by_cases href' : ∃ name k, Reference name r k
        · obtain ⟨name, k, hname⟩ := href'
          rw [macroText_reference hname]
          rw [eval_parsePrimary_brace] at hrun
          obtain ⟨t, s₁, hexpand, hlast⟩ := exists_of_eval_bind hrun
          obtain ⟨-, rfl⟩ := Prod.mk.inj (Option.some.inj hlast)
          rw [eval_parseMacro_reference hname] at hexpand
          obtain ⟨ws', rfl, -, hshape⟩ := href name hname.ne_nil hname.bytes k d t s₁ hexpand
          obtain rfl := List.append_cancel_left hws
          rcases (hshape hok).1 with hw | ⟨v, hw⟩
          · rw [hw]
            exact List.cons_ne_nil _ _
          · rw [hw]
            exact List.cons_ne_nil _ _
        · rw [macroText_literal fun name k h ↦ href' ⟨name, k, h⟩]
          exact List.cons_ne_nil _ _
  · rw [if_neg hbrace]
    have hleaf : LocalAt (parsePrimary rec env) (fun _ ↦ parsePrimary rec env) s :=
      parsePrimary_leaf ⟨rfl, rfl⟩ hopen hbrace
    obtain ⟨u, ws', hu, -, -⟩ := hleaf o s' hrun
    rw [taken_eq hrun hu]
    rintro rfl
    exact (Ends.primary_leaf hopen hbrace hterm).rest_ne hne o s' hrun hu.symm

theorem postfixText_ne_nil {s s' : ParseState} {o : Option Node} {ws : List Diag}
    (hstop : ¬ (s.rest.isEmpty || isConcatTerminator (s.rest.getD 0 0)) = true)
    (hrun : parsePostfix rec env s = some (o, s')) (hws : s'.diags = s.diags ++ ws)
    (hok : strict ∨ Diag.ok ws = true) : postfixText rec env groupText referenceText s ≠ [] := by
  rw [Bool.or_eq_true, not_or, Bool.not_eq_true, Bool.not_eq_true] at hstop
  have hne : s.rest ≠ [] := fun hnil ↦ by
    rw [hnil] at hstop
    exact absurd hstop.1 (by decide)
  rw [parsePostfix_eq] at hrun
  obtain ⟨o₁, s₁, h₁, h₂⟩ := exists_of_eval_bind hrun
  obtain ⟨ws₁, hws₁, -, -⟩ := parsePrimary_follows hmode hgroup href s o₁ s₁ h₁
  obtain ⟨ws₂, hws₂⟩ : ∃ ws₂, s'.diags = s₁.diags ++ ws₂ := by
    cases o₁ with
    | none =>
        obtain ⟨-, rfl⟩ := Prod.mk.inj (Option.some.inj h₂)
        exact ⟨[], (List.append_nil _).symm⟩
    | some p =>
        obtain ⟨-, ws₂, -, hws₂, -⟩ := parseOperator_local p s₁ o s' h₂
        exact ⟨ws₂, hws₂⟩
  rw [hws₂, hws₁, List.append_assoc] at hws
  obtain rfl := List.append_cancel_left hws
  refine List.append_ne_nil_of_left_ne_nil ?_ _
  exact primaryText_ne_nil href hne hstop.2 h₁ hws₁ (hok.imp_right fun h ↦ (Diag.ok_append.1 h).1)

theorem parsePostfix_follows (s : ParseState) :
    Follows raw strict (parsePostfix rec env) (fun _ ↦ parsePostfix rec' env') s
      (postfixText rec env groupText referenceText s) := by
  rw [parsePostfix_eq, parsePostfix_eq]
  refine (parsePrimary_follows hmode hgroup href s).bind fun o s' hrun ↦ ?_
  rw [hrun]
  cases o with
  | none => exact Follows.pure none
  | some p => exact Follows.of_local (parseOperator_local p s')

theorem concatLoop_follows (n : Nat) (acc : Option Node) (s : ParseState) :
    Follows raw strict (concatLoop rec env n acc) (fun m ↦ concatLoop rec' env' m acc) s
      (concatText rec env groupText referenceText n s) := by
  induction n generalizing acc s with
  | zero => exact Follows.none
  | succ n ih =>
      unfold concatText
      by_cases hstop : (s.rest.isEmpty || isConcatTerminator (s.rest.getD 0 0)) = true
      · rw [if_pos hstop]
        refine Follows.stay (a := acc) (c := fun r ↦ concatStops r = true) (fun r k h ↦ ?_) hstop ?_ fun m s hs ↦ ?_
        · rw [concatStops_eq h]
        · exact (concatLoop_succ rec env n acc s).trans (if_pos hstop)
        · exact (concatLoop_succ rec' env' m acc s).trans (if_pos hs)
      · rw [if_neg hstop]
        have hturn : Follows raw strict (parsePostfix rec env >>= fun o ↦ concatNext rec env acc o n)
            (fun m ↦ parsePostfix rec' env' >>= fun o ↦ concatNext rec' env' acc o (m - 1)) s
            (postfixText rec env groupText referenceText s ++
              match parsePostfix rec env s with
              | some (some _, s') => concatText rec env groupText referenceText n s'
              | _ => []) := by
          refine (parsePostfix_follows hmode hgroup href s).turn (g := fun m o ↦ concatNext rec' env' acc o m)
            (fun o s' ws hrun hws hok ↦ ?_) fun o s' hrun ↦ ?_
          · exact postfixText_ne_nil hmode hgroup href hstop hrun hws hok
          · rw [hrun]
            cases o with
            | none => exact Follows.pure acc
            | some p => exact ih (some (concat acc p)) s'
        refine Follows.look (c := fun r ↦ concatStops r = true) (x := Pure.pure acc) (y := fun _ ↦ Pure.pure acc)
          (fun r k h ↦ ?_) (fun h ↦ absurd h hstop) (fun _ ↦ hturn) (concatLoop_succ rec env n acc s)
          fun m s ↦ concatLoop_succ rec' env' m acc s
        rw [concatStops_eq h]

theorem parseConcat_follows (s : ParseState) :
    Follows raw strict (parseConcat rec env) (fun _ ↦ parseConcat rec' env') s
      (concatText rec env groupText referenceText (s.rest.length + 1) s) := by
  have hpure : ∀ (o : Option Node) s', Follows raw strict (Pure.pure (o.getD .empty))
      (fun _ ↦ Pure.pure (o.getD .empty)) s' [] := fun o s' ↦ Follows.pure _
  have hloop := (concatLoop_follows hmode hgroup href (s.rest.length + 1) none s).bind fun o s' _ ↦ hpure o s'
  rw [List.append_nil] at hloop
  exact Follows.loop (X := fun n ↦ concatLoop rec env n none >>= fun o ↦ Pure.pure (o.getD .empty)) hloop

theorem altLoop_follows (n : Nat) (l : Node) (s : ParseState) :
    Follows raw strict (altLoop rec env n l) (fun m ↦ altLoop rec' env' m l) s
      (altText rec env groupText referenceText n s) := by
  have hbar : ∀ r k, Agree r k → (k.getD 0 0 ≠ chr '|' ↔ r.getD 0 0 ≠ chr '|') := fun r k h ↦
    h.head_iff (p := fun b ↦ b ≠ chr '|') (by decide)
  induction n generalizing l s with
  | zero => exact Follows.none
  | succ n ih =>
      have hsucc : ∀ (rec : ParseEnv → Parser Node) (env : ParseEnv) (n : Nat) (s : ParseState),
          altLoop rec env (n + 1) l s = if s.rest.getD 0 0 ≠ chr '|' then some (l, s) else
            (skip >>= fun _ ↦ parseConcat rec env >>= fun r ↦ altLoop rec env n (.alt l r)) s := by
        intro rec env n s
        rw [altLoop, eval_bind_of (eval_peek s), eval_ite]
        rfl
      unfold altText
      by_cases hstop : s.rest.getD 0 0 ≠ chr '|'
      · rw [if_pos hstop]
        exact Follows.stay hbar hstop ((hsucc rec env n s).trans (if_pos hstop)) fun m s hs ↦
          (hsucc rec' env' m s).trans (if_pos hs)
      · rw [if_neg hstop]
        have hturn : Follows raw strict
            (skip >>= fun _ ↦ parseConcat rec env >>= fun r ↦ altLoop rec env n (.alt l r))
            (fun m ↦ skip >>= fun _ ↦ parseConcat rec' env' >>= fun r ↦ altLoop rec' env' (m - 1) (.alt l r))
            s ([chr '|'] ++ (concatText rec env groupText referenceText (s.rest.tail.length + 1)
                { s with rest := s.rest.tail } ++
              match parseConcat rec env { s with rest := s.rest.tail } with
              | some (_, s') => altText rec env groupText referenceText n s'
              | none => [])) := by
          have hskip : Follows raw strict skip (fun _ ↦ skip) s [chr '|'] := by
            refine (Follows.of_local (Local.skip s)).congr (taken_eq (eval_skip s) ?_)
            rw [not_not] at hstop
            cases hr : s.rest with
            | nil =>
                rw [hr] at hstop
                exact absurd hstop (by decide)
            | cons b r =>
                rw [hr] at hstop
                rw [← show b = chr '|' from hstop]
                rfl
          refine hskip.turn (g := fun m _ ↦ parseConcat rec' env' >>= fun r ↦ altLoop rec' env' m (.alt l r))
            (fun _ _ _ _ _ _ ↦ List.cons_ne_nil _ _) fun _ s' hs' ↦ ?_
          obtain ⟨-, rfl⟩ := Prod.mk.inj (Option.some.inj hs')
          refine (parseConcat_follows hmode hgroup href _).bind fun r s₁ hrun ↦ ?_
          rw [hrun]
          exact ih (.alt l r) s₁
        exact Follows.look (c := fun r ↦ r.getD 0 0 ≠ chr '|') (x := Pure.pure l) (y := fun _ ↦ Pure.pure l)
          hbar (fun h ↦ absurd h hstop) (fun _ ↦ hturn) (hsucc rec env n s) fun m s ↦ hsucc rec' env' m s

/-- A level of `parse_alt`, of groups and references that are followed. -/
theorem parseAlt_step (s : ParseState) :
    Follows raw strict (parseConcat rec env >>= fun l ↦ remaining >>= fun n ↦ altLoop rec env (n + 1) l)
      (fun _ ↦ parseConcat rec' env' >>= fun l ↦ remaining >>= fun n ↦ altLoop rec' env' (n + 1) l) s
      (parseAltTextStep rec env groupText referenceText s) := by
  refine (parseConcat_follows hmode hgroup href s).bind fun l s' hrun ↦ ?_
  rw [hrun]
  exact Follows.loop (X := fun n ↦ altLoop rec env n l) (altLoop_follows hmode hgroup href _ l s')

end Recursion

/-! ## More fuel, other diagnostics -/

/-- A reference that is expanded alike. -/
theorem followsReference_raw {raw strict : Prop} {rec rec' : ParseEnv → Parser Node} {env : ParseEnv}
    (hrec : ∀ env s, LocalAt (rec env) (fun _ ↦ rec' env) s) {name : List Byte} (hne : name ≠ [])
    (hname : ∀ b ∈ name, isNameByte b = true) :
    FollowsReference raw strict rec rec' env env name (chr '{' :: (name ++ [chr '}'])) := by
  intro k d a s' h
  suffices hexp : ∃ ws, s' = ⟨k, d ++ ws⟩ ∧ ∀ k d,
      expandMacro rec' env name ⟨k, d⟩ = some (a, ⟨k, d ++ ws⟩) by
    obtain ⟨ws, rfl, heval⟩ := hexp
    refine ⟨ws, rfl, fun _ ↦ rfl, fun _ ↦ ⟨Or.inl rfl, fun k d ↦ ?_⟩⟩
    have href : Reference name (name ++ [chr '}'] ++ k) k := ⟨by simp, hne, hname⟩
    change parsePrimary rec' env ⟨chr '{' :: (name ++ [chr '}'] ++ k), d⟩ = _
    rw [eval_parsePrimary_brace, eval_bind_of ((eval_parseMacro_reference href).trans (heval k d))]
    rfl
  unfold expandMacro at h ⊢
  by_cases hfresh : name ∈ env.expanding
  · rw [if_pos hfresh] at h ⊢
    obtain ⟨rfl, rfl⟩ := Prod.mk.inj (Option.some.inj h)
    exact ⟨_, rfl, fun k d ↦ rfl⟩
  rw [if_neg hfresh] at h ⊢
  cases hexp : env.macros name with
  | none =>
      rw [hexp] at h
      obtain ⟨rfl, rfl⟩ := Prod.mk.inj (Option.some.inj h)
      exact ⟨_, rfl, fun k d ↦ rfl⟩
  | some exp =>
      rw [hexp] at h
      simp only at h ⊢
      rw [eval_bind_of (eval_save _), eval_bind_of (eval_restore _ _)] at h
      obtain ⟨inner, s₁, h₁, h₂⟩ := exists_of_eval_bind h
      obtain ⟨rfl, rfl⟩ := Prod.mk.inj (Option.some.inj h₂)
      obtain ⟨u, ws, hu, hws, hk⟩ := hrec _ _ inner s₁ h₁
      refine ⟨ws, by rw [← hws], fun k d ↦ ?_⟩
      rw [eval_bind_of (eval_save _), eval_bind_of (eval_restore _ _)]
      have heval := hk s₁.rest (.refl _) _ d (Nat.lt_succ_self _)
      rw [← hu] at heval
      exact eval_bind_of heval

/-- With more fuel, and before every text that looks the same from where it stops, `parse_alt` does
the same. -/
theorem parseAlt_local {n m : Nat} (hnm : n ≤ m) (env : ParseEnv) :
    Local (parseAlt n env) fun _ ↦ parseAlt m env := by
  induction n generalizing m env with
  | zero => exact .none
  | succ n ih =>
      obtain ⟨m, rfl⟩ := Nat.exists_eq_add_one_of_ne_zero (Nat.ne_zero_of_lt hnm)
      have hrec := fun env s ↦ ih (Nat.le_of_succ_le_succ hnm) env s
      have href : ∀ name, name ≠ [] → (∀ b ∈ name, isNameByte b = true) → FollowsReference True True
          (parseAlt n) (parseAlt m) env env name (chr '{' :: (name ++ [chr '}'])) :=
        fun name ↦ followsReference_raw hrec
      intro s
      exact (parseAlt_step ⟨rfl, rfl⟩ (fun s ↦ Follows.of_local (hrec env s)) href s).local_of_raw

end Parser

end LexCpp
