import LexCpp.Regex.Counts
import LexCpp.Regex.Follows

/-!
# Postfix operators

What the parser makes of an operand followed by postfix operators.  It reads one of them; the next
is a literal or the name of a macro (`Postfix.stacks_iff`).
-/

namespace LexCpp

/-! ## An operand before more text -/

namespace Parser

variable {α β : Type} {rec : ParseEnv → Parser Node} {env : ParseEnv} {k : List Byte} {d d' : List Diag}

/-- The bytes that a numeral takes up to the end of the text, it takes before a byte that is no
digit. -/
theorem eval_digitLoop {p : Byte → Bool} {f : Nat → Byte → Nat} {x : Nat → Nat → Parser Nat}
    (hend : p 0 = false) (hzero : ∀ v, x 0 v = Pure.pure v)
    (hsucc : ∀ n v s, x (n + 1) v s =
      if p (s.rest.getD 0 0) = false then some (v, s) else (advance >>= fun b ↦ x n (f v b)) s)
    (hk : p (k.getD 0 0) = false) {n v w : Nat} {r : List Byte}
    (h : x n v ⟨r, d⟩ = some (w, ⟨[], d'⟩)) : x n v ⟨r ++ k, d⟩ = some (w, ⟨k, d'⟩) := by
  induction n generalizing v r with
  | zero =>
      rw [hzero] at h ⊢
      obtain ⟨rfl, hs⟩ := Prod.mk.inj (Option.some.inj h)
      obtain ⟨rfl, rfl⟩ := ParseState.mk.inj hs
      rfl
  | succ n ih =>
      rw [hsucc] at h ⊢
      cases r with
      | nil =>
          rw [if_pos (show p (([] : List Byte).getD 0 0) = false from hend)] at h
          obtain ⟨rfl, hs⟩ := Prod.mk.inj (Option.some.inj h)
          obtain ⟨-, rfl⟩ := ParseState.mk.inj hs
          exact if_pos hk
      | cons b r =>
          rw [List.cons_append, List.getD_cons_zero]
          rw [List.getD_cons_zero] at h
          split_ifs at h ⊢ with hb
          · exact absurd (Prod.mk.inj (Option.some.inj h)).2 (by simp)
          · exact ih h

theorem eval_readEscapeByte_cons (c e : Byte) (r : List Byte) (d : List Diag) :
    readEscapeByte ⟨c :: e :: r, d⟩ =
      if e = 0 then some (0, ⟨e :: r, d⟩)
      else match controlEscapes.find? fun e' ↦ chr e'.1 = e with
        | some e' => some (Fin.ofNat 256 e'.2, ⟨r, d⟩)
        | none =>
            if isOctal e then (readOctal 3 0 >>= fun v ↦ Pure.pure (Fin.ofNat 256 v) : Parser Byte) ⟨e :: r, d⟩
            else if e = chr 'x' then
              (readHex 2 0 >>= fun v ↦ Pure.pure (Fin.ofNat 256 v) : Parser Byte) ⟨r, d⟩
            else some (e, ⟨r, d⟩) := by
  rw [readEscapeByte, eval_bind_of (eval_skip _), eval_bind_of (eval_peek _), eval_ite]
  refine if_congr Iff.rfl rfl ?_
  change (match controlEscapes.find? fun e' ↦ chr e'.1 = e with | some e' => _ | none => _ : Parser Byte) _ = _
  cases controlEscapes.find? fun e' ↦ chr e'.1 = e with
  | some e' => rfl
  | none =>
      dsimp only
      rw [eval_ite, eval_ite]
      rfl

/-- An escape that ends with the text ends before an operator. -/
theorem eval_readEscapeByte_before {c b : Byte} {r : List Byte} (hk : isOperatorByte (k.getD 0 0) = true)
    (hr : r ≠ []) (h : readEscapeByte ⟨c :: r, d⟩ = some (b, ⟨[], d'⟩)) :
    readEscapeByte ⟨c :: r ++ k, d⟩ = some (b, ⟨k, d'⟩) := by
  have hbyte : ∀ b, isOperatorByte b = true → isOctal b = false ∧ isXdigit b = false := by decide +kernel
  obtain ⟨hoctal, hhex⟩ := hbyte _ hk
  obtain ⟨e, r, rfl⟩ := List.exists_cons_of_ne_nil hr
  have hpure : ∀ v : Byte, some (v, (⟨r, d⟩ : ParseState)) = some (b, ⟨[], d'⟩) →
      some (v, (⟨r ++ k, d⟩ : ParseState)) = some (b, ⟨k, d'⟩) := by
    intro v h
    obtain ⟨rfl, hs⟩ := Prod.mk.inj (Option.some.inj h)
    obtain ⟨rfl, rfl⟩ := ParseState.mk.inj hs
    rfl
  have hnumeral : ∀ {x : Parser Nat} {r : List Byte},
      (∀ w d', x ⟨r, d⟩ = some (w, ⟨[], d'⟩) → x ⟨r ++ k, d⟩ = some (w, ⟨k, d'⟩)) →
      (x >>= fun v ↦ Pure.pure (Fin.ofNat 256 v) : Parser Byte) ⟨r, d⟩ = some (b, ⟨[], d'⟩) →
      (x >>= fun v ↦ Pure.pure (Fin.ofNat 256 v) : Parser Byte) ⟨r ++ k, d⟩ = some (b, ⟨k, d'⟩) := by
    intro x r hx h
    obtain ⟨w, s, hrun, hlast⟩ := exists_of_eval_bind h
    obtain ⟨rfl, rfl⟩ := Prod.mk.inj (Option.some.inj hlast)
    exact eval_bind_of (hx w d' hrun)
  rw [List.cons_append, List.cons_append, eval_readEscapeByte_cons]
  rw [eval_readEscapeByte_cons] at h
  by_cases hzero : e = 0
  · rw [if_pos hzero] at h
    exact absurd (ParseState.mk.inj (Prod.mk.inj (Option.some.inj h)).2).1 (List.cons_ne_nil _ _)
  rw [if_neg hzero] at h ⊢
  cases hfind : controlEscapes.find? fun e' ↦ chr e'.1 = e with
  | some e' =>
      rw [hfind] at h
      exact hpure _ h
  | none =>
      rw [hfind] at h
      dsimp only at h ⊢
      split_ifs at h ⊢
      · refine hnumeral (r := e :: r) (fun w d' hw ↦ ?_) h
        refine eval_digitLoop (x := readOctal) (p := isOctal) (f := fun v b ↦ v * 8 + (b - chr '0').val)
          rfl (fun v ↦ rfl) (fun n v s ↦ ?_) hoctal hw
        rw [readOctal, eval_bind_of (eval_peek _), eval_ite]
        simp only [Bool.not_eq_true']
        rfl
      · refine hnumeral (fun w d' hw ↦ ?_) h
        refine eval_digitLoop (x := readHex) (p := isXdigit) (f := fun v b ↦ v * 16 + hexDigit b)
          rfl (fun v ↦ rfl) (fun n v s ↦ ?_) hhex hw
        rw [readHex, eval_bind_of (eval_peek _), eval_ite]
        simp only [Bool.not_eq_true']
        rfl
      · exact hpure _ h

/-- What a closing byte ends, it ends before any other text. -/
theorem eval_closed {e : Byte} (he : isCloser e = true) {x : Parser α} {close : α → Parser β}
    (hx : Local x fun _ ↦ x) {p : List Byte} {b : β}
    (h : (x >>= close) ⟨p, d⟩ = some (b, ⟨[], d'⟩))
    (hclose : ∀ a s, close a s = some (b, ⟨[], d'⟩) →
      s = ⟨[e], d'⟩ ∧ ∀ k, close a ⟨e :: k, d'⟩ = some (b, ⟨k, d'⟩)) (k : List Byte) :
    (x >>= close) ⟨p ++ k, d⟩ = some (b, ⟨k, d'⟩) := by
  obtain ⟨a, s, hrun, hlast⟩ := exists_of_eval_bind h
  obtain ⟨rfl, hbefore⟩ := hclose a s hlast
  obtain ⟨u, ws, hu, hws, hk⟩ := hx ⟨p, d⟩ a ⟨[e], d'⟩ hrun
  have heval := hk (e :: k) (.closer he [] k) _ d (Nat.lt_succ_self _)
  change p = u ++ [e] at hu
  change d' = d ++ ws at hws
  rw [hu, List.append_assoc, List.singleton_append, eval_bind_of heval, ← hws]
  exact hbefore k

/-- A closing byte, where all else is an error. -/
theorem eval_close {e : Byte} (he : e ≠ 0) {bad : Parser β} {b b' : β}
    (hbad : ∀ s, bad s ≠ some (b, ⟨[], d'⟩)) {s : ParseState}
    (h : (peek >>= fun c ↦ if c ≠ e then bad else skip >>= fun _ ↦ Pure.pure b') s = some (b, ⟨[], d'⟩)) :
    s = ⟨[e], d'⟩ ∧ ∀ k, (peek >>= fun c ↦ if c ≠ e then bad else skip >>= fun _ ↦ Pure.pure b') ⟨e :: k, d'⟩ =
      some (b, ⟨k, d'⟩) := by
  rw [eval_bind_of (eval_peek s), eval_ite] at h
  split_ifs at h with hne
  · exact absurd h (hbad s)
  obtain ⟨r, ds⟩ := s
  cases r with
  | nil => exact absurd (not_not.1 hne) he.symm
  | cons c r =>
      obtain rfl : c = e := not_not.1 hne
      obtain ⟨rfl, hs⟩ := Prod.mk.inj (Option.some.inj h)
      obtain ⟨rfl, rfl⟩ := ParseState.mk.inj hs
      refine ⟨rfl, fun k ↦ ?_⟩
      rw [eval_bind_of (eval_peek _), eval_ite]
      exact if_neg (not_not.2 rfl)

/-- Up to the closing bracket. -/
def classBody (env : ParseEnv) : Parser (Bool × ByteSet) := do
  let neg ← accept '^'
  let cls ← classLoop env ((← remaining) + 1) true {}
  return (neg, cls)

theorem classBody_local (env : ParseEnv) : Local (classBody env) fun _ ↦ classBody env :=
  (Local.accept (by decide)).bind fun neg ↦
    Local.loop (X := fun n ↦ classLoop env n true {} >>= fun cls ↦ Pure.pure (neg, cls)) fun n ↦
      (classLoop_local env n true {}).bind fun cls ↦ .pure (neg, cls)

theorem eval_parseClass_open (c : Byte) (r : List Byte) (d : List Diag) : parseClass env ⟨c :: r, d⟩ =
    (classBody env >>= fun p ↦ closeClass env p.1 p.2) ⟨r, d⟩ := by
  rw [parseClass, eval_bind_of (eval_skip _), classBody]
  simp only [bind_assoc, pure_bind]
  rfl

/-- Up to the closing quote. -/
def quotedBody (env : ParseEnv) : Parser (Option Node) := do quotedLoop env ((← remaining) + 1) none

theorem quotedBody_local (env : ParseEnv) : Local (quotedBody env) fun _ ↦ quotedBody env :=
  Local.loop (X := fun n ↦ quotedLoop env n none) fun n ↦ quotedLoop_local env n none

theorem eval_parseQuoted_open (c : Byte) (r : List Byte) (d : List Diag) : parseQuoted env ⟨c :: r, d⟩ =
    (quotedBody env >>= closeQuoted env) ⟨r, d⟩ := by
  rw [parseQuoted, eval_bind_of (eval_skip _), quotedBody]
  simp only [bind_assoc]
  rfl

theorem eval_parsePrimary_cons (rec : ParseEnv → Parser Node) (env : ParseEnv) (c : Byte) (r : List Byte)
    (d : List Diag) : parsePrimary rec env ⟨c :: r, d⟩ =
      if c = chr '(' then (rec env >>= closeGroup env) ⟨r, d⟩
      else if c = chr '[' then (do return some (← parseClass env) : Parser (Option Node)) ⟨c :: r, d⟩
      else if c = chr '"' then (do return some (← parseQuoted env) : Parser (Option Node)) ⟨c :: r, d⟩
      else if c = chr '{' then (do return some (← parseMacro rec env) : Parser (Option Node)) ⟨c :: r, d⟩
      else if c = chr '.' then some (some anyByteExceptNl, ⟨r, d⟩)
      else if c = chr '\\' then (do return some (← parseEscapeAtom env) : Parser (Option Node)) ⟨c :: r, d⟩
      else if c = chr ')' ∨ c = chr '|' ∨ c = chr '$' then some (none, ⟨c :: r, d⟩)
      else if c = 0 then some (none, ⟨c :: r, d⟩)
      else some (some (litNode c env.ci), ⟨r, d⟩) := by
  rw [parsePrimary, eval_bind_of (eval_peek _)]
  refine (eval_ite _ _ _ _).trans (if_congr Iff.rfl ?_ ((eval_ite _ _ _ _).trans (if_congr Iff.rfl rfl
    ((eval_ite _ _ _ _).trans (if_congr Iff.rfl rfl ((eval_ite _ _ _ _).trans (if_congr Iff.rfl rfl
    ((eval_ite _ _ _ _).trans (if_congr Iff.rfl rfl ((eval_ite _ _ _ _).trans (if_congr Iff.rfl rfl
    ((eval_ite _ _ _ _).trans (if_congr Iff.rfl rfl ((eval_ite _ _ _ _).trans (if_congr Iff.rfl rfl rfl
    )))))))))))))))
  rw [eval_bind_of (eval_skip _)]
  rfl

/-- An operand that ends with the text is read alike before an operator, but for a lone backslash. -/
theorem eval_parsePrimary_before {n : Nat} {p : List Byte} {t : Node} (hp : p ≠ [chr '\\'])
    (hk : isOperatorByte (k.getD 0 0) = true) (hok : Diag.ok d' = true)
    (h : parsePrimary (parseAlt n) env ⟨p, d⟩ = some (some t, ⟨[], d'⟩)) :
    parsePrimary (parseAlt n) env ⟨p ++ k, d⟩ = some (some t, ⟨k, d'⟩) := by
  have hsome : ∀ {x : Parser Node} {r : List Byte},
      (∀ a, x ⟨r, d⟩ = some (a, ⟨[], d'⟩) → x ⟨r ++ k, d⟩ = some (a, ⟨k, d'⟩)) →
      (do return some (← x) : Parser (Option Node)) ⟨r, d⟩ = some (some t, ⟨[], d'⟩) →
      (do return some (← x) : Parser (Option Node)) ⟨r ++ k, d⟩ = some (some t, ⟨k, d'⟩) := by
    intro x r hx h
    obtain ⟨a, s, hrun, hlast⟩ := exists_of_eval_bind h
    obtain ⟨ha, rfl⟩ := Prod.mk.inj (Option.some.inj hlast)
    rw [eval_bind_of (hx a hrun)]
    exact congrArg (fun o ↦ some (o, _)) ha
  have hskip : ∀ {r : List Byte} {a : Node}, some (some a, (⟨r, d⟩ : ParseState)) = some (some t, ⟨[], d'⟩) →
      some (some a, (⟨r ++ k, d⟩ : ParseState)) = some (some t, ⟨k, d'⟩) := by
    intro r a h
    obtain ⟨ha, hs⟩ := Prod.mk.inj (Option.some.inj h)
    obtain ⟨rfl, rfl⟩ := ParseState.mk.inj hs
    rw [ha, List.nil_append]
  have herror : ∀ {ds : List Diag} {loc : SourceLoc} {msg : String}, ds ++ [⟨.error, loc, msg⟩] ≠ d' := by
    rintro ds loc msg rfl
    exact absurd hok (by simp [Diag.ok])
  cases p with
  | nil => exact absurd h (by rintro ⟨⟩)
  | cons c r =>
      rw [List.cons_append, eval_parsePrimary_cons]
      rw [eval_parsePrimary_cons] at h
      split_ifs at h ⊢ with h₁ h₂ h₃ h₄ h₅ h₆ h₇ h₈
      · refine eval_closed (e := chr ')') rfl (parseAlt_local le_rfl env) h (fun a s hs ↦
          eval_close (by decide) (fun s' hbad ↦ ?_) hs) k
        exact Option.some_ne_none _ (Prod.mk.inj (Option.some.inj hbad)).1.symm
      · refine hsome (r := c :: r) (fun a ha ↦ ?_) h
        rw [List.cons_append, eval_parseClass_open]
        rw [eval_parseClass_open] at ha
        refine eval_closed (e := chr ']') rfl (classBody_local env) ha (fun a' s hs ↦
          eval_close (by decide) (fun s' hbad ↦ ?_) hs) k
        exact herror (ParseState.mk.inj (Prod.mk.inj (Option.some.inj hbad)).2).2
      · refine hsome (r := c :: r) (fun a ha ↦ ?_) h
        rw [List.cons_append, eval_parseQuoted_open]
        rw [eval_parseQuoted_open] at ha
        refine eval_closed (e := chr '"') rfl (quotedBody_local env) ha (fun a' s hs ↦
          eval_close (by decide) (fun s' hbad ↦ ?_) hs) k
        exact herror (ParseState.mk.inj (Prod.mk.inj (Option.some.inj hbad)).2).2
      · rw [h₄] at h ⊢
        by_cases href : ∃ name k', Reference name r k'
        · obtain ⟨name, k', hname⟩ := href
          obtain ⟨a, s, hrun, hlast⟩ := exists_of_eval_bind h
          obtain ⟨ha, rfl⟩ := Prod.mk.inj (Option.some.inj hlast)
          rw [eval_parseMacro_reference hname] at hrun
          have hfollows : FollowsReference True True (parseAlt n) (parseAlt n) env env name
              (chr '{' :: (name ++ [chr '}'])) :=
            followsReference_raw (fun env s ↦ parseAlt_local le_rfl env s) hname.ne_nil hname.bytes
          obtain ⟨ws, hs, -, hstrict⟩ := hfollows k' d a _ hrun
          obtain ⟨rfl, rfl⟩ := ParseState.mk.inj hs
          have heval := (hstrict (Or.inl trivial)).2 k d
          rw [List.cons_append, eval_parsePrimary_brace] at heval
          rw [hname.eq, heval, ha]
        · have hlit : ∀ name k', ¬ Reference name r k' := fun name k' hname ↦ href ⟨name, k', hname⟩
          obtain ⟨a, s, hrun, hlast⟩ := exists_of_eval_bind h
          obtain ⟨ha, rfl⟩ := Prod.mk.inj (Option.some.inj hlast)
          rw [eval_parseMacro_literal hlit] at hrun
          obtain ⟨rfl, hs⟩ := Prod.mk.inj (Option.some.inj hrun)
          obtain ⟨rfl, rfl⟩ := ParseState.mk.inj hs
          have hlit' : ∀ name k', ¬ Reference name k k' := by
            rintro name k' ⟨rfl, hne, hbytes⟩
            obtain ⟨b, bs, rfl⟩ := List.exists_cons_of_ne_nil hne
            have hname : ∀ b, isOperatorByte b = true → isNameByte b = false := by decide +kernel
            exact absurd (hbytes b List.mem_cons_self) (by rw [hname b hk]; exact Bool.false_ne_true)
          rw [List.nil_append, eval_bind_of (eval_parseMacro_literal hlit'), ← ha]
          rfl
      · exact hskip h
      · refine hsome (r := c :: r) (fun a ha ↦ ?_) h
        obtain ⟨b, s, hrun, hlast⟩ := exists_of_eval_bind ha
        obtain ⟨rfl, rfl⟩ := Prod.mk.inj (Option.some.inj hlast)
        refine eval_bind_of (eval_readEscapeByte_before hk ?_ hrun)
        rintro rfl
        exact hp (by rw [h₆])
      · exact absurd h (by rintro ⟨⟩)
      · exact absurd h (by rintro ⟨⟩)
      · exact hskip h

/-- With more fuel an operand is read alike. -/
theorem parsePrimary_local {n m : Nat} (hnm : n ≤ m) (env : ParseEnv) :
    Local (parsePrimary (parseAlt n) env) fun _ ↦ parsePrimary (parseAlt m) env := by
  intro s
  have hfollows : Follows True True (parsePrimary (parseAlt n) env) (fun _ ↦ parsePrimary (parseAlt m) env) s _ :=
    parsePrimary_follows ⟨rfl, rfl⟩ (fun s ↦ Follows.of_local (parseAlt_local hnm env s))
      (fun _ hne hbytes ↦ followsReference_raw (fun env s ↦ parseAlt_local hnm env s) hne hbytes) s
  exact hfollows.local_of_raw

theorem parseTop_mono {n m : Nat} (hnm : n ≤ m) {env : ParseEnv} {s : ParseState} {r : Option Node × ParseState}
    (h : parseTop n env s = some r) : parseTop m env s = some r := by
  obtain ⟨bol, s₁, hbol, h⟩ := exists_of_eval_bind h
  obtain ⟨body, s₂, hbody, h⟩ := exists_of_eval_bind h
  obtain ⟨ws, hws, heval⟩ := (parseAlt_local hnm env).rerun hbody s₁.diags
  rw [← hws] at heval
  rw [parseTop, eval_bind_of hbol, eval_bind_of heval]
  exact h

end Parser

/-! ## Operators -/

/-- A postfix operator as it is written. -/
inductive Postfix where
  | star
  | plus
  | question
  | counts (q : Counts)

namespace Postfix

open LexCpp.Parser

def render : Postfix → List Byte
  | star => [chr '*']
  | plus => [chr '+']
  | question => [chr '?']
  | counts q => q.render

/-- The bounds of a repetition are in order. -/
def Ordered : Postfix → Prop
  | counts q => q.Ordered
  | _ => True

/-- The bounds of a repetition fit in the tree. -/
def Fits : Postfix → Prop
  | counts q => q.Fits
  | _ => True

/-- The node for the operator. -/
def Builds (q : Postfix) (a t : Node) : Prop :=
  match q with
  | star => t = .star a
  | plus => t = .plus a
  | question => t = .question a
  | counts q => ∃ lo hi, t = .rep lo hi a ∧ ∀ k, Counts.Allows lo hi k ↔ q.Takes k

/-- What the parser makes of it. -/
def tree : Postfix → Node → Node
  | star, a => .star a
  | plus, a => .plus a
  | question, a => .question a
  | counts q, a => q.tree a

/-- The operators are applied to the operand, one after the other. -/
def Nested : List Postfix → Node → Node → Prop
  | [], a, t => t = a
  | q :: qs, a, t => ∃ b, q.Builds a b ∧ Nested qs b t

/-- A text that is read to its end as one operand, without an error. -/
def Operand (env : ParseEnv) (p : List Byte) (a : Node) : Prop :=
  ∃ n d, parsePrimary (parseAlt n) env ⟨p, []⟩ = some (some a, ⟨[], d⟩) ∧ Diag.ok d = true

/-- The operand and the operators are read as the nested application, without an error. -/
def Stack (env : ParseEnv) (p : List Byte) (a : Node) (qs : List Postfix) : Prop :=
  ∃ n t d, parseRegex n env (p ++ qs.flatMap render) = some (some t, d) ∧ Diag.ok d = true ∧ Nested qs a t

/-! ### One operator -/

theorem builds_tree_iff {q : Postfix} (hord : q.Ordered) (a : Node) : q.Builds a (q.tree a) ↔ q.Fits := by
  cases q with
  | counts q =>
      refine ⟨?_, fun h ↦ ⟨_, _, rfl, Counts.allows_iff_takes h⟩⟩
      rintro ⟨lo, hi, htree, hallows⟩
      obtain ⟨rfl, rfl, -⟩ := Node.rep.inj htree
      exact Counts.fits_of_allows_iff hord hallows
  | star | plus | question => exact ⟨fun _ ↦ trivial, fun _ ↦ rfl⟩

variable {rec : ParseEnv → Parser Node} {env : ParseEnv} {s : ParseState} {a : Node}
  {k : List Byte} {d : List Diag}

theorem eval_parsePostfix (q : Postfix)
    (h : parsePrimary rec env s = some (some a, ⟨q.render ++ k, d⟩)) :
    parsePostfix rec env s = some (some (q.tree a), ⟨k, d⟩) := by
  cases q with
  | counts q => exact q.eval_parsePostfix h
  | star | plus | question => rw [parsePostfix, eval_bind_of h]; rfl

theorem isOperatorByte_render (q : Postfix) (k : List Byte) :
    isOperatorByte ((q.render ++ k).getD 0 0) = true := by
  cases q with
  | counts q => rfl
  | star | plus | question => rfl

/-! ### What is built -/

/-- The operators at the root of a tree. -/
def roots : Node → Nat
  | .star a => roots a + 1
  | .plus a => roots a + 1
  | .question a => roots a + 1
  | .rep _ _ a => roots a + 1
  | _ => 0

theorem roots_tree (q : Postfix) (a : Node) : roots (q.tree a) = roots a + 1 := by
  cases q with
  | _ => rfl

theorem roots_nested {qs : List Postfix} {t : Node} (h : Nested qs a t) : roots t = roots a + qs.length := by
  induction qs generalizing a with
  | nil =>
      obtain rfl := h
      rfl
  | cons q qs ih =>
      obtain ⟨b, hb, h⟩ := h
      have hroots : roots b = roots a + 1 := by
        cases q with
        | counts q =>
            obtain ⟨lo, hi, rfl, -⟩ := hb
            rfl
        | star | plus | question =>
            obtain rfl := hb
            rfl
      rw [ih h, hroots, List.length_cons, Nat.add_right_comm, Nat.add_assoc]

/-- A concatenation goes on as itself, or with no operator at the root. -/
theorem concatLoop_roots {n : Nat} {t : Node} {o : Option Node} {s' : ParseState}
    (h : concatLoop rec env n (some t) s = some (o, s')) : ∃ t', o = some t' ∧ (t' = t ∨ roots t' = 0) := by
  induction n generalizing t s with
  | zero => exact absurd h (by rintro ⟨⟩)
  | succ n ih =>
      rw [concatLoop_succ] at h
      split_ifs at h
      · obtain ⟨rfl, -⟩ := Prod.mk.inj (Option.some.inj h)
        exact ⟨t, rfl, Or.inl rfl⟩
      · obtain ⟨o', s₁, -, h⟩ := exists_of_eval_bind h
        cases o' with
        | none =>
            obtain ⟨rfl, -⟩ := Prod.mk.inj (Option.some.inj h)
            exact ⟨t, rfl, Or.inl rfl⟩
        | some p =>
            obtain ⟨t', rfl, ht'⟩ := ih h
            rcases ht' with rfl | ht'
            · exact ⟨_, rfl, Or.inr rfl⟩
            · exact ⟨t', rfl, Or.inr ht'⟩

theorem altLoop_roots {n : Nat} {l t : Node} {s' : ParseState} (h : altLoop rec env n l s = some (t, s')) :
    t = l ∨ roots t = 0 := by
  induction n generalizing l s with
  | zero => exact absurd h (by rintro ⟨⟩)
  | succ n ih =>
      rw [altLoop, eval_bind_of (eval_peek s), eval_ite] at h
      split_ifs at h
      · obtain ⟨rfl, -⟩ := Prod.mk.inj (Option.some.inj h)
        exact Or.inl rfl
      · rw [eval_bind_of (eval_skip s)] at h
        obtain ⟨r, s₁, -, h⟩ := exists_of_eval_bind h
        rcases ih h with rfl | ht
        · exact Or.inr rfl
        · exact Or.inr ht

/-- At most one operator is read. -/
theorem parseOperator_yields (p : Node) :
    Yields (parseOperator p) fun o ↦ ∃ t, o = some t ∧ roots t ≤ roots p + 1 := by
  have hrepeat : Yields (parseRepeat p) fun t ↦ roots t ≤ roots p + 1 := by
    unfold parseRepeat
    refine .seq fun _ ↦ .seq fun _ ↦ .seq fun _ ↦ .seq fun _ ↦
      .ite (fun _ ↦ .seq fun _ ↦ .pure (Nat.le_succ _)) fun _ ↦ .seq fun _ ↦ .seq fun _ ↦ .ite (fun _ ↦ ?_) fun _ ↦ ?_
    · exact .seq fun _ ↦ .pure (Nat.le_succ _)
    · exact .seq fun _ ↦ .pure le_rfl
  refine .seq fun c ↦ .ite (fun _ ↦ ?_) fun _ ↦ .ite (fun _ ↦ ?_) fun _ ↦
    .ite (fun _ ↦ ?_) fun _ ↦ .seq fun _ ↦ .ite (fun _ ↦ ?_) fun _ ↦ .pure ⟨p, rfl, Nat.le_succ _⟩
  · exact .seq fun _ ↦ .pure ⟨_, rfl, le_rfl⟩
  · exact .seq fun _ ↦ .pure ⟨_, rfl, le_rfl⟩
  · exact .seq fun _ ↦ .pure ⟨_, rfl, le_rfl⟩
  · exact .bind hrepeat fun t ht ↦ .pure ⟨t, rfl, ht⟩

/-- An operator that is not read as one is read as an operand. -/
theorem exists_operand {b : Byte} {r : List Byte} (hb : isOperatorByte b = true) {o : Option Node} {s' : ParseState}
    (h : parsePostfix rec env ⟨b :: r, d⟩ = some (o, s')) : ∃ t, o = some t := by
  rw [parsePostfix_eq] at h
  obtain ⟨o', s₁, hprimary, h⟩ := exists_of_eval_bind h
  suffices hsome : ∃ t, o' = some t by
    obtain ⟨t, rfl⟩ := hsome
    obtain ⟨t', rfl, -⟩ := parseOperator_yields t _ _ _ h
    exact ⟨t', rfl⟩
  rw [eval_parsePrimary_cons] at hprimary
  simp only [isOperatorByte, Bool.or_eq_true, decide_eq_true_eq] at hb
  rcases hb with ((rfl | rfl) | rfl) | rfl
  · obtain ⟨rfl, -⟩ := Prod.mk.inj (Option.some.inj hprimary)
    exact ⟨_, rfl⟩
  · obtain ⟨rfl, -⟩ := Prod.mk.inj (Option.some.inj hprimary)
    exact ⟨_, rfl⟩
  · obtain ⟨rfl, -⟩ := Prod.mk.inj (Option.some.inj hprimary)
    exact ⟨_, rfl⟩
  · obtain ⟨t, s₂, -, hlast⟩ := exists_of_eval_bind hprimary
    obtain ⟨rfl, -⟩ := Prod.mk.inj (Option.some.inj hlast)
    exact ⟨_, rfl⟩

/-- After an operand, before an operator, something is read that is concatenated. -/
theorem concatLoop_operator {n : Nat} {t : Node} {o : Option Node} {r : List Byte} {s' : ParseState}
    (hr : isOperatorByte (r.getD 0 0) = true) (h : concatLoop rec env n (some t) ⟨r, d⟩ = some (o, s')) :
    ∃ t', o = some t' ∧ roots t' = 0 := by
  have hgo : ∀ b, isOperatorByte b = true → isConcatTerminator b = false := by decide +kernel
  cases r with
  | nil => exact absurd hr (by decide)
  | cons b r =>
      cases n with
      | zero => exact absurd h (by rintro ⟨⟩)
      | succ n =>
          have hstops : concatStops (b :: r) = false := hgo b hr
          rw [concatLoop_succ, hstops, if_neg nofun] at h
          obtain ⟨o', s₁, hpostfix, h⟩ := exists_of_eval_bind h
          obtain ⟨p, rfl⟩ := exists_operand hr hpostfix
          obtain ⟨t', rfl, ht'⟩ := concatLoop_roots h
          rcases ht' with rfl | ht'
          · exact ⟨_, rfl, rfl⟩
          · exact ⟨t', rfl, ht'⟩

/-! ### The whole text -/

/-- An operand does not start like the end of a concatenation. -/
theorem not_terminator {p : List Byte} {o : Node} {s' : ParseState}
    (h : parsePrimary rec env ⟨p, d⟩ = some (some o, s')) : isConcatTerminator (p.getD 0 0) = false := by
  cases p with
  | nil => exact absurd h (by rintro ⟨⟩)
  | cons c r =>
      refine Bool.eq_false_of_not_eq_true fun hc ↦ ?_
      change isConcatTerminator c = true at hc
      have hkinds : ∀ c, isConcatTerminator c = true → ¬ c = chr '(' ∧ ¬ c = chr '[' ∧ ¬ c = chr '"' ∧
          ¬ c = chr '{' ∧ ¬ c = chr '.' ∧ ¬ c = chr '\\' ∧ (¬ (c = chr ')' ∨ c = chr '|' ∨ c = chr '$') → c = 0) := by
        decide +kernel
      obtain ⟨h₁, h₂, h₃, h₄, h₅, h₆, hzero⟩ := hkinds c hc
      rw [eval_parsePrimary_cons, if_neg h₁, if_neg h₂, if_neg h₃, if_neg h₄, if_neg h₅, if_neg h₆] at h
      by_cases h₇ : c = chr ')' ∨ c = chr '|' ∨ c = chr '$'
      · rw [if_pos h₇] at h
        exact Option.some_ne_none _ (Prod.mk.inj (Option.some.inj h)).1.symm
      · rw [if_neg h₇, if_pos (hzero h₇)] at h
        exact Option.some_ne_none _ (Prod.mk.inj (Option.some.inj h)).1.symm

/-- The tree of a text is the body, or has an anchor at the root. -/
theorem exists_body {n : Nat} {t : Node} {s' : ParseState} (h : parseTop n env s = some (some t, s')) :
    roots t = 0 ∨ s.rest.getD 0 0 ≠ chr '^' ∧ ∃ s₁, parseAlt n env s = some (t, s₁) := by
  obtain ⟨bol, s₁, hbol, h⟩ := exists_of_eval_bind h
  obtain ⟨body, s₂, hbody, h⟩ := exists_of_eval_bind h
  obtain ⟨eol, s₃, -, h⟩ := exists_of_eval_bind h
  rw [eval_bind_of (eval_atEnd s₃), eval_ite] at h
  by_cases hend : (!s₃.rest.isEmpty) = true
  · rw [if_pos hend] at h
    obtain ⟨c, s₄, -, h⟩ := exists_of_eval_bind h
    obtain ⟨_, s₅, -, h⟩ := exists_of_eval_bind h
    exact (Option.some_ne_none _ (Prod.mk.inj (Option.some.inj h)).1.symm).elim
  rw [if_neg hend] at h
  obtain ⟨ht, -⟩ := Prod.mk.inj (Option.some.inj h)
  obtain rfl := Option.some.inj ht
  rw [eval_accept] at hbol
  cases bol with
  | true => exact Or.inl rfl
  | false =>
      cases eol with
      | true => exact Or.inl rfl
      | false =>
          right
          split_ifs at hbol with hhat
          · exact absurd (Prod.mk.inj (Option.some.inj hbol)).1.symm Bool.false_ne_true
          · obtain ⟨-, rfl⟩ := Prod.mk.inj (Option.some.inj hbol)
            exact ⟨hhat, s₂, hbody⟩

/-- The first part of a text, and what is made of the rest. -/
theorem exists_first {n : Nat} {p : List Byte} {b t : Node} {s₁ s' : ParseState}
    (hterm : isConcatTerminator (p.getD 0 0) = false)
    (hfirst : parsePostfix (parseAlt n) env ⟨p, d⟩ = some (some b, s₁))
    (h : parseTop (n + 1) env ⟨p, d⟩ = some (some t, s')) :
    roots t = 0 ∨ ∃ m s₂, concatLoop (parseAlt n) env m (some b) s₁ = some (some t, s₂) := by
  rcases exists_body h with hzero | ⟨-, s₂, hbody⟩
  · exact Or.inl hzero
  rw [parseAlt] at hbody
  obtain ⟨l, s₃, hconcat, halt⟩ := exists_of_eval_bind hbody
  rw [eval_bind_of (eval_remaining s₃)] at halt
  rcases altLoop_roots halt with rfl | hzero
  · rw [parseConcat, eval_bind_of (eval_remaining _)] at hconcat
    obtain ⟨o, s₄, hloop, hlast⟩ := exists_of_eval_bind hconcat
    obtain ⟨c, r, rfl⟩ : ∃ c r, p = c :: r := by
      cases p with
      | nil => exact absurd hterm (by decide)
      | cons c r => exact ⟨c, r, rfl⟩
    obtain ⟨k, d'⟩ := s₁
    rw [eval_concatLoop_step hterm hfirst] at hloop
    obtain ⟨t', rfl, -⟩ := concatLoop_roots hloop
    obtain ⟨rfl, -⟩ := Prod.mk.inj (Option.some.inj hlast)
    exact Or.inr ⟨_, _, hloop⟩
  · exact Or.inl hzero

/-- A text of one part. -/
theorem eval_parseTop_one {n : Nat} {p : List Byte} {b : Node} {d' : List Diag} (hp : p.getD 0 0 ≠ chr '^')
    (hterm : isConcatTerminator (p.getD 0 0) = false)
    (hfirst : parsePostfix (parseAlt n) env ⟨p, d⟩ = some (some b, ⟨[], d'⟩)) :
    parseTop (n + 1) env ⟨p, d⟩ = some (some b, ⟨[], d'⟩) := by
  obtain ⟨c, r, rfl⟩ : ∃ c r, p = c :: r := by
    cases p with
    | nil => exact absurd hterm (by decide)
    | cons c r => exact ⟨c, r, rfl⟩
  have hloop : concatLoop (parseAlt n) env ((c :: r).length + 1) none ⟨c :: r, d⟩ = some (some b, ⟨[], d'⟩) := by
    rw [eval_concatLoop_step hterm hfirst]
    exact eval_concatLoop_stop (by decide) _ _
  have halt : parseAlt (n + 1) env ⟨c :: r, d⟩ = some (b, ⟨[], d'⟩) := by
    rw [parseAlt, eval_bind_of (eval_parseConcat hloop), eval_bind_of (eval_remaining _)]
    exact eval_altLoop_stop (by decide) _
  rw [parseTop, eval_bind_of ((eval_accept _ _).trans (if_neg hp)), eval_bind_of halt]
  rfl

theorem exists_parseTop {n : Nat} {p : List Byte} {o : Option Node}
    (h : parseRegex n env p = some (o, d)) : ∃ s', parseTop n env { rest := p } = some (o, s') ∧ s'.diags = d := by
  obtain ⟨⟨o', s'⟩, htop, heq⟩ := Option.map_eq_some_iff.1 h
  obtain ⟨rfl, rfl⟩ := Prod.mk.inj heq
  exact ⟨s', htop, rfl⟩

/-- A backslash takes the first byte of an operator. -/
theorem eval_parsePrimary_backslash {e : Byte} (he : isOperatorByte e = true) (r : List Byte) :
    parsePrimary rec env ⟨chr '\\' :: e :: r, d⟩ = some (some (litNode e env.ci), ⟨r, d⟩) := by
  have hplain : ∀ e, isOperatorByte e = true → ¬ e = 0 ∧ (controlEscapes.find? fun e' ↦ chr e'.1 = e) = none ∧
      ¬ isOctal e = true ∧ ¬ e = chr 'x' := by decide +kernel
  obtain ⟨hzero, hfind, hoctal, hx⟩ := hplain e he
  have hread : readEscapeByte ⟨chr '\\' :: e :: r, d⟩ = some (e, ⟨r, d⟩) := by
    rw [eval_readEscapeByte_cons, if_neg hzero, hfind]
    exact (if_neg hoctal).trans (if_neg hx)
  rw [eval_parsePrimary_cons]
  change (parseEscapeAtom env >>= fun t ↦ Pure.pure (some t)) _ = _
  rw [parseEscapeAtom, eval_bind_of (eval_bind_of hread)]
  rfl

/-- So it is not the operand. -/
theorem roots_backslash {n : Nat} {qs : List Postfix} {t : Node} {s' : ParseState} (hne : qs ≠ [])
    (h : parseTop (n + 1) env ⟨chr '\\' :: qs.flatMap render, d⟩ = some (some t, s')) :
    roots t < qs.length := by
  obtain ⟨q, qs, rfl⟩ := List.exists_cons_of_ne_nil hne
  rw [List.flatMap_cons] at h
  have hfirst : ∃ b s₁, parsePostfix (parseAlt n) env ⟨chr '\\' :: (q.render ++ qs.flatMap render), d⟩ =
      some (some b, s₁) ∧ roots b < (q :: qs).length := by
    have hlit : ∀ e, roots (litNode e env.ci) = 0 := fun _ ↦ rfl
    have hsimple : ∀ e, isOperatorByte e = true → ∃ b s₁,
        parsePostfix (parseAlt n) env ⟨chr '\\' :: ([e] ++ qs.flatMap render), d⟩ = some (some b, s₁) ∧
          roots b < (q :: qs).length := by
      intro e he
      cases qs with
      | nil => exact ⟨_, _, eval_parsePostfix_plain (eval_parsePrimary_backslash he _) rfl, Nat.zero_lt_one⟩
      | cons q' qs =>
          refine ⟨_, _, q'.eval_parsePostfix (eval_parsePrimary_backslash he _), ?_⟩
          rw [roots_tree, hlit, List.length_cons, List.length_cons]
          omega
    cases q with
    | counts q =>
        obtain ⟨b, w, hinner, hb⟩ := q.exists_digit_inner
        have hdigit : ∀ b, isDigit b = true → isOperatorByte b = false := by decide +kernel
        refine ⟨_, _, eval_parsePostfix_plain (eval_parsePrimary_backslash (e := chr '{') (by decide) _) ?_,
          Nat.succ_pos _⟩
        change isOperatorByte ((q.inner ++ [chr '}'] ++ qs.flatMap render).getD 0 0) = false
        rw [hinner]
        exact hdigit b hb
    | star | plus | question => exact hsimple _ (by decide)
  obtain ⟨b, s₁, hpostfix, hb⟩ := hfirst
  have hterm : isConcatTerminator ((chr '\\' :: (q.render ++ qs.flatMap render)).getD 0 0) = false :=
    (by decide : isConcatTerminator (chr '\\') = false)
  rcases exists_first hterm hpostfix h with hzero | ⟨m, s₂, hloop⟩
  · rw [hzero]
    exact Nat.succ_pos _
  · obtain ⟨t', ht', hsame⟩ := concatLoop_roots hloop
    obtain rfl := Option.some.inj ht'
    rcases hsame with rfl | hzero
    · exact hb
    · rw [hzero]
      exact Nat.succ_pos _

/-- Operators stack exactly if there is one, its bounds fit, and the operand is neither a lone `^`
nor a lone backslash. -/
theorem stacks_iff {p : List Byte} (hoperand : Operand env p a) {qs : List Postfix} (hne : qs ≠ [])
    (hord : ∀ q ∈ qs, q.Ordered) :
    Stack env p a qs ↔ (∃ q, qs = [q] ∧ q.Fits) ∧ p ≠ [chr '^'] ∧ p ≠ [chr '\\'] := by
  obtain ⟨n, d, hread, hok⟩ := hoperand
  have hterm := not_terminator hread
  obtain ⟨c, r, rfl⟩ : ∃ c r, p = c :: r := by
    cases p with
    | nil => exact absurd hterm (by decide)
    | cons c r => exact ⟨c, r, rfl⟩
  constructor
  · rintro ⟨n', t, d', hparse, -, hnested⟩
    have hroots := roots_nested hnested
    have hlen := List.length_pos_of_ne_nil hne
    obtain ⟨s', htop, -⟩ := exists_parseTop hparse
    have htop := parseTop_mono ((le_max_right n n').trans (Nat.le_succ _)) htop
    have hread : parsePrimary (parseAlt (max n n')) env ⟨c :: r, []⟩ = some (some a, ⟨[], d⟩) := by
      obtain ⟨ws, rfl, hmore⟩ := (parsePrimary_local (le_max_left n n') env).rerun hread []
      exact hmore
    have hhat : c :: r ≠ [chr '^'] := by
      intro hp
      rw [hp] at htop
      rcases exists_body htop with hzero | ⟨hhat, -⟩
      · omega
      · exact hhat rfl
    have hbackslash : c :: r ≠ [chr '\\'] := by
      intro hp
      rw [hp] at htop
      have hlt := roots_backslash hne htop
      omega
    refine ⟨?_, hhat, hbackslash⟩
    obtain ⟨q, qs, rfl⟩ := List.exists_cons_of_ne_nil hne
    have hbefore : parsePrimary (parseAlt (max n n')) env ⟨c :: r ++ (q.render ++ qs.flatMap render), []⟩ =
        some (some a, ⟨q.render ++ qs.flatMap render, d⟩) :=
      eval_parsePrimary_before hbackslash (q.isOperatorByte_render _) hok hread
    rw [List.flatMap_cons] at htop
    have hhead : isConcatTerminator ((c :: r ++ (q.render ++ qs.flatMap render)).getD 0 0) = false := hterm
    rcases exists_first hhead (q.eval_parsePostfix hbefore) htop with hzero | ⟨m, s₂, hloop⟩
    · omega
    cases qs with
    | nil =>
        refine ⟨q, rfl, ?_⟩
        obtain ⟨b, hb, rfl⟩ := hnested
        obtain ⟨t', ht', hsame⟩ := concatLoop_roots hloop
        obtain rfl := Option.some.inj ht'
        rcases hsame with rfl | hzero
        · exact (builds_tree_iff (hord q List.mem_cons_self) a).1 hb
        · omega
    | cons q' qs =>
        -- the second operator is an operand of its own
        rw [List.flatMap_cons] at hloop
        obtain ⟨t', ht', hzero⟩ := concatLoop_operator (q'.isOperatorByte_render _) hloop
        obtain rfl := Option.some.inj ht'
        omega
  · rintro ⟨⟨q, rfl, hfits⟩, hhat, hbackslash⟩
    have hbefore := eval_parsePrimary_before hbackslash (q.isOperatorByte_render []) hok hread
    have hstart : c ≠ chr '^' := by
      rintro rfl
      -- the operand is a single byte
      obtain ⟨-, hs⟩ := Prod.mk.inj (Option.some.inj ((eval_parsePrimary_cons _ env _ r []).symm.trans hread))
      exact hhat (by rw [(ParseState.mk.inj hs).1])
    have htop : parseTop (n + 1) env ⟨c :: r ++ (q.render ++ []), []⟩ = some (some (q.tree a), ⟨[], d⟩) :=
      eval_parseTop_one hstart hterm (q.eval_parsePostfix hbefore)
    refine ⟨n + 1, q.tree a, d, ?_, hok, q.tree a, (builds_tree_iff (hord q List.mem_cons_self) a).2 hfits, rfl⟩
    rw [List.flatMap_cons, List.flatMap_nil, parseRegex, htop]
    rfl

/-- `a?` -/
theorem stacks_question : Stack { macros := fun _ ↦ none } [chr 'a'] (litNode (chr 'a') false) [question] := by
  have hoperand : Operand { macros := fun _ ↦ none } [chr 'a'] (litNode (chr 'a') false) := ⟨0, [], rfl, rfl⟩
  refine (stacks_iff hoperand (List.cons_ne_nil _ _) fun q hq ↦ ?_).2 ⟨⟨_, rfl, trivial⟩, by decide, by decide⟩
  rw [List.mem_singleton.1 hq]
  trivial

/-- `a**` is read as `a*` and a literal. -/
theorem not_stack_star : Operand { macros := fun _ ↦ none } [chr 'a'] (litNode (chr 'a') false) ∧
    ¬ Stack { macros := fun _ ↦ none } [chr 'a'] (litNode (chr 'a') false) [star, star] := by
  refine ⟨⟨0, [], rfl, rfl⟩, ?_⟩
  rintro ⟨n, t, d, hparse, -, b, hb, b', hb', ht⟩
  obtain ⟨s', htop, -⟩ := exists_parseTop hparse
  have hread : parseTop 1 { macros := fun _ ↦ none } { rest := [chr 'a', chr '*', chr '*'] } =
      some (some (.concat (.star (litNode (chr 'a') false)) (litNode (chr '*') false)), { rest := [] }) := rfl
  have hsame := (parseTop_mono (le_max_left n 1) htop).symm.trans (parseTop_mono (le_max_right n 1) hread)
  obtain rfl := Option.some.inj (Prod.mk.inj (Option.some.inj hsame)).1
  obtain rfl := hb'
  exact absurd ht nofun

end Postfix

end LexCpp
