import LexCpp.Data.Int32
import LexCpp.Regex.Parser

/-!
# Patterns with trailing context

`parse_pattern`: a pattern is a regex, or `r/s` with the `/` outside classes, quotes and
parentheses.  The tail `s` is cut off again when the rule matches, by its length if that is
fixed and otherwise at a marker between the two parts.
-/

namespace LexCpp

/-! ## The slash -/

/-- The loop of `find_top_level_slash` from index `i`; after `escaped` a byte is passed over. -/
def slashFrom (depth : Nat) (inClass inQuoted escaped : Bool) (i : Nat) : List Byte → Int
  | [] => -1
  | c :: cs =>
      if escaped then slashFrom depth inClass inQuoted false (i + 1) cs
      else if c = chr '\\' ∧ cs ≠ [] then slashFrom depth inClass inQuoted true (i + 1) cs
      else if inClass then slashFrom depth (c != chr ']') inQuoted false (i + 1) cs
      else if inQuoted then slashFrom depth inClass (c != chr '"') false (i + 1) cs
      else if c = chr '[' then slashFrom depth true inQuoted false (i + 1) cs
      else if c = chr '"' then slashFrom depth inClass true false (i + 1) cs
      else if c = chr '(' then slashFrom (depth + 1) inClass inQuoted false (i + 1) cs
      else if c = chr ')' then slashFrom (depth - 1) inClass inQuoted false (i + 1) cs
      else if c = chr '/' ∧ depth = 0 then int32 i
      else slashFrom depth inClass inQuoted false (i + 1) cs

def findTopLevelSlash (src : List Byte) : Int := slashFrom 0 false false false 0 src

/-! ## Lengths -/

namespace Node

/-- `fixed_length`: the length of all the words of a tree, `-1` if it varies. -/
def fixedLength : Node → Int
  | empty | anchorBOL | anchorEOL | trailBoundary => 0
  | cls _ => 1
  | concat a b =>
      if a.fixedLength < 0 then -1
      else if b.fixedLength < 0 then -1
      else int32 (a.fixedLength + b.fixedLength)
  | alt a b =>
      if a.fixedLength < 0 ∨ b.fixedLength < 0 ∨ a.fixedLength ≠ b.fixedLength then -1
      else a.fixedLength
  | star _ | plus _ | question _ => -1
  | rep lo hi a =>
      if lo = hi ∧ hi ≠ kInf then
        if a.fixedLength < 0 then -1 else int32 (a.fixedLength * int32 lo)
      else -1

def peekIsEolAnchor : Node → Bool
  | anchorEOL => true
  | concat _ anchorEOL => true
  | _ => false

/-- `strip_eol_anchor`; nothing is left of a lone `$`, for which `parse_pattern` has the
empty regex. -/
def stripEolAnchor : Node → Node
  | anchorEOL => empty
  | concat a anchorEOL => a
  | t => t

/-- The `^` lifted off the head of `r/s`. -/
def liftBol : Node → Node × Bool
  | concat anchorBOL b => (b, true)
  | t => (t, false)

/-- The class of the newline that a `$` stands for. -/
def newlineNode : Node := cls (ByteSet.add {} newline)

end Node

/-! ## Patterns -/

structure ParsedPattern where
  tree : Option Node := none
  trailLen : Int := 0
  eolAnchored : Bool := false
deriving DecidableEq, Repr

def headEolMsg : String := "`$` is not permitted on the head of `r/s`"

def dangerousMsg : String := "dangerous trailing context (r and s both variable-length)"

/-- The tree of `r/s` with a tail of fixed length. -/
def fixedTree (r s : Node) (eol : Bool) : Node :=
  if eol then .concat (.concat r s) .newlineNode else .concat r s

/-- The tree of `r/s` with a marker where `r` ends. -/
def markedTree (r s : Node) (eol : Bool) : Node :=
  .concat r
    (if eol then .concat (.concat .trailBoundary s) .newlineNode else .concat .trailBoundary s)

/-- `parse_pattern` from the trees of the two parts, with the diagnostics it adds. -/
def joinTrail (loc : SourceLoc) (r s : Node) : ParsedPattern × List Diag :=
  let (r, headBol) := r.liftBol
  let eol := s.peekIsEolAnchor
  let s := s.stripEolAnchor
  if r.peekIsEolAnchor then ({}, [⟨.error, loc, headEolMsg⟩])
  else
    let len := s.fixedLength
    if 0 ≤ len then
      ({ tree := some (Node.withBol headBol (fixedTree r s eol))
         trailLen := int32 (len + if eol then 1 else 0) }, [])
    else
      ({ tree := some (Node.withBol headBol (markedTree r s eol))
         trailLen := -1 },
        if r.fixedLength < 0 then [⟨.warning, loc, dangerousMsg⟩] else [])

/-- `parse_pattern`, with the diagnostics it reports. -/
def parsePattern (fuel : Nat) (env : ParseEnv) (src : List Byte) :
    Option (ParsedPattern × List Diag) := do
  let slash := findTopLevelSlash src
  if slash < 0 then
    let (tree, diags) ← parseRegex fuel env src
    return ({ tree, eolAnchored := tree.any Node.peekIsEolAnchor }, diags)
  let (r, rDiags) ← parseRegex fuel env (src.take slash.toNat)
  let (s, sDiags) ← parseRegex fuel env (src.drop (slash.toNat + 1))
  match r, s with
  | some r, some s =>
      let (out, diags) := joinTrail env.loc r s
      return (out, rDiags ++ sDiags ++ diags)
  | _, _ => return ({}, rDiags ++ sDiags)

/-! ## Words of fixed length -/

namespace Node

/-- The length of all the words of a tree, if they have the same for a reason that
`fixed_length` sees. -/
def exactLength : Node → Option Nat
  | empty | anchorBOL | anchorEOL | trailBoundary => some 0
  | cls _ => some 1
  | concat a b => a.exactLength.bind fun m ↦ b.exactLength.map fun n ↦ m + n
  | alt a b => a.exactLength.bind fun m ↦ b.exactLength.bind fun n ↦ if m = n then some m else none
  | star _ | plus _ | question _ => none
  | rep lo hi a => if lo = hi ∧ hi ≠ kInf then a.exactLength.map fun m ↦ m * lo else none

/-- No part of the tree has words of a fixed length that does not fit an `int`. -/
def lengthsFit (t : Node) : Bool := t.all fun u ↦ u.exactLength.all (· < 2147483648)

theorem exactLength_lt {t : Node} (h : t.lengthsFit = true) {n : Nat}
    (hn : t.exactLength = some n) : n < 2147483648 := by
  have hroot : t.exactLength.all (· < 2147483648) = true := by
    unfold lengthsFit at h
    cases t <;> simp only [all, Bool.and_eq_true] at h <;> first | exact h.1.1 | exact h.1 | exact h
  rw [hn] at hroot
  simpa using hroot

/-- The sums and products that `fixed_length` forms stay below 2^31.  It goes down only into the
parts whose length it needs. -/
def FormsFit : Node → Prop
  | concat a b => a.FormsFit ∧ (0 ≤ a.fixedLength →
      b.FormsFit ∧ (0 ≤ b.fixedLength → a.fixedLength + b.fixedLength < 2147483648))
  | alt a b => a.FormsFit ∧ b.FormsFit
  | rep lo hi a => lo = hi ∧ hi ≠ kInf →
      a.FormsFit ∧ (0 ≤ a.fixedLength → a.fixedLength * lo < 2147483648)
  | _ => True

/-- `fixed_length` as an option. -/
theorem FormsFit.fixedLength_eq {t : Node} (h : t.FormsFit) :
    t.fixedLength = t.exactLength.elim (-1) fun n : Nat ↦ (n : Int) := by
  induction t with
  | concat a b iha ihb =>
      obtain ⟨ha, hb⟩ := h
      have hla := iha ha
      rw [fixedLength, exactLength]
      cases hm : a.exactLength with
      | none =>
          rw [hm] at hla
          rw [hla]
          rfl
      | some m =>
          rw [hm] at hla
          change a.fixedLength = m at hla
          obtain ⟨hb, hsum⟩ := hb (hla.symm ▸ Int.natCast_nonneg m)
          have hlb := ihb hb
          rw [if_neg (hla.symm ▸ (Int.natCast_nonneg m).not_gt)]
          cases hn : b.exactLength with
          | none =>
              rw [hn] at hlb
              rw [hlb]
              rfl
          | some n =>
              rw [hn] at hlb
              change b.fixedLength = n at hlb
              have hlt := hsum (hlb.symm ▸ Int.natCast_nonneg n)
              rw [if_neg (hlb.symm ▸ (Int.natCast_nonneg n).not_gt)]
              rw [hla, hlb] at hlt ⊢
              exact int32_natCast (n := m + n) (by exact_mod_cast hlt)
  | alt a b iha ihb =>
      rw [fixedLength, iha h.1, ihb h.2, exactLength]
      cases ha : a.exactLength with
      | none => rfl
      | some m =>
          cases hb : b.exactLength with
          | none => simp
          | some n => by_cases hmn : m = n <;> simp [hmn]
  | rep lo hi a ih =>
      rw [fixedLength, exactLength]
      by_cases hlo : lo = hi ∧ hi ≠ kInf
      · obtain ⟨ha, hprod⟩ := h hlo
        have hla := ih ha
        rw [if_pos hlo, if_pos hlo]
        cases hm : a.exactLength with
        | none =>
            rw [hm] at hla
            rw [hla]
            rfl
        | some m =>
            rw [hm] at hla
            change a.fixedLength = m at hla
            have hlt := hprod (hla.symm ▸ Int.natCast_nonneg m)
            rw [if_neg (hla.symm ▸ (Int.natCast_nonneg m).not_gt)]
            rw [hla] at hlt ⊢
            change int32 (m * int32 lo) = ((m * lo : Nat) : Int)
            have hlt : m * lo < 2147483648 := by exact_mod_cast hlt
            rcases Nat.eq_zero_or_pos m with rfl | hm
            · simp [int32]
            · rw [int32_natCast ((Nat.le_mul_of_pos_left lo hm).trans_lt hlt), ← Nat.cast_mul,
                int32_natCast hlt]
      · rw [if_neg hlo, if_neg hlo]
        rfl
  | _ => rfl

theorem formsFit_of_lengthsFit {t : Node} (h : t.lengthsFit = true) : t.FormsFit := by
  induction t with
  | concat a b iha ihb =>
      have hfit := fun {n} ↦ exactLength_lt (n := n) h
      simp only [lengthsFit, all, Bool.and_eq_true] at h
      refine ⟨iha h.1.2, fun hla ↦ ⟨ihb h.2, fun hlb ↦ ?_⟩⟩
      rw [(iha h.1.2).fixedLength_eq] at hla ⊢
      rw [(ihb h.2).fixedLength_eq] at hlb ⊢
      cases ha : a.exactLength with
      | none => exact absurd (ha ▸ hla) (by decide)
      | some m =>
          cases hb : b.exactLength with
          | none => exact absurd (hb ▸ hlb) (by decide)
          | some n =>
              have hlt : m + n < 2147483648 := hfit (by simp [exactLength, ha, hb])
              change (m : Int) + n < 2147483648
              exact_mod_cast hlt
  | alt a b iha ihb =>
      simp only [lengthsFit, all, Bool.and_eq_true] at h
      exact ⟨iha h.1.2, ihb h.2⟩
  | rep lo hi a ih =>
      have hfit := fun {n} ↦ exactLength_lt (n := n) h
      simp only [lengthsFit, all, Bool.and_eq_true] at h
      refine fun hlo ↦ ⟨ih h.2, fun hla ↦ ?_⟩
      rw [(ih h.2).fixedLength_eq] at hla ⊢
      cases ha : a.exactLength with
      | none => exact absurd (ha ▸ hla) (by decide)
      | some m =>
          have hlt : m * lo < 2147483648 := hfit (by simp [exactLength, ha, hlo])
          change (m : Int) * lo < 2147483648
          exact_mod_cast hlt
  | _ => trivial

theorem fixedLength_eq {t : Node} (h : t.lengthsFit = true) :
    t.fixedLength = t.exactLength.elim (-1) fun n : Nat ↦ (n : Int) :=
  (formsFit_of_lengthsFit h).fixedLength_eq

theorem length_of_mem_pow {L : Language Byte} {m : Nat} (hL : ∀ w ∈ L, w.length = m) {k : Nat}
    {w : List Byte} (hw : w ∈ L ^ k) : w.length = m * k := by
  induction k generalizing w with
  | zero =>
      obtain rfl := Language.mem_one _ |>.1 (by simpa using hw)
      simp
  | succ k ih =>
      rw [pow_succ] at hw
      obtain ⟨u, hu, v, hv, rfl⟩ := Language.mem_mul.1 hw
      rw [List.length_append, ih hu, hL v hv, Nat.mul_succ]

theorem length_of_exactLength {t : Node} {n : Nat} (h : t.exactLength = some n) {w : List Byte}
    (hw : w ∈ t.lang) : w.length = n := by
  induction t generalizing n w with
  | empty | anchorBOL | anchorEOL | trailBoundary =>
      obtain rfl := Option.some.inj h
      obtain rfl := (Language.mem_one w).1 hw
      rfl
  | cls s =>
      obtain rfl := Option.some.inj h
      obtain ⟨b, -, rfl⟩ := hw
      rfl
  | concat a b iha ihb =>
      obtain ⟨m, hm, h⟩ := Option.bind_eq_some_iff.1 h
      obtain ⟨k, hk, rfl⟩ := Option.map_eq_some_iff.1 h
      obtain ⟨u, hu, v, hv, rfl⟩ := Language.mem_mul.1 hw
      rw [List.length_append, iha hm hu, ihb hk hv]
  | alt a b iha ihb =>
      obtain ⟨m, hm, h⟩ := Option.bind_eq_some_iff.1 h
      obtain ⟨k, hk, h⟩ := Option.bind_eq_some_iff.1 h
      split_ifs at h with hmk
      obtain rfl := Option.some.inj h
      subst hmk
      exact (Language.mem_add _ _ _ |>.1 hw).elim (iha hm) (ihb hk)
  | rep lo hi a ih =>
      rw [exactLength] at h
      split_ifs at h with hlo
      obtain ⟨m, hm, rfl⟩ := Option.map_eq_some_iff.1 h
      obtain ⟨k, hk, hk', hw⟩ := hw
      obtain rfl : k = lo := by
        rcases hk' with hk' | hk'
        · exact absurd hk' hlo.2
        · rw [← hlo.1, max_self] at hk'
          exact le_antisymm hk' hk
      exact length_of_mem_pow (fun w ↦ ih hm) hw
  | _ => exact absurd h (Option.some_ne_none n).symm

/-- Nothing in the tree varies in length: no `*`, `+` and `?`, no repetition whose bounds differ
or that has no upper one, and no alternation between two lengths. -/
def uniform (t : Node) : Bool :=
  t.all fun
    | star _ | plus _ | question _ => false
    | rep lo hi _ => lo = hi && hi != kInf
    | alt a b => a.exactLength.all fun m ↦ b.exactLength.all fun n ↦ m = n
    | _ => true

theorem exists_exactLength_of_uniform {t : Node} (h : t.uniform = true) :
    ∃ n, t.exactLength = some n := by
  unfold uniform at h
  induction t with
  | concat a b iha ihb =>
      simp only [all, Bool.true_and, Bool.and_eq_true] at h
      obtain ⟨m, hm⟩ := iha h.1
      obtain ⟨n, hn⟩ := ihb h.2
      exact ⟨m + n, by simp [exactLength, hm, hn]⟩
  | alt a b iha ihb =>
      simp only [all, Bool.and_eq_true] at h
      obtain ⟨m, hm⟩ := iha h.1.2
      obtain ⟨n, hn⟩ := ihb h.2
      have hmn : m = n := by simpa [hm, hn] using h.1.1
      exact ⟨m, by simp [exactLength, hm, hn, hmn]⟩
  | rep lo hi a ih =>
      simp only [all, Bool.and_eq_true, decide_eq_true_eq, bne_iff_ne] at h
      obtain ⟨m, hm⟩ := ih h.2
      exact ⟨m * lo, by rw [exactLength, if_pos h.1, hm]; rfl⟩
  | star a | plus a | question a =>
      simp only [all, Bool.false_and] at h
      exact absurd h Bool.false_ne_true
  | _ => exact ⟨_, rfl⟩

/-- The length that `fixed_length` gives is the length of all words, and it gives one to every
tree in which nothing varies. -/
theorem fixedLength_sound {t : Node} (hfit : t.FormsFit) :
    (0 ≤ t.fixedLength → ∀ w ∈ t.lang, (w.length : Int) = t.fixedLength) ∧
    (t.uniform = true → ∃ k : Nat, t.fixedLength = k ∧ ∀ w ∈ t.lang, w.length = k) := by
  have heq := hfit.fixedLength_eq
  constructor
  · intro h w hw
    rw [heq] at h ⊢
    cases hn : t.exactLength with
    | none =>
        rw [hn] at h
        exact absurd h (by decide)
    | some n => exact congrArg _ (length_of_exactLength hn hw)
  · intro h
    obtain ⟨n, hn⟩ := exists_exactLength_of_uniform h
    rw [hn] at heq
    exact ⟨n, heq, fun w ↦ length_of_exactLength hn⟩

/-- The tail of `x/(ab|cd){3}$`. -/
theorem fixedLength_sound_repeat :
    let letter : Byte → Node := fun b ↦ cls (ByteSet.add {} b)
    let pair : Byte → Byte → Node := fun b c ↦ concat (letter b) (letter c)
    let t := concat (rep 3 3 (alt (pair 97 98) (pair 99 100))) anchorEOL
    t.fixedLength = 6 ∧ ∀ w ∈ t.lang, (w.length : Int) = t.fixedLength := by
  intro letter pair t
  have hlen : t.fixedLength = 6 := by decide
  refine ⟨hlen, (fixedLength_sound (t := t) ?_).1 (by rw [hlen]; decide)⟩
  have hpair : ∀ b c, (pair b c).FormsFit := fun b c ↦
    ⟨trivial, fun _ ↦ ⟨trivial, fun _ ↦ show (1 : Int) + 1 < 2147483648 by decide⟩⟩
  exact ⟨fun _ ↦ ⟨⟨hpair 97 98, hpair 99 100⟩, fun _ ↦ by decide⟩,
    fun _ ↦ ⟨trivial, fun _ ↦ by decide⟩⟩

end Node

/-! ## The two parts -/

namespace Node

/-- What `s` in `r/s` matches: a final `$` stands for a newline. -/
def followed (s : Node) : Node := if s.peekIsEolAnchor then .concat s newlineNode else s

theorem Plain.liftBol {t : Node} (h : t.Plain) : t.liftBol = (t, false) := by
  unfold Node.liftBol
  split
  · exact absurd (plain_concat.1 h).1.1 (by decide)
  · rfl

theorem Plain.peekIsEolAnchor {t : Node} (h : t.Plain) : t.peekIsEolAnchor = false := by
  unfold Node.peekIsEolAnchor
  split
  · exact absurd h.1 (by decide)
  · exact absurd (plain_concat.1 h).2.1 (by decide)
  · rfl

theorem Plain.stripEolAnchor {t : Node} (h : t.Plain) : t.stripEolAnchor = t := by
  unfold Node.stripEolAnchor
  split
  · exact absurd h.1 (by decide)
  · exact absurd (plain_concat.1 h).2.1 (by decide)
  · rfl

theorem liftBol_withEol {t : Node} (h : t.Plain) (eol : Bool) :
    (withEol eol t).liftBol = (withEol eol t, false) := by
  cases eol with
  | false => exact h.liftBol
  | true =>
      change liftBol (concat t anchorEOL) = (concat t anchorEOL, false)
      unfold liftBol
      split
      · rename_i heq
        obtain ⟨rfl, -⟩ := Node.concat.inj heq
        exact absurd h.1 (by decide)
      · rfl

theorem liftBol_withBol {t : Node} (h : t.Plain) (bol eol : Bool) :
    (withBol bol (withEol eol t)).liftBol = (withEol eol t, bol) := by
  cases bol with
  | false => exact liftBol_withEol h eol
  | true => rfl

theorem peekIsEolAnchor_withEol {t : Node} (h : t.Plain) (eol : Bool) :
    (withEol eol t).peekIsEolAnchor = eol := by
  cases eol with
  | false => exact h.peekIsEolAnchor
  | true => rfl

theorem stripEolAnchor_withEol {t : Node} (h : t.Plain) (eol : Bool) :
    (withEol eol t).stripEolAnchor = t := by
  cases eol with
  | false => exact h.stripEolAnchor
  | true => rfl

theorem withBol_false (t : Node) : withBol false t = t := rfl

@[simp] theorem lang_withBol (bol : Bool) (t : Node) : (withBol bol t).lang = t.lang := by
  cases bol with
  | false => rfl
  | true => exact one_mul t.lang

@[simp] theorem lang_withEol (eol : Bool) (t : Node) : (withEol eol t).lang = t.lang := by
  cases eol with
  | false => rfl
  | true => exact mul_one t.lang

end Node

theorem parseRegex_spec {fuel : Nat} {env : ParseEnv} {src : List Byte} {o : Option Node}
    {diags : List Diag} (h : parseRegex fuel env src = some (o, diags)) :
    (o = none → Diag.ok diags = false) ∧
      ∀ t ∈ o, ∃ body eol, body.Plain ∧
        t = Node.withBol (src.getD 0 0 == chr '^') (Node.withEol eol body) := by
  obtain ⟨⟨o', s'⟩, hs, heq⟩ := Option.map_eq_some_iff.1 h
  obtain ⟨rfl, rfl⟩ := Prod.mk.inj heq
  exact Parser.parseTop_spec fuel env { rest := src } _ _ hs

theorem Diag.ok_append {ds ds' : List Diag} :
    Diag.ok (ds ++ ds') = true ↔ Diag.ok ds = true ∧ Diag.ok ds' = true := by
  rw [Diag.ok, List.all_append, Bool.and_eq_true]
  rfl

theorem joinTrail_eq {loc : SourceLoc} {r s : Node} (hr : r.Plain) (hs : s.Plain)
    {bol reol eol : Bool} :
    joinTrail loc (Node.withBol bol (Node.withEol reol r)) (Node.withEol eol s) =
      if reol then ({}, [⟨.error, loc, headEolMsg⟩])
      else if 0 ≤ s.fixedLength then
        ({ tree := some (Node.withBol bol (fixedTree r s eol))
           trailLen := int32 (s.fixedLength + if eol then 1 else 0) }, [])
      else
        ({ tree := some (Node.withBol bol (markedTree r s eol)), trailLen := -1 },
          if r.fixedLength < 0 then [⟨.warning, loc, dangerousMsg⟩] else []) := by
  unfold joinTrail
  rw [Node.liftBol_withBol hr]
  simp only
  rw [Node.peekIsEolAnchor_withEol hr, Node.peekIsEolAnchor_withEol hs,
    Node.stripEolAnchor_withEol hs]
  cases reol with
  | false => rfl
  | true => rfl

/-- **A pattern `r/s`**, read without an error and without the warning that both parts vary
in length. -/
theorem parsePattern_trail {fuel : Nat} {env : ParseEnv} {src : List Byte} {p : ParsedPattern}
    {diags : List Diag} (h : parsePattern fuel env src = some (p, diags))
    (hslash : 0 ≤ findTopLevelSlash src) (hok : Diag.ok diags = true)
    (hwarn : ⟨.warning, env.loc, dangerousMsg⟩ ∉ diags)
    (hbol : (src.drop ((findTopLevelSlash src).toNat + 1)).getD 0 0 ≠ chr '^') :
    ∃ bol r eol s rDiags sDiags, r.Plain ∧ s.Plain ∧
      parseRegex fuel env (src.take (findTopLevelSlash src).toNat) =
        some (some (Node.withBol bol r), rDiags) ∧
      parseRegex fuel env (src.drop ((findTopLevelSlash src).toNat + 1)) =
        some (some (Node.withEol eol s), sDiags) ∧
      ((0 ≤ s.fixedLength ∧ p.tree = some (Node.withBol bol (fixedTree r s eol)) ∧
          p.trailLen = int32 (s.fixedLength + if eol then 1 else 0)) ∨
        (s.fixedLength < 0 ∧ 0 ≤ r.fixedLength ∧
          p.tree = some (Node.withBol bol (markedTree r s eol)) ∧ p.trailLen = -1)) := by
  unfold parsePattern at h
  simp only at h
  rw [if_neg hslash.not_gt] at h
  obtain ⟨⟨or, rDiags⟩, hr, h⟩ := Option.bind_eq_some_iff.1 h
  obtain ⟨⟨os, sDiags⟩, hs, h⟩ := Option.bind_eq_some_iff.1 h
  obtain ⟨hrnone, hrsome⟩ := parseRegex_spec hr
  obtain ⟨hsnone, hssome⟩ := parseRegex_spec hs
  cases or with
  | none =>
      obtain ⟨-, rfl⟩ := Prod.mk.inj (Option.some.inj h)
      rw [Diag.ok_append, hrnone rfl] at hok
      exact absurd hok.1 (by decide)
  | some rt =>
      cases os with
      | none =>
          obtain ⟨-, rfl⟩ := Prod.mk.inj (Option.some.inj h)
          rw [Diag.ok_append, hsnone rfl] at hok
          exact absurd hok.2 (by decide)
      | some st =>
          obtain ⟨rfl, rfl⟩ := Prod.mk.inj (Option.some.inj h)
          obtain ⟨r, reol, hrp, rfl⟩ := hrsome rt rfl
          obtain ⟨s, eol, hsp, rfl⟩ := hssome st rfl
          rw [beq_eq_false_iff_ne.2 hbol, Node.withBol_false] at hs hok hwarn ⊢
          rw [joinTrail_eq hrp hsp] at hok hwarn ⊢
          rw [Diag.ok_append] at hok
          cases reol with
          | true => exact absurd hok.2 (by simp [Diag.ok])
          | false =>
              refine ⟨_, r, eol, s, rDiags, sDiags, hrp, hsp, hr, hs, ?_⟩
              rcases lt_or_ge s.fixedLength 0 with hneg | hpos
              · rw [if_neg Bool.false_ne_true, if_neg hneg.not_ge] at hwarn ⊢
                refine Or.inr ⟨hneg, ?_, rfl, rfl⟩
                by_contra hvar
                exact hwarn (by simp [not_le.1 hvar])
              · rw [if_neg Bool.false_ne_true, if_pos hpos]
                exact Or.inl ⟨hpos, rfl, rfl⟩

end LexCpp
