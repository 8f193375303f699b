import LexCpp.Automata.Blind
import LexCpp.Regex.Pattern
import LexCpp.Regex.Reading

/-!
# Case-insensitive patterns

With `case_insensitive` set, every byte set that the parser makes has with an ASCII letter the
other case of it, and so the languages of its trees are blind to case.
-/

namespace LexCpp

open Computability

/-! ## Letters -/

/-- The other case of a letter. -/
def otherCase (b : Byte) : Byte :=
  if isLower b then b - chr 'a' + chr 'A' else if isUpper b then b - chr 'A' + chr 'a' else b

/-- The byte with letters in lower case. -/
def lower (b : Byte) : Byte := if isUpper b then otherCase b else b

theorem otherCase_otherCase (b : Byte) : otherCase (otherCase b) = b := by
  revert b
  decide +kernel

theorem otherCase_eq_iff {b c : Byte} : otherCase b = c ↔ b = otherCase c :=
  ⟨fun h ↦ h ▸ (otherCase_otherCase b).symm, fun h ↦ h ▸ otherCase_otherCase c⟩

theorem lower_eq_newline {b : Byte} : lower b = newline ↔ b = newline := by
  revert b
  decide +kernel

/-- Byte strings equal up to the case of ASCII letters. -/
def SameCase (u v : List Byte) : Prop := u.map lower = v.map lower

instance (u v : List Byte) : Decidable (SameCase u v) :=
  inferInstanceAs (Decidable (u.map lower = v.map lower))

/-! ## Byte sets -/

namespace ByteSet

/-- The set has a letter if and only if it has the other case of it. -/
def Caseless (s : ByteSet) : Prop := ∀ b, s.test (otherCase b) = s.test b

theorem Caseless.test_lower {s : ByteSet} (h : s.Caseless) (b : Byte) : s.test (lower b) = s.test b := by
  unfold lower
  split_ifs
  · exact h b
  · rfl

theorem Caseless.test_eq {s : ByteSet} (h : s.Caseless) {b c : Byte} (hbc : lower b = lower c) :
    s.test b = s.test c := by
  rw [← h.test_lower b, ← h.test_lower c, hbc]

theorem Caseless.blind {s : ByteSet} (h : s.Caseless) : Blind lower s.lang :=
  Blind.letters fun _ _ hab ha ↦ (h.test_eq hab).symm.trans ha

theorem Caseless.blind_edgeLang {s : ByteSet} (h : s.Caseless) : Blind lower s.edgeLang := by
  unfold edgeLang
  split_ifs
  · exact Blind.one
  · exact h.blind

theorem caseless_default : Caseless {} := fun b ↦ by rw [test_default, test_default]

theorem test_addByteCi (s : ByteSet) (b c : Byte) :
    (s.addByteCi b true).test c = (s.test c || decide (b = c) || decide (otherCase b = c)) := by
  unfold addByteCi otherCase
  simp only [if_true]
  split_ifs
  · rw [test_add, test_add]
  · rw [test_add, test_add]
  · rw [test_add, Bool.or_assoc, Bool.or_self]

theorem Caseless.addByteCi {s : ByteSet} (h : s.Caseless) (b : Byte) :
    (s.addByteCi b true).Caseless := by
  intro c
  rw [test_addByteCi, test_addByteCi, h c]
  simp only [otherCase_eq_iff, otherCase_otherCase]
  rw [Bool.or_right_comm]

theorem Caseless.addRangeCi {s : ByteSet} (h : s.Caseless) (lo hi : Byte) :
    (s.addRangeCi lo hi true).Caseless := by
  unfold ByteSet.addRangeCi
  induction byteRange (min lo hi) (max lo hi) generalizing s with
  | nil => exact h
  | cons b bs ih => exact ih (h.addByteCi b)

theorem Caseless.inverse {s : ByteSet} (h : s.Caseless) : s.inverse.Caseless := by
  intro b
  rw [test_inverse, test_inverse, h b]

end ByteSet

/-- A list of bytes with both cases of its letters. -/
def BothCases (bs : List Byte) : Prop := ∀ b, otherCase b ∈ bs ↔ b ∈ bs

instance (bs : List Byte) : Decidable (BothCases bs) :=
  inferInstanceAs (Decidable (∀ b, otherCase b ∈ bs ↔ b ∈ bs))

theorem ByteSet.Caseless.addAll {s : ByteSet} (h : s.Caseless) {bs : List Byte}
    (hbs : BothCases bs) : (s.addAll bs).Caseless := by
  intro b
  rw [test_addAll, test_addAll, h b, decide_eq_decide.2 (hbs b)]

theorem BothCases.ite {c : Prop} [Decidable c] {bs : List Byte} {o : Option (List Byte)}
    (hbs : BothCases bs) (ho : ∀ x ∈ o, BothCases x) :
    ∀ x ∈ (if c then some bs else o), BothCases x := by
  intro x hx
  split_ifs at hx
  · exact Option.some.inj hx ▸ hbs
  · exact ho x hx

/-- The POSIX classes, `upper` and `lower` with both cases. -/
theorem posixBytes_caseless (name : List Byte) :
    ∀ bs ∈ Parser.posixBytes name true, BothCases bs := by
  unfold Parser.posixBytes
  refine .ite (by decide +kernel) <| .ite (by decide +kernel) <| .ite (by decide +kernel) <|
    .ite (by decide +kernel) <| .ite (by decide +kernel) <| .ite (by decide +kernel) <|
    .ite (by decide +kernel) <| .ite (by decide +kernel) <| .ite (by decide +kernel) <|
    .ite (by decide +kernel) <| .ite (by decide +kernel) <| .ite (by decide +kernel) ?_
  exact fun bs hbs ↦ absurd hbs (Option.not_mem_none bs)

/-! ## Trees -/

namespace Node

/-- The byte sets of the class nodes of a tree. -/
def classes : Node → List ByteSet
  | cls s => [s]
  | concat a b | alt a b => a.classes ++ b.classes
  | star a | plus a | question a | rep _ _ a => a.classes
  | empty | anchorBOL | anchorEOL | trailBoundary => []

/-- No class of the tree tells the cases of a letter apart. -/
def Caseless (t : Node) : Prop := ∀ s ∈ t.classes, s.Caseless

theorem Caseless.append {t a b : Node} (h : t.classes = a.classes ++ b.classes) (ha : a.Caseless)
    (hb : b.Caseless) : t.Caseless := by
  intro s hs
  rw [h, List.mem_append] at hs
  exact hs.elim (ha s) (hb s)

theorem Caseless.of_append {t a b : Node} (h : t.classes = a.classes ++ b.classes)
    (ht : t.Caseless) : a.Caseless ∧ b.Caseless := by
  unfold Caseless at ht
  rw [h] at ht
  exact ⟨fun s hs ↦ ht s (List.mem_append_left _ hs), fun s hs ↦ ht s (List.mem_append_right _ hs)⟩

theorem caseless_nil {t : Node} (h : t.classes = []) : t.Caseless := by
  intro s hs
  rw [h] at hs
  cases hs

theorem caseless_cls {s : ByteSet} (h : s.Caseless) : (cls s).Caseless := by
  intro s' hs
  obtain rfl := List.mem_singleton.1 hs
  exact h

/-- A reading of caseless classes without regard to case gives such a language. -/
theorem Caseless.blind_denote {C : ByteSet → Language Byte}
    (hC : ∀ s : ByteSet, s.Caseless → Blind lower (C s)) {t : Node} (h : t.Caseless) :
    Blind lower (t.denote C) := by
  induction t with
  | cls s => exact hC s (h s List.mem_cons_self)
  | concat a b iha ihb =>
      obtain ⟨ha, hb⟩ := of_append rfl h
      exact (iha ha).mul (ihb hb)
  | alt a b iha ihb =>
      obtain ⟨ha, hb⟩ := of_append rfl h
      exact (iha ha).add (ihb hb)
  | star a ih => exact (ih h).kstar
  | plus a ih => exact (ih h).mul (ih h).kstar
  | question a ih => exact Blind.one.add (ih h)
  | rep lo hi a ih =>
      rintro u v huv ⟨k, hlo, hhi, hu⟩
      exact ⟨k, hlo, hhi, (ih h).pow k u v huv hu⟩
  | empty | anchorBOL | anchorEOL | trailBoundary => exact Blind.one

theorem blind_powHeads {L H : Language Byte} (hL : Blind lower L) (hH : Blind lower H) (n : Nat) :
    Blind lower (powHeads L H n) := by
  induction n with
  | zero => exact Blind.zero
  | succ n ih => exact ih.add ((hL.pow n).mul hH)

theorem Caseless.blind_heads {C : ByteSet → Language Byte}
    (hC : ∀ s : ByteSet, s.Caseless → Blind lower (C s)) {t : Node} (h : t.Caseless) :
    Blind lower (t.heads C) := by
  induction t with
  | concat a b iha ihb =>
      obtain ⟨ha, hb⟩ := of_append rfl h
      exact (iha ha).add ((ha.blind_denote hC).mul (ihb hb))
  | alt a b iha ihb =>
      obtain ⟨ha, hb⟩ := of_append rfl h
      exact (iha ha).add (ihb hb)
  | star a ih =>
      have ha : a.Caseless := h
      exact (ha.blind_denote hC).kstar.mul (ih ha)
  | plus a ih =>
      have ha : a.Caseless := h
      exact (ha.blind_denote hC).kstar.mul (ih ha)
  | question a ih => exact ih h
  | rep lo hi a ih =>
      have ha : a.Caseless := h
      have hden := ha.blind_denote hC
      refine (blind_powHeads hden (ih ha) lo).add ((hden.pow lo).mul ?_)
      split_ifs
      · exact hden.kstar.mul (ih ha)
      · exact blind_powHeads (Blind.one.add hden) (ih ha) _
  | empty | cls s | anchorBOL | anchorEOL => exact Blind.zero
  | trailBoundary => exact Blind.one

end Node

/-! ## The parser -/

namespace Parser

theorem tryPosixClass_caseless {env : ParseEnv} (hci : env.ci = true) :
    Yields (tryPosixClass env) fun o ↦ ∀ bs ∈ o, BothCases bs := by
  have hnone : Yields (pure none) fun o : Option (List Byte) ↦ ∀ bs ∈ o, BothCases bs :=
    .pure (by simp)
  unfold tryPosixClass
  refine .seq fun _ ↦ .seq fun _ ↦ .seq fun _ ↦ .seq fun name ↦ .seq fun _ ↦ .seq fun _ ↦
    .ite (fun _ ↦ .seq fun _ ↦ hnone) fun _ ↦ .seq fun _ ↦ .seq fun _ ↦ ?_
  have hname := posixBytes_caseless name
  rw [← hci] at hname
  cases hbs : posixBytes name env.ci with
  | none => exact .seq fun _ ↦ .seq fun _ ↦ hnone
  | some bs => exact .pure (hbs ▸ hname)

theorem classLoop_caseless {env : ParseEnv} (hci : env.ci = true) (n : Nat) (first : Bool)
    {cls : ByteSet} (hcls : cls.Caseless) : Yields (classLoop env n first cls) ByteSet.Caseless := by
  induction n generalizing first cls with
  | zero => exact .none
  | succ n ih =>
      have hposix : Yields (pure none) fun o : Option (List Byte) ↦ ∀ bs ∈ o, BothCases bs :=
        .pure (by simp)
      unfold classLoop
      rw [hci]
      refine .seq fun _ ↦ .seq fun _ ↦ .ite (fun _ ↦ .pure hcls) fun _ ↦ .seq fun _ ↦ .seq fun _ ↦
        .ite (fun _ ↦ .bind (tryPosixClass_caseless hci) ?_) fun _ ↦ .bind hposix ?_
      all_goals
        intro o ho
        cases o with
        | some bs => exact ih false (hcls.addAll (ho bs rfl))
        | none =>
            refine .seq fun a ↦ .seq fun _ ↦ .seq fun _ ↦ .seq fun _ ↦ .ite (fun _ ↦ ?_) fun _ ↦ ?_
            · exact .seq fun _ ↦ .seq fun b ↦ ih false (hcls.addRangeCi a b)
            · exact ih false (hcls.addByteCi a)

theorem parseClass_caseless {env : ParseEnv} (hci : env.ci = true) :
    Yields (parseClass env) Node.Caseless := by
  unfold parseClass
  refine .seq fun _ ↦ .seq fun neg ↦ .seq fun n ↦
    .bind (classLoop_caseless hci (n + 1) true ByteSet.caseless_default) fun cls hcls ↦ .seq fun _ ↦
    .ite (fun _ ↦ .seq fun _ ↦ .pure (Node.caseless_cls hcls)) fun _ ↦ .seq fun _ ↦ .pure ?_
  cases neg with
  | true => exact Node.caseless_cls hcls.inverse
  | false => exact Node.caseless_cls hcls

theorem built_caseless : Built Node.Caseless true where
  empty := Node.caseless_nil rfl
  lit b := Node.caseless_cls (ByteSet.caseless_default.addByteCi b)
  any := Node.caseless_cls (ByteSet.caseless_default.addAll (by decide +kernel))
  bracket _ := parseClass_caseless
  concat := Node.Caseless.append rfl
  alt := Node.Caseless.append rfl
  star h := h
  plus h := h
  question h := h
  rep h := h

end Parser

/-! ## Whole patterns -/

namespace Node

theorem caseless_withBol {t : Node} (h : t.Caseless) (bol : Bool) : (t.withBol bol).Caseless := by
  cases bol with
  | true => exact Caseless.append rfl (caseless_nil (t := anchorBOL) rfl) h
  | false => exact h

theorem caseless_withEol {t : Node} (h : t.Caseless) (eol : Bool) : (t.withEol eol).Caseless := by
  cases eol with
  | true => exact Caseless.append rfl h (caseless_nil (t := anchorEOL) rfl)
  | false => exact h

/-! Parts of a tree with its anchors. -/

theorem caseless_liftBol {t : Node} (h : t.Caseless) : t.liftBol.1.Caseless := by
  unfold liftBol
  split
  · exact (Caseless.of_append rfl h).2
  · exact h

theorem caseless_stripEolAnchor {t : Node} (h : t.Caseless) : t.stripEolAnchor.Caseless := by
  unfold stripEolAnchor
  split
  · exact caseless_nil rfl
  · exact (Caseless.of_append rfl h).1
  · exact h

theorem caseless_newlineNode : newlineNode.Caseless :=
  caseless_cls fun b ↦ by revert b; decide +kernel

end Node

theorem caseless_fixedTree {r s : Node} (hr : r.Caseless) (hs : s.Caseless) (eol : Bool) :
    (fixedTree r s eol).Caseless := by
  have hrs : (Node.concat r s).Caseless := Node.Caseless.append rfl hr hs
  cases eol with
  | true => exact Node.Caseless.append rfl hrs Node.caseless_newlineNode
  | false => exact hrs

theorem caseless_markedTree {r s : Node} (hr : r.Caseless) (hs : s.Caseless) (eol : Bool) :
    (markedTree r s eol).Caseless := by
  have hmark : (Node.concat .trailBoundary s).Caseless :=
    Node.Caseless.append rfl (Node.caseless_nil (t := .trailBoundary) rfl) hs
  cases eol with
  | true =>
      exact Node.Caseless.append rfl hr (Node.Caseless.append rfl hmark Node.caseless_newlineNode)
  | false => exact Node.Caseless.append rfl hr hmark

theorem joinTrail_caseless {loc : SourceLoc} {r s : Node} (hr : r.Caseless) (hs : s.Caseless) :
    ∀ t ∈ (joinTrail loc r s).1.tree, t.Caseless := by
  have hr' := Node.caseless_liftBol hr
  have hs' := Node.caseless_stripEolAnchor hs
  unfold joinTrail
  simp only
  intro t ht
  by_cases heol : r.liftBol.1.peekIsEolAnchor = true
  · rw [if_pos heol] at ht
    exact absurd ht (Option.not_mem_none t)
  · rw [if_neg heol] at ht
    by_cases hlen : 0 ≤ s.stripEolAnchor.fixedLength
    · rw [if_pos hlen] at ht
      obtain rfl := Option.some.inj ht
      exact Node.caseless_withBol (caseless_fixedTree hr' hs' _) _
    · rw [if_neg hlen] at ht
      obtain rfl := Option.some.inj ht
      exact Node.caseless_withBol (caseless_markedTree hr' hs' _) _

theorem Parser.parseTop_caseless (fuel : Nat) {env : ParseEnv} (hci : env.ci = true) :
    Yields (parseTop fuel env) fun o ↦ ∀ t ∈ o, t.Caseless := by
  have hbuilt : Built Node.Caseless env.ci := hci ▸ built_caseless
  unfold parseTop
  refine .seq fun bol ↦ .bind (hbuilt.parseAlt fuel env) fun body hbody ↦ .seq fun eol ↦ .seq fun _ ↦
    .ite (fun _ ↦ .seq fun _ ↦ .seq fun _ ↦ .pure (by simp)) fun _ ↦ ?_
  exact yields_some (Node.caseless_withBol (Node.caseless_withEol hbody eol) bol)

theorem parseRegex_caseless {fuel : Nat} {env : ParseEnv} (hci : env.ci = true) {src : List Byte}
    {t : Node} {diags : List Diag} (h : parseRegex fuel env src = some (some t, diags)) :
    t.Caseless := by
  obtain ⟨⟨o, s⟩, hrun, heq⟩ := Option.map_eq_some_iff.1 h
  obtain ⟨rfl, -⟩ := Prod.mk.inj heq
  exact Parser.parseTop_caseless fuel hci _ _ _ hrun t rfl

theorem parsePattern_caseless {fuel : Nat} {env : ParseEnv} (hci : env.ci = true)
    {src : List Byte} {p : ParsedPattern} {diags : List Diag}
    (h : parsePattern fuel env src = some (p, diags)) : ∀ t ∈ p.tree, t.Caseless := by
  unfold parsePattern at h
  simp only at h
  split_ifs at h with hslash
  · obtain ⟨⟨tree, ds⟩, htree, h⟩ := Option.bind_eq_some_iff.1 h
    obtain ⟨rfl, -⟩ := Prod.mk.inj (Option.some.inj h)
    intro t ht
    obtain rfl : tree = some t := ht
    exact parseRegex_caseless hci htree
  · obtain ⟨⟨or, rDiags⟩, hr, h⟩ := Option.bind_eq_some_iff.1 h
    obtain ⟨⟨os, sDiags⟩, hs, h⟩ := Option.bind_eq_some_iff.1 h
    cases or with
    | none =>
        obtain ⟨rfl, -⟩ := Prod.mk.inj (Option.some.inj h)
        exact fun t ht ↦ absurd ht (Option.not_mem_none t)
    | some r =>
        cases os with
        | none =>
            obtain ⟨rfl, -⟩ := Prod.mk.inj (Option.some.inj h)
            exact fun t ht ↦ absurd ht (Option.not_mem_none t)
        | some s =>
            obtain ⟨rfl, -⟩ := Prod.mk.inj (Option.some.inj h)
            exact joinTrail_caseless (parseRegex_caseless hci hr) (parseRegex_caseless hci hs)

end LexCpp
