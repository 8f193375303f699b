import LexCpp.Regex.Parser

/-!
# The text of a file

What `main` does to texts before and after they are parsed: several inputs are put together, line ends
and a byte order mark are taken out, and actions are searched for `REJECT`.  Nothing depends on the
line ends (`normaliseSource_joinChunks`), and the search finds whole words (`containsWord_iff`).
-/

namespace LexCpp

/-! ## Line ends -/

def carriageReturn : Byte := 13

/-- The loop of `normalise_source`. -/
def collapseCrlf : List Byte → List Byte
  | [] => []
  | c :: s => if c = carriageReturn ∧ s.head? = some newline then collapseCrlf s else c :: collapseCrlf s

/-- The byte order mark of UTF-8. -/
def byteOrderMark : List Byte := [0xef, 0xbb, 0xbf]

/-- `normalise_source`. -/
def normaliseSource (s : List Byte) : List Byte :=
  collapseCrlf (if s.take 3 = byteOrderMark then s.drop 3 else s)

/-- The inputs one after the other, each from the start of a line on. -/
def joinChunks (chunks : List (List Byte)) : List Byte :=
  chunks.foldl (fun source chunk ↦
    (if source ≠ [] ∧ source.getLast? ≠ some newline then source ++ [newline] else source) ++ chunk) []

/-- A text with the other line ends. -/
def crlf (s : List Byte) : List Byte :=
  s.flatMap fun b ↦ if b = newline then [carriageReturn, newline] else [b]

/-- **Line ends come off as they were put on.** -/
theorem collapseCrlf_crlf (s : List Byte) : collapseCrlf (crlf s) = s := by
  induction s with
  | nil => rfl
  | cons b s ih =>
      rw [crlf, List.flatMap_cons, ← crlf]
      by_cases hb : b = newline
      · subst hb
        change collapseCrlf (newline :: crlf s) = _
        rw [collapseCrlf, if_neg (fun h ↦ absurd h.1 (by decide)), ih]
      · rw [if_neg hb]
        change collapseCrlf (b :: crlf s) = _
        rw [collapseCrlf, ih]
        refine if_neg fun h ↦ ?_
        -- what follows the byte is either put there with a carriage return before it, or kept
        cases s with
        | nil => exact absurd h.2 (by rintro ⟨⟩)
        | cons b' s =>
            rw [crlf, List.flatMap_cons] at h
            by_cases hb' : b' = newline
            · rw [if_pos hb'] at h
              exact absurd (Option.some.inj h.2) (by decide : carriageReturn ≠ newline)
            · rw [if_neg hb'] at h
              exact hb' (Option.some.inj h.2)

/-- `s'` is `s` with carriage returns before some of its newlines. -/
def Recoded (s' s : List Byte) : Prop := carriageReturn ∉ s ∧ collapseCrlf s' = s

namespace Recoded

variable {s s' t t' : List Byte}

theorem refl (h : carriageReturn ∉ s) : Recoded s s := by
  refine ⟨h, ?_⟩
  induction s with
  | nil => rfl
  | cons c s ih =>
      rw [List.mem_cons, not_or] at h
      rw [collapseCrlf, if_neg fun hc ↦ h.1 hc.1.symm, ih h.2]

theorem crlf (h : carriageReturn ∉ s) : Recoded (crlf s) s := ⟨h, collapseCrlf_crlf s⟩

/-- A carriage return at the end would have been kept. -/
theorem getLast?_ne (h : Recoded s' s) : s'.getLast? ≠ some carriageReturn := by
  obtain ⟨hmem, rfl⟩ := h
  induction s' with
  | nil => exact (Option.some_ne_none _).symm
  | cons c s' ih =>
      rw [collapseCrlf] at hmem
      split_ifs at hmem with hc
      · cases s' with
        | nil => exact absurd hc.2 (by rintro ⟨⟩)
        | cons c' s' =>
            rw [List.getLast?_cons_cons]
            exact ih hmem
      · rw [List.mem_cons, not_or] at hmem
        cases s' with
        | nil => exact fun h ↦ hmem.1 (Option.some.inj h).symm
        | cons c' s' =>
            rw [List.getLast?_cons_cons]
            exact ih hmem.2

theorem collapseCrlf_append (h : s'.getLast? ≠ some carriageReturn) (t' : List Byte) :
    collapseCrlf (s' ++ t') = collapseCrlf s' ++ collapseCrlf t' := by
  induction s' with
  | nil => rfl
  | cons c s' ih =>
      cases s' with
      | nil =>
          have hc : c ≠ carriageReturn := fun hc ↦ h (congrArg some hc)
          rw [List.singleton_append, collapseCrlf, if_neg fun hand ↦ hc hand.1, collapseCrlf,
            if_neg fun hand ↦ hc hand.1]
          rfl
      | cons c' s' =>
          rw [List.getLast?_cons_cons] at h
          have ih := ih h
          by_cases hc : c = carriageReturn ∧ c' = newline
          · obtain ⟨rfl, rfl⟩ := hc
            exact ih
          · have hskip : ∀ u : List Byte, collapseCrlf (c :: c' :: u) = c :: collapseCrlf (c' :: u) := fun u ↦
              if_neg fun hand ↦ hc ⟨hand.1, Option.some.inj hand.2⟩
            rw [List.cons_append, List.cons_append, hskip, hskip, ← List.cons_append, ih]
            rfl

theorem append (h : Recoded s' s) (ht : Recoded t' t) : Recoded (s' ++ t') (s ++ t) := by
  refine ⟨fun hmem ↦ (List.mem_append.1 hmem).elim h.1 ht.1, ?_⟩
  rw [collapseCrlf_append h.getLast?_ne, h.2, ht.2]

/-- The last byte stays. -/
theorem getLast?_eq (h : Recoded s' s) : s'.getLast? = s.getLast? := by
  obtain ⟨hmem, rfl⟩ := h
  induction s' with
  | nil => rfl
  | cons c s' ih =>
      rw [collapseCrlf] at hmem ⊢
      split_ifs at hmem ⊢ with hc
      · cases s' with
        | nil => exact absurd hc.2 (by rintro ⟨⟩)
        | cons c' s' => exact List.getLast?_cons_cons.trans (ih hmem)
      · rw [List.mem_cons, not_or] at hmem
        rw [List.getLast?_cons, List.getLast?_cons, ih hmem.2]

theorem nil_iff (h : Recoded s' s) : s' = [] ↔ s = [] := by
  rw [← List.getLast?_eq_none_iff, ← List.getLast?_eq_none_iff, h.getLast?_eq]

/-- Inputs that are put together. -/
theorem joinChunks {chunks chunks' : List (List Byte)} (h : List.Forall₂ Recoded chunks' chunks) :
    Recoded (joinChunks chunks') (joinChunks chunks) := by
  have hfold : ∀ source source', Recoded source' source →
      Recoded (chunks'.foldl (fun source chunk ↦
        (if source ≠ [] ∧ source.getLast? ≠ some newline then source ++ [newline] else source) ++ chunk) source')
        (chunks.foldl (fun source chunk ↦
        (if source ≠ [] ∧ source.getLast? ≠ some newline then source ++ [newline] else source) ++ chunk) source) := by
    induction h with
    | nil => exact fun source source' hs ↦ hs
    | cons hchunk _ ih =>
        intro source source' hs
        refine ih _ _ (append ?_ hchunk)
        rw [if_congr (and_congr (not_congr hs.nil_iff) (by rw [hs.getLast?_eq])) rfl rfl]
        split_ifs
        · exact hs.append (refl (by decide))
        · exact hs
  exact hfold [] [] (refl List.not_mem_nil)

/-- The mark at the start is the same. -/
theorem normaliseSource_eq (h : Recoded s' s) : normaliseSource s' = normaliseSource s := by
  have hself : collapseCrlf s = s := (refl h.1).2
  obtain ⟨hmem, hcollapse⟩ := h
  -- the first bytes of the mark are neither carriage returns nor newlines
  have hcons : ∀ {b : Byte} {u' u : List Byte}, b ≠ newline → collapseCrlf u' = b :: u →
      ∃ w', u' = b :: w' ∧ collapseCrlf w' = u := by
    intro b u' u hb hu
    cases u' with
    | nil => exact absurd hu (by rintro ⟨⟩)
    | cons c w' =>
        rw [collapseCrlf] at hu
        split_ifs at hu with hc
        · cases w' with
          | nil => exact absurd hc.2 (by rintro ⟨⟩)
          | cons c' w' =>
              obtain rfl := Option.some.inj hc.2
              rw [collapseCrlf, if_neg fun h ↦ absurd h.1 (by decide)] at hu
              exact absurd (List.cons.inj hu).1.symm hb
        · obtain ⟨rfl, rfl⟩ := List.cons.inj hu
          exact ⟨w', rfl, rfl⟩
  have hkept : ∀ {b : Byte} {u : List Byte}, b ≠ carriageReturn → collapseCrlf (b :: u) = b :: collapseCrlf u :=
    fun hb ↦ if_neg fun h ↦ hb h.1
  unfold normaliseSource
  by_cases hmark : s.take 3 = byteOrderMark
  · have hs : s = 0xef :: 0xbb :: 0xbf :: s.drop 3 := by
      conv_lhs => rw [← List.take_append_drop 3 s, hmark]
      rfl
    obtain ⟨u₁, rfl, h₁⟩ := hcons (by decide) (hcollapse.trans hs)
    obtain ⟨u₂, rfl, h₂⟩ := hcons (by decide) h₁
    obtain ⟨u₃, rfl, h₃⟩ := hcons (by decide) h₂
    rw [if_pos hmark]
    change collapseCrlf u₃ = _
    rw [h₃, (refl (s := s.drop 3) fun h ↦ hmem (List.mem_of_mem_drop h)).2]
  · rw [if_neg hmark, if_neg, hcollapse, hself]
    intro hmark'
    have hs' : s' = 0xef :: 0xbb :: 0xbf :: s'.drop 3 := by
      conv_lhs => rw [← List.take_append_drop 3 s', hmark']
      rfl
    rw [hs', hkept (by decide), hkept (by decide), hkept (by decide)] at hcollapse
    exact hmark (by rw [← hcollapse]; rfl)

end Recoded

/-- **Nothing depends on the line ends.**  Inputs that are free of carriage returns and the same inputs
with carriage returns before any of their newlines make the same text. -/
theorem normaliseSource_joinChunks {chunks chunks' : List (List Byte)}
    (h : List.Forall₂ Recoded chunks' chunks) :
    normaliseSource (joinChunks chunks') = normaliseSource (joinChunks chunks) :=
  (Recoded.joinChunks h).normaliseSource_eq

/-! ## Words -/

/-- What a word in C is made of. -/
def inWord (b : Byte) : Bool := isAlnum b || b = chr '_'

/-- `s.find(word, pos)`. -/
def findFrom (s word : List Byte) (pos : Nat) : Option Nat :=
  (List.range' pos (s.length + 1 - pos)).find? fun i ↦ word.isPrefixOf (s.drop i)

/-- The word at `pos` is a whole one. -/
def boundedAt (s word : List Byte) (pos : Nat) : Bool :=
  let fin := pos + word.length
  (pos = 0 || !inWord (s.getD (pos - 1) 0)) && (s.length ≤ fin || !inWord (s.getD fin 0))

/-- The loop of `contains_word`. -/
def containsWordLoop (s word : List Byte) : Nat → Nat → Bool
  | 0, _ => false
  | n + 1, pos =>
      match findFrom s word pos with
      | none => false
      | some pos => boundedAt s word pos || containsWordLoop s word n (pos + word.length)

/-- `contains_word`. -/
def containsWord (s word : List Byte) : Bool := containsWordLoop s word (s.length + 1) 0

theorem findFrom_eq_none {s word : List Byte} {pos : Nat} (hword : word ≠ []) (h : findFrom s word pos = none)
    {i : Nat} (hi : pos ≤ i) : ¬ word <+: s.drop i := by
  intro hp
  have hlt : i < s.length := by
    by_contra hge
    rw [List.drop_eq_nil_of_le (not_lt.1 hge)] at hp
    exact hword (List.prefix_nil.1 hp)
  have hno := List.find?_range'_eq_none.1 h i hi (by omega)
  rw [List.isPrefixOf_iff_prefix.2 hp] at hno
  exact absurd hno (by decide)

theorem findFrom_eq_some {s word : List Byte} {pos p : Nat} (h : findFrom s word pos = some p) :
    pos ≤ p ∧ word <+: s.drop p ∧ ∀ i, pos ≤ i → i < p → ¬ word <+: s.drop i := by
  obtain ⟨hp, hmem, hfirst⟩ := List.find?_range'_eq_some.1 h
  refine ⟨(List.mem_range'_1.1 hmem).1, List.isPrefixOf_iff_prefix.1 hp, fun i hi hlt hp ↦ ?_⟩
  have hno := hfirst i hi hlt
  rw [List.isPrefixOf_iff_prefix.2 hp] at hno
  exact absurd hno (by decide)

/-- A whole word does not start inside of another place where the word is. -/
theorem not_boundedAt_inside {s word : List Byte} (hbytes : ∀ b ∈ word, inWord b = true) {p i : Nat}
    (hp : word <+: s.drop p) (hpi : p < i) (hi : i < p + word.length) : boundedAt s word i = false := by
  obtain ⟨u, hu⟩ := hp
  have hlt : i - 1 - p < word.length := by omega
  have hget : s[i - 1]? = some word[i - 1 - p] := by
    have hdrop := congrArg (·[i - 1 - p]?) hu
    rw [List.getElem?_append_left hlt, List.getElem?_drop] at hdrop
    rw [← List.getElem?_eq_getElem, hdrop]
    exact congrArg (s[·]?) (by omega)
  have hin : inWord (s.getD (i - 1) 0) = true := by
    rw [List.getD_eq_getElem?_getD, hget]
    exact hbytes _ (List.getElem_mem _)
  rw [boundedAt, hin, decide_eq_false (by omega)]
  rfl

/-- The search from a place on. -/
theorem containsWordLoop_iff {s word : List Byte} (hword : word ≠ []) (hbytes : ∀ b ∈ word, inWord b = true)
    {n pos : Nat} (hn : s.length < n + pos) : containsWordLoop s word n pos = true ↔
      ∃ i, pos ≤ i ∧ word <+: s.drop i ∧ boundedAt s word i = true := by
  induction n generalizing pos with
  | zero =>
      refine iff_of_false Bool.false_ne_true ?_
      rintro ⟨i, hi, hp, -⟩
      rw [List.drop_eq_nil_of_le (by omega)] at hp
      exact hword (List.prefix_nil.1 hp)
  | succ n ih =>
      rw [containsWordLoop]
      cases hfind : findFrom s word pos with
      | none =>
          refine iff_of_false Bool.false_ne_true ?_
          rintro ⟨i, hi, hp, -⟩
          exact findFrom_eq_none hword hfind hi hp
      | some p =>
          obtain ⟨hle, hp, hfirst⟩ := findFrom_eq_some hfind
          have hlen := List.length_pos_iff.2 hword
          dsimp only
          rw [Bool.or_eq_true, ih (by omega)]
          constructor
          · rintro (hbound | ⟨i, hi, hat, hbound⟩)
            · exact ⟨p, hle, hp, hbound⟩
            · exact ⟨i, by omega, hat, hbound⟩
          · rintro ⟨i, hi, hat, hbound⟩
            rcases Nat.lt_trichotomy i p with hlt | rfl | hgt
            · exact absurd hat (hfirst i hi hlt)
            · exact Or.inl hbound
            · rcases Nat.lt_or_ge i (p + word.length) with hin | hout
              · rw [not_boundedAt_inside hbytes hp hgt hin] at hbound
                exact absurd hbound Bool.false_ne_true
              · exact Or.inr ⟨i, hout, hat, hbound⟩

/-- **The search finds the word where it stands on its own**, and nowhere else. -/
theorem containsWord_iff {s word : List Byte} (hword : word ≠ []) (hbytes : ∀ b ∈ word, inWord b = true) :
    containsWord s word = true ↔ ∃ pre post, s = pre ++ word ++ post ∧
      (∀ b ∈ pre.getLast?, inWord b = false) ∧ ∀ b ∈ post.head?, inWord b = false := by
  rw [containsWord, containsWordLoop_iff hword hbytes (Nat.lt_succ_self _)]
  constructor
  · rintro ⟨i, -, ⟨post, hpost⟩, hbound⟩
    have hi : i < s.length := by
      by_contra hge
      rw [List.drop_eq_nil_of_le (not_lt.1 hge)] at hpost
      exact hword (List.append_eq_nil_iff.1 hpost).1
    have hs : s = s.take i ++ word ++ post := by
      rw [List.append_assoc, hpost, List.take_append_drop]
    rw [boundedAt, Bool.and_eq_true, Bool.or_eq_true, Bool.or_eq_true, decide_eq_true_iff, decide_eq_true_iff,
      Bool.not_eq_true', Bool.not_eq_true'] at hbound
    refine ⟨s.take i, post, hs, fun b hb ↦ ?_, fun b hb ↦ ?_⟩
    · rcases hbound.1 with rfl | hno
      · exact absurd hb (by rintro ⟨⟩)
      · rw [List.getLast?_eq_getElem?, List.length_take_of_le hi.le] at hb
        have hpos : 0 < i := Nat.pos_of_ne_zero (by rintro rfl; exact absurd hb (by rintro ⟨⟩))
        rw [List.getElem?_take_of_lt (by omega)] at hb
        rwa [List.getD_eq_getElem?_getD, Option.mem_def.1 hb] at hno
    · have hget : s[i + word.length]? = some b := by
        rw [hs, List.getElem?_append_right (by rw [List.length_append, List.length_take_of_le hi.le]),
          List.length_append, List.length_take_of_le hi.le, Nat.sub_self, ← List.head?_eq_getElem?]
        exact hb
      rcases hbound.2 with hend | hno
      · exact absurd (List.getElem?_eq_some_iff.1 hget).1 (not_lt.2 hend)
      · rwa [List.getD_eq_getElem?_getD, hget] at hno
  · rintro ⟨pre, post, rfl, hpre, hpost⟩
    refine ⟨pre.length, Nat.zero_le _, ?_, ?_⟩
    · rw [List.append_assoc, List.drop_left]
      exact List.prefix_append word post
    · rw [boundedAt, Bool.and_eq_true, Bool.or_eq_true, Bool.or_eq_true, decide_eq_true_iff, decide_eq_true_iff,
        Bool.not_eq_true', Bool.not_eq_true']
      constructor
      · rcases List.eq_nil_or_concat pre with rfl | ⟨init, b, rfl⟩
        · exact Or.inl rfl
        · right
          rw [List.concat_eq_append, List.getLast?_append, List.getLast?_singleton] at hpre
          have hget : (init.concat b ++ word ++ post).getD ((init.concat b).length - 1) 0 = b := by
            rw [List.concat_eq_append, List.length_append, List.length_singleton, Nat.add_sub_cancel,
              List.getD_eq_getElem?_getD, List.append_assoc, List.append_assoc,
              List.getElem?_append_right le_rfl, Nat.sub_self]
            rfl
          rw [hget]
          exact hpre b rfl
      · cases post with
        | nil => exact Or.inl (by rw [List.append_nil, List.length_append])
        | cons b post =>
            right
            have hget : (pre ++ word ++ b :: post).getD (pre.length + word.length) 0 = b := by
              rw [List.getD_eq_getElem?_getD, ← List.length_append, List.getElem?_append_right le_rfl, Nat.sub_self]
              rfl
            rw [hget]
            exact hpost b rfl

end LexCpp
