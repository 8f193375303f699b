import LexCpp.Regex.Closed
import LexCpp.Source.Reading

/-!
# Brace blocks

C text as it matters for braces, and the proof that `read_brace_block` takes a block whole: it
ends at the brace that matches the first one, whatever braces, quotes and comment openers stand
in literals and comments.
-/

namespace LexCpp

/-! ## C text -/

/-- A byte that starts nothing: no literal, no block and, before `w`, no comment. -/
def IsPlain (c : Byte) (w : List Byte) : Prop :=
  c ∉ [chr '"', chr '\'', chr '\x7b', chr '\x7d'] ∧
    (c = chr '/' → ∀ b ∈ w.head?, b ∉ [chr '/', chr '*'])

/-- Balanced C text: literals, comments, blocks and other bytes. -/
inductive CText : List Byte → Prop where
  | nil : CText []
  | byte {c : Byte} {w : List Byte} (hc : IsPlain c w) : CText w → CText (c :: w)
  | str {q w : List Byte} (hq : Quoted (chr '"') q) :
      CText w → CText (chr '"' :: (q ++ chr '"' :: w))
  | chr {q w : List Byte} (hq : Quoted (chr '\'') q) :
      CText w → CText (chr '\'' :: (q ++ chr '\'' :: w))
  | lineCmt {m w : List Byte} (hm : newline ∉ m) :
      CText w → CText (chr '/' :: chr '/' :: (m ++ newline :: w))
  | blockCmt {m w : List Byte} (hm : ¬ [chr '*', chr '/'] <:+: m) :
      CText w → CText (chr '/' :: chr '*' :: (m ++ chr '*' :: chr '/' :: w))
  | block {b w : List Byte} :
      CText b → CText w → CText (chr '\x7b' :: (b ++ chr '\x7d' :: w))

namespace Reader

/-! ## One turn in each mode -/

section Turn

/-- The mode between quotes `q`. -/
def Leads.Inside (q : Byte) (mode : CMode) : Prop :=
  (q = LexCpp.chr '"' ∧ mode = .str) ∨ (q = LexCpp.chr '\'' ∧ mode = .chr)

variable {c : Byte} {k : List Byte} {s : ReaderState} {n depth : Nat}

/-- What a turn does that takes one byte. -/
def takesOne (c : Byte) (n depth : Nat) (mode : CMode) (s : ReaderState) :
    Option (List Byte × ReaderState) :=
  (braceLoop n depth mode (taken s)).map fun p ↦ (c :: p.1, p.2)

/-- What a turn does that takes two. -/
def takesTwo (c e : Byte) (n depth : Nat) (mode : CMode) (s : ReaderState) :
    Option (List Byte × ReaderState) :=
  (braceLoop n depth mode (taken (taken s))).map fun p ↦ (c :: e :: p.1, p.2)

theorem braceLoop_lineCmt (hs : s.rest = c :: k) :
    braceLoop (n + 1) (depth + 1) .lineCmt s =
      takesOne c n (depth + 1) (if c = newline then .code else .lineCmt) s := by
  simp [braceLoop, takesOne, hs, Option.map_eq_bind]

theorem braceLoop_blockCmt (hs : s.rest = c :: k) :
    braceLoop (n + 1) (depth + 1) .blockCmt s =
      if c = LexCpp.chr '*' ∧ k.getD 0 0 = LexCpp.chr '/' then
        takesTwo c (k.getD 0 0) n (depth + 1) .code s
      else takesOne c n (depth + 1) .blockCmt s := by
  simp [braceLoop, takesOne, takesTwo, hs, Option.map_eq_bind]

theorem braceLoop_literal {q : Byte} {mode : CMode} (hq : Leads.Inside q mode) (hs : s.rest = c :: k) :
    braceLoop (n + 1) (depth + 1) mode s =
      if c = LexCpp.chr '\\' ∧ k ≠ [] then takesTwo c (k.getD 0 0) n (depth + 1) mode s
      else takesOne c n (depth + 1) (if c = q then .code else mode) s := by
  rcases hq with ⟨rfl, rfl⟩ | ⟨rfl, rfl⟩
  · simp [braceLoop, takesOne, takesTwo, hs, Option.map_eq_bind, List.length_pos_iff]
  · simp [braceLoop, takesOne, takesTwo, hs, Option.map_eq_bind, List.length_pos_iff]

theorem braceLoop_code (hs : s.rest = c :: k) :
    braceLoop (n + 1) (depth + 1) .code s =
      if c = LexCpp.chr '/' ∧ k.getD 0 0 = LexCpp.chr '/' then
        takesTwo c (k.getD 0 0) n (depth + 1) .lineCmt s
      else if c = LexCpp.chr '/' ∧ k.getD 0 0 = LexCpp.chr '*' then
        takesTwo c (k.getD 0 0) n (depth + 1) .blockCmt s
      else if c = LexCpp.chr '"' then takesOne c n (depth + 1) .str s
      else if c = LexCpp.chr '\'' then takesOne c n (depth + 1) .chr s
      else if c = LexCpp.chr '\x7b' then takesOne c n (depth + 2) .code s
      else if c = LexCpp.chr '\x7d' then takesOne c n depth .code s
      else takesOne c n (depth + 1) .code s := by
  simp [braceLoop, takesOne, takesTwo, hs, Option.map_eq_bind]

end Turn

/-! ## The scan in pieces -/

/-- From one mode and depth to another: the loop of `read_brace_block` takes `w` before `k`. -/
def Leads (k : List Byte) (depth : Nat) (mode : CMode) (w : List Byte) (depth' : Nat)
    (mode' : CMode) : Prop :=
  ∀ (s : ReaderState) (n : Nat), s.rest = w ++ k → s.rest.length < n →
    ∃ m, k.length < m ∧ braceLoop n depth mode s =
      (braceLoop m depth' mode' (after s w.length)).map fun p ↦ (w ++ p.1, p.2)

namespace Leads

variable {k w w' : List Byte} {depth depth' depth'' : Nat} {mode mode' mode'' : CMode}

theorem refl : Leads k depth mode [] depth mode := by
  intro s n hs hn
  rw [List.nil_append] at hs
  refine ⟨n, hs ▸ hn, ?_⟩
  cases h : braceLoop n depth mode s <;> simp [h]

theorem trans (h : Leads (w' ++ k) depth mode w depth' mode')
    (h' : Leads k depth' mode' w' depth'' mode'') :
    Leads k depth mode (w ++ w') depth'' mode'' := by
  intro s n hs hn
  rw [List.append_assoc] at hs
  obtain ⟨m, hm, hfirst⟩ := h s n hs hn
  have hrest := rest_after_append hs
  obtain ⟨m', hm', hsecond⟩ := h' (after s w.length) m hrest (hrest ▸ hm)
  refine ⟨m', hm', ?_⟩
  rw [hfirst, hsecond, after_after, ← List.length_append, Option.map_map]
  simp only [Function.comp_def, List.append_assoc]

/-- A turn that takes one byte. -/
theorem one {c : Byte} (h : ∀ (s : ReaderState) (n : Nat), s.rest = c :: k →
    braceLoop (n + 1) depth mode s = takesOne c n depth' mode' s) :
    Leads k depth mode [c] depth' mode' := by
  intro s n hs hn
  cases n with
  | zero => exact absurd hn (Nat.not_lt_zero _)
  | succ n =>
      rw [hs] at hn
      exact ⟨n, Nat.lt_of_succ_lt_succ hn, h s n hs⟩

/-- A turn that takes two. -/
theorem two {c e : Byte} (h : ∀ (s : ReaderState) (n : Nat), s.rest = c :: e :: k →
    braceLoop (n + 1) depth mode s = takesTwo c e n depth' mode' s) :
    Leads k depth mode [c, e] depth' mode' := by
  intro s n hs hn
  cases n with
  | zero => exact absurd hn (Nat.not_lt_zero _)
  | succ n =>
      rw [hs] at hn
      exact ⟨n, Nat.lt_of_succ_lt (Nat.lt_of_succ_lt_succ hn), h s n hs⟩

/-! ### Comments -/

theorem lineCmt_bytes {m : List Byte} (hm : newline ∉ m) :
    Leads k (depth + 1) .lineCmt m (depth + 1) .lineCmt := by
  induction m with
  | nil => exact refl
  | cons c m ih =>
      have hc : c ≠ newline := fun h ↦ hm (h ▸ List.mem_cons_self)
      have hfirst : Leads (m ++ k) (depth + 1) .lineCmt [c] (depth + 1) .lineCmt :=
        one fun s n hs ↦ by rw [braceLoop_lineCmt hs, if_neg hc]
      exact hfirst.trans (ih fun h ↦ hm (List.mem_cons_of_mem c h))

theorem lineCmt {m : List Byte} (hm : newline ∉ m) :
    Leads k (depth + 1) .code (chr '/' :: chr '/' :: (m ++ [newline])) (depth + 1) .code := by
  have hopen : Leads (m ++ [newline] ++ k) (depth + 1) .code [chr '/', chr '/'] (depth + 1)
      .lineCmt := two fun s n hs ↦ by rw [braceLoop_code hs, if_pos ⟨rfl, rfl⟩]; rfl
  have hclose : Leads k (depth + 1) .lineCmt [newline] (depth + 1) .code :=
    one fun s n hs ↦ by rw [braceLoop_lineCmt hs, if_pos rfl]
  exact hopen.trans ((lineCmt_bytes hm).trans hclose)

theorem blockCmt_bytes {m : List Byte} (hm : ¬ [chr '*', chr '/'] <:+: m) :
    Leads (chr '*' :: k) (depth + 1) .blockCmt m (depth + 1) .blockCmt := by
  induction m with
  | nil => exact refl
  | cons c m ih =>
      obtain ⟨b, w, hw, hb⟩ : ∃ b w, m ++ chr '*' :: k = b :: w ∧ (c = chr '*' → b ≠ chr '/') := by
        cases m with
        | nil => exact ⟨chr '*', k, rfl, fun _ ↦ by decide⟩
        | cons b m =>
            refine ⟨b, m ++ chr '*' :: k, rfl, ?_⟩
            rintro rfl rfl
            exact hm ⟨[], m, rfl⟩
      have hfirst : Leads (m ++ chr '*' :: k) (depth + 1) .blockCmt [c] (depth + 1) .blockCmt := by
        rw [hw]
        exact one fun s n hs ↦ by
          have hno : ¬ (c = chr '*' ∧ b = chr '/') := fun h ↦ hb h.1 h.2
          rw [braceLoop_blockCmt hs, List.getD_cons_zero, if_neg hno]
      exact hfirst.trans (ih fun h ↦ hm (h.trans (List.infix_cons (List.infix_refl m))))

theorem blockCmt {m : List Byte} (hm : ¬ [chr '*', chr '/'] <:+: m) :
    Leads k (depth + 1) .code (chr '/' :: chr '*' :: (m ++ [chr '*', chr '/'])) (depth + 1)
      .code := by
  have hopen : Leads (m ++ [chr '*', chr '/'] ++ k) (depth + 1) .code [chr '/', chr '*']
      (depth + 1) .blockCmt :=
    two fun s n hs ↦ by
      have hstar : ¬ (chr '/' = chr '/' ∧ chr '*' = chr '/') := by decide
      rw [braceLoop_code hs, List.getD_cons_zero, if_neg hstar, if_pos ⟨rfl, rfl⟩]
  have hclose : Leads k (depth + 1) .blockCmt [chr '*', chr '/'] (depth + 1) .code :=
    two fun s n hs ↦ by rw [braceLoop_blockCmt hs, if_pos ⟨rfl, rfl⟩]; rfl
  exact hopen.trans ((blockCmt_bytes hm).trans hclose)

/-! ### Literals -/

theorem quoted_bytes {q : Byte} (hq : Inside q mode) {m : List Byte} (hm : Quoted q m) :
    Leads (q :: k) (depth + 1) mode m (depth + 1) mode := by
  induction hm with
  | nil => exact refl
  | @byte c w hcq hc _ ih =>
      have hfirst : Leads (w ++ q :: k) (depth + 1) mode [c] (depth + 1) mode :=
        one fun s n hs ↦ by rw [braceLoop_literal hq hs, if_neg fun h ↦ hc h.1, if_neg hcq]
      exact hfirst.trans ih
  | @escape c w _ ih =>
      have hfirst : Leads (w ++ q :: k) (depth + 1) mode [chr '\\', c] (depth + 1) mode :=
        two fun s n hs ↦ by
          rw [braceLoop_literal hq hs, if_pos ⟨rfl, List.cons_ne_nil _ _⟩, List.getD_cons_zero]
      exact hfirst.trans ih

theorem quoted {q : Byte} (hq : Inside q mode) {m : List Byte} (hm : Quoted q m) :
    Leads k (depth + 1) .code (q :: (m ++ [q])) (depth + 1) .code := by
  have hopen : Leads (m ++ [q] ++ k) (depth + 1) .code [q] (depth + 1) mode :=
    one fun s n hs ↦ by
      rcases hq with ⟨rfl, rfl⟩ | ⟨rfl, rfl⟩
      · have hslash : chr '"' ≠ chr '/' := by decide
        rw [braceLoop_code hs, if_neg fun h ↦ hslash h.1, if_neg fun h ↦ hslash h.1, if_pos rfl]
      · have hslash : chr '\'' ≠ chr '/' := by decide
        have hquote : chr '\'' ≠ chr '"' := by decide
        rw [braceLoop_code hs, if_neg fun h ↦ hslash h.1, if_neg fun h ↦ hslash h.1,
          if_neg hquote, if_pos rfl]
  have hclose : Leads k (depth + 1) mode [q] (depth + 1) .code :=
    one fun s n hs ↦ by
      have hescape : q ≠ chr '\\' := by
        rcases hq with ⟨rfl, -⟩ | ⟨rfl, -⟩
        · decide
        · decide
      rw [braceLoop_literal hq hs, if_neg fun h ↦ hescape h.1, if_pos rfl]
  exact hopen.trans ((quoted_bytes hq hm).trans hclose)

/-! ### Code -/

theorem plain {c : Byte} (hc : IsPlain c k) : Leads k (depth + 1) .code [c] (depth + 1) .code :=
  one fun s n hs ↦ by
    obtain ⟨hc, hslash⟩ := hc
    simp only [List.mem_cons, List.not_mem_nil, or_false, not_or] at hc hslash
    obtain ⟨hstr, hchr, hopen, hclose⟩ := hc
    have hno : ∀ e ∈ [chr '/', chr '*'], ¬ (c = chr '/' ∧ k.getD 0 0 = e) := by
      rintro e he ⟨rfl, hk⟩
      cases k with
      | nil =>
          rw [← hk] at he
          exact absurd he (by decide)
      | cons b k =>
          rw [← hk] at he
          have hb := hslash rfl b rfl
          simp only [List.getD_cons_zero, List.mem_cons, List.not_mem_nil, or_false] at he
          exact he.elim hb.1 hb.2
    have hline := hno (chr '/') List.mem_cons_self
    have hblock := hno (chr '*') (List.mem_cons_of_mem _ List.mem_cons_self)
    rw [braceLoop_code hs, if_neg hline, if_neg hblock, if_neg hstr, if_neg hchr, if_neg hopen,
      if_neg hclose]

/-- A brace in code opens or closes a block. -/
theorem braceLoop_code_of_ne {c : Byte} {s : ReaderState} {n : Nat} (hs : s.rest = c :: k)
    (hc : c ∈ [chr '\x7b', chr '\x7d']) : braceLoop (n + 1) (depth + 1) .code s =
      if c = chr '\x7b' then takesOne c n (depth + 2) .code s
      else takesOne c n depth .code s := by
  have hslash : c ≠ chr '/' := fun h ↦ absurd (h ▸ hc) (by decide)
  have hstr : c ≠ chr '"' := fun h ↦ absurd (h ▸ hc) (by decide)
  have hchr : c ≠ chr '\'' := fun h ↦ absurd (h ▸ hc) (by decide)
  rw [braceLoop_code hs, if_neg fun h ↦ hslash h.1, if_neg fun h ↦ hslash h.1, if_neg hstr,
    if_neg hchr]
  by_cases hopen : c = chr '\x7b'
  · rw [if_pos hopen, if_pos hopen]
  · have hclose : c = chr '\x7d' := by simpa [hopen] using hc
    rw [if_neg hopen, if_neg hopen, if_pos hclose]

theorem opening : Leads k (depth + 1) .code [chr '\x7b'] (depth + 2) .code :=
  one fun s n hs ↦ by rw [braceLoop_code_of_ne hs List.mem_cons_self, if_pos rfl]

theorem closing : Leads k (depth + 1) .code [chr '\x7d'] depth .code :=
  one fun s n hs ↦ by
    rw [braceLoop_code_of_ne hs (List.mem_cons_of_mem _ List.mem_cons_self), if_neg (by decide)]

/-- Before `k`, balanced text is passed over. -/
theorem text {w : List Byte} (hw : CText w) (hk : ∀ b ∈ k.head?, b ∉ [chr '/', chr '*']) :
    Leads k (depth + 1) .code w (depth + 1) .code := by
  induction hw generalizing k depth with
  | nil => exact refl
  | @byte c w hc _ ih =>
      have hplain : IsPlain c (w ++ k) := by
        refine ⟨hc.1, fun h ↦ ?_⟩
        cases w with
        | nil => exact hk
        | cons b w => exact hc.2 h
      exact (plain hplain).trans (ih hk)
  | @str q w hq _ ih => simpa using (quoted (Or.inl ⟨rfl, rfl⟩) hq).trans (ih hk)
  | @chr q w hq _ ih => simpa using (quoted (Or.inr ⟨rfl, rfl⟩) hq).trans (ih hk)
  | @lineCmt m w hm _ ih => simpa using (lineCmt hm).trans (ih hk)
  | @blockCmt m w hm _ ih => simpa using (blockCmt hm).trans (ih hk)
  | @block b w _ _ ihb ihw =>
      have hclose : ∀ e ∈ (LexCpp.chr '\x7d' :: (w ++ k)).head?,
          e ∉ [LexCpp.chr '/', LexCpp.chr '*'] := by
        intro e he
        rw [← Option.some.inj he]
        decide
      have hinner : Leads (LexCpp.chr '\x7d' :: (w ++ k)) (depth + 2) .code b (depth + 2) .code :=
        ihb hclose
      simpa using opening.trans (hinner.trans (closing.trans (ihw hk)))

end Leads

/-- The loop ends at depth zero. -/
theorem braceLoop_zero {s : ReaderState} {n : Nat} (hn : 0 < n) :
    braceLoop n 0 .code s = some ([], s) := by
  cases n with
  | zero => exact absurd hn (Nat.lt_irrefl 0)
  | succ n => simp [braceLoop]

/-- **A brace block ends at its matching brace.**  Of `\x7b`, balanced text and `\x7d` before any
continuation, `read_brace_block` returns exactly that, and leaves the cursor right after it,
past one newline if that comes next. -/
theorem readBraceBlock_exact {b : List Byte} (hb : CText b) (k : List Byte) (s : ReaderState)
    (hs : s.rest = chr '\x7b' :: (b ++ chr '\x7d' :: k)) :
    readBraceBlock s =
        some (chr '\x7b' :: (b ++ [chr '\x7d']), after s (b.length + 2 + newlineAt k)) ∧
      (after s (b.length + 2 + newlineAt k)).rest = k.drop (newlineAt k) := by
  have hclose : ∀ e ∈ (chr '\x7d' :: k).head?, e ∉ [chr '/', chr '*'] := by
    intro e he
    rw [← Option.some.inj he]
    decide
  have hlead : Leads k 1 .code (b ++ [chr '\x7d']) 0 .code :=
    (Leads.text hb hclose).trans Leads.closing
  have hrest : (taken s).rest = b ++ [chr '\x7d'] ++ k := by
    rw [rest_taken, hs]
    simp
  obtain ⟨m, hm, hloop⟩ := hlead (taken s) _ hrest (Nat.lt_succ_self _)
  rw [braceLoop_zero (Nat.zero_lt_of_lt hm)] at hloop
  have hend : (after s (b.length + 2)).rest = k := by
    rw [rest_after, hs]
    simp
  have hstate : after (taken s) (b ++ [chr '\x7d']).length = after s (b.length + 2) := by
    rw [after_taken, List.length_append]
    rfl
  rw [hstate] at hloop
  constructor
  · rw [readBraceBlock, eval_bind_of (eval_getByte s), eval_bind_of (eval_remaining _),
      eval_bind_of hloop, eval_bind_of (eval_skipNewline _), hend, after_after, hs, List.append_nil]
    rfl
  · rw [← after_after, rest_after, hend]

/-- `{"}"}` before a newline: the brace in the literal does not close the block. -/
theorem readBraceBlock_exact_literal :
    readBraceBlock { rest := [123, 34, 125, 34, 125, 10, 97] } =
        some ([123, 34, 125, 34, 125], after { rest := [123, 34, 125, 34, 125, 10, 97] } 6) ∧
      (after { rest := [123, 34, 125, 34, 125, 10, 97] } 6).rest = [97] :=
  readBraceBlock_exact (.str (.byte (by decide) (by decide) .nil) .nil) [10, 97] _ rfl

end Reader

end LexCpp
