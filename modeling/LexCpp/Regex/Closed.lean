import LexCpp.Regex.Pattern
import LexCpp.Regex.Reading

/-!
# Closed text

The text of a pattern in pieces: escapes, quoted strings, bracket expressions and parentheses.
`find_top_level_slash` and `read_pattern` look for a byte outside of them with one and the same
scan (`beforeStop`), for which a bracket expression ends at its first `]`; for the parser it may
go on.
-/

namespace LexCpp

/-! ## Pieces -/

/-- What stands between two quotes `q`: backslash escapes, and other bytes. -/
inductive Quoted (q : Byte) : List Byte → Prop where
  | nil : Quoted q []
  | byte {c : Byte} {w : List Byte} (hq : c ≠ q) (hc : c ≠ chr '\\') :
      Quoted q w → Quoted q (c :: w)
  | escape {c : Byte} {w : List Byte} : Quoted q w → Quoted q (chr '\\' :: c :: w)

/-- What a pattern is made of on the way to its first top-level slash or blank. -/
inductive Piece where
  | byte (c : Byte)
  | escape (c : Byte)
  | quoted (q : List Byte)
  | bracket (b : List Byte)
  | opening
  | closing
deriving DecidableEq, Repr

namespace Piece

/-- The text of a piece; that of a bracket expression is given with its brackets. -/
def text : Piece → List Byte
  | byte c => [c]
  | escape c => [chr '\\', c]
  | quoted q => chr '"' :: (q ++ [chr '"'])
  | bracket b => b
  | opening => [chr '(']
  | closing => [chr ')']

def texts (ps : List Piece) : List Byte := ps.flatMap text

@[simp] theorem texts_nil : texts [] = [] := rfl

@[simp] theorem texts_cons (p : Piece) (ps : List Piece) : texts (p :: ps) = p.text ++ texts ps := rfl

/-- The bytes that begin another piece. -/
def special : List Byte := [chr '\\', chr '"', chr '[', chr '(', chr ')']

/-- The pieces lead from one depth of parentheses to another before the text `k`, and none is a
byte of `stop` outside of parentheses.  What is a bracket expression, at a depth and before some
text, is for `bracket` to say; a parenthesis that closes nothing is left out if `loose`. -/
def Leads (bracket : Nat → List Byte → List Byte → Prop) (stop : Byte → Bool) (loose : Bool)
    (k : List Byte) (depth' : Nat) : Nat → List Piece → Prop
  | depth, [] => depth = depth'
  | depth, byte c :: ps =>
      c ∉ special ∧ (depth = 0 → stop c = false) ∧ Leads bracket stop loose k depth' depth ps
  | depth, escape _ :: ps => Leads bracket stop loose k depth' depth ps
  | depth, quoted q :: ps => Quoted (chr '"') q ∧ Leads bracket stop loose k depth' depth ps
  | depth, .bracket b :: ps =>
      bracket depth b (texts ps ++ k) ∧ Leads bracket stop loose k depth' depth ps
  | depth, opening :: ps => Leads bracket stop loose k depth' (depth + 1) ps
  | depth, closing :: ps =>
      (0 < depth ∨ loose = true) ∧ Leads bracket stop loose k depth' (depth - 1) ps

/-- A bracket expression that ends at its first `]`. -/
def EndsAtFirst (b : List Byte) : Prop := ∃ q, Quoted (chr ']') q ∧ b = chr '[' :: (q ++ [chr ']'])

/-- A bracket expression that `parse_class` reads to its end without an error, and no further,
before the text `k`. -/
def IsBracket (env : ParseEnv) (b k : List Byte) : Prop :=
  (∃ q, b = chr '[' :: (q ++ [chr ']'])) ∧
    ∃ t s, Parser.parseClass env { rest := b ++ k } = some (t, s) ∧ s.rest = k ∧
      Diag.ok s.diags = true

/-- Text without a byte of `stop` outside of escapes, quotes, brackets and parentheses, which are
all closed before `k`; the brackets are those of `parse_class`. -/
def Closed (env : ParseEnv) (stop : Byte → Bool) (k : List Byte) (ps : List Piece) : Prop :=
  Leads (fun _ b k ↦ IsBracket env b k) stop false k 0 0 ps

/-- A bracket expression in so many parentheses that can be read with brackets that end at their
first `]`: this keeps the depth, and meets no byte of `stop` outside of parentheses. -/
def Harmless (stop : Byte → Bool) (depth : Nat) (b : List Byte) : Prop :=
  ∃ ps, Leads (fun _ b _ ↦ EndsAtFirst b) stop true [] depth depth ps ∧ texts ps = b

/-- Every bracket expression is harmless where it stands. -/
def AllHarmless (stop : Byte → Bool) : Nat → List Piece → Prop
  | _, [] => True
  | depth, .bracket b :: ps => Harmless stop depth b ∧ AllHarmless stop depth ps
  | depth, opening :: ps => AllHarmless stop (depth + 1) ps
  | depth, closing :: ps => AllHarmless stop (depth - 1) ps
  | depth, _ :: ps => AllHarmless stop depth ps

/-- Reading the bracket expressions as harmless ones. -/
theorem AllHarmless.leads {bracket : Nat → List Byte → List Byte → Prop} {stop : Byte → Bool}
    {loose : Bool} {k : List Byte} {depth' depth : Nat} {ps : List Piece}
    (h : AllHarmless stop depth ps) (hps : Leads bracket stop loose k depth' depth ps) :
    Leads (fun depth b _ ↦ Harmless stop depth b) stop loose k depth' depth ps := by
  induction ps generalizing depth with
  | nil => exact hps
  | cons p ps ih =>
      cases p with
      | byte c => exact ⟨hps.1, hps.2.1, ih h hps.2.2⟩
      | escape c =>
          have hps' : Leads bracket stop loose k depth' depth ps := hps
          exact ih h hps'
      | quoted q => exact ⟨hps.1, ih h hps.2⟩
      | bracket b => exact ⟨h.1, ih h.2 hps.2⟩
      | opening =>
          have hps' : Leads bracket stop loose k depth' (depth + 1) ps := hps
          exact ih h hps'
      | closing => exact ⟨hps.1, ih h hps.2⟩

end Piece

/-! ## The scan -/

/-- The bytes before the first one of `stop` that is outside of escapes, quotes, brackets and
parentheses, where a bracket ends at the first `]`; all of them if there is none. -/
def beforeStop (stop : Byte → Bool) (depth : Nat) (inClass inQuoted escaped : Bool) :
    List Byte → List Byte
  | [] => []
  | c :: cs =>
      if escaped then c :: beforeStop stop depth inClass inQuoted false cs
      else if !inClass && !inQuoted && depth == 0 && stop c then []
      else c ::
        if c = chr '\\' ∧ cs ≠ [] then beforeStop stop depth inClass inQuoted true cs
        else if inClass then beforeStop stop depth (c != chr ']') inQuoted false cs
        else if inQuoted then beforeStop stop depth inClass (c != chr '"') false cs
        else if c = chr '[' then beforeStop stop depth true inQuoted false cs
        else if c = chr '"' then beforeStop stop depth inClass true false cs
        else if c = chr '(' then beforeStop stop (depth + 1) inClass inQuoted false cs
        else if c = chr ')' then beforeStop stop (depth - 1) inClass inQuoted false cs
        else beforeStop stop depth inClass inQuoted false cs

def isSlash (c : Byte) : Bool := c = chr '/'

/-- `find_top_level_slash` is such a scan. -/
theorem slashFrom_eq (depth : Nat) (inClass inQuoted escaped : Bool) (i : Nat) (l : List Byte) :
    slashFrom depth inClass inQuoted escaped i l =
      if (beforeStop isSlash depth inClass inQuoted escaped l).length = l.length then -1
      else int32 (i + (beforeStop isSlash depth inClass inQuoted escaped l).length) := by
  induction l generalizing depth inClass inQuoted escaped i with
  | nil => rfl
  | cons c cs ih =>
      have hnext : ∀ d inC inQ e, slashFrom d inC inQ e (i + 1) cs =
          if (c :: beforeStop isSlash d inC inQ e cs).length = (c :: cs).length then -1
          else int32 (i + (c :: beforeStop isSlash d inC inQ e cs).length) := by
        intro d inC inQ e
        simp only [ih, List.length_cons, Nat.add_right_cancel_iff]
        push_cast
        rw [add_assoc (i : Int) 1, add_comm (1 : Int)]
      unfold slashFrom beforeStop
      by_cases he : escaped = true
      · rw [if_pos he, if_pos he, hnext]
      rw [if_neg he, if_neg he]
      by_cases hstop : (!inClass && !inQuoted && depth == 0 && isSlash c) = true
      · simp only [Bool.and_eq_true, Bool.not_eq_true', beq_iff_eq, isSlash, decide_eq_true_eq] at hstop
        obtain ⟨⟨⟨rfl, rfl⟩, rfl⟩, rfl⟩ := hstop
        simp [isSlash, show chr '/' ≠ chr '\\' by decide, show chr '/' ≠ chr '[' by decide,
          show chr '/' ≠ chr '"' by decide, show chr '/' ≠ chr '(' by decide,
          show chr '/' ≠ chr ')' by decide]
      rw [if_neg hstop]
      by_cases hesc : c = chr '\\' ∧ cs ≠ []
      · rw [if_pos hesc, if_pos hesc, hnext]
      rw [if_neg hesc, if_neg hesc]
      by_cases hc : inClass = true
      · rw [if_pos hc, if_pos hc, hnext]
      rw [if_neg hc, if_neg hc]
      by_cases hq : inQuoted = true
      · rw [if_pos hq, if_pos hq, hnext]
      rw [if_neg hq, if_neg hq]
      have hslash : ¬ (c = chr '/' ∧ depth = 0) := by
        rintro ⟨rfl, rfl⟩
        rw [Bool.not_eq_true] at hc hq
        exact hstop (by rw [hc, hq]; decide)
      rw [if_neg hslash]
      by_cases hbracket : c = chr '['
      · rw [if_pos hbracket, if_pos hbracket, hnext]
      rw [if_neg hbracket, if_neg hbracket]
      by_cases hquote : c = chr '"'
      · rw [if_pos hquote, if_pos hquote, hnext]
      rw [if_neg hquote, if_neg hquote]
      by_cases hopen : c = chr '('
      · rw [if_pos hopen, if_pos hopen, hnext]
      rw [if_neg hopen, if_neg hopen]
      by_cases hclose : c = chr ')'
      · rw [if_pos hclose, if_pos hclose, hnext]
      rw [if_neg hclose, if_neg hclose, hnext]

/-! ## Closed text is passed over -/

section Scan

variable {stop : Byte → Bool} {depth : Nat} {c : Byte} {cs q k : List Byte}

theorem beforeStop_escape (hstop : stop (chr '\\') = false) (inClass inQuoted : Bool) :
    beforeStop stop depth inClass inQuoted false (chr '\\' :: c :: cs) =
      chr '\\' :: c :: beforeStop stop depth inClass inQuoted false cs := by
  simp [beforeStop, hstop]

theorem beforeStop_inClass (hq : Quoted (chr ']') q) (hstop : stop (chr '\\') = false) :
    beforeStop stop depth true false false (q ++ chr ']' :: k) =
      q ++ chr ']' :: beforeStop stop depth false false false k := by
  induction hq with
  | nil => simp [beforeStop, show chr ']' ≠ chr '\\' by decide]
  | byte hne hesc _ ih =>
      simp only [List.cons_append]
      rw [beforeStop]
      simp [bne_iff_ne.2 hne, hesc, ih]
  | escape _ ih =>
      simp only [List.cons_append]
      rw [beforeStop_escape hstop, ih]

theorem beforeStop_inQuoted (hq : Quoted (chr '"') q) (hstop : stop (chr '\\') = false) :
    beforeStop stop depth false true false (q ++ chr '"' :: k) =
      q ++ chr '"' :: beforeStop stop depth false false false k := by
  induction hq with
  | nil => simp [beforeStop, show chr '"' ≠ chr '\\' by decide]
  | byte hne hesc _ ih =>
      simp only [List.cons_append]
      rw [beforeStop]
      simp [bne_iff_ne.2 hne, hesc, ih]
  | escape _ ih =>
      simp only [List.cons_append]
      rw [beforeStop_escape hstop, ih]

/-- A byte at which nothing begins. -/
theorem beforeStop_byte (hc : c ∉ Piece.special) (hstop : depth = 0 → stop c = false) :
    beforeStop stop depth false false false (c :: cs) =
      c :: beforeStop stop depth false false false cs := by
  simp only [Piece.special, List.mem_cons, List.not_mem_nil, or_false, not_or] at hc
  rw [beforeStop]
  simp [hc]
  exact hstop

variable (hstop : ∀ c ∈ Piece.special, stop c = false)

include hstop

theorem beforeStop_quoted (hq : Quoted (chr '"') q) :
    beforeStop stop depth false false false (chr '"' :: (q ++ chr '"' :: k)) =
      chr '"' :: (q ++ chr '"' :: beforeStop stop depth false false false k) := by
  have hquote := hstop (chr '"') (by decide)
  rw [← beforeStop_inQuoted hq (hstop (chr '\\') (by decide)), beforeStop]
  simp [hquote, show chr '"' ≠ chr '\\' by decide, show chr '"' ≠ chr '[' by decide]

theorem beforeStop_endsAtFirst {b : List Byte} (hb : Piece.EndsAtFirst b) :
    beforeStop stop depth false false false (b ++ k) =
      b ++ beforeStop stop depth false false false k := by
  obtain ⟨q, hq, rfl⟩ := hb
  have hopen := hstop (chr '[') (by decide)
  simp only [List.cons_append, List.append_assoc, List.nil_append]
  rw [← beforeStop_inClass hq (hstop (chr '\\') (by decide)), beforeStop]
  simp [hopen, show chr '[' ≠ chr '\\' by decide]

theorem beforeStop_opening : beforeStop stop depth false false false (chr '(' :: k) =
    chr '(' :: beforeStop stop (depth + 1) false false false k := by
  have hopen := hstop (chr '(') (by decide)
  rw [beforeStop]
  simp [hopen, show chr '(' ≠ chr '\\' by decide, show chr '(' ≠ chr '[' by decide,
    show chr '(' ≠ chr '"' by decide]

theorem beforeStop_closing : beforeStop stop depth false false false (chr ')' :: k) =
    chr ')' :: beforeStop stop (depth - 1) false false false k := by
  have hclose := hstop (chr ')') (by decide)
  rw [beforeStop]
  simp [hclose, show chr ')' ≠ chr '\\' by decide, show chr ')' ≠ chr '[' by decide,
    show chr ')' ≠ chr '"' by decide, show chr ')' ≠ chr '(' by decide]

/-- Pieces are passed over if their brackets are. -/
theorem Piece.Leads.beforeStop_eq {bracket : Nat → List Byte → List Byte → Prop} {loose : Bool}
    {k₀ : List Byte} {depth' : Nat} {ps : List Piece}
    (hps : Leads bracket stop loose k₀ depth' depth ps)
    (hbracket : ∀ depth b w, bracket depth b w → ∀ k,
      beforeStop stop depth false false false (b ++ k) =
        b ++ beforeStop stop depth false false false k) (k : List Byte) :
    beforeStop stop depth false false false (texts ps ++ k) =
      texts ps ++ beforeStop stop depth' false false false k := by
  induction ps generalizing depth with
  | nil =>
      obtain rfl : depth = depth' := hps
      rfl
  | cons p ps ih =>
      rw [texts_cons, List.append_assoc, List.append_assoc]
      cases p with
      | byte c =>
          obtain ⟨hc, hnot, hps⟩ := hps
          rw [← ih hps]
          exact beforeStop_byte hc hnot
      | escape c =>
          rw [← ih hps]
          exact beforeStop_escape (hstop (chr '\\') (by decide)) false false
      | quoted q =>
          obtain ⟨hq, hps⟩ := hps
          simp only [text, List.cons_append, List.append_assoc, List.nil_append]
          rw [← ih hps]
          exact beforeStop_quoted hstop hq
      | bracket b =>
          obtain ⟨hb, hps⟩ := hps
          rw [← ih hps]
          exact hbracket depth b _ hb _
      | opening =>
          rw [← ih hps]
          exact beforeStop_opening hstop
      | closing =>
          rw [← ih hps.2]
          exact beforeStop_closing hstop

/-- A harmless bracket expression is passed over. -/
theorem Piece.Harmless.beforeStop_eq {b : List Byte} (hb : Harmless stop depth b) (k : List Byte) :
    beforeStop stop depth false false false (b ++ k) =
      b ++ beforeStop stop depth false false false k := by
  obtain ⟨ps, hps, rfl⟩ := hb
  exact Leads.beforeStop_eq hstop hps (fun _ _ _ hb k ↦ beforeStop_endsAtFirst hstop hb) k

/-- **Closed text is passed over** if its bracket expressions are harmless. -/
theorem Piece.Closed.beforeStop_eq {env : ParseEnv} {ps : List Piece} (hps : Closed env stop k ps)
    (hharm : AllHarmless stop 0 ps) :
    beforeStop stop 0 false false false (texts ps ++ k) =
      texts ps ++ beforeStop stop 0 false false false k := by
  refine Leads.beforeStop_eq hstop (hharm.leads hps) (fun _ _ _ hb k ↦ ?_) k
  exact hb.beforeStop_eq hstop k

/-! ## Every text is read somehow -/

omit hstop in
/-- Inside of a bracket or of quotes that are not closed, all is passed over. -/
theorem beforeStop_unclosed (hstop : stop (chr '\\') = false) :
    (Quoted (chr ']') q → beforeStop stop depth true false false q = q) ∧
      (Quoted (chr '"') q → beforeStop stop depth false true false q = q) := by
  constructor
  all_goals
    intro hq
    induction hq with
    | nil => rfl
    | byte hne hesc _ ih =>
        rw [beforeStop]
        simp [bne_iff_ne.2 hne, hesc, ih]
    | escape _ ih => rw [beforeStop_escape hstop, ih]

omit hstop in
/-- Text that does not end in a backslash has a closing quote, or is all inside. -/
theorem Quoted.split (e : Byte) {n : Nat} {w : List Byte} (hn : w.length ≤ n)
    (hw : ¬ [chr '\\'] <:+ w) : (∃ q v, Quoted e q ∧ w = q ++ e :: v) ∨ Quoted e w := by
  induction n generalizing w with
  | zero =>
      obtain rfl := List.eq_nil_of_length_eq_zero (Nat.le_zero.1 hn)
      exact Or.inr .nil
  | succ n ih =>
      cases w with
      | nil => exact Or.inr .nil
      | cons c w =>
          have hlen := Nat.le_of_succ_le_succ hn
          have hw' : ¬ [chr '\\'] <:+ w := fun h ↦ hw (h.trans (List.suffix_cons c w))
          by_cases he : c = e
          · exact Or.inl ⟨[], w, .nil, by rw [he]; rfl⟩
          by_cases hesc : c = chr '\\'
          · subst hesc
            cases w with
            | nil => exact absurd List.suffix_rfl hw
            | cons d w =>
                have hw'' : ¬ [chr '\\'] <:+ w := fun h ↦ hw' (h.trans (List.suffix_cons d w))
                rcases ih (Nat.le_of_succ_le hlen) hw'' with ⟨q, v, hq, rfl⟩ | hq
                · exact Or.inl ⟨_, v, .escape (c := d) hq, rfl⟩
                · exact Or.inr (.escape hq)
          · rcases ih hlen hw' with ⟨q, v, hq, rfl⟩ | hq
            · exact Or.inl ⟨_, v, .byte he hesc hq, rfl⟩
            · exact Or.inr (.byte he hesc hq)

omit hstop in
theorem Quoted.append {e : Byte} {w v : List Byte} (hw : Quoted e w)
    (hv : ∀ c ∈ v, c ≠ e ∧ c ≠ chr '\\') : Quoted e (w ++ v) := by
  induction hw with
  | nil =>
      induction v with
      | nil => exact .nil
      | cons c v ih =>
          obtain ⟨he, hesc⟩ := hv c List.mem_cons_self
          exact .byte he hesc (ih fun d hd ↦ hv d (List.mem_cons_of_mem c hd))
  | byte he hesc _ ih => exact .byte he hesc ih
  | escape _ ih => exact .escape ih

/-- What the scan makes of a text: it reads pieces, or it stops inside, or it gets stuck in a
bracket or in quotes. -/
def Reading (stop : Byte → Bool) (depth : Nat) (w : List Byte) : Prop :=
  (∃ depth' ps, Piece.Leads (fun _ b _ ↦ Piece.EndsAtFirst b) stop true [] depth' depth ps ∧
      Piece.texts ps = w) ∨
    (∀ k, (beforeStop stop depth false false false (w ++ k)).length < w.length) ∨
    ∀ k, (∀ c ∈ k, c ∉ [chr ']', chr '"', chr '\\']) →
      beforeStop stop depth false false false (w ++ k) = w ++ k

omit hstop in
/-- A reading goes on behind a piece. -/
theorem Reading.cons {p : Piece} {depth' : Nat} {w : List Byte}
    (hp : ∀ k, beforeStop stop depth false false false (p.text ++ k) =
      p.text ++ beforeStop stop depth' false false false k)
    (hleads : ∀ {d ps}, Piece.Leads (fun _ b _ ↦ Piece.EndsAtFirst b) stop true [] d depth' ps →
      Piece.Leads (fun _ b _ ↦ Piece.EndsAtFirst b) stop true [] d depth (p :: ps))
    (h : Reading stop depth' w) : Reading stop depth (p.text ++ w) := by
  rcases h with ⟨d, ps, hps, rfl⟩ | hin | hstuck
  · exact Or.inl ⟨d, p :: ps, hleads hps, rfl⟩
  · refine Or.inr (Or.inl fun k ↦ ?_)
    rw [List.append_assoc, hp, List.length_append, List.length_append]
    exact Nat.add_lt_add_left (hin k) _
  · refine Or.inr (Or.inr fun k hk ↦ ?_)
    rw [List.append_assoc, hp, hstuck k hk]

theorem exists_reading {n : Nat} {w : List Byte} (hn : w.length ≤ n) (hw : ¬ [chr '\\'] <:+ w)
    (depth : Nat) : Reading stop depth w := by
  induction n generalizing w depth with
  | zero =>
      obtain rfl := List.eq_nil_of_length_eq_zero (Nat.le_zero.1 hn)
      exact Or.inl ⟨depth, [], rfl, rfl⟩
  | succ n ih =>
      cases w with
      | nil => exact Or.inl ⟨depth, [], rfl, rfl⟩
      | cons c w =>
          have hlen := Nat.le_of_succ_le_succ hn
          have hw' : ¬ [chr '\\'] <:+ w := fun h ↦ hw (h.trans (List.suffix_cons c w))
          have hesc := hstop (chr '\\') (by decide)
          by_cases hc : c ∈ Piece.special
          · simp only [Piece.special, List.mem_cons, List.not_mem_nil, or_false] at hc
            rcases hc with rfl | rfl | rfl | rfl | rfl
            · cases w with
              | nil => exact absurd List.suffix_rfl hw
              | cons d w =>
                  have hw'' : ¬ [chr '\\'] <:+ w := fun h ↦ hw' (h.trans (List.suffix_cons d w))
                  have hrest := ih (Nat.le_of_succ_le hlen) hw'' depth
                  exact hrest.cons (p := .escape d) (fun _ ↦ beforeStop_escape hesc _ _) id
            · rcases Quoted.split (chr '"') le_rfl hw' with ⟨q, v, hq, rfl⟩ | hq
              · have hrest := ih (w := v) (by simp at hlen; omega)
                  (fun h ↦ hw' (h.trans ((List.suffix_cons _ v).trans (List.suffix_append q _)))) depth
                have h := hrest.cons (p := .quoted q)
                  (fun k ↦ by simpa [Piece.text] using beforeStop_quoted hstop hq) (fun h ↦ ⟨hq, h⟩)
                simpa [Piece.text] using h
              · refine Or.inr (Or.inr fun k hk ↦ ?_)
                have hall := hq.append (v := k) fun c hc ↦ by
                  have := hk c hc
                  simp at this
                  exact ⟨this.2.1, this.2.2⟩
                have hquote := hstop (chr '"') (by decide)
                rw [List.cons_append, beforeStop]
                simp [hquote, show chr '"' ≠ chr '\\' by decide, show chr '"' ≠ chr '[' by decide,
                  (beforeStop_unclosed hesc).2 hall]
            · rcases Quoted.split (chr ']') le_rfl hw' with ⟨q, v, hq, rfl⟩ | hq
              · have hrest := ih (w := v) (by simp at hlen; omega)
                  (fun h ↦ hw' (h.trans ((List.suffix_cons _ v).trans (List.suffix_append q _)))) depth
                have hb : Piece.EndsAtFirst (chr '[' :: (q ++ [chr ']'])) := ⟨q, hq, rfl⟩
                have h := hrest.cons (p := .bracket (chr '[' :: (q ++ [chr ']'])))
                  (fun k ↦ beforeStop_endsAtFirst hstop hb) (fun h ↦ ⟨hb, h⟩)
                simpa [Piece.text] using h
              · refine Or.inr (Or.inr fun k hk ↦ ?_)
                have hall := hq.append (v := k) fun c hc ↦ by
                  have := hk c hc
                  simp at this
                  exact ⟨this.1, this.2.2⟩
                have hopen := hstop (chr '[') (by decide)
                rw [List.cons_append, beforeStop]
                simp [hopen, show chr '[' ≠ chr '\\' by decide, (beforeStop_unclosed hesc).1 hall]
            · exact (ih hlen hw' (depth + 1)).cons (p := .opening)
                (fun _ ↦ beforeStop_opening hstop) id
            · exact (ih hlen hw' (depth - 1)).cons (p := .closing)
                (fun _ ↦ beforeStop_closing hstop) (fun h ↦ ⟨Or.inr rfl, h⟩)
          · by_cases hmeet : depth = 0 ∧ stop c = true
            · refine Or.inr (Or.inl fun k ↦ ?_)
              rw [List.cons_append, beforeStop]
              simp [hmeet]
            · have hnot : depth = 0 → stop c = false := fun h ↦
                Bool.eq_false_iff.2 fun hs ↦ hmeet ⟨h, hs⟩
              exact (ih hlen hw' depth).cons (p := .byte c) (fun _ ↦ beforeStop_byte hc hnot)
                (fun h ↦ ⟨hc, hnot, h⟩)

theorem beforeStop_openings (n : Nat) :
    beforeStop stop depth false false false (List.replicate n (chr '(') ++ k) =
      List.replicate n (chr '(') ++ beforeStop stop (depth + n) false false false k := by
  induction n generalizing depth with
  | zero => rfl
  | succ n ih =>
      rw [List.replicate_succ, List.cons_append, beforeStop_opening hstop, ih, Nat.add_assoc,
        Nat.add_comm 1]
      rfl

theorem beforeStop_closings (n : Nat) :
    beforeStop stop depth false false false (List.replicate n (chr ')') ++ k) =
      List.replicate n (chr ')') ++ beforeStop stop (depth - n) false false false k := by
  induction n generalizing depth with
  | zero => rfl
  | succ n ih =>
      rw [List.replicate_succ, List.cons_append, beforeStop_closing hstop, ih, Nat.sub_sub,
        Nat.add_comm 1]
      rfl

/-- **A bracket expression that is not harmless does harm**: in its parentheses, closed again
around a byte to stop at, it leads the scan astray. -/
theorem Piece.exists_astray {e : Byte} (he : stop e = true) (hclean : e ∉ [chr ']', chr '"', chr '\\'])
    {b : List Byte} (hb : ¬ [chr '\\'] <:+ b) (hharm : ¬ Harmless stop depth b) :
    ∃ m ≤ depth, ∃ w, w = List.replicate depth (chr '(') ++ (b ++ List.replicate m (chr ')')) ∧
      ((m = depth ∧ beforeStop stop 0 false false false (w ++ [e]) ≠ w) ∨
        (m < depth ∧
          beforeStop stop 0 false false false (w ++ e :: List.replicate (depth - m) (chr ')')) ≠
            w ++ e :: List.replicate (depth - m) (chr ')'))) := by
  have hspecial : e ∉ special := fun h ↦ absurd (hstop e h) (by rw [he]; decide)
  have hrun : ∀ k, beforeStop stop 0 false false false (List.replicate depth (chr '(') ++ k) =
      List.replicate depth (chr '(') ++ beforeStop stop depth false false false k := by
    intro k
    rw [beforeStop_openings hstop, Nat.zero_add]
  have hbyte : ∀ d k, beforeStop stop (d + 1) false false false (e :: k) =
      e :: beforeStop stop (d + 1) false false false k := fun d k ↦
    beforeStop_byte hspecial fun h ↦ absurd h (Nat.succ_ne_zero d)
  have hmet : ∀ k, beforeStop stop 0 false false false (e :: k) = [] := by
    intro k
    rw [beforeStop]
    simp [he]
  rcases exists_reading hstop le_rfl hb depth with ⟨depth', ps, hps, rfl⟩ | hin | hstuck
  · have hpass := fun k ↦ hps.beforeStop_eq hstop
      (fun _ _ _ hb k ↦ beforeStop_endsAtFirst hstop hb) k
    have hne : depth' ≠ depth := fun h ↦ hharm ⟨ps, h ▸ hps, rfl⟩
    rcases Nat.lt_or_gt_of_ne hne with hlt | hgt
    · -- a parenthesis has been closed too early: the byte is met in the others
      refine ⟨depth', hlt.le, _, rfl, Or.inr ⟨hlt, ?_⟩⟩
      rw [List.append_assoc, List.append_assoc, hrun, hpass, beforeStop_closings hstop,
        Nat.sub_self, hmet]
      simp
    · -- one stays open: the byte is passed over
      refine ⟨depth, le_rfl, _, rfl, Or.inl ⟨rfl, ?_⟩⟩
      obtain ⟨d, hd⟩ := Nat.exists_eq_succ_of_ne_zero (Nat.sub_ne_zero_of_lt hgt)
      rw [List.append_assoc, List.append_assoc, hrun, hpass, beforeStop_closings hstop, hd, hbyte]
      simp [beforeStop]
  · refine ⟨depth, le_rfl, _, rfl, Or.inl ⟨rfl, fun h ↦ ?_⟩⟩
    have hlen := congrArg List.length h
    rw [List.append_assoc, List.append_assoc, hrun] at hlen
    have := hin (List.replicate depth (chr ')') ++ [e])
    simp only [List.length_append] at hlen
    omega
  · refine ⟨depth, le_rfl, _, rfl, Or.inl ⟨rfl, ?_⟩⟩
    have hk : ∀ c ∈ List.replicate depth (chr ')') ++ [e], c ∉ [chr ']', chr '"', chr '\\'] := by
      intro c hc
      rcases List.mem_append.1 hc with hc | hc
      · rw [List.eq_of_mem_replicate hc]
        decide
      · rwa [List.mem_singleton.1 hc]
    rw [List.append_assoc, List.append_assoc, hrun, hstuck _ hk]
    simp

end Scan

/-! ## Pieces around a bracket -/

namespace Piece

variable {bracket : Nat → List Byte → List Byte → Prop} {stop : Byte → Bool} {loose : Bool}
  {k : List Byte} {depth depth' : Nat} {ps : List Piece}

theorem leads_openings (n : Nat) (h : Leads bracket stop loose k depth' (depth + n) ps) :
    Leads bracket stop loose k depth' depth (List.replicate n opening ++ ps) := by
  induction n generalizing depth with
  | zero => exact h
  | succ n ih =>
      have hrest : Leads bracket stop loose k depth' (depth + 1 + n) ps := by
        rwa [Nat.add_assoc, Nat.add_comm 1]
      exact ih hrest

theorem leads_closings (n : Nat) (h : Leads bracket stop loose k depth' depth ps) :
    Leads bracket stop loose k depth' (depth + n) (List.replicate n closing ++ ps) := by
  induction n with
  | zero => exact h
  | succ n ih => exact ⟨Or.inl (Nat.succ_pos _), ih⟩

theorem texts_append (ps qs : List Piece) : texts (ps ++ qs) = texts ps ++ texts qs :=
  List.flatMap_append

theorem texts_openings (n : Nat) : texts (List.replicate n opening) = List.replicate n (chr '(') := by
  induction n with
  | zero => rfl
  | succ n ih => rw [List.replicate_succ, texts_cons, ih]; rfl

theorem texts_closings (n : Nat) : texts (List.replicate n closing) = List.replicate n (chr ')') := by
  induction n with
  | zero => rfl
  | succ n ih => rw [List.replicate_succ, texts_cons, ih]; rfl

/-- A bracket expression in so many parentheses, of which `m` are closed behind it; the others
are closed behind a byte `e`. -/
def around (depth : Nat) (b : List Byte) (m : Nat) (e : Byte) : List Piece :=
  List.replicate depth opening ++ .bracket b :: (List.replicate m closing ++
    if m < depth then byte e :: List.replicate (depth - m) closing else [])

/-- What comes behind these pieces in the text that leads the scan astray. -/
def behind (depth m : Nat) (e : Byte) : List Byte := if m < depth then [] else [e]

theorem length_around {m : Nat} (hm : m ≤ depth) (b : List Byte) (e : Byte) :
    (texts (around depth b m e) ++ behind depth m e).length = b.length + 2 * depth + 1 := by
  unfold around behind
  rw [texts_append, texts_openings, texts_cons, texts_append, texts_closings]
  split_ifs with h
  · rw [texts_cons, texts_closings]
    simp only [List.length_append, List.length_replicate, text, List.length_cons, List.length_nil]
    omega
  · simp only [List.length_append, List.length_replicate, text, texts_nil, List.length_nil,
      List.length_cons]
    omega

/-- The scan goes astray behind a bracket expression that is not harmless. -/
theorem exists_around (hstop : ∀ c ∈ special, stop c = false) {e : Byte} (he : stop e = true)
    (hclean : e ∉ [chr ']', chr '"', chr '\\']) {env : ParseEnv} {b : List Byte}
    (hb : ∀ k, IsBracket env b k) (hharm : ¬ Harmless stop depth b) :
    ∃ m ≤ depth, Closed env stop (behind depth m e) (around depth b m e) ∧
      beforeStop stop 0 false false false (texts (around depth b m e) ++ behind depth m e) ≠
        texts (around depth b m e) := by
  have hend : ¬ [chr '\\'] <:+ b := by
    obtain ⟨⟨q, rfl⟩, -⟩ := hb []
    rw [← List.cons_append]
    intro h
    obtain ⟨u, hu⟩ := h
    exact absurd (List.append_inj' hu rfl).2 (by decide)
  have hspecial : e ∉ special := fun h ↦ absurd (hstop e h) (by rw [he]; decide)
  obtain ⟨m, hm, w, rfl, hwrong⟩ := exists_astray hstop he hclean hend hharm
  refine ⟨m, hm, ?_, ?_⟩
  · refine leads_openings depth ?_
    rw [Nat.zero_add]
    refine ⟨hb _, ?_⟩
    obtain ⟨d, rfl⟩ := Nat.exists_eq_add_of_le hm
    rw [Nat.add_comm m d]
    refine leads_closings m ?_
    rw [Nat.add_sub_cancel]
    cases d with
    | zero =>
        rw [Nat.zero_add, if_neg (lt_irrefl m)]
        rfl
    | succ d =>
        rw [if_pos (by omega)]
        refine ⟨hspecial, fun h ↦ absurd h (Nat.succ_ne_zero d), ?_⟩
        have hclose : Leads (fun _ b k ↦ IsBracket env b k) stop false
            (behind (d + 1 + m) m e) 0 (0 + (d + 1)) (List.replicate (d + 1) closing ++ []) :=
          leads_closings (d + 1) rfl
        rwa [Nat.zero_add, List.append_nil] at hclose
  · unfold around behind
    rw [texts_append, texts_openings, texts_cons, texts_append, texts_closings]
    rcases hwrong with ⟨rfl, hwrong⟩ | ⟨hlt, hwrong⟩
    · rw [if_neg (lt_irrefl m), if_neg (lt_irrefl m), texts_nil, List.append_nil]
      exact hwrong
    · rw [if_pos hlt, if_pos hlt, texts_cons, texts_closings, List.append_nil]
      simp only [List.append_assoc] at hwrong ⊢
      exact hwrong

end Piece

/-! ## The slash -/

theorem isSlash_special : ∀ c ∈ Piece.special, isSlash c = false := by decide +kernel

theorem findTopLevelSlash_eq (src : List Byte) : findTopLevelSlash src =
    if (beforeStop isSlash 0 false false false src).length = src.length then -1
    else int32 (beforeStop isSlash 0 false false false src).length := by
  rw [findTopLevelSlash, slashFrom_eq, Nat.cast_zero, zero_add]

/-- A backslash at the very end is a byte. -/
theorem beforeStop_end {stop : Byte → Bool} (hstop : stop (chr '\\') = false) {e : List Byte}
    (he : e = [] ∨ e = [chr '\\']) : beforeStop stop 0 false false false e = e := by
  rcases he with rfl | rfl
  · rfl
  · simp [beforeStop, hstop]

theorem beforeStop_prefix {stop : Byte → Bool} (l : List Byte) (depth : Nat)
    (inClass inQuoted escaped : Bool) : beforeStop stop depth inClass inQuoted escaped l <+: l := by
  induction l generalizing depth inClass inQuoted escaped with
  | nil => exact List.prefix_rfl
  | cons c cs ih =>
      unfold beforeStop
      split_ifs
      all_goals first
        | exact List.nil_prefix
        | exact (List.prefix_cons_inj c).2 (ih _ _ _ _)

/-- What `find_top_level_slash` has to return for pieces before `/`, or at the end of the text. -/
def SlashRight (env : ParseEnv) (ps : List Piece) : Prop :=
  (∀ r, Piece.Closed env isSlash (chr '/' :: r) ps →
    findTopLevelSlash (Piece.texts ps ++ chr '/' :: r) = (Piece.texts ps).length) ∧
  ∀ e, e = [] ∨ e = [chr '\\'] → Piece.Closed env isSlash e ps →
    findTopLevelSlash (Piece.texts ps ++ e) = -1

section Slash

variable {env : ParseEnv} {ps : List Piece}

theorem findTopLevelSlash_slash (hharm : Piece.AllHarmless isSlash 0 ps) {r : List Byte}
    (hps : Piece.Closed env isSlash (chr '/' :: r) ps) :
    findTopLevelSlash (Piece.texts ps ++ chr '/' :: r) = int32 (Piece.texts ps).length := by
  have hmet : beforeStop isSlash 0 false false false (chr '/' :: r) = [] := by
    rw [beforeStop]
    simp [isSlash]
  rw [findTopLevelSlash_eq, hps.beforeStop_eq isSlash_special hharm, hmet, List.append_nil, if_neg]
  simp

theorem findTopLevelSlash_end (hharm : Piece.AllHarmless isSlash 0 ps) {e : List Byte}
    (he : e = [] ∨ e = [chr '\\']) (hps : Piece.Closed env isSlash e ps) :
    findTopLevelSlash (Piece.texts ps ++ e) = -1 := by
  rw [findTopLevelSlash_eq, hps.beforeStop_eq isSlash_special hharm, beforeStop_end (by decide) he,
    if_pos rfl]

/-- A bracket expression that is not harmless makes `find_top_level_slash` return a wrong index
somewhere. -/
theorem exists_not_slashRight {b : List Byte} {depth : Nat} (hb : ∀ k, Piece.IsBracket env b k)
    (hlen : b.length + 2 * depth + 1 < 2147483648) (hharm : ¬ Piece.Harmless isSlash depth b) :
    ∃ m, ¬ SlashRight env (Piece.around depth b m (chr '/')) := by
  obtain ⟨m, hm, hclosed, hwrong⟩ :=
    Piece.exists_around isSlash_special (e := chr '/') (by decide) (by decide) hb hharm
  have hlen' := Piece.length_around hm b (chr '/')
  have hfront : beforeStop isSlash 0 false false false
      (Piece.texts (Piece.around depth b m (chr '/')) ++ Piece.behind depth m (chr '/')) <+: _ :=
    beforeStop_prefix _ 0 false false false
  have hshort := hfront.length_le
  refine ⟨m, fun hright ↦ ?_⟩
  have hint := int32_natCast (hshort.trans_lt (hlen'.trans_lt hlen))
  unfold Piece.behind at *
  by_cases hlt : m < depth
  · rw [if_pos hlt, List.append_nil] at *
    have h := hright.2 [] (Or.inl rfl) hclosed
    rw [List.append_nil, findTopLevelSlash_eq, if_neg fun h ↦ hwrong (hfront.eq_of_length h),
      hint] at h
    omega
  · rw [if_neg hlt] at *
    have h := hright.1 [] hclosed
    rw [findTopLevelSlash_eq, hint] at h
    split_ifs at h with hall
    have heq := List.prefix_of_prefix_length_le hfront (List.prefix_append _ _) (by omega)
    exact hwrong (heq.eq_of_length (by omega))

end Slash

/-- **The splitter and the brackets of the parser.**  If every bracket expression is harmless
where it stands, `find_top_level_slash` returns the index of the first `/` outside of escapes,
quotes, parentheses and the bracket expressions that `parse_class` reads, as long as that is an
`int`, and `-1` if there is none.  A bracket expression that is not harmless has a closed text
around it for which it does not. -/
theorem findTopLevelSlash_closed (env : ParseEnv) :
    (∀ ps, Piece.AllHarmless isSlash 0 ps → (Piece.texts ps).length < 2147483648 →
      SlashRight env ps) ∧
    (∀ ps r, Piece.Closed env isSlash (chr '/' :: r) ps →
      2147483648 ≤ (Piece.texts ps).length → ¬ SlashRight env ps) ∧
    ∀ b depth, (∀ k, Piece.IsBracket env b k) → b.length + 2 * depth + 1 < 2147483648 →
      ¬ Piece.Harmless isSlash depth b →
        ∃ m, ¬ SlashRight env (Piece.around depth b m (chr '/')) := by
  refine ⟨fun ps hharm hlen ↦ ⟨fun r hps ↦ ?_, fun e he hps ↦ ?_⟩, fun ps r hps hlen hright ↦ ?_,
    fun b depth hb hlen hharm ↦ exists_not_slashRight hb hlen hharm⟩
  · rw [findTopLevelSlash_slash hharm hps, int32_natCast hlen]
  · exact findTopLevelSlash_end hharm he hps
  · have h := hright.1 r hps
    have hlt : findTopLevelSlash (Piece.texts ps ++ chr '/' :: r) < 2147483648 := by
      rw [findTopLevelSlash_eq]
      split_ifs
      · decide
      · exact int32_lt _
    omega

/-- `[[:alpha:]]/b`: the bracket goes on behind its first `]`, but only by another one. -/
theorem findTopLevelSlash_closed_alpha :
    SlashRight { macros := fun _ ↦ none }
      [.bracket [91, 91, 58, 97, 108, 112, 104, 97, 58, 93, 93]] := by
  refine (findTopLevelSlash_closed _).1 _ ⟨⟨[.bracket [91, 91, 58, 97, 108, 112, 104, 97, 58, 93],
    .byte 93], ⟨⟨[91, 58, 97, 108, 112, 104, 97, 58], ?_, rfl⟩, by decide, fun _ ↦ by decide, rfl⟩,
    rfl⟩, trivial⟩ (by decide)
  refine .byte ?_ ?_ (.byte ?_ ?_ (.byte ?_ ?_ (.byte ?_ ?_ (.byte ?_ ?_ (.byte ?_ ?_ (.byte ?_ ?_
    (.byte ?_ ?_ .nil)))))))
  all_goals decide

/-- `[]/]` is one bracket expression, and `find_top_level_slash` finds the slash in it. -/
theorem findTopLevelSlash_bracket :
    Piece.Closed { macros := fun _ ↦ none } isSlash [] [.bracket [91, 93, 47, 93]] ∧
      findTopLevelSlash [91, 93, 47, 93] = 2 ∧
      ¬ SlashRight { macros := fun _ ↦ none } [.bracket [91, 93, 47, 93]] := by
  have hfind : findTopLevelSlash [91, 93, 47, 93] = 2 := by decide +kernel
  have hrun : (Parser.parseClass { macros := fun _ ↦ none } { rest := [91, 93, 47, 93] }).map
      (fun r ↦ (r.2.rest, Diag.ok r.2.diags)) = some ([], true) := by decide +kernel
  obtain ⟨⟨t, s⟩, hparse, heq⟩ := Option.map_eq_some_iff.1 hrun
  obtain ⟨hrest, hok⟩ := Prod.mk.inj heq
  have hclosed : Piece.Closed { macros := fun _ ↦ none } isSlash [] [.bracket [91, 93, 47, 93]] :=
    ⟨⟨⟨[93, 47], rfl⟩, t, s, hparse, hrest, hok⟩, rfl⟩
  refine ⟨hclosed, hfind, fun hright ↦ ?_⟩
  have h : findTopLevelSlash [91, 93, 47, 93] = -1 := hright.2 [] (Or.inl rfl) hclosed
  rw [hfind] at h
  exact absurd h (by decide)

end LexCpp
