import LexCpp.Control.Returns
import LexCpp.Source.Reading

/-!
# Going on in the text

Every method of the reader returns, and between its start and its end the lines are counted,
also where it goes back to what it saved.
-/

namespace LexCpp

namespace Reader

/-! ## Counting lines -/

/-- The line after the bytes `w`, counted in 32 bits. -/
def lineAfter (line : Nat) (w : List Byte) : Nat :=
  w.foldl (fun l b ↦ if b = newline then (l + 1) % 4294967296 else l) line

theorem lineAfter_append (line : Nat) (w w' : List Byte) :
    lineAfter line (w ++ w') = lineAfter (lineAfter line w) w' := List.foldl_append

theorem lineAfter_of_not_mem (line : Nat) {w : List Byte} (hw : newline ∉ w) :
    lineAfter line w = line := by
  induction w with
  | nil => rfl
  | cons b w ih =>
      have hb : b ≠ newline := fun h ↦ hw (h ▸ List.mem_cons_self)
      rw [lineAfter, List.foldl_cons, if_neg hb]
      exact ih fun h ↦ hw (List.mem_cons_of_mem b h)

theorem lineAfter_eq {line : Nat} {w : List Byte} (h : line + w.count newline < 4294967296) :
    lineAfter line w = line + w.count newline := by
  induction w generalizing line with
  | nil => rfl
  | cons b w ih =>
      rw [List.count_cons] at h ⊢
      rw [lineAfter, List.foldl_cons]
      change lineAfter _ w = _
      by_cases hb : b = newline
      · simp only [hb, beq_self_eq_true, if_true] at h ⊢
        rw [Nat.mod_eq_of_lt (by omega), ih (by omega)]
        omega
      · have hb' : (b == newline) = false := beq_eq_false_iff_ne.2 hb
        simp only [hb', if_neg hb, Bool.false_eq_true, if_false, Nat.add_zero] at h ⊢
        exact ih h

/-! ## Positions -/

/-- The reader has gone on from `s` to `s'`, and has counted the lines. -/
def Onward (s s' : ReaderState) : Prop :=
  ∃ w, s.rest = w ++ s'.rest ∧ s'.line = lineAfter s.line w

namespace Onward

variable {s s' s'' : ReaderState}

theorem of_eq (hrest : s'.rest = s.rest) (hline : s'.line = s.line) : Onward s s' :=
  ⟨[], hrest.symm, hline⟩

theorem refl (s : ReaderState) : Onward s s := of_eq rfl rfl

theorem trans (h : Onward s s') (h' : Onward s' s'') : Onward s s'' := by
  obtain ⟨w, hw, hline⟩ := h
  obtain ⟨w', hw', hline'⟩ := h'
  refine ⟨w ++ w', ?_, ?_⟩
  · rw [hw, hw', List.append_assoc]
  · rw [lineAfter_append, ← hline, hline']

theorem taken (s : ReaderState) : Onward s (taken s) := by
  unfold Reader.taken
  split
  · exact refl s
  · next c rest hrest =>
      refine ⟨[c], ?_, ?_⟩
      · rw [hrest]
        split_ifs <;> rfl
      · change _ = if c = newline then _ else _
        split_ifs <;> rfl

theorem after (s : ReaderState) (n : Nat) : Onward s (after s n) := by
  induction n with
  | zero => exact refl s
  | succ n ih =>
      rw [← taken_after]
      exact ih.trans (taken _)

theorem suffix (h : Onward s s') : s'.rest <:+ s.rest := by
  obtain ⟨w, hw, -⟩ := h
  exact ⟨w, hw.symm⟩

/-- Text without a newline is all on one line. -/
theorem line_eq (h : Onward s s') (hno : newline ∉ s.rest) : s'.line = s.line := by
  obtain ⟨w, hw, hline⟩ := h
  rw [hline, lineAfter_of_not_mem _ fun hmem ↦ hno (hw ▸ List.mem_append_left _ hmem)]

theorem length_le (h : Onward s s') : s'.rest.length ≤ s.rest.length := h.suffix.length_le

end Onward

/-- Bytes without a newline leave the line as it is. -/
theorem line_after {s : ReaderState} {n : Nat} (h : newline ∉ s.rest.take n) :
    (after s n).line = s.line := by
  obtain ⟨w, hw, hline⟩ := Onward.after s n
  rw [rest_after] at hw
  have hlen : w = s.rest.take n := by
    have happ : w ++ s.rest.drop n = s.rest.take n ++ s.rest.drop n :=
      hw.symm.trans (List.take_append_drop n s.rest).symm
    exact List.append_cancel_right happ
  rw [hline, lineAfter_of_not_mem _ (hlen ▸ h)]

theorem eval_skipBlanks (s : ReaderState) :
    skipBlanks s = some ((), after s (s.rest.takeWhile isBlank).length) := by
  refine (eval_bind_of (eval_takeWhile List.takeWhile_append_dropWhile.symm
    (fun b hb ↦ List.mem_takeWhile_imp hb) fun c hc ↦ ?_)).trans rfl
  have hnot := List.head?_dropWhile_not isBlank s.rest
  rw [hc] at hnot
  exact Bool.eq_false_of_not_eq_true (by simpa using hnot)

theorem newline_not_mem_blanks (w : List Byte) : newline ∉ w.takeWhile isBlank := fun h ↦
  absurd (List.mem_takeWhile_imp h) (by decide)

theorem line_skipBlanks (s : ReaderState) :
    (after s (s.rest.takeWhile isBlank).length).line = s.line := by
  refine line_after ?_
  rw [← List.prefix_iff_eq_take.1 (List.takeWhile_prefix isBlank)]
  exact newline_not_mem_blanks s.rest

theorem line_taken {s : ReaderState} (h : s.rest.getD 0 0 ≠ newline) : (taken s).line = s.line := by
  unfold taken
  split
  · rfl
  · next c rest hrest =>
      rw [hrest, List.getD_cons_zero] at h
      rw [if_neg h]

/-- The pattern ends before this byte. -/
def patternStops (paren : Nat) (inClass inQuoted : Bool) (c : Byte) : Bool :=
  !inClass && !inQuoted && paren == 0 && (isBlank c || c = newline)

/-- The reader has gone on and has at most `n` bytes left; nothing was added to the file. -/
structure Moved (s : ReaderState) (n : Nat) (s' : ReaderState) : Prop where
  onward : Onward s s'
  out : s'.out = s.out
  le : s'.rest.length ≤ n

/-- The method returns, and at most `n` bytes are left. -/
def Moves {α : Type} (x : Reader α) (s : ReaderState) (n : Nat) : Prop :=
  Returns x s fun _ s' ↦ Moved s n s'

/-- The method returns, and takes something if there is anything. -/
def Takes {α : Type} (x : Reader α) (s : ReaderState) : Prop := Moves x s (s.rest.length - 1)

theorem Moved.trans {s s' s'' : ReaderState} {m n : Nat} (h : Moved s m s') (h' : Moved s' n s'') :
    Moved s n s'' :=
  ⟨h.onward.trans h'.onward, h'.out.trans h.out, h'.le⟩

namespace Moves

variable {α β : Type} {x : Reader α} {s : ReaderState} {m n : Nat}

theorem mono (h : Moves x s n) (hnm : n ≤ m) : Moves x s m :=
  Returns.mono h fun _ _ hs ↦ ⟨hs.onward, hs.out, hs.le.trans hnm⟩

theorem pure (a : α) (h : s.rest.length ≤ n) : Moves (pure a) s n :=
  Returns.pure ⟨.refl s, rfl, h⟩

theorem bind {z : Reader β} {f : β → Reader α} (hz : Moves z s m)
    (hf : ∀ b s', Moved s m s' → Moves (f b) s' n) : Moves (z >>= f) s n :=
  Returns.bind hz fun b s' hs' ↦ Returns.mono (hf b s' hs') fun _ _ ↦ hs'.trans

/-- A look at the text. -/
theorem look {z : Reader β} {f : β → Reader α} {b : β} (hz : z s = some (b, s))
    (hf : Moves (f b) s n) : Moves (z >>= f) s n := Returns.step hz hf

theorem ite {y : Reader α} {c : Prop} [Decidable c] (hx : c → Moves x s n) (hy : ¬ c → Moves y s n) :
    Moves (if c then x else y) s n := Returns.ite hx hy

/-- A loop that is given as many turns as there are bytes, and one more. -/
theorem loop {X : Nat → Reader α} (h : ∀ n, s.rest.length < n → Moves (X n) s m) :
    Moves (remaining >>= fun n ↦ X (n + 1)) s m :=
  look (eval_remaining s) (h _ (Nat.lt_succ_self _))

/-! ## Taking bytes -/

theorem skip (s : ReaderState) : Takes skip s :=
  ⟨(), taken s, rfl, .taken s, out_taken s, by rw [rest_taken]; exact List.length_tail.le⟩

theorem getByte (s : ReaderState) : Takes getByte s :=
  ⟨_, taken s, rfl, .taken s, out_taken s, by rw [rest_taken]; exact List.length_tail.le⟩

theorem report (d : Diag) (s : ReaderState) : Moves (report d) s s.rest.length :=
  ⟨(), _, rfl, .of_eq rfl rfl, rfl, le_rfl⟩

theorem getWhile (p : Byte → Bool) (n : Nat) (s : ReaderState) :
    Moves (getWhile p n) s s.rest.length := by
  induction n generalizing s with
  | zero => exact pure [] le_rfl
  | succ n ih =>
      refine look (eval_atEnd s) <| look (eval_peek s) <| ite (fun _ ↦ pure [] le_rfl) fun _ ↦
        (getByte s).bind fun b s₁ h₁ ↦ (ih s₁).bind fun w s₂ h₂ ↦ pure _ ?_
      exact h₂.le.trans (h₁.le.trans (Nat.sub_le _ _))

theorem takeWhile (p : Byte → Bool) (s : ReaderState) : Moves (takeWhile p) s s.rest.length :=
  look (eval_remaining s) (getWhile p _ s)

theorem skipBlanks (s : ReaderState) : Moves skipBlanks s s.rest.length :=
  (takeWhile isBlank s).bind fun _ _ h₁ ↦ pure () h₁.le

theorem skipNewline (s : ReaderState) : Moves skipNewline s s.rest.length :=
  look (eval_peek s) <| ite (fun _ ↦ (skip s).mono (Nat.sub_le _ _)) fun _ ↦ pure () le_rfl

theorem restOfLine (s : ReaderState) : Moves restOfLine s s.rest.length :=
  (takeWhile notNewline s).bind fun _ s₁ h₁ ↦ (skipNewline s₁).bind fun _ _ h₂ ↦
    pure _ (h₂.le.trans h₁.le)

theorem readLineKeepNl (s : ReaderState) : Moves readLineKeepNl s s.rest.length := by
  refine (takeWhile notNewline s).bind fun _ s₁ h₁ ↦ look (eval_peek s₁) <| ite (fun _ ↦ ?_) fun _ ↦ ?_
  · exact (skip s₁).bind fun _ _ h₂ ↦ pure _ (h₂.le.trans ((Nat.sub_le _ _).trans h₁.le))
  · exact pure _ h₁.le

/-- A first byte that qualifies is taken. -/
theorem takeWhile_takes {p : Byte → Bool} {s : ReaderState} (hne : s.rest ≠ [])
    (hp : p (s.rest.getD 0 0) = true) : Takes (Reader.takeWhile p) s := by
  obtain ⟨c, r, hr⟩ := List.exists_cons_of_ne_nil hne
  refine look (eval_remaining s) ?_
  rw [hr] at hp ⊢
  refine look (eval_atEnd s) <| look (eval_peek s) <| ite (fun h ↦ ?_) fun _ ↦ ?_
  · rw [hr, hp] at h
    exact absurd h Bool.false_ne_true
  · refine (getByte s).bind fun b s₁ h₁ ↦ (getWhile p _ s₁).bind fun w s₂ h₂ ↦ pure _ ?_
    rw [← hr]
    exact h₂.le.trans h₁.le

theorem restOfLine_takes {s : ReaderState} (hne : s.rest ≠ []) (hnl : s.rest.getD 0 0 ≠ newline) :
    Takes Reader.restOfLine s := by
  have hp : notNewline (s.rest.getD 0 0) = true := bne_iff_ne.2 hnl
  exact (takeWhile_takes hne hp).bind fun _ s₁ h₁ ↦ (skipNewline s₁).bind fun _ _ h₂ ↦
    pure _ (h₂.le.trans h₁.le)

/-- A line takes its newline, or the bytes before it. -/
theorem readLineKeepNl_takes {s : ReaderState} (hne : s.rest ≠ []) :
    Takes Reader.readLineKeepNl s := by
  by_cases hc : s.rest.getD 0 0 = newline
  · have hnil : Reader.takeWhile notNewline s = some ([], s) := by
      refine eval_takeWhile (w := []) (k := s.rest) rfl (fun b hb ↦ absurd hb List.not_mem_nil) ?_
      intro c hhead
      rw [getD_eq_newline_iff.1 hc] at hhead
      obtain rfl := Option.some.inj hhead
      rfl
    exact look hnil <| look (eval_peek s) <| ite (fun _ ↦ (skip s).bind fun _ _ h₁ ↦ pure _ h₁.le)
      fun h ↦ absurd hc h
  · have hp : notNewline (s.rest.getD 0 0) = true := bne_iff_ne.2 hc
    refine (takeWhile_takes hne hp).bind fun _ s₁ h₁ ↦ look (eval_peek s₁) <| ite (fun _ ↦ ?_) fun _ ↦ ?_
    · exact (skip s₁).bind fun _ _ h₂ ↦ pure _ (h₂.le.trans ((Nat.sub_le _ _).trans h₁.le))
    · exact pure _ h₁.le

theorem commentLoop {n : Nat} {s : ReaderState} (hn : s.rest.length < n) :
    Moves (commentLoop n) s s.rest.length := by
  induction n generalizing s with
  | zero => exact absurd hn (Nat.not_lt_zero _)
  | succ n ih =>
      refine look (eval_atEnd s) <| ite (fun _ ↦ pure () le_rfl) fun hend ↦ look (eval_peek s) <|
        look (eval_peekAt s 1) <| ite (fun _ ↦ ?_) fun _ ↦ ?_
      · exact (skip s).bind fun _ s₁ h₁ ↦
          (skip s₁).mono ((Nat.sub_le _ _).trans (h₁.le.trans (Nat.sub_le _ _)))
      · have hne : s.rest.length ≠ 0 := fun hlen ↦ hend (by
          rw [List.eq_nil_of_length_eq_zero hlen]
          rfl)
        refine (skip s).bind fun _ s₁ h₁ ↦ (ih ?_).mono (h₁.le.trans (Nat.sub_le _ _))
        exact (Nat.lt_of_le_pred (Nat.pos_of_ne_zero hne) h₁.le).trans_le (Nat.le_of_lt_succ hn)

theorem skipComment (s : ReaderState) : Takes skipComment s :=
  (skip s).bind fun _ s₁ h₁ ↦ (skip s₁).bind fun _ _ h₂ ↦
    (loop fun _ ↦ commentLoop).mono (h₂.le.trans ((Nat.sub_le _ _).trans h₁.le))

theorem verbatimLoop {n : Nat} {s : ReaderState} (hn : s.rest.length < n) :
    Moves (verbatimLoop n) s s.rest.length := by
  induction n generalizing s with
  | zero => exact absurd hn (Nat.not_lt_zero _)
  | succ n ih =>
      refine look (eval_atEnd s) <| ite (fun _ ↦ pure [] le_rfl) fun hend ↦ look (eval_peek s) <|
        look (eval_peekAt s 1) <| ite (fun _ ↦ ?_) fun _ ↦ ?_
      · refine (skip s).bind fun _ s₁ h₁ ↦ (skip s₁).bind fun _ s₂ h₂ ↦ (restOfLine s₂).bind fun _ _ h₃ ↦
          pure [] (h₃.le.trans (h₂.le.trans ((Nat.sub_le _ _).trans (h₁.le.trans (Nat.sub_le _ _)))))
      · have hne : s.rest ≠ [] := fun h ↦ hend (by rw [h]; rfl)
        refine (readLineKeepNl_takes hne).bind fun _ s₁ h₁ ↦ (ih ?_).bind fun _ _ h₂ ↦
          pure _ (h₂.le.trans (h₁.le.trans (Nat.sub_le _ _)))
        exact (Nat.lt_of_le_pred (List.length_pos_of_ne_nil hne) h₁.le).trans_le (Nat.le_of_lt_succ hn)

theorem verbatimBlock (s : ReaderState) : Takes verbatimBlock s :=
  (skip s).bind fun _ s₁ h₁ ↦ (skip s₁).bind fun _ s₂ h₂ ↦ (restOfLine s₂).bind fun _ _ h₃ ↦
    (loop fun _ ↦ verbatimLoop).mono
      (h₃.le.trans (h₂.le.trans ((Nat.sub_le _ _).trans h₁.le)))

theorem topLoop {n depth : Nat} {s : ReaderState} (hn : s.rest.length < n) :
    Moves (topLoop n depth) s s.rest.length := by
  induction n generalizing depth s with
  | zero => exact absurd hn (Nat.not_lt_zero _)
  | succ n ih =>
      refine look (eval_atEnd s) <| ite (fun _ ↦ pure [] le_rfl) fun hend ↦ (getByte s).bind fun c s₁ h₁ ↦ ?_
      have hne : s.rest ≠ [] := fun h ↦ hend (by rw [h]; rfl)
      have hle := h₁.le.trans (Nat.sub_le _ _)
      have hrec : ∀ depth, Moves (do return c :: (← Reader.topLoop n depth)) s₁ s.rest.length := fun depth ↦
        (ih ((Nat.lt_of_le_pred (List.length_pos_of_ne_nil hne) h₁.le).trans_le
          (Nat.le_of_lt_succ hn))).bind fun _ _ h₂ ↦ pure _ (h₂.le.trans hle)
      exact ite (fun _ ↦ hrec _) fun _ ↦ ite (fun _ ↦ ite (fun _ ↦ pure [] hle) fun _ ↦ hrec _) fun _ ↦ hrec _

/-! ## Patterns and actions -/

theorem patternLoop_takes {n paren : Nat} {inClass inQuoted : Bool} {s : ReaderState}
    (ih : ∀ paren inClass inQuoted (s' : ReaderState), s'.rest.length < s.rest.length →
      Moves (patternLoop n paren inClass inQuoted) s' s'.rest.length)
    (hne : s.rest ≠ []) (hgo : patternStops paren inClass inQuoted (s.rest.getD 0 0) = false) :
    Takes (patternLoop (n + 1) paren inClass inQuoted) s := by
  have hlt : ∀ {s₁}, Moved s (s.rest.length - 1) s₁ → s₁.rest.length < s.rest.length := fun h ↦
    Nat.lt_of_le_pred (List.length_pos_of_ne_nil hne) h.le
  have hend : s.rest.isEmpty = false := by
    rw [List.isEmpty_eq_false_iff]
    exact hne
  refine look (eval_atEnd s) <| ite (fun h ↦ absurd (hend.symm.trans h) Bool.false_ne_true) fun _ ↦
    look (eval_peek s) <| ite (fun h ↦ absurd (hgo.symm.trans h) Bool.false_ne_true) fun _ ↦
    look (eval_remaining s) <| ite (fun _ ↦ ?_) fun _ ↦ ?_
  · refine (skip s).bind fun _ s₁ h₁ ↦ (getByte s₁).bind fun e s₂ h₂ ↦
      (ih _ _ _ s₂ ?_).bind fun p s₃ h₃ ↦ pure _ ?_
    · exact (h₂.le.trans (Nat.sub_le _ _)).trans_lt (hlt h₁)
    · exact h₃.le.trans (h₂.le.trans ((Nat.sub_le _ _).trans h₁.le))
  · refine (skip s).bind fun _ s₁ h₁ ↦ ?_
    have hrec : ∀ paren inClass inQuoted, Moves (do
        let p ← Reader.patternLoop n paren inClass inQuoted
        return s.rest.getD 0 0 :: p) s₁ (s.rest.length - 1) := fun paren inClass inQuoted ↦
      (ih paren inClass inQuoted s₁ (hlt h₁)).bind fun p s₂ h₂ ↦ pure _ (h₂.le.trans h₁.le)
    exact ite (fun _ ↦ hrec _ _ _) fun _ ↦ ite (fun _ ↦ hrec _ _ _) fun _ ↦
      ite (fun _ ↦ hrec _ _ _) fun _ ↦ ite (fun _ ↦ hrec _ _ _) fun _ ↦
      ite (fun _ ↦ hrec _ _ _) fun _ ↦ ite (fun _ ↦ hrec _ _ _) fun _ ↦ hrec _ _ _

theorem patternLoop {n paren : Nat} {inClass inQuoted : Bool} {s : ReaderState}
    (hn : s.rest.length < n) : Moves (patternLoop n paren inClass inQuoted) s s.rest.length := by
  induction n generalizing paren inClass inQuoted s with
  | zero => exact absurd hn (Nat.not_lt_zero _)
  | succ n ih =>
      by_cases hne : s.rest = []
      · exact look (eval_atEnd s) <| ite (fun _ ↦ pure [] le_rfl) fun h ↦ absurd (by rw [hne]; rfl) h
      · cases hstop : patternStops paren inClass inQuoted (s.rest.getD 0 0) with
        | true =>
            exact look (eval_atEnd s) <| ite (fun _ ↦ pure [] le_rfl) fun _ ↦ look (eval_peek s) <|
              ite (fun _ ↦ pure [] le_rfl) fun h ↦ absurd hstop h
        | false =>
            refine (patternLoop_takes (fun _ _ _ s' hs' ↦ ih ?_) hne hstop).mono (Nat.sub_le _ _)
            exact hs'.trans_le (Nat.le_of_lt_succ hn)

theorem readPattern (s : ReaderState) : Moves readPattern s s.rest.length := loop fun _ ↦ patternLoop

/-- A pattern takes its first byte. -/
theorem readPattern_takes {s : ReaderState} (hne : s.rest ≠ [])
    (hgo : patternStops 0 false false (s.rest.getD 0 0) = false) : Takes Reader.readPattern s :=
  look (eval_remaining s) (patternLoop_takes (fun _ _ _ _ hs' ↦ patternLoop hs') hne hgo)

theorem braceLoop {n depth : Nat} {mode : CMode} {s : ReaderState} (hn : s.rest.length < n) :
    Moves (braceLoop n depth mode) s s.rest.length := by
  induction n generalizing depth mode s with
  | zero => exact absurd hn (Nat.not_lt_zero _)
  | succ n ih =>
      refine look (eval_atEnd s) <| ite (fun _ ↦ pure [] le_rfl) fun hend ↦ look (eval_peek s) ?_
      have hne : s.rest ≠ [] := fun h ↦ hend (by rw [h]; rfl)
      have hlt : ∀ {s₁}, Moved s (s.rest.length - 1) s₁ → s₁.rest.length < n := fun h ↦
        (Nat.lt_of_le_pred (List.length_pos_of_ne_nil hne) h.le).trans_le (Nat.le_of_lt_succ hn)
      have hone : ∀ depth m, Moves (do
          Reader.skip
          return s.rest.getD 0 0 :: (← Reader.braceLoop n depth m)) s s.rest.length := fun depth m ↦
        (skip s).bind fun _ s₁ h₁ ↦ (ih (hlt h₁)).bind fun _ s₂ h₂ ↦
          pure _ (h₂.le.trans (h₁.le.trans (Nat.sub_le _ _)))
      have htwo : ∀ m, Moves (do
          Reader.skip
          let e ← Reader.getByte
          return s.rest.getD 0 0 :: e :: (← Reader.braceLoop n depth m)) s s.rest.length := fun m ↦
        (skip s).bind fun _ s₁ h₁ ↦ (getByte s₁).bind fun _ s₂ h₂ ↦
          (ih ((h₂.le.trans (Nat.sub_le _ _)).trans_lt (hlt h₁))).bind fun _ s₃ h₃ ↦
          pure _ (h₃.le.trans (h₂.le.trans ((Nat.sub_le _ _).trans (h₁.le.trans (Nat.sub_le _ _)))))
      cases mode with
      | lineCmt => exact hone _ _
      | blockCmt =>
          exact look (eval_peekAt s 1) <| ite (fun _ ↦ htwo _) fun _ ↦ hone _ _
      | str | chr =>
          exact look (eval_remaining s) <| ite (fun _ ↦ htwo _) fun _ ↦ hone _ _
      | code =>
          exact look (eval_peekAt s 1) <| ite (fun _ ↦ htwo _) fun _ ↦ look (eval_peekAt s 1) <|
            ite (fun _ ↦ htwo _) fun _ ↦ ite (fun _ ↦ hone _ _) fun _ ↦ ite (fun _ ↦ hone _ _) fun _ ↦
            ite (fun _ ↦ hone _ _) fun _ ↦ ite (fun _ ↦ hone _ _) fun _ ↦ hone _ _

theorem readBraceBlock (s : ReaderState) : Takes readBraceBlock s :=
  (getByte s).bind fun _ s₁ h₁ ↦ look (eval_remaining s₁) <|
    (braceLoop (Nat.lt_succ_self _)).bind fun _ s₂ h₂ ↦ (skipNewline s₂).bind fun _ _ h₃ ↦
    pure _ (h₃.le.trans (h₂.le.trans h₁.le))

theorem readAction (s : ReaderState) : Moves readAction s s.rest.length := by
  refine look (eval_peek s) <| ite (fun _ ↦ ?_) fun _ ↦ look (eval_get s) <| look (eval_peek s) ?_
  · exact (skip s).bind fun _ _ h₁ ↦ pure [] (h₁.le.trans (Nat.sub_le _ _))
  -- what comes after the look for a lone `|`, which leaves the line as it is
  have hend : ∀ (alone : Bool) (s' : ReaderState), Moved s s.rest.length s' → s'.line = s.line →
      Returns (do
        if alone then
          Reader.skipNewline
          return ascii "|"
        restorePos s
        if (← peek) = chr '\x7b' then Reader.readBraceBlock else Reader.restOfLine) s'
        fun _ s'' ↦ Moved s s.rest.length s'' := by
    intro alone s' h hline
    refine Returns.ite (fun _ ↦ ?_) fun _ ↦ ?_
    · refine Returns.mono ((skipNewline s').bind fun _ _ h₁ ↦ pure _ h₁.le) fun _ s'' h'' ↦ ?_
      exact ⟨h.onward.trans h''.onward, h''.out.trans h.out, h''.le.trans h.le⟩
    · have hback : Moved s s.rest.length { s' with rest := s.rest } :=
        ⟨.of_eq rfl hline, h.out, le_rfl⟩
      refine Returns.step (eval_restorePos s' s) (Returns.mono ?_ fun _ _ ↦ hback.trans)
      exact look (eval_peek _) <| ite (fun _ ↦ (readBraceBlock _).mono (Nat.sub_le _ _)) fun _ ↦
        restOfLine _
  refine Returns.ite (fun hbar ↦ ?_) fun _ ↦ hend false s ⟨.refl s, rfl, le_rfl⟩ rfl
  refine Returns.step (eval_skip s) <| Returns.step (eval_skipBlanks _) <|
    Returns.step (eval_peek _) <| Returns.step (eval_atEnd _) <| hend _ _ ?_ ?_
  · refine ⟨(Onward.taken s).trans (Onward.after _ _), ?_, ?_⟩
    · rw [out_after, out_taken]
    · rw [rest_after, rest_taken]
      exact (List.drop_sublist _ _).length_le.trans (List.tail_sublist _).length_le
  · rw [line_skipBlanks, line_taken (by rw [hbar]; decide)]

/-! ## Start conditions -/

theorem condLoop {n : Nat} {conds : List (List Byte)} {cur : List Byte} {s : ReaderState}
    (hn : s.rest.length < n) : Moves (condLoop n conds cur) s s.rest.length := by
  induction n generalizing conds cur s with
  | zero => exact absurd hn (Nat.not_lt_zero _)
  | succ n ih =>
      refine look (eval_atEnd s) <| look (eval_peek s) <| look (eval_peek s) <| ite (fun _ ↦ ?_) fun hstop ↦ ?_
      · refine look (eval_peek s) <| ite (fun _ ↦ ?_) fun _ ↦ pure _ le_rfl
        exact (skip s).bind fun _ _ h₁ ↦ pure _ (h₁.le.trans (Nat.sub_le _ _))
      · have hne : s.rest ≠ [] := fun h ↦ hstop (by rw [h]; rfl)
        refine (getByte s).bind fun ch s₁ h₁ ↦ ?_
        have hrec : ∀ conds cur, Moves (Reader.condLoop n conds cur) s₁ s.rest.length := fun _ _ ↦
          (ih ((Nat.lt_of_le_pred (List.length_pos_of_ne_nil hne) h₁.le).trans_le
            (Nat.le_of_lt_succ hn))).mono (h₁.le.trans (Nat.sub_le _ _))
        exact ite (fun _ ↦ hrec _ _) fun _ ↦ ite (fun _ ↦ hrec _ _) fun _ ↦ hrec _ _

theorem readConds (s : ReaderState) : Takes readConds s := by
  refine (skip s).bind fun _ s₁ h₁ ↦ look (eval_peek s₁) <| look (eval_peekAt s₁ 1) <|
    ite (fun _ ↦ ?_) fun _ ↦ look (eval_remaining s₁) ?_
  · exact (skip s₁).bind fun _ s₂ h₂ ↦ (skip s₂).bind fun _ _ h₃ ↦
      pure _ (h₃.le.trans ((Nat.sub_le _ _).trans (h₂.le.trans ((Nat.sub_le _ _).trans h₁.le))))
  · exact (condLoop (Nat.lt_succ_self _)).bind fun _ _ h₂ ↦ pure _ (h₂.le.trans h₁.le)

theorem openerCommentLoop {n : Nat} {s : ReaderState} (hn : s.rest.length < n) :
    Moves (openerCommentLoop n) s s.rest.length := by
  induction n generalizing s with
  | zero => exact absurd hn (Nat.not_lt_zero _)
  | succ n ih =>
      refine look (eval_atEnd s) <| ite (fun _ ↦ pure () le_rfl) fun hend ↦ look (eval_peek s) <|
        look (eval_peekAt s 1) <| ite (fun _ ↦ ?_) fun _ ↦ look (eval_peek s) <|
        ite (fun _ ↦ pure () le_rfl) fun _ ↦ ?_
      · exact (skip s).bind fun _ s₁ h₁ ↦
          (skip s₁).mono ((Nat.sub_le _ _).trans (h₁.le.trans (Nat.sub_le _ _)))
      · have hne : s.rest ≠ [] := fun h ↦ hend (by rw [h]; rfl)
        refine (skip s).bind fun _ s₁ h₁ ↦ (ih ?_).mono (h₁.le.trans (Nat.sub_le _ _))
        exact (Nat.lt_of_le_pred (List.length_pos_of_ne_nil hne) h₁.le).trans_le (Nat.le_of_lt_succ hn)

theorem openerEnd (s : ReaderState) : Moves openerEnd s s.rest.length := by
  refine (skip s).bind fun _ s₁ h₁ ↦ (skipBlanks s₁).bind fun _ s₂ h₂ ↦ look (eval_peek s₂) <|
    look (eval_peekAt s₂ 1) ?_
  have h₂ := h₂.le.trans (h₁.le.trans (Nat.sub_le _ _))
  refine ite (fun _ ↦ ?_) fun _ ↦ look (eval_atEnd s₂) <| look (eval_peek s₂) <| pure _ h₂
  refine (skip s₂).bind fun _ s₃ h₃ ↦ (skip s₃).bind fun _ s₄ h₄ ↦ look (eval_remaining s₄) <|
    (openerCommentLoop (Nat.lt_succ_self _)).bind fun _ s₅ h₅ ↦ (skipBlanks s₅).bind fun _ s₆ h₆ ↦
    look (eval_atEnd s₆) <| look (eval_peek s₆) <| pure _ ?_
  exact h₆.le.trans (h₅.le.trans (h₄.le.trans ((Nat.sub_le _ _).trans
    (h₃.le.trans ((Nat.sub_le _ _).trans h₂)))))

/-! ## Blocks -/

theorem modifyBlocks (f : List ScBlock → List ScBlock) (s : ReaderState) :
    Moves (modifyBlocks f) s s.rest.length := ⟨(), _, rfl, .of_eq rfl rfl, rfl, le_rfl⟩

/-- An opener is taken, or the reader is where it was. -/
theorem tryOpener (s : ReaderState) : Returns tryOpener s fun opened s' ↦
    Moved s (s.rest.length - if opened then 1 else 0) s' ∧
    (opened = false → s'.rest = s.rest ∧ s'.line = s.line) := by
  have hend : ∀ (blk : ScBlock) (opened : Bool) (s' : ReaderState), Moved s (s.rest.length - 1) s' →
      Returns (do
        if opened then
          Reader.skipNewline
          Reader.modifyBlocks fun blocks ↦ blk :: blocks
          return true
        else
          restore s
          return false) s' fun opened s'' ↦
        Moved s (s.rest.length - if opened then 1 else 0) s'' ∧
        (opened = false → s''.rest = s.rest ∧ s''.line = s.line) := by
    intro blk opened s' h
    refine Returns.ite (fun _ ↦ ?_) fun _ ↦ ?_
    · refine Returns.bind (skipNewline s') fun _ s₁ h₁ ↦ Returns.bind (modifyBlocks _ s₁) fun _ s₂ h₂ ↦
        Returns.pure ⟨(h.trans h₁).trans ⟨h₂.onward, h₂.out, ?_⟩, fun h ↦ absurd h.symm Bool.false_ne_true⟩
      exact h₂.le.trans (h₁.le.trans h.le)
    · exact Returns.step (eval_restore s' s) (Returns.pure ⟨⟨.of_eq rfl rfl, h.out, le_rfl⟩, fun _ ↦ ⟨rfl, rfl⟩⟩)
  refine Returns.step (eval_get s) <| Returns.bind (readConds s) fun blk s₁ h₁ ↦
    Returns.bind (takeWhile _ s₁) fun _ s₂ h₂ ↦ Returns.step (eval_peek s₂) ?_
  have h₂' : Moved s (s.rest.length - 1) s₂ := (h₁.trans h₂).trans ⟨.refl s₂, rfl, h₂.le.trans h₁.le⟩
  refine Returns.ite (fun _ ↦ ?_) fun _ ↦ hend blk false s₂ h₂'
  exact Returns.bind (openerEnd s₂) fun opened s₃ h₃ ↦
    hend blk opened s₃ (h₂'.trans ⟨h₃.onward, h₃.out, h₃.le.trans h₂'.le⟩)

/-- A closer is taken, or the reader is where it was but for the column. -/
theorem tryCloser {s : ReaderState} (hc : s.rest.getD 0 0 = chr '\x7d') :
    Returns tryCloser s fun closed s' ↦
      Moved s (s.rest.length - if closed then 1 else 0) s' ∧
      (closed = false → s'.rest = s.rest ∧ s'.line = s.line) := by
  have hline : (after (Reader.taken s) ((Reader.taken s).rest.takeWhile isBlank).length).line = s.line := by
    rw [line_skipBlanks, line_taken (by rw [hc]; decide)]
  have hmoved := Onward.after s (((Reader.taken s).rest.takeWhile isBlank).length + 1)
  have hle : (after s (((Reader.taken s).rest.takeWhile isBlank).length + 1)).rest.length ≤
      s.rest.length - 1 := by
    rw [rest_after, List.length_drop]
    exact Nat.sub_le_sub_left (Nat.le_add_left _ _) _
  rw [after_taken] at hline
  refine Returns.step (eval_get s) <| Returns.step (eval_skip s) <| Returns.step (eval_skipBlanks _) <|
    Returns.step (eval_atEnd _) <| Returns.step (eval_peek _) ?_
  rw [after_taken]
  refine Returns.ite (fun _ ↦ ?_) fun _ ↦ ?_
  · refine Returns.bind (skipNewline _) fun _ s₁ h₁ ↦ Returns.bind (modifyBlocks _ s₁) fun _ s₂ h₂ ↦
      Returns.pure ⟨⟨hmoved.trans (h₁.onward.trans h₂.onward), ?_, ?_⟩, fun h ↦ absurd h.symm Bool.false_ne_true⟩
    · rw [h₂.out, h₁.out, out_after]
    · exact h₂.le.trans (h₁.le.trans hle)
  · refine Returns.step (eval_restorePos _ s) (Returns.pure ⟨⟨.of_eq rfl hline, ?_, le_rfl⟩, fun _ ↦ ⟨rfl, hline⟩⟩)
    exact out_after s _

end Moves

end Reader

end LexCpp
