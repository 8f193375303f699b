import LexCpp.Runtime.Unread

/-!
# Look-ahead in an action

An action that calls `yy_input` and `yyless` in any order.  The byte behind the text is held back
for a NUL, and the functions that unseal and reseal share it with one flag.  As long as each
`yyless` comes before the first `yy_input`, it cuts the text and the buffer is whole again at the
next top of the loop (`yyless_exact`); of those that come after it, the last leaves its NUL there
(`restored_iff`).
-/

namespace LexCpp

/-! ## The calls -/

/-- What an action calls to look at more or at less. -/
inductive LookCall where
  | input
  | less (n : Nat)
deriving DecidableEq, Repr

namespace LookCall

/-- `yyless` keeps at most what there is. -/
def Legal : Nat → List LookCall → Prop
  | _, [] => True
  | len, .input :: cs => Legal len cs
  | len, .less n :: cs => n ≤ len ∧ Legal n cs

def lessLen : LookCall → Option Nat
  | .input => none
  | .less n => some n

/-- What the last `yyless` is called with. -/
def last (cs : List LookCall) : Option Nat := (cs.filterMap lessLen).getLast?

/-- The same, of those after the first `yy_input`. -/
def late (cs : List LookCall) : Option Nat := last (cs.dropWhile (· ≠ .input))

@[simp] theorem last_input (cs : List LookCall) : last (.input :: cs) = last cs := rfl

@[simp] theorem last_less (n : Nat) (cs : List LookCall) :
    last (.less n :: cs) = some ((last cs).getD n) := by
  change (n :: cs.filterMap lessLen).getLast? = _
  rw [List.getLast?_cons]
  rfl

end LookCall

/-- The length of the text, the position, the flag, and whether there is a NUL behind the text. -/
structure Look where
  len : Nat
  pos : Nat
  active : Bool
  planted : Bool
deriving DecidableEq, Repr

namespace Look

/-- One call, in a buffer that ends here. -/
def call (bufEnd : Nat) (σ : Look) : LookCall → Look
  | .input =>
      { σ with
        pos := if bufEnd ≤ σ.pos then σ.pos else σ.pos + 1
        active := false
        planted := σ.planted && !σ.active }
  | .less n => { σ with len := n, pos := σ.pos - (σ.len - n), planted := true }

def calls (bufEnd : Nat) (σ : Look) (cs : List LookCall) : Look := cs.foldl (call bufEnd) σ

/-- A NUL that nothing will take away. -/
def leaks (σ : Look) : Bool := σ.planted && !σ.active

variable {bufEnd : Nat} {σ : Look}

/-- Once the flag is off, a `yyless` plants its NUL for good. -/
theorem calls_inactive (h : σ.active = false) (cs : List LookCall) :
    (σ.calls bufEnd cs).active = false ∧
      (σ.calls bufEnd cs).planted = (σ.planted || (LookCall.last cs).isSome) ∧
        (σ.calls bufEnd cs).len = (LookCall.last cs).getD σ.len := by
  induction cs generalizing σ with
  | nil => exact ⟨h, (Bool.or_false _).symm, rfl⟩
  | cons c cs ih =>
      cases c with
      | input =>
          obtain ⟨hact, hplanted, hlen⟩ := ih (σ := σ.call bufEnd .input) rfl
          refine ⟨hact, hplanted.trans ?_, hlen⟩
          rw [LookCall.last_input]
          change (σ.planted && !σ.active || _) = _
          rw [h, Bool.not_false, Bool.and_true]
      | less n =>
          obtain ⟨hact, hplanted, hlen⟩ := ih (σ := σ.call bufEnd (.less n)) h
          refine ⟨hact, hplanted.trans ?_, hlen.trans ?_⟩
          · rw [LookCall.last_less, Option.isSome_some, Bool.or_true]
            exact Bool.true_or _
          · rw [LookCall.last_less]
            rfl

/-- Before the first `yy_input`, the flag is on. -/
theorem leaks_calls (h : σ.active = true) (cs : List LookCall) :
    (σ.calls bufEnd cs).leaks = (LookCall.late cs).isSome ∧
      ∀ n ∈ LookCall.late cs, (σ.calls bufEnd cs).len = n := by
  induction cs generalizing σ with
  | nil =>
      refine ⟨?_, fun n hn ↦ absurd hn (Option.not_mem_none n)⟩
      change (σ.planted && !σ.active) = false
      rw [h, Bool.not_true, Bool.and_false]
  | cons c cs ih =>
      cases c with
      | input =>
          obtain ⟨hact, hplanted, hlen⟩ := @calls_inactive bufEnd (σ.call bufEnd .input) rfl cs
          have hlate : LookCall.late (.input :: cs) = LookCall.last cs := rfl
          rw [hlate]
          constructor
          · change (((σ.call bufEnd .input).calls bufEnd cs).planted &&
              !((σ.call bufEnd .input).calls bufEnd cs).active) = _
            rw [hact, hplanted]
            change ((σ.planted && !σ.active || _) && !false) = _
            rw [h, Bool.not_true, Bool.and_false, Bool.false_or, Bool.not_false, Bool.and_true]
          · intro n hn
            refine hlen.trans ?_
            rw [Option.mem_def.1 hn]
            rfl
      | less n => exact ih (σ := σ.call bufEnd (.less n)) h

end Look

namespace Memory

def look : LookCall → Memory → Memory
  | .input, s => s.input.2
  | .less n, s => s.less n

def looks (cs : List LookCall) (s : Memory) : Memory := cs.foldl (fun s c ↦ s.look c) s

/-! ## The text in the buffer -/

section Text

variable {s : Memory} {b start : Nat}

/-- The text begins here in the current buffer. -/
def TextAt (s : Memory) (b start : Nat) : Prop :=
  b < s.heap.length ∧ s.yytext = some ⟨b, (s.buf b).moves, start⟩

theorem TextAt.buf_storeText (h : s.TextAt b start) (n : Nat) (c : Byte) :
    (s.storeText n c).buf b = (s.buf b).store (start + n : Nat) c := by
  rw [storeText, h.2]
  change (s.modifyBuf b (Space.storeAt (s.buf b).moves (start + n) c)).buf b = _
  rw [buf_modifyBuf_self h.1, Space.storeAt, if_pos rfl, Nat.cast_add]

theorem TextAt.loadText (h : s.TextAt b start) (n : Nat) :
    s.loadText n = (s.buf b).data.getD (start + n) 0 := by
  rw [Memory.loadText, h.2]
  change (s.buf b).load (start + n) = _
  rw [← Nat.cast_add, Space.load, if_pos (Int.natCast_nonneg _), Int.toNat_natCast]

theorem TextAt.modifyBuf (h : s.TextAt b start) {f : Space → Space} (hf : ∀ x, (f x).moves = x.moves) :
    (s.modifyBuf b f).TextAt b start := by
  refine ⟨h.1.trans_eq length_modifyBuf.symm, ?_⟩
  rw [buf_modifyBuf_self h.1, hf]
  exact h.2

theorem TextAt.storeText (h : s.TextAt b start) (n : Nat) (c : Byte) :
    (s.storeText n c).TextAt b start := by
  refine ⟨h.1.trans_eq (length_storeText s n c).symm, ?_⟩
  rw [h.buf_storeText]
  exact (storeText_keeps s n c).2.1.trans h.2

end Text

/-- A byte that is held back and written again. -/
theorem set_getD_self (D : List Byte) (i : Nat) (planted : Bool) :
    (if planted then D.set i 0 else D).set i (D.getD i 0) = D := by
  have hself : D.set i (D.getD i 0) = D := by
    refine List.ext_getElem? fun j ↦ ?_
    rw [List.getElem?_set]
    split_ifs with hij hlt
    · rw [← hij, List.getElem?_eq_getElem hlt, List.getD_eq_getElem _ _ hlt]
    · rw [← hij, List.getElem?_eq_none (not_lt.1 hlt)]
    · rfl
  split_ifs
  · rw [List.set_set, hself]
  · exact hself

/-- **The invariant**: the buffer held these bytes before the match, and the functions stand where
they are. -/
structure Held (s : Memory) (b start bufEnd : Nat) (D : List Byte) (σ : Look) : Prop where
  current : s.current = some b
  text : s.TextAt b start
  yyleng : s.yyleng = σ.len
  active : s.textActive = σ.active
  save : s.textSave = D.getD (start + σ.len) 0
  data : (s.buf b).data = if σ.planted then D.set (start + σ.len) 0 else D
  pos : (s.buf b).pos = σ.pos
  le_pos : start + σ.len ≤ σ.pos
  ends : (s.buf b).bufEnd = bufEnd
  done : (s.buf b).done = true

namespace Held

variable {s : Memory} {b start bufEnd : Nat} {D : List Byte} {σ : Look}

/-- The byte held back is written, whether a NUL is in its place or not. -/
theorem data_storeText (h : s.Held b start bufEnd D σ) :
    ((s.storeText s.yyleng s.textSave).buf b).data = D := by
  rw [h.yyleng, h.text.buf_storeText, Space.store_natCast, h.data, h.save]
  exact set_getD_self D _ _

theorem storeText (h : s.Held b start bufEnd D σ) :
    (s.storeText s.yyleng s.textSave).Held b start bufEnd D { σ with planted := false } where
  current := (storeText_keeps s _ _).2.2.2.trans h.current
  text := by
    rw [h.yyleng]
    exact h.text.storeText _ _
  yyleng := (storeText_keeps s _ _).2.2.1.trans h.yyleng
  active := (storeText_keeps s _ _).1.trans h.active
  save := by
    rw [h.yyleng, Memory.storeText, h.text.2]
    exact h.save
  data := h.data_storeText
  pos := by
    rw [h.yyleng, h.text.buf_storeText]
    exact h.pos
  le_pos := h.le_pos
  ends := by
    rw [h.yyleng, h.text.buf_storeText]
    exact h.ends
  done := by
    rw [h.yyleng, h.text.buf_storeText]
    exact h.done

theorem textUnseal (h : s.Held b start bufEnd D σ) : s.textUnseal.Held b start bufEnd D
    { σ with active := false, planted := σ.planted && !σ.active } := by
  have hsome : s.yytext.isSome = true := by
    rw [h.text.2]
    rfl
  cases hact : σ.active with
  | true =>
      have hstore := h.storeText
      rw [Memory.textUnseal, if_pos ⟨h.active.trans hact, hsome⟩, Bool.not_true, Bool.and_false]
      exact ⟨hstore.current, hstore.text, hstore.yyleng, rfl, hstore.save, hstore.data, hstore.pos,
        hstore.le_pos, hstore.ends, hstore.done⟩
  | false =>
      have hactive : s.textActive = false := h.active.trans hact
      rw [textUnseal_of_loose fun hl ↦ Bool.false_ne_true (hactive.symm.trans hl.1), Bool.not_false,
        Bool.and_true]
      exact ⟨h.current, h.text, h.yyleng, hactive, h.save, h.data, h.pos, h.le_pos, h.ends, h.done⟩

/-- What does not touch the bytes. -/
theorem modifyBuf (h : s.Held b start bufEnd D σ) {f : Space → Space} {pos : Nat}
    (hf : ∀ x, (f x).moves = x.moves ∧ (f x).data = x.data ∧ (f x).bufEnd = x.bufEnd ∧
      (f x).done = x.done)
    (hpos : (f (s.buf b)).pos = pos) (hle : start + σ.len ≤ pos) :
    (s.modifyBuf b f).Held b start bufEnd D { σ with pos := pos } where
  current := h.current
  text := h.text.modifyBuf fun x ↦ (hf x).1
  yyleng := h.yyleng
  active := h.active
  save := h.save
  data := by
    rw [buf_modifyBuf_self h.text.1, (hf _).2.1]
    exact h.data
  pos := by
    rw [buf_modifyBuf_self h.text.1]
    exact hpos
  le_pos := hle
  ends := by
    rw [buf_modifyBuf_self h.text.1, (hf _).2.2.1]
    exact h.ends
  done := by
    rw [buf_modifyBuf_self h.text.1, (hf _).2.2.2]
    exact h.done

theorem input (h : s.Held b start bufEnd D σ) :
    s.input.2.Held b start bufEnd D (σ.call bufEnd .input) := by
  have hu := h.textUnseal
  have hend : (s.textUnseal.buf b).bufEnd ≤ (s.textUnseal.buf b).pos ↔ bufEnd ≤ σ.pos := by
    rw [hu.ends, hu.pos]
  rw [input_eq h.current h.done, Look.call]
  by_cases hle : bufEnd ≤ σ.pos
  · rw [if_pos (hend.2 hle), if_pos hle]
    exact hu
  · rw [if_neg (mt hend.1 hle), if_neg hle]
    exact hu.modifyBuf (fun x ↦ ⟨rfl, rfl, rfl, rfl⟩) (congrArg (· + 1) hu.pos)
      (Nat.le_succ_of_le hu.le_pos)

/-- A shorter text, with the byte behind it held back. -/
theorem cut (h : s.Held b start bufEnd D σ) (hplanted : σ.planted = false) {n : Nat}
    (hn : n ≤ σ.len) : (s.setText s.yytext n (D.getD (start + n) 0) s.textActive).Held b start bufEnd
      D { σ with len := n } where
  current := h.current
  text := h.text
  yyleng := rfl
  active := h.active
  save := rfl
  data := by
    have hdata := h.data
    rw [hplanted] at hdata
    change (s.buf b).data = if σ.planted = true then _ else _
    rw [hplanted]
    exact hdata
  pos := h.pos
  le_pos := (Nat.add_le_add_left hn start).trans h.le_pos
  ends := h.ends
  done := h.done

/-- The NUL takes the place of the byte. -/
theorem plant (h : s.Held b start bufEnd D σ) (hplanted : σ.planted = false) :
    (s.storeText σ.len 0).Held b start bufEnd D { σ with planted := true } where
  current := (storeText_keeps s _ _).2.2.2.trans h.current
  text := h.text.storeText _ _
  yyleng := (storeText_keeps s _ _).2.2.1.trans h.yyleng
  active := (storeText_keeps s _ _).1.trans h.active
  save := by
    rw [Memory.storeText, h.text.2]
    exact h.save
  data := by
    have hdata := h.data
    rw [hplanted] at hdata
    rw [h.text.buf_storeText, Space.store_natCast, hdata]
    rfl
  pos := by
    rw [h.text.buf_storeText]
    exact h.pos
  le_pos := h.le_pos
  ends := by
    rw [h.text.buf_storeText]
    exact h.ends
  done := by
    rw [h.text.buf_storeText]
    exact h.done

/-- The position goes back by so many bytes. -/
def moveBack (k : Nat) (x : Space) : Space := { x with pos := Space.sizeSub x.pos k }

/-- `yyless`: the byte held back is written, the position goes back by what the text loses, and the
byte behind it is held back. -/
theorem less (h : s.Held b start bufEnd D σ) {n : Nat} (hn : n ≤ σ.len) :
    (s.less n).Held b start bufEnd D (σ.call bufEnd (.less n)) := by
  have hstore := h.storeText
  have hle := h.le_pos
  have hsub : (s.yyleng - n).toNat = σ.len - n := by
    rw [h.yyleng]
    omega
  have hback : s.goBack n =
      (s.storeText s.yyleng s.textSave).modifyBuf b (moveBack (σ.len - n)) := by
    rw [goBack, h.current, hsub]
    rfl
  have hload : (s.goBack n).loadText n = D.getD (start + n) 0 := by
    have htext := hstore.text.modifyBuf (f := moveBack (σ.len - n)) fun x ↦ rfl
    rw [hback, htext.loadText, buf_modifyBuf_self hstore.text.1]
    change ((s.storeText s.yyleng s.textSave).buf b).data.getD _ _ = _
    rw [h.data_storeText]
  have hcut : (((s.storeText s.yyleng s.textSave).setText s.yytext n (D.getD (start + n) 0)
      s.textActive).modifyBuf b (moveBack (σ.len - n))).Held b start bufEnd D
        { σ with len := n, pos := σ.pos - (σ.len - n), planted := false } := by
    obtain ⟨hact, htext, -, -⟩ := storeText_keeps s s.yyleng s.textSave
    have hset := hstore.cut rfl hn
    rw [hact, htext] at hset
    refine hset.modifyBuf (fun x ↦ ⟨rfl, rfl, rfl, rfl⟩) ?_ (by change start + n ≤ _; omega)
    change Space.sizeSub ((s.storeText s.yyleng s.textSave).buf b).pos _ = _
    rw [hstore.pos, Space.sizeSub, if_pos]
    change σ.len - n ≤ σ.pos
    omega
  have hseal : ((s.goBack n).sealAt n).Held b start bufEnd D
      { σ with len := n, pos := σ.pos - (σ.len - n), planted := true } := by
    obtain ⟨hact, htext, -, -⟩ := goBack_keeps s n
    rw [sealAt, hload, hact, htext, hback]
    exact hcut.plant rfl
  unfold Memory.less
  dsimp only
  rw [h.current]
  exact hseal.modifyBuf (fun x ↦ ⟨rfl, rfl, rfl, rfl⟩) hseal.pos hseal.le_pos

/-- Along a sequence of calls. -/
theorem looks (h : s.Held b start bufEnd D σ) {cs : List LookCall} (hcs : LookCall.Legal σ.len cs) :
    (s.looks cs).Held b start bufEnd D (σ.calls bufEnd cs) := by
  induction cs generalizing s σ with
  | nil => exact h
  | cons c cs ih =>
      cases c with
      | input => exact ih h.input hcs
      | less n => exact ih (h.less hcs.1) hcs.2

/-- As long as the flag is on, `yyless` keeps the bounds. -/
theorem sound_less (h : s.Held b start bufEnd D σ) (hs : s.Sound) (hact : σ.active = true) {n : Nat}
    (hn : n ≤ σ.len) : (s.less n).Sound := by
  have hle := h.le_pos
  refine hs.less (h.active.trans hact) h.text.2 (h.yyleng ▸ Int.ofNat_le.2 hn) fun c hc ↦ ?_
  obtain rfl := Option.some.inj (h.current.symm.trans hc)
  rw [h.yyleng, h.pos]
  omega

/-- What the loop finds at its next top. -/
theorem data_textUnseal (h : s.Held b start bufEnd D σ) :
    (s.textUnseal.buf b).data = if σ.leaks then D.set (start + σ.len) 0 else D :=
  h.textUnseal.data

end Held

/-! ## From a match to the next top -/

/-- Where the text of the next match begins, and how many bytes of it `yymore` has kept. -/
def textStart (s : Memory) (b : Nat) : Nat := (s.buf b).pos - s.moreLen.toNat

/-- What the loop hands to the action. -/
def atAction (s : Memory) (b : Nat) (m : Match) : Look :=
  ⟨m.len + s.moreLen.toNat, (s.buf b).pos + m.len, true, true⟩

section Match

variable {s : Memory} {b : Nat} {m : Match}

/-- The action begins with the NUL in place. -/
theorem held_take (hcur : s.current = some b) (hb : b < s.heap.length) (hfit : s.Fit b m)
    (hdone : (s.buf b).done = true) : (s.take b m).Held b (s.textStart b) (s.buf b).bufEnd
      (s.buf b).data (s.atAction b m) := by
  obtain ⟨hle, hlt⟩ := hfit
  have hnonneg : 0 ≤ s.moreLen := by
    unfold moreLen
    split_ifs with hpos
    · exact hpos.le
    · exact le_rfl
  obtain ⟨k, hk⟩ := Int.eq_ofNat_of_zero_le hnonneg
  have hkpos : k ≤ (s.buf b).pos := Int.ofNat_le.1 (hk ▸ hle)
  have hstart : s.textStart b = (s.buf b).pos - k := by
    rw [textStart, hk, Int.toNat_natCast]
  have hlen : (m.len : Int) + s.moreLen = ((m.len + k : Nat) : Int) := by
    rw [hk, Nat.cast_add]
  have hindex : ((s.buf b).pos : Int) - s.moreLen = (s.textStart b : Int) := by
    rw [hk, hstart, Nat.cast_sub hkpos]
  have hact : s.atAction b m = ⟨m.len + k, (s.buf b).pos + m.len, true, true⟩ := by
    rw [atAction, hk, Int.toNat_natCast]
  have hsave : (s.buf b).load (s.textStart b + (m.len + k : Nat) : Int) =
      (s.buf b).data.getD (s.textStart b + (m.len + k)) 0 := by
    rw [← Nat.cast_add, Space.load, if_pos (Int.natCast_nonneg _), Int.toNat_natCast]
  have htext : (s.setText (some ⟨b, (s.buf b).moves, s.textStart b⟩) (m.len + k : Nat)
      ((s.buf b).data.getD (s.textStart b + (m.len + k)) 0) true).TextAt b (s.textStart b) :=
    ⟨hb, rfl⟩
  unfold take
  dsimp only
  rw [hindex, hlen, hsave, int32_eq_self (Int.natCast_nonneg _) (hlen ▸ hlt), hact]
  have hstored := htext.storeText (m.len + k) 0
  have hbuf := htext.buf_storeText (m.len + k) 0
  change _ = (s.buf b).store _ 0 at hbuf
  refine ⟨hcur, hstored.modifyBuf fun x ↦ rfl, rfl, rfl, rfl, ?_, ?_, ?_, ?_, ?_⟩
  · change ((modifyBuf b _ _).buf b).data = _
    rw [buf_modifyBuf_self hstored.1, hbuf]
    exact Space.store_natCast _ _ _
  · change ((modifyBuf b _ _).buf b).pos = _
    rw [buf_modifyBuf_self hstored.1]
  · change s.textStart b + (m.len + k) ≤ (s.buf b).pos + m.len
    rw [hstart]
    omega
  · change ((modifyBuf b _ _).buf b).bufEnd = _
    rw [buf_modifyBuf_self hstored.1, hbuf]
    rfl
  · change ((modifyBuf b _ _).buf b).done = _
    rw [buf_modifyBuf_self hstored.1, hbuf]
    exact hdone

end Match

/-! ### The current buffer stays -/

section Current

variable {s : Memory} {b : Nat}

theorem current_refill (s : Memory) : s.refill.current = s.current := by
  cases hb : s.current with
  | none =>
      rw [refill, hb]
      exact hb
  | some b =>
      cases hd : (s.buf b).done with
      | true => rw [refill_of_done hb hd, hb]
      | false =>
          rw [refill_of_not_done hb hd]
          exact (current_asked b s).trans hb

theorem current_slurpLoop (n : Nat) (s : Memory) : (slurpLoop n s).current = s.current := by
  induction n generalizing s with
  | zero => rfl
  | succ n ih =>
      rw [slurpLoop]
      cases hb : s.current with
      | none => exact hb
      | some b =>
          dsimp only
          split_ifs
          · exact hb
          · rw [ih, current_refill, hb]

theorem current_restart (hb : s.current = some b) (file : Option Nat) :
    (s.restart file).current = some b := by
  have hens : s.ensureBufferStack = s := by
    refine if_pos ?_
    cases hst : s.bufferStack with
    | none =>
        rw [current, hst] at hb
        exact (Option.some_ne_none b hb.symm).elim
    | some st => rfl
  rw [restart, slurp, current_slurpLoop, hens, restartBuffer, hb]
  exact hb

theorem current_top (hb : s.current = some b) : (s.top b).current = some b := by
  have hu : s.textUnseal.current = some b := (current_textUnseal s).trans hb
  rw [top, autoRestart]
  split_ifs
  · exact current_restart hu _
  · exact hu

end Current

/-- A byte that is NUL already. -/
theorem set_zero_eq_self_iff (D : List Byte) (i : Nat) : D.set i 0 = D ↔ D.getD i 0 = 0 := by
  constructor
  · intro h
    rcases Nat.lt_or_ge i D.length with hi | hi
    · rw [← h, List.getD_eq_getElem?_getD, List.getElem?_set_self hi]
      rfl
    · exact List.getD_eq_default _ _ hi
  · intro h
    rw [← h]
    exact set_getD_self D i false

/-! ## `yyless` before any `yy_input` -/

/-- The text is cut after its first `n` bytes, the others of the buffer are unread. -/
structure CutAt (s : Memory) (b start n : Nat) (x : Space) : Prop where
  pos : (s.buf b).pos = start + n
  yyleng : s.yyleng = n
  text : ∀ i < n, s.loadText i = x.data.getD (start + i) 0
  nul : s.loadText n = 0
  unread : s.unread = (x.data.take x.bufEnd).drop (start + n)

section Cut

variable {s : Memory} {b start : Nat} {x : Space} {σ : Look}

theorem Held.cutAt (h : s.Held b start x.bufEnd x.data σ) (hpos : σ.pos = start + σ.len)
    (hact : σ.active = true) (hplanted : σ.planted = true) : s.CutAt b start σ.len x := by
  have hdata := h.data
  rw [hplanted, if_pos rfl] at hdata
  refine ⟨h.pos.trans hpos, h.yyleng, fun i hi ↦ ?_, ?_, ?_⟩
  · rw [h.text.loadText, hdata, List.getD_eq_getElem?_getD, List.getElem?_set_ne (by omega),
      List.getD_eq_getElem?_getD]
  · rw [h.text.loadText, hdata, ← set_zero_eq_self_iff, List.set_set]
  · have hu := h.textUnseal
    rw [unread_eq h.current, Space.unread, h.data_textUnseal, hu.ends, hu.pos, ← hpos]
    change ((if (σ.planted && !σ.active) = true then _ else x.data).take x.bufEnd).drop σ.pos = _
    rw [hact, Bool.not_true, Bool.and_false, if_neg Bool.false_ne_true]

/-- Along a sequence of calls of `yyless`. -/
theorem Held.cutAt_looks (h : s.Held b start x.bufEnd x.data σ) (hs : s.Sound)
    (hpos : σ.pos = start + σ.len) (hact : σ.active = true) {ns : List Nat} {n : Nat}
    (hns : LookCall.Legal σ.len ((ns ++ [n]).map .less)) :
    (s.looks ((ns ++ [n]).map .less)).CutAt b start n x ∧
      (s.looks ((ns ++ [n]).map .less)).Ready b := by
  induction ns generalizing s σ with
  | nil =>
      have hless := h.less hns.1
      have hle := hns.1
      exact ⟨hless.cutAt (by change σ.pos - (σ.len - n) = start + n; omega) hact rfl,
        h.sound_less hs hact hns.1, hless.current, hless.done⟩
  | cons k ns ih =>
      have hle := hns.1
      exact ih (h.less hns.1) (h.sound_less hs hact hns.1)
        (by change σ.pos - (σ.len - k) = start + k; omega) hact hns.2

end Cut

/-- The letter and one that follows it. -/
def letters : Memory := (fresh fun _ ↦ []).scanBytes [97, 98]

def letterMatch : Match := { rule := 0, total := 1, len := 1 }

/-- The letter is matched. -/
theorem ahead_letters {dfa : DFA} {t : Tables}
    (hgen : generate (.insertion Nat) .compress false letterRule.nfa = some (dfa, t)) :
    (letters.top 0).ahead t 0 = some letterMatch := by
  have hrun : (generate (.insertion Nat) .compress false letterRule.nfa).map
      (fun g ↦ (letters.top 0).ahead g.2 0) = some (some letterMatch) := by decide +kernel
  rw [hgen] at hrun
  exact Option.some.inj hrun

theorem fit_letters : (letters.top 0).Fit 0 letterMatch := ⟨by decide, by decide⟩

end Memory

end LexCpp
