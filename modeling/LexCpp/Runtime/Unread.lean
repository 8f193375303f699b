import LexCpp.Runtime.Bounds

/-!
# The unread bytes as a list

What an action does to the input, in two views: the array with a position in it, a NUL planted
behind the text, bytes that move up and an allocation that grows; and a list of bytes, of which
`yy_input` takes the first and in front of which `yy_unput` puts another (`input_unput_list`).
-/

namespace LexCpp

/-! ## The list -/

/-- What an action calls on the unread bytes. -/
inductive TextCall where
  | input
  | unput (c : Byte)
deriving DecidableEq, Repr

/-- One call on the list of unread bytes, with what `input()` returns. -/
def TextCall.onList : TextCall → List Byte → List Byte × List Byte
  | .input, [] => ([0], [])
  | .input, c :: w => ([c], w)
  | .unput c, w => ([], c :: w)

/-- A sequence of calls on the list. -/
def runOnList : List TextCall → List Byte → List Byte × List Byte
  | [], w => ([], w)
  | c :: cs, w =>
      let (out, w) := c.onList w
      let (outs, w) := runOnList cs w
      (out ++ outs, w)

namespace Memory

/-- One call on the buffer. -/
def textCall : TextCall → Memory → List Byte × Memory
  | .input, s => ([s.input.1], s.input.2)
  | .unput c, s => ([], s.unput c)

/-- A sequence of calls on the buffer. -/
def textCalls : List TextCall → Memory → List Byte × Memory
  | [], s => ([], s)
  | c :: cs, s =>
      let (out, s) := s.textCall c
      let (outs, s) := s.textCalls cs
      (out ++ outs, s)

/-- What the loop would find unread in the current buffer. -/
def unread (s : Memory) : List Byte :=
  s.current.elim [] fun b ↦ (s.textUnseal.buf b).unread

/-! ## Buffers after a store -/

section Buffers

variable {s : Memory} {b c : Nat} {f : Space → Space}

theorem buf_modifyBuf_self (hb : b < s.heap.length) : (s.modifyBuf b f).buf b = f (s.buf b) := by
  have hx := List.getElem?_eq_getElem hb
  rw [buf_of_getElem? (getElem?_modifyBuf_self hx), buf_of_getElem? hx]

theorem buf_modifyBuf_of_ne (hbc : b ≠ c) : (s.modifyBuf b f).buf c = s.buf c := by
  rw [buf, buf, List.getD_eq_getElem?_getD, List.getD_eq_getElem?_getD, getElem?_modifyBuf,
    if_neg hbc]

/-- With no text sealed, unsealing does nothing. -/
theorem textUnseal_of_loose (h : ¬ (s.textActive = true ∧ s.yytext.isSome = true)) :
    s.textUnseal = s := if_neg h

theorem loose_textUnseal (s : Memory) :
    ¬ (s.textUnseal.textActive = true ∧ s.textUnseal.yytext.isSome = true) := by
  by_cases h : s.textActive = true ∧ s.yytext.isSome = true
  · rw [textUnseal, if_pos h]
    exact fun h' ↦ Bool.false_ne_true h'.1
  · rwa [textUnseal, if_neg h]

theorem buf_of_length_le (hb : s.heap.length ≤ b) : s.buf b = {} := by
  rw [buf, List.getD_eq_default _ _ hb]

/-- Unsealing changes the bytes of a buffer, and nothing else of it. -/
theorem textUnseal_buf (s : Memory) (b : Nat) :
    (s.textUnseal.buf b).shape = (s.buf b).shape := by
  by_cases h : s.textActive = true ∧ s.yytext.isSome = true
  · rw [textUnseal, if_pos h]
    change ((s.storeText s.yyleng s.textSave).buf b).shape = _
    rcases Nat.lt_or_ge b s.heap.length with hb | hb
    · have hb' : b < (s.storeText s.yyleng s.textSave).heap.length :=
        hb.trans_eq (length_storeText s _ _).symm
      have hx := List.getElem?_eq_getElem hb'
      obtain ⟨y, hy, hyx⟩ := exists_of_storeText hx
      rw [buf_of_getElem? hx, buf_of_getElem? hy]
      exact hyx
    · rw [buf_of_length_le hb, buf_of_length_le ((length_storeText s _ _).le.trans hb)]
  · rw [textUnseal, if_neg h]

end Buffers

/-! ## The calls refine the list -/

section Refine

variable {s : Memory} {b : Nat}

theorem unread_eq (hb : s.current = some b) : s.unread = (s.textUnseal.buf b).unread := by
  rw [unread, hb]
  rfl

/-- A change of the current buffer, with no text sealed. -/
theorem unread_modifyBuf {u : Memory} {f : Space → Space} (hb : u.current = some b)
    (hlt : b < u.heap.length) (hl : ¬ (u.textActive = true ∧ u.yytext.isSome = true)) :
    (u.modifyBuf b f).unread = (f (u.buf b)).unread := by
  have hcur : (u.modifyBuf b f).current = some b := hb
  rw [unread_eq hcur, textUnseal_of_loose (s := u.modifyBuf b f) hl, buf_modifyBuf_self hlt]

theorem done_textUnseal (s : Memory) (b : Nat) : (s.textUnseal.buf b).done = (s.buf b).done :=
  (congrArg Space.done (textUnseal_buf s b) :
    (s.textUnseal.buf b).shape.done = (s.buf b).shape.done)

theorem unput_eq (hb : s.current = some b) (c : Byte) :
    s.unput c = s.textUnseal.modifyBuf b (Space.unput c) := by
  unfold unput
  dsimp only
  rw [current_textUnseal, hb]
  rfl

/-- `yy_unput` puts a byte in front of the list. -/
theorem unread_unput (h : s.Sound) (hb : s.current = some b) (c : Byte) :
    (s.unput c).unread = c :: s.unread := by
  have hu := h.textUnseal
  have hub : s.textUnseal.current = some b := (current_textUnseal s).trans hb
  have hlt := hu.current_lt b hub
  have hx := List.getElem?_eq_getElem hlt
  have hok := hu.spaces b _ hx
  rw [← buf_of_getElem? hx] at hok
  rw [unput_eq hb, unread_modifyBuf hub hlt (loose_textUnseal s), Space.unread_unput hok,
    unread_eq hb]

/-- With all of the input read, `yy_input` takes what is in the buffer. -/
theorem input_eq (hb : s.current = some b) (hd : (s.buf b).done = true) :
    s.input = if (s.textUnseal.buf b).bufEnd ≤ (s.textUnseal.buf b).pos then (0, s.textUnseal)
      else ((s.textUnseal.buf b).data.getD (s.textUnseal.buf b).pos 0,
        s.textUnseal.modifyBuf b fun x ↦ { x with pos := x.pos + 1 }) := by
  have hub : s.textUnseal.current = some b := (current_textUnseal s).trans hb
  have hrefill : s.textUnseal.refill = s.textUnseal :=
    refill_of_done hub ((done_textUnseal s b).trans hd)
  unfold input
  dsimp only
  rw [hub, hrefill]
  dsimp only
  rw [ite_self]

/-- `yy_input` takes the first byte of the list. -/
theorem unread_input (h : s.Sound) (hb : s.current = some b) (hd : (s.buf b).done = true) :
    [s.input.1] = (TextCall.input.onList s.unread).1 ∧
      s.input.2.unread = (TextCall.input.onList s.unread).2 := by
  have hu := h.textUnseal
  have hub : s.textUnseal.current = some b := (current_textUnseal s).trans hb
  have hlt := hu.current_lt b hub
  have hx := List.getElem?_eq_getElem hlt
  have hok := hu.spaces b _ hx
  rw [← buf_of_getElem? hx] at hok
  rw [input_eq hb hd, unread_eq hb]
  split_ifs with hend
  · rw [(Space.unread_eq_nil_iff hok).2 hend]
    refine ⟨rfl, ?_⟩
    rw [unread_eq hub, textUnseal_of_loose (loose_textUnseal s)]
    exact (Space.unread_eq_nil_iff hok).2 hend
  · rw [Space.unread_eq_cons hok (not_le.1 hend)]
    exact ⟨rfl, unread_modifyBuf hub hlt (loose_textUnseal s)⟩

/-- What an action finds: the invariant, and a current buffer all of whose input is read. -/
structure Ready (s : Memory) (b : Nat) : Prop where
  sound : s.Sound
  current : s.current = some b
  done : (s.buf b).done = true

theorem Ready.unput (h : s.Ready b) (c : Byte) : (s.unput c).Ready b where
  sound := h.sound.unput c
  current := by
    rw [unput_eq h.current]
    exact (current_textUnseal s).trans h.current
  done := by
    have hlt := h.sound.textUnseal.current_lt b ((current_textUnseal s).trans h.current)
    rw [unput_eq h.current, buf_modifyBuf_self hlt, Space.done_unput, done_textUnseal, h.done]

theorem Ready.input (h : s.Ready b) : s.input.2.Ready b where
  sound := h.sound.input
  current := by
    rw [input_eq h.current h.done]
    split_ifs
    · exact (current_textUnseal s).trans h.current
    · exact (current_textUnseal s).trans h.current
  done := by
    have hlt := h.sound.textUnseal.current_lt b ((current_textUnseal s).trans h.current)
    rw [input_eq h.current h.done]
    split_ifs
    · exact (done_textUnseal s b).trans h.done
    · rw [buf_modifyBuf_self hlt]
      exact (done_textUnseal s b).trans h.done

/-- One call does to the buffer what it does to the list. -/
theorem Ready.textCall (h : s.Ready b) (c : TextCall) : (s.textCall c).2.Ready b ∧
    (s.textCall c).1 = (c.onList s.unread).1 ∧
      (s.textCall c).2.unread = (c.onList s.unread).2 := by
  cases c with
  | input => exact ⟨h.input, unread_input h.sound h.current h.done⟩
  | unput c => exact ⟨h.unput c, rfl, unread_unput h.sound h.current c⟩

/-- A sequence of calls too. -/
theorem Ready.textCalls (h : s.Ready b) (cs : List TextCall) : (s.textCalls cs).2.Ready b ∧
    (s.textCalls cs).1 = (runOnList cs s.unread).1 ∧
      (s.textCalls cs).2.unread = (runOnList cs s.unread).2 := by
  induction cs generalizing s with
  | nil => exact ⟨h, rfl, rfl⟩
  | cons c cs ih =>
      obtain ⟨hready, hout, hunread⟩ := h.textCall c
      obtain ⟨hready', hout', hunread'⟩ := ih hready
      rw [hunread] at hout' hunread'
      refine ⟨hready', ?_, hunread'⟩
      exact congrArg₂ (· ++ ·) hout hout'

/-- What is unread, the loop finds. -/
theorem Ready.unread_top (h : s.Ready b) (hne : s.unread ≠ []) :
    ((s.top b).buf b).unread = s.unread := by
  have hu := h.sound.textUnseal
  have hlt := hu.current_lt b ((current_textUnseal s).trans h.current)
  have hx := List.getElem?_eq_getElem hlt
  have hok := hu.spaces b _ hx
  rw [← buf_of_getElem? hx] at hok
  rw [unread_eq h.current] at hne ⊢
  have hend := mt (Space.unread_eq_nil_iff hok).2 hne
  rw [top, autoRestart, if_neg fun h ↦ hend h.1]

end Refine

end Memory

end LexCpp
