import LexCpp.Runtime.Memory
import LexCpp.Scanner.Bol
import LexCpp.Scanner.Extent

/-!
# Every store is inside

The invariant of the runtime over memory: each buffer keeps its bounds, and while `yytext` is
sealed, the byte that was held back has its place in an allocation that still is there.  No
function moves the allocation of a sealed text, since whatever may grow a buffer unseals the text
first or forgets it.

The seal is written at `yy_len` and lifted at `yyleng`, an `int`, so that the invariant needs
matches of less than 2^31 bytes (`stores_inside`).
-/

namespace LexCpp

namespace Memory

/-! ## Places in the heap -/

section Heap

variable {s : Memory} {b c : Nat} {f : Space → Space} {x : Space}

theorem buf_of_getElem? (h : s.heap[b]? = some x) : s.buf b = x := by
  rw [buf, List.getD_eq_getElem?_getD, h]
  rfl

theorem getElem?_modifyBuf (s : Memory) (b c : Nat) (f : Space → Space) :
    (s.modifyBuf b f).heap[c]? = if b = c then s.heap[c]?.map f else s.heap[c]? := by
  rw [modifyBuf, List.getElem?_modify]
  split_ifs with h
  · rfl
  · exact Option.map_id'

/-- A buffer of the changed heap is the old one or, at the place of the change, comes of it. -/
theorem exists_of_modifyBuf (h : (s.modifyBuf b f).heap[c]? = some x) :
    (b ≠ c ∧ s.heap[c]? = some x) ∨ b = c ∧ ∃ y, s.heap[c]? = some y ∧ f y = x := by
  rw [getElem?_modifyBuf] at h
  split_ifs at h with hbc
  · exact Or.inr ⟨hbc, Option.map_eq_some_iff.1 h⟩
  · exact Or.inl ⟨hbc, h⟩

theorem getElem?_modifyBuf_self (h : s.heap[b]? = some x) :
    (s.modifyBuf b f).heap[b]? = some (f x) := by
  rw [getElem?_modifyBuf, if_pos rfl, h]
  rfl

theorem exists_modifyBuf (h : s.heap[c]? = some x) :
    (s.modifyBuf b f).heap[c]? = some (if b = c then f x else x) := by
  rw [getElem?_modifyBuf, h]
  split_ifs <;> rfl

@[simp] theorem length_modifyBuf : (s.modifyBuf b f).heap.length = s.heap.length :=
  List.length_modify ..

end Heap

/-! ## The invariant -/

/-- A pointer into an allocation that is still there, with room for `n` bytes and one more. -/
def Points (s : Memory) (p : Pointer) (n : Int) : Prop :=
  ∃ x, s.heap[p.buf]? = some x ∧ x.moves = p.moves ∧ 0 ≤ p.index ∧ p.index + n < x.data.length

/-- No text is sealed in the current buffer. -/
def Clear (s : Memory) : Prop :=
  s.textActive = true → ∀ p, s.yytext = some p → s.current ≠ some p.buf

/-- **The invariant**: the buffers keep their bounds, the current one exists, and a sealed text
lies where it was. -/
structure Sound (s : Memory) : Prop where
  spaces : ∀ (b : Nat) (x : Space), s.heap[b]? = some x → x.Ok
  current_lt : ∀ b, s.current = some b → b < s.heap.length
  text : s.textActive = true → ∀ p, s.yytext = some p → 0 ≤ s.yyleng ∧ s.Points p s.yyleng

namespace Sound

variable {s s' : Memory} {b : Nat} {f : Space → Space}

theorem fresh (files : Nat → List (List Byte)) : (fresh files).Sound where
  spaces _ x h := (Option.some_ne_none x (h.symm.trans List.getElem?_nil)).elim
  current_lt b h := (Option.some_ne_none b h.symm).elim
  text h := absurd h Bool.false_ne_true

/-- With no text sealed in it, the current buffer may become any other within its bounds. -/
theorem modifyBuf_of_clear (h : s.Sound) (hl : s.Clear) (hb : s.current = some b)
    (hf : ∀ x, s.heap[b]? = some x → (f x).Ok) : (s.modifyBuf b f).Sound where
  spaces c x hx := by
    rcases exists_of_modifyBuf hx with ⟨-, hx⟩ | ⟨rfl, y, hy, rfl⟩
    · exact h.spaces c x hx
    · exact hf y hy
  current_lt c hc := by
    rw [length_modifyBuf]
    exact h.current_lt c hc
  text ha p hp := by
    obtain ⟨hpos, x, hx, hrest⟩ := h.text ha p hp
    have hne : b ≠ p.buf := fun hbp ↦ hl ha p hp (hbp ▸ hb)
    refine ⟨hpos, x, ?_, hrest⟩
    rw [getElem?_modifyBuf, if_neg hne]
    exact hx

/-- With text sealed, it may change within its allocation. -/
theorem modifyBuf (h : s.Sound) (hf : ∀ x, s.heap[b]? = some x → (f x).Ok)
    (hkeep : ∀ x, (f x).moves = x.moves ∧ (f x).data.length = x.data.length) :
    (s.modifyBuf b f).Sound where
  spaces c x hx := by
    rcases exists_of_modifyBuf hx with ⟨-, hx⟩ | ⟨rfl, y, hy, rfl⟩
    · exact h.spaces c x hx
    · exact hf y hy
  current_lt c hc := by
    rw [length_modifyBuf]
    exact h.current_lt c hc
  text ha p hp := by
    obtain ⟨hpos, x, hx, hmoves, hindex, hlt⟩ := h.text ha p hp
    refine ⟨hpos, _, exists_modifyBuf hx, ?_⟩
    split_ifs
    · rw [(hkeep x).1, (hkeep x).2]
      exact ⟨hmoves, hindex, hlt⟩
    · exact ⟨hmoves, hindex, hlt⟩

/-- The same for a buffer that may not be there. -/
theorem onBuffer (h : s.Sound) {o : Option Nat} (hf : ∀ x : Space, x.Ok → (f x).Ok)
    (hkeep : ∀ x, (f x).moves = x.moves ∧ (f x).data.length = x.data.length) :
    (s.onBuffer o f).Sound := by
  cases o with
  | none => exact h
  | some b => exact h.modifyBuf (fun x hx ↦ hf x (h.spaces b x hx)) hkeep

/-- A new buffer. -/
theorem allocate (h : s.Sound) {x : Space} (hx : x.Ok) : (s.allocate x).2.Sound where
  spaces b y hy := by
    change (s.heap ++ [x])[b]? = some y at hy
    rcases List.mem_append.1 (List.mem_of_getElem? hy) with hmem | hmem
    · obtain ⟨c, hc⟩ := List.mem_iff_getElem?.1 hmem
      exact h.spaces c y hc
    · rwa [List.mem_singleton.1 hmem]
  current_lt b hb := by
    change b < (s.heap ++ [x]).length
    rw [List.length_append]
    exact Nat.lt_add_right _ (h.current_lt b hb)
  text ha p hp := by
    obtain ⟨hpos, y, hy, hrest⟩ := h.text ha p hp
    refine ⟨hpos, y, ?_, hrest⟩
    change (s.heap ++ [x])[p.buf]? = some y
    rw [List.getElem?_append_left (List.getElem?_eq_some_iff.1 hy).1]
    exact hy

/-- The invariant is about the heap, the current buffer and the text. -/
theorem of_heap_eq (h : s.Sound) (hheap : s'.heap = s.heap)
    (hcur : ∀ c, s'.current = some c → c < s.heap.length) (hact : s'.textActive = s.textActive)
    (htext : s'.yytext = s.yytext) (hleng : s'.yyleng = s.yyleng) : s'.Sound where
  spaces := hheap ▸ h.spaces
  current_lt := hheap ▸ hcur
  text := by
    rw [hact, htext, hleng]
    intro ha p hp
    obtain ⟨hpos, x, hx⟩ := h.text ha p hp
    exact ⟨hpos, x, hheap ▸ hx⟩

/-! ### The stack -/

theorem current_setCurrent {s : Memory} {o : Option Nat} {c : Nat}
    (h : (s.setCurrent o).current = some c) : o = some c := by
  obtain ⟨st, hst, hget⟩ := Option.bind_eq_some_iff.1 h
  obtain ⟨st, -, rfl⟩ := Option.map_eq_some_iff.1 hst
  change (st.set s.bufferStackTop o).getD s.bufferStackTop none = some c at hget
  rcases Nat.lt_or_ge s.bufferStackTop st.length with hlt | hge
  · rwa [List.getD_eq_getElem?_getD, List.getElem?_set_self hlt, Option.getD_some] at hget
  · rw [List.getD_eq_default _ _ (List.length_set.le.trans hge)] at hget
    exact (Option.some_ne_none c hget.symm).elim

theorem setCurrent (h : s.Sound) {o : Option Nat} (ho : ∀ c ∈ o, c < s.heap.length) :
    (s.setCurrent o).Sound :=
  h.of_heap_eq rfl (fun c hc ↦ ho c (current_setCurrent hc)) rfl rfl rfl

theorem ensureBufferStack (h : s.Sound) : s.ensureBufferStack.Sound := by
  unfold Memory.ensureBufferStack
  split_ifs
  · exact h
  · exact h.of_heap_eq rfl (fun c hc ↦ (Option.some_ne_none c hc.symm).elim) rfl rfl rfl

theorem heap_ensureBufferStack (s : Memory) : s.ensureBufferStack.heap = s.heap := by
  unfold Memory.ensureBufferStack
  split_ifs <;> rfl

theorem followFile (h : s.Sound) (o : Option Nat) : (s.followFile o).Sound :=
  h.of_heap_eq rfl h.current_lt rfl rfl rfl

theorem switchToBuffer (h : s.Sound) {o : Option Nat} (ho : ∀ c ∈ o, c < s.heap.length) :
    (s.switchToBuffer o).Sound := by
  unfold Memory.switchToBuffer
  dsimp only
  split_ifs
  · exact h.ensureBufferStack
  · exact (h.ensureBufferStack.setCurrent ((heap_ensureBufferStack s).symm ▸ ho)).followFile o

theorem raise_keeps (s : Memory) : s.raise.heap = s.heap ∧ s.raise.textActive = s.textActive ∧
    s.raise.yytext = s.yytext ∧ s.raise.yyleng = s.yyleng := by
  unfold Memory.raise
  dsimp only
  split_ifs <;> exact ⟨rfl, rfl, rfl, rfl⟩

theorem pushBufferState (h : s.Sound) {o : Option Nat} (ho : ∀ c ∈ o, c < s.heap.length) :
    (s.pushBufferState o).Sound := by
  have hens := h.ensureBufferStack
  obtain ⟨hheap, hact, htext, hleng⟩ := raise_keeps s.ensureBufferStack
  have hset : (s.ensureBufferStack.raise.setCurrent o).Sound :=
    hens.of_heap_eq hheap (fun c hc ↦ by
      rw [heap_ensureBufferStack]
      exact ho c (current_setCurrent hc)) hact htext hleng
  exact hset.followFile o

theorem pushNew (h : s.Sound) {x : Space} (hx : x.Ok) : (s.pushNew x).Sound := by
  refine (h.allocate hx).pushBufferState fun c hc ↦ ?_
  rw [← Option.some.inj hc]
  change s.heap.length < (s.heap ++ [x]).length
  rw [List.length_append]
  exact Nat.lt_succ_self _

theorem scanBuffer (h : s.Sound) (base : List Byte) : (s.scanBuffer base).Sound := by
  unfold Memory.scanBuffer
  split_ifs with hbase
  · exact h.pushNew (Space.Ok.scanBuffer hbase.1)
  · exact h

end Sound

/-! ### The text -/

section Text

variable {s : Memory}

theorem Sound.of_not_active {s' : Memory} (h : s.Sound) (hheap : s'.heap = s.heap)
    (hcur : s'.current = s.current) (hact : s'.textActive = false) : s'.Sound where
  spaces := hheap ▸ h.spaces
  current_lt := hheap ▸ hcur ▸ h.current_lt
  text ha := absurd (ha.symm.trans hact) Bool.noConfusion

/-- A store into sealed text. -/
theorem Sound.storeText (h : s.Sound) {p : Pointer} (hp : s.yytext = some p) {n i : Int}
    (hpoints : s.Points p n) (hi : 0 ≤ i) (hin : i ≤ n) (c : Byte) : (s.storeText i c).Sound := by
  obtain ⟨x, hx, hmoves, hindex, hlt⟩ := hpoints
  rw [Memory.storeText, hp]
  change (s.modifyBuf p.buf (Space.storeAt p.moves (p.index + i) c)).Sound
  refine h.modifyBuf (fun y hy ↦ ?_) fun y ↦ ?_
  · obtain rfl := Option.some.inj (hx.symm.trans hy)
    rw [Space.storeAt, if_pos hmoves]
    exact (h.spaces p.buf x hx).store c (add_nonneg hindex hi)
      ((Int.add_le_add_left hin _).trans_lt hlt)
  · unfold Space.storeAt
    split_ifs
    · exact ⟨rfl, Space.length_store _ _ _⟩
    · exact ⟨rfl, rfl⟩

theorem storeText_keeps (s : Memory) (i : Int) (c : Byte) :
    (s.storeText i c).textActive = s.textActive ∧ (s.storeText i c).yytext = s.yytext ∧
      (s.storeText i c).yyleng = s.yyleng ∧ (s.storeText i c).current = s.current := by
  unfold Memory.storeText
  cases hp : s.yytext with
  | none => exact ⟨rfl, hp, rfl, rfl⟩
  | some p => exact ⟨rfl, hp, rfl, rfl⟩

theorem onBuffer_keeps (s : Memory) (o : Option Nat) (f : Space → Space) :
    (s.onBuffer o f).textActive = s.textActive ∧ (s.onBuffer o f).yytext = s.yytext ∧
      (s.onBuffer o f).yyleng = s.yyleng ∧ (s.onBuffer o f).current = s.current := by
  cases o <;> exact ⟨rfl, rfl, rfl, rfl⟩

/-- A store into the text changes the bytes of a buffer, and nothing else of it. -/
theorem exists_of_storeText {i : Int} {c : Byte} {b : Nat} {x : Space}
    (h : (s.storeText i c).heap[b]? = some x) :
    ∃ y, s.heap[b]? = some y ∧ x.shape = y.shape := by
  have hstore : ∀ (moves : Nat) (j : Int) (y : Space), (y.storeAt moves j c).shape = y.shape := by
    intro moves j y
    unfold Space.storeAt
    split_ifs <;> rfl
  unfold Memory.storeText at h
  cases hp : s.yytext with
  | none =>
      rw [hp] at h
      exact ⟨x, h, rfl⟩
  | some p =>
      rw [hp] at h
      rcases exists_of_modifyBuf h with ⟨-, hx⟩ | ⟨-, y, hy, rfl⟩
      · exact ⟨x, hx, rfl⟩
      · exact ⟨y, hy, hstore _ _ y⟩

theorem Sound.setText (h : s.Sound) {p : Pointer} {n : Int} (hn : 0 ≤ n) (hp : s.Points p n)
    (save : Byte) (active : Bool) : (s.setText (some p) n save active).Sound where
  spaces := h.spaces
  current_lt := h.current_lt
  text _ q hq := by
    obtain rfl := Option.some.inj hq
    exact ⟨hn, hp⟩

theorem Points.mono {p : Pointer} {m n : Int} (h : s.Points p n) (hmn : m ≤ n) : s.Points p m := by
  obtain ⟨x, hx, hmoves, hindex, hlt⟩ := h
  exact ⟨x, hx, hmoves, hindex, (Int.add_le_add_left hmn _).trans_lt hlt⟩

theorem Sound.textUnseal (h : s.Sound) : s.textUnseal.Sound := by
  unfold Memory.textUnseal
  split_ifs with hact
  · obtain ⟨p, hp⟩ := Option.isSome_iff_exists.1 hact.2
    obtain ⟨hpos, hpoints⟩ := h.text hact.1 p hp
    exact (h.storeText hp hpoints hpos le_rfl s.textSave).of_not_active rfl rfl rfl
  · exact h

theorem clear_textUnseal (s : Memory) : s.textUnseal.Clear := by
  unfold Memory.textUnseal
  split_ifs with hact
  · exact fun ha ↦ absurd ha Bool.false_ne_true
  · exact fun ha p hp ↦ absurd ⟨ha, hp ▸ rfl⟩ hact

theorem current_textUnseal (s : Memory) : s.textUnseal.current = s.current := by
  unfold textUnseal
  split_ifs
  · exact (storeText_keeps s _ _).2.2.2
  · rfl

end Text

/-! ### Reading -/

section Read

variable {s : Memory}

theorem Clear.modifyBuf (h : s.Clear) (b : Nat) (f : Space → Space) : (s.modifyBuf b f).Clear := h

theorem yyInput_keeps (max : Nat) (s : Memory) : (s.yyInput max).2.heap = s.heap ∧
    (s.yyInput max).2.bufferStack = s.bufferStack ∧
    (s.yyInput max).2.bufferStackTop = s.bufferStackTop ∧
    (s.yyInput max).2.textActive = s.textActive ∧ (s.yyInput max).2.yytext = s.yytext ∧
    (s.yyInput max).2.yyleng = s.yyleng := by
  unfold yyInput
  cases s.yyin <;> exact ⟨rfl, rfl, rfl, rfl, rfl, rfl⟩

/-- What `YY_INPUT` stores is no more than it was asked for. -/
theorem length_yyInput (max : Nat) (s : Memory) : (s.yyInput max).1.length ≤ max := by
  unfold yyInput
  cases s.yyin with
  | none => exact Nat.zero_le _
  | some f => exact List.length_take_le _ _

theorem current_yyInput (max : Nat) (s : Memory) : (s.yyInput max).2.current = s.current := by
  obtain ⟨-, hstack, htop, -⟩ := yyInput_keeps max s
  rw [current, current, hstack, htop]

/-- The state of `yy_refill` before the bytes are in place. -/
def asked (b : Nat) (s : Memory) : List Byte × Memory :=
  let s := s.modifyBuf b fun x ↦ x.grow (x.bufEnd + 4096)
  s.yyInput ((s.buf b).size - (s.buf b).bufEnd)

theorem refill_of_done {b : Nat} (hb : s.current = some b) (hd : (s.buf b).done = true) :
    s.refill = s := by
  rw [refill, hb]
  exact if_pos hd

theorem refill_of_not_done {b : Nat} (hb : s.current = some b) (hd : (s.buf b).done = false) :
    s.refill = (s.asked b).2.modifyBuf b (Space.receive (s.asked b).1) := by
  rw [refill, hb]
  exact if_neg (hd ▸ Bool.false_ne_true)

theorem current_asked (b : Nat) (s : Memory) : (s.asked b).2.current = s.current := by
  rw [asked, current_yyInput]
  rfl

/-- `yy_refill` keeps the bounds. -/
theorem Sound.refill (h : s.Sound) (hl : s.Clear) : s.refill.Sound ∧ s.refill.Clear := by
  cases hb : s.current with
  | none =>
      rw [Memory.refill, hb]
      exact ⟨h, hl⟩
  | some b =>
      cases hd : (s.buf b).done with
      | true =>
          rw [refill_of_done hb hd]
          exact ⟨h, hl⟩
      | false =>
          have hgrow : (s.modifyBuf b fun x ↦ x.grow (x.bufEnd + 4096)).Sound :=
            h.modifyBuf_of_clear hl hb fun x hx ↦ (h.spaces b x hx).grow _
          obtain ⟨hheap, -, -, hact, htext, hleng⟩ := yyInput_keeps
            (((s.modifyBuf b fun x ↦ x.grow (x.bufEnd + 4096)).buf b).size -
              ((s.modifyBuf b fun x ↦ x.grow (x.bufEnd + 4096)).buf b).bufEnd)
            (s.modifyBuf b fun x ↦ x.grow (x.bufEnd + 4096))
          have hcur := current_asked b s
          have hasked : (s.asked b).2.Sound :=
            hgrow.of_heap_eq hheap (fun c hc ↦ hgrow.current_lt c (hcur.symm.trans hc)) hact htext
              hleng
          have hclear : (s.asked b).2.Clear := fun ha p hp ↦ by
            rw [hcur]
            exact hl (hact.symm.trans ha) p (htext.symm.trans hp)
          rw [refill_of_not_done hb hd]
          refine ⟨hasked.modifyBuf_of_clear hclear (hcur.trans hb) fun x hx ↦ ?_,
            hclear.modifyBuf b _⟩
          refine (hasked.spaces b x hx).receive ?_
          have hbuf : (s.modifyBuf b fun x ↦ x.grow (x.bufEnd + 4096)).buf b = x :=
            buf_of_getElem? (hheap ▸ hx)
          have hlen : (s.asked b).1.length ≤ x.size - x.bufEnd := hbuf ▸ length_yyInput _ _
          have hend := (hasked.spaces b x hx).end_le
          omega

theorem Sound.slurpLoop (n : Nat) (h : s.Sound) (hl : s.Clear) : (slurpLoop n s).Sound := by
  induction n generalizing s with
  | zero => exact h
  | succ n ih =>
      rw [Memory.slurpLoop]
      cases hb : s.current with
      | none => exact h
      | some b =>
          dsimp only
          split_ifs
          · exact h
          · exact ih (h.refill hl).1 (h.refill hl).2

/-- A new buffer becomes the current one; no text is in it. -/
theorem Sound.makeCurrent (h : s.Sound) (file : Option Nat) :
    (s.makeCurrent file).Sound ∧ (s.makeCurrent file).Clear := by
  constructor
  · refine (h.allocate (Space.Ok.create file _)).setCurrent fun c hc ↦ ?_
    rw [← Option.some.inj hc]
    change s.heap.length < (s.heap ++ [_]).length
    rw [List.length_append]
    exact Nat.lt_succ_self _
  · intro ha p hp hcur
    obtain ⟨-, y, hy, -⟩ := h.text ha p hp
    have hlt : p.buf < s.heap.length := (List.getElem?_eq_some_iff.1 hy).1
    exact hlt.ne' (Option.some.inj (Sound.current_setCurrent hcur))

theorem Sound.restartBuffer (h : s.Sound) (file : Option Nat) : (s.restartBuffer file).Sound := by
  unfold Memory.restartBuffer
  cases hb : s.current with
  | none => exact (h.makeCurrent file).1
  | some b =>
      refine h.modifyBuf (fun x hx ↦ ?_) fun x ↦ ⟨rfl, ?_⟩
      · have hok := h.spaces b x hx
        exact Space.Ok.flush ⟨hok.pos_le, hok.end_le, hok.room, hok.inside⟩
      · exact (Space.length_store _ _ _).trans (Space.length_store _ _ _)

theorem clear_forgetText (file : Option Nat) (s : Memory) : (s.forgetText file).Clear :=
  fun ha ↦ absurd ha Bool.false_ne_true

theorem Sound.restart (h : s.Sound) (file : Option Nat) : (s.restart file).Sound := by
  have hforget : ((s.ensureBufferStack.restartBuffer file).forgetText file).Sound :=
    (h.ensureBufferStack.restartBuffer file).of_not_active rfl rfl rfl
  exact hforget.slurpLoop _ (clear_forgetText file _)

theorem Sound.openYyin (h : s.Sound) : s.openYyin.Sound := h.of_heap_eq rfl h.current_lt rfl rfl rfl

/-- The entry of `yylex` makes a buffer if there is none. -/
theorem Sound.initDefaultBuffer (h : s.Sound) : s.initDefaultBuffer.Sound := by
  unfold Memory.initDefaultBuffer
  dsimp only
  split_ifs
  · have hnew := h.ensureBufferStack.openYyin.makeCurrent s.ensureBufferStack.openYyin.yyin
    exact hnew.1.slurpLoop _ hnew.2
  · exact h.ensureBufferStack

theorem Sound.enter (h : s.Sound) : s.enter.Sound :=
  have hinit := h.openYyin.initDefaultBuffer
  hinit.of_heap_eq rfl hinit.current_lt rfl rfl rfl

theorem Sound.autoRestart (h : s.Sound) (b : Nat) : (s.autoRestart b).Sound := by
  unfold Memory.autoRestart
  split_ifs
  · exact h.restart s.yyin
  · exact h

theorem Sound.top (h : s.Sound) (b : Nat) : (s.top b).Sound := h.textUnseal.autoRestart b

end Read

/-! ### Calls of an action -/

section Action

variable {s : Memory}

theorem Sound.unput (h : s.Sound) (c : Byte) : (s.unput c).Sound := by
  have hu := h.textUnseal
  unfold Memory.unput Memory.onBuffer
  dsimp only
  cases hb : s.textUnseal.current with
  | none => exact hu
  | some b =>
      exact hu.modifyBuf_of_clear (clear_textUnseal s) hb fun x hx ↦ (hu.spaces b x hx).unput c

theorem Sound.input (h : s.Sound) : s.input.2.Sound := by
  have hu := h.textUnseal
  unfold Memory.input
  dsimp only
  cases hb : s.textUnseal.current with
  | none => exact hu
  | some b =>
      dsimp only
      have hrefill : (if (s.textUnseal.buf b).bufEnd ≤ (s.textUnseal.buf b).pos then
          s.textUnseal.refill else s.textUnseal).Sound := by
        split_ifs
        · exact (hu.refill (clear_textUnseal s)).1
        · exact hu
      generalize (if (s.textUnseal.buf b).bufEnd ≤ (s.textUnseal.buf b).pos then
          s.textUnseal.refill else s.textUnseal) = s' at hrefill ⊢
      split_ifs with hend
      · exact hrefill
      · refine hrefill.modifyBuf (fun x hx ↦ ?_) fun x ↦ ⟨rfl, rfl⟩
        have hok := hrefill.spaces b x hx
        rw [buf_of_getElem? hx, not_le] at hend
        exact ⟨hend, hok.end_le, hok.room, hok.inside⟩

theorem goBack_keeps (s : Memory) (n : Nat) :
    (s.goBack n).textActive = s.textActive ∧ (s.goBack n).yytext = s.yytext ∧
      (s.goBack n).yyleng = s.yyleng ∧ (s.goBack n).current = s.current := by
  obtain ⟨hact, htext, hleng, hcur⟩ := storeText_keeps s s.yyleng s.textSave
  obtain ⟨hact', htext', hleng', hcur'⟩ := onBuffer_keeps (s.storeText s.yyleng s.textSave) s.current
    fun x ↦ { x with pos := Space.sizeSub x.pos (s.yyleng - n).toNat }
  exact ⟨hact'.trans hact, htext'.trans htext, hleng'.trans hleng, hcur'.trans hcur⟩

theorem Sound.goBack (h : s.Sound) (hact : s.textActive = true) {p : Pointer}
    (hp : s.yytext = some p) {n : Nat} (hpos : ∀ b ∈ s.current, (s.yyleng - n).toNat ≤ (s.buf b).pos) :
    (s.goBack n).Sound := by
  obtain ⟨hleng, hpoints⟩ := h.text hact p hp
  have hback : (s.storeText s.yyleng s.textSave).Sound := h.storeText hp hpoints hleng le_rfl _
  unfold Memory.goBack
  cases hb : s.current with
  | none => exact hback
  | some b =>
      refine hback.modifyBuf (fun x hx ↦ ?_) fun x ↦ ⟨rfl, rfl⟩
      obtain ⟨y, hy, hyx⟩ := exists_of_storeText hx
      have hok := hback.spaces b x hx
      have hle : (s.yyleng - n).toNat ≤ x.pos := by
        have hb' := hpos b hb
        rw [buf_of_getElem? hy] at hb'
        exact hb'.trans_eq (congrArg Space.pos hyx).symm
      refine ⟨?_, hok.end_le, hok.room, hok.inside⟩
      rw [Space.sizeSub, if_pos hle]
      exact (Nat.sub_le _ _).trans hok.pos_le

/-- A text that is sealed is sealed again where it was longer. -/
theorem Sound.sealAt (h : s.Sound) (hact : s.textActive = true) {p : Pointer}
    (hp : s.yytext = some p) {n : Nat} (hn : (n : Int) ≤ s.yyleng) : (s.sealAt n).Sound := by
  have hshort : s.Points p n := (h.text hact p hp).2.mono hn
  unfold Memory.sealAt
  rw [hp]
  exact (h.setText (Int.natCast_nonneg n) hshort (s.loadText n) s.textActive).storeText rfl hshort
    (Int.natCast_nonneg n) le_rfl 0

/-- `yyless` on sealed text. -/
theorem Sound.less (h : s.Sound) (hact : s.textActive = true) {p : Pointer}
    (hp : s.yytext = some p) {n : Nat} (hn : (n : Int) ≤ s.yyleng)
    (hpos : ∀ b ∈ s.current, (s.yyleng - n).toNat ≤ (s.buf b).pos) : (s.less n).Sound := by
  obtain ⟨hact', htext', hleng', -⟩ := goBack_keeps s n
  have hseal := (h.goBack hact hp hpos).sealAt (hact'.trans hact) (htext'.trans hp) (hleng' ▸ hn)
  exact hseal.onBuffer (fun x hx ↦ ⟨hx.pos_le, hx.end_le, hx.room, hx.inside⟩) fun x ↦ ⟨rfl, rfl⟩

end Action

/-! ### The loop -/

section Loop

variable {s : Memory} {b : Nat}

theorem Sound.atEnd (h : s.Sound) (eofRule : Nat → Bool) (hb : b < s.heap.length) :
    (s.atEnd eofRule b).Sound := by
  have hx := List.getElem?_eq_getElem hb
  have hok := h.spaces b _ hx
  have hpoints : s.Points ⟨b, (s.buf b).moves, (s.buf b).pos⟩ 0 := by
    refine ⟨_, hx, ?_, Int.natCast_nonneg _, ?_⟩
    · rw [buf_of_getElem? hx]
    · rw [buf_of_getElem? hx]
      have hlt := hok.end_lt
      have hle := hok.pos_le
      change ((s.heap[b].pos : Int)) + 0 < s.heap[b].data.length
      omega
  have hset := h.setText le_rfl hpoints 0 true
  exact hset.of_heap_eq rfl hset.current_lt rfl rfl rfl

theorem Sound.byDefault (h : s.Sound) (hpos : (s.buf b).pos < (s.buf b).bufEnd) :
    (s.byDefault b).Sound := by
  refine h.modifyBuf (fun x hx ↦ ?_) fun x ↦ ⟨rfl, rfl⟩
  have hok := h.spaces b x hx
  rw [buf_of_getElem? hx] at hpos
  exact ⟨hpos, hok.end_le, hok.room, hok.inside⟩

/-- What a match has to satisfy for its text to be sealed and unsealed at one place: the prefix
that `yymore` keeps lies in the buffer, and `yyleng` is the length. -/
def Fit (s : Memory) (b : Nat) (m : Match) : Prop :=
  s.moreLen ≤ (s.buf b).pos ∧ m.len + s.moreLen < 2147483648

theorem Sound.take (h : s.Sound) (hb : b < s.heap.length) {m : Match} (hfit : s.Fit b m)
    (hend : (s.buf b).pos + m.len ≤ (s.buf b).bufEnd) : (s.take b m).Sound := by
  have hx := List.getElem?_eq_getElem hb
  have hbuf := buf_of_getElem? hx
  have hok := h.spaces b _ hx
  rw [← hbuf] at hok
  have hmore : 0 ≤ s.moreLen := by
    unfold moreLen
    split_ifs with hpos
    · exact hpos.le
    · exact le_rfl
  have hleng : int32 (m.len + s.moreLen) = m.len + s.moreLen :=
    int32_eq_self (by linarith [Int.natCast_nonneg m.len]) hfit.2
  have hpoints : s.Points ⟨b, (s.buf b).moves, (s.buf b).pos - s.moreLen⟩ (m.len + s.moreLen) := by
    refine ⟨_, hx, by rw [hbuf], sub_nonneg.2 hfit.1, ?_⟩
    have hlt := hok.end_lt
    rw [← hbuf]
    change ((s.buf b).pos : Int) - s.moreLen + (m.len + s.moreLen) < (s.buf b).data.length
    omega
  have hpos : (0 : Int) ≤ m.len + s.moreLen := add_nonneg (Int.natCast_nonneg _) hmore
  unfold Memory.take
  dsimp only
  rw [hleng]
  have hseal := (h.setText hpos hpoints
    ((s.buf b).load ((s.buf b).pos - s.moreLen + (m.len + s.moreLen))) true).storeText rfl hpoints hpos
    le_rfl 0
  refine (hseal.modifyBuf (b := b) (fun y hy ↦ ?_) fun y ↦ ?_).of_heap_eq rfl ?_ rfl rfl rfl
  · obtain ⟨z, hz, hyz⟩ := exists_of_storeText hy
    have hoky := hseal.spaces b y hy
    have hz' : s.heap[b]? = some z := hz
    have hend' : y.bufEnd = (s.buf b).bufEnd := by
      rw [buf_of_getElem? hz']
      exact (congrArg Space.bufEnd hyz : y.shape.bufEnd = z.shape.bufEnd)
    exact ⟨hend.trans hend'.ge, hoky.end_le, hoky.room, hoky.inside⟩
  · exact ⟨rfl, rfl⟩
  · intro c hc
    rw [length_modifyBuf]
    exact hseal.current_lt c hc

/-- One turn of the loop. -/
theorem Sound.scan (h : s.Sound) (t : Tables) (nodefault : Bool) (eofRule : Nat → Bool)
    (hb : b < s.heap.length) (hfit : ∀ m ∈ s.ahead t b, s.Fit b m) :
    (s.scan t nodefault eofRule b).Sound := by
  rw [Memory.scan]
  rcases Nat.lt_or_ge (s.buf b).pos (s.buf b).bufEnd with hpos | hpos
  · rw [if_neg (not_le.2 hpos)]
    have hx := List.getElem?_eq_getElem hb
    have hok := h.spaces b _ hx
    rw [← buf_of_getElem? hx] at hok
    cases hm : s.ahead t b with
    | some m =>
        have hlen : ((s.buf b).data.take (s.buf b).bufEnd).length = (s.buf b).bufEnd := by
          rw [List.length_take, min_eq_left (Nat.le_of_lt (Nat.lt_of_succ_lt hok.end_lt))]
        have hend := len_bodyMatch (hlen.symm ▸ hok.pos_le) hm
        exact h.take hb (hfit m hm) (hlen ▸ hend)
    | none =>
        cases nodefault with
        | true => exact h.of_heap_eq rfl h.current_lt rfl rfl rfl
        | false => exact h.byDefault hpos
  · rw [if_pos hpos]
    exact h.atEnd eofRule hb

end Loop

/-! ### The heap grows -/

section Length

variable (s : Memory)

theorem length_storeText (i : Int) (c : Byte) : (s.storeText i c).heap.length = s.heap.length := by
  unfold storeText
  cases s.yytext with
  | none => rfl
  | some p => exact length_modifyBuf

theorem length_textUnseal : s.textUnseal.heap.length = s.heap.length := by
  unfold textUnseal
  split_ifs
  · exact length_storeText s _ _
  · rfl

theorem length_refill : s.refill.heap.length = s.heap.length := by
  cases hb : s.current with
  | none => rw [refill, hb]
  | some b =>
      cases hd : (s.buf b).done with
      | true => rw [refill_of_done hb hd]
      | false =>
          rw [refill_of_not_done hb hd, length_modifyBuf, asked, (yyInput_keeps _ _).1,
            length_modifyBuf]

theorem length_slurpLoop (n : Nat) : (slurpLoop n s).heap.length = s.heap.length := by
  induction n generalizing s with
  | zero => rfl
  | succ n ih =>
      rw [slurpLoop]
      cases s.current with
      | none => rfl
      | some b =>
          dsimp only
          split_ifs
          · rfl
          · rw [ih, length_refill]

theorem length_le_restart (file : Option Nat) : s.heap.length ≤ (s.restart file).heap.length := by
  rw [restart, slurp, length_slurpLoop]
  change s.heap.length ≤ (s.ensureBufferStack.restartBuffer file).heap.length
  rw [← Sound.heap_ensureBufferStack s]
  unfold restartBuffer
  cases s.ensureBufferStack.current with
  | none =>
      change _ ≤ (s.ensureBufferStack.heap ++ [_]).length
      rw [List.length_append]
      exact Nat.le_add_right _ _
  | some b => exact length_modifyBuf.ge

theorem length_le_top (b : Nat) : s.heap.length ≤ (s.top b).heap.length := by
  rw [← length_textUnseal s, top, autoRestart]
  split_ifs
  · exact length_le_restart _ _
  · exact le_rfl

end Length

/-! ## Steps and runs -/

/-- What the program has to do so that no store goes astray: take matches that fit, call `yyless`
only on text that is sealed at the position of the current buffer, and not free buffers. -/
def Careful (t : Tables) (s : Memory) : Call → Prop
  | .iterate => ∀ b ∈ s.current, ∀ m ∈ (s.top b).ahead t b, (s.top b).Fit b m
  | .less n => s.textActive = true ∧ s.yytext.isSome = true ∧
      ∀ b ∈ s.current, (s.yyleng - n).toNat ≤ (s.buf b).pos
  | .deleteBuffer _ | .popBufferState | .destroy => False
  | _ => True

section Step

variable {t : Tables} {nodefault : Bool} {eofRule : Nat → Bool} {s s' : Memory}

/-- What is current at the top of the loop stays so. -/
theorem Sound.top_lt (h : s.Sound) {b : Nat} (hb : s.current = some b) :
    b < (s.top b).heap.length :=
  (h.current_lt b hb).trans_le (length_le_top s b)

theorem Sound.leave (h : s.Sound) {returns : Bool} (hstep : s.leave returns = some s') : s'.Sound := by
  have hkeep : ∀ (offset : Int) (phase : Phase),
      ({ s with moreOffset := offset, phase := phase } : Memory).Sound :=
    fun _ _ ↦ h.of_heap_eq rfl h.current_lt rfl rfl rfl
  rw [Memory.leave] at hstep
  cases hphase : s.phase with
  | action =>
      rw [hphase] at hstep
      cases returns with
      | true => exact Option.some.inj hstep ▸ hkeep s.moreOffset .outside
      | false => exact Option.some.inj hstep ▸ hkeep _ .loopTop
  | eofAction =>
      rw [hphase] at hstep
      exact Option.some.inj hstep ▸ hkeep s.moreOffset .outside
  | outside | loopTop | exited =>
      rw [hphase] at hstep
      exact (Option.some_ne_none s' hstep.symm).elim

theorem Sound.callee (h : s.Sound) {c : Call} (hcan : s.CanCall c) (hc : s.Careful t c) :
    (s.callee c).Sound := by
  obtain ⟨-, -, hbuffer, hless⟩ := hcan
  have hexists : ∀ o : Option Nat, o.all (fun b ↦ b < s.heap.length) = true →
      ∀ b ∈ o, b < s.heap.length := by
    rintro o ho b rfl
    exact of_decide_eq_true ho
  cases c with
  | yylex | iterate | leave returns => exact h
  | begin c => exact h.of_heap_eq rfl h.current_lt rfl rfl rfl
  | more => exact h.of_heap_eq rfl h.current_lt rfl rfl rfl
  | less n =>
      obtain ⟨p, hp⟩ := Option.isSome_iff_exists.1 hc.2.1
      exact h.less hc.1 hp (of_decide_eq_true hless).2 hc.2.2
  | input => exact h.input
  | unput c => exact h.unput c
  | createBuffer file size => exact h.allocate (Space.Ok.create file size)
  | deleteBuffer b => exact hc.elim
  | flushBuffer b =>
      exact h.onBuffer (fun x hx ↦ hx.flush) fun x ↦
        ⟨rfl, (Space.length_store _ _ _).trans (Space.length_store _ _ _)⟩
  | switchToBuffer b => exact h.switchToBuffer (hexists b hbuffer)
  | pushBufferState b => exact h.pushBufferState (hexists b hbuffer)
  | popBufferState => exact hc.elim
  | scanBytes bytes => exact h.pushNew (Space.Ok.scanBytes bytes)
  | scanBuffer base => exact h.scanBuffer base
  | restart file => exact h.restart file
  | destroy => exact hc.elim

/-- **A careful step keeps the invariant.** -/
theorem Sound.step (h : s.Sound) {c : Call} (hc : s.Careful t c)
    (hstep : s.step t nodefault eofRule c = some s') : s'.Sound := by
  have hcall : ∀ c, s.Careful t c → (if s.CanCall c then some (s.callee c) else none) = some s' →
      s'.Sound := by
    intro c hc hs'
    split_ifs at hs' with hcan
    obtain rfl := Option.some.inj hs'
    exact h.callee hcan hc
  cases c with
  | yylex =>
      rw [Memory.step] at hstep
      split_ifs at hstep
      obtain rfl := Option.some.inj hstep
      exact h.enter
  | iterate =>
      rw [Memory.step] at hstep
      split_ifs at hstep
      obtain ⟨b, hb, rfl⟩ := Option.map_eq_some_iff.1 hstep
      exact (h.top b).scan t nodefault eofRule (h.top_lt hb) (hc b hb)
  | leave returns => exact h.leave hstep
  | _ => exact hcall _ hc hstep

/-- A careful run keeps the invariant. -/
theorem Sound.of_run {files : Nat → List (List Byte)}
    (hrun : Runs (Memory.step t nodefault eofRule) (Careful t) (Memory.fresh files) s) : s.Sound :=
  hrun.invariant (fun _ _ _ h hc hstep ↦ h.step hc hstep) (Sound.fresh files)

end Step

end Memory

end LexCpp
