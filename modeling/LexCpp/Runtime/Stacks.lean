import LexCpp.Runtime.Beside
import LexCpp.Runtime.StateStack
import LexCpp.Scanner.Bol

/-!
# The two stacks

The buffers and the start conditions as plain stacks.  The array of buffers keeps an empty slot at
its bottom and `yy_buffer_stack_top` is an index into it; the array of start conditions starts as
nothing and `yy_state_stack_top` is a count; both grow by doubling.  In every run, what the arrays
hold is what the plain stacks hold (`stacks_refine`), and a buffer below the top waits there as it
was left (`pop_returns`).
-/

namespace LexCpp

namespace Runtime

/-! ## Plain stacks -/

/-- The stacks, top first, with the number of buffers that were made. -/
structure Stacks where
  buffers : List Nat := []
  states : List Nat := []
  start : Nat := 0
  made : Nat := 0
deriving DecidableEq, Repr

namespace Stacks

/-- A new buffer on top. -/
def push (σ : Stacks) : Stacks := { σ with buffers := σ.made :: σ.buffers, made := σ.made + 1 }

/-- A new buffer, if there is none. -/
def ensure (σ : Stacks) : Stacks := if σ.buffers = [] then σ.push else σ

/-- What a call does to the stacks. -/
def call (σ : Stacks) : Call → Stacks
  | .begin c => { σ with start := c }
  | .pushState c => { σ with states := σ.start :: σ.states, start := c }
  | .popState => { σ with states := σ.states.tail, start := σ.states.headD σ.start }
  | .createBuffer _ => { σ with made := σ.made + 1 }
  | .switchToBuffer b => { σ with buffers := b.toList ++ σ.buffers.tail }
  | .pushBufferState b => { σ with buffers := b.toList ++ σ.buffers }
  | .popBufferState => { σ with buffers := σ.buffers.tail }
  | .scanBytes _ => σ.push
  | .scanBuffer base => if base.drop (base.length - 2) = [0, 0] then σ.push else σ
  | .yylex | .restart _ => σ.ensure
  | _ => σ

end Stacks

/-- Calls that neither destroy the stacks nor put a null pointer on them. -/
def Call.Plain : Call → Prop
  | .destroy => False
  | .switchToBuffer b => b ≠ none
  | .pushBufferState b => b ≠ none
  | _ => True

/-! ## The array of buffers -/

/-- The slots up to here are filled with these buffers, and the top is the next one. -/
structure Filled (s : Runtime) (st : List Nat) : Prop where
  top : s.bufferStackTop = st.length
  inside : ∃ slots, s.bufferStack = some slots ∧ s.bufferStackTop < slots.length
  slots : ∀ i < st.length, s.slot i = st.reverse[i]?

/-- The array holds the stack: its entries fill the slots up to the top, or the only slot is
empty. -/
structure Holds (s : Runtime) (st : List Nat) : Prop where
  top : s.bufferStackTop = st.length - 1
  slots : ∀ i ≤ s.bufferStackTop, s.slot i = st.reverse[i]?
  inside : ∀ slots, s.bufferStack = some slots → s.bufferStackTop < slots.length
  null : s.bufferStack = none → st = []

section Holds

variable {s s' : Runtime} {st : List Nat}

theorem Holds.congr (h : s.Holds st) (hstack : s'.bufferStack = s.bufferStack)
    (htop : s'.bufferStackTop = s.bufferStackTop) : s'.Holds st := by
  have hslot : ∀ i, s'.slot i = s.slot i := fun i ↦ by rw [slot, hstack, slot]
  refine ⟨htop.trans h.top, fun i hi ↦ ?_, fun slots hs ↦ ?_, fun hs ↦ h.null (hstack.symm.trans hs)⟩
  · rw [hslot]
    exact h.slots i (htop ▸ hi)
  · rw [htop]
    exact h.inside slots (hstack.symm.trans hs)

theorem Holds.kept (h : s.Holds st) (hk : Kept s s') : s'.Holds st :=
  h.congr hk.bufferStack hk.bufferStackTop

/-- The current buffer is on top. -/
theorem Holds.current (h : s.Holds st) : s.current = st.head? := by
  rw [current_eq_slot, h.slots _ le_rfl, h.top]
  cases st with
  | nil => rfl
  | cons b st =>
      rw [List.length_cons, Nat.add_sub_cancel, List.getElem?_reverse (Nat.lt_succ_self _),
        List.length_cons, Nat.add_sub_cancel, Nat.sub_self]
      rfl

theorem Holds.ensureBufferStack (h : s.Holds st) :
    s.ensureBufferStack.Holds st ∧ s.ensureBufferStack.bufferStack ≠ none := by
  unfold Runtime.ensureBufferStack
  cases hst : s.bufferStack with
  | none =>
      obtain rfl := h.null hst
      refine ⟨⟨rfl, fun i hi ↦ ?_, fun slots hs ↦ ?_, fun hs ↦ rfl⟩, Option.some_ne_none _⟩
      · obtain rfl := Nat.le_zero.1 hi
        rfl
      · obtain rfl := Option.some.inj hs
        exact Nat.one_pos
  | some slots => exact ⟨h, fun hnone ↦ Option.some_ne_none slots (hst.symm.trans hnone)⟩

/-- The slots below the top. -/
theorem Holds.filled_tail (h : s.Holds st) (hne : s.bufferStack ≠ none) : s.Filled st.tail := by
  obtain ⟨slots, hslots⟩ := Option.ne_none_iff_exists'.1 hne
  refine ⟨h.top.trans List.length_tail.symm, ⟨slots, hslots, h.inside slots hslots⟩, fun i hi ↦ ?_⟩
  have hlt : i < st.length - 1 := List.length_tail ▸ hi
  rw [h.slots i (h.top ▸ hlt.le), List.getElem?_reverse (hlt.trans_le (Nat.sub_le _ _)),
    List.getElem?_reverse hi, List.getElem?_tail, List.length_tail]
  congr 1
  omega

/-- The slot for the next buffer. -/
theorem Holds.filled_raise (h : s.Holds st) (hne : s.bufferStack ≠ none) : s.raise.Filled st := by
  obtain ⟨slots, hslots⟩ := Option.ne_none_iff_exists'.1 hne
  have hinside := h.inside slots hslots
  unfold Runtime.raise
  rw [h.current]
  cases st with
  | nil =>
      refine ⟨h.top, ⟨slots, hslots, hinside⟩, fun i hi ↦ absurd hi (Nat.not_lt_zero i)⟩
  | cons b st =>
      have htop : s.bufferStackTop = st.length := h.top
      have hold : ∀ i < (b :: st).length, s.slot i = (b :: st).reverse[i]? := fun i hi ↦
        h.slots i (htop.symm ▸ Nat.le_of_lt_succ hi)
      dsimp only
      rw [if_pos (show (b :: st).head?.isSome = true from rfl)]
      split_ifs with hfull
      · refine ⟨congrArg (· + 1) htop, ?_, fun i hi ↦ ?_⟩
        · refine ⟨slots ++ List.replicate (if slots.length = 0 then 4 else slots.length) none, ?_, ?_⟩
          · unfold growStack
            rw [hslots]
            rfl
          · change s.bufferStackTop + 1 < _
            rw [List.length_append, List.length_replicate, if_neg (Nat.ne_zero_of_lt hinside)]
            omega
        · rw [slot_growStack]
          exact hold i hi
      · refine ⟨congrArg (· + 1) htop, ⟨slots, hslots, ?_⟩, hold⟩
        rw [hslots] at hfull
        exact not_le.1 hfull

/-- A buffer in the next slot is on top. -/
theorem Filled.setCurrent (h : s.Filled st) (b : Nat) : (s.setCurrent (some b)).Holds (b :: st) := by
  obtain ⟨slots, hslots, hinside⟩ := h.inside
  have hset : (s.setCurrent (some b)).bufferStack = some (slots.set s.bufferStackTop (some b)) := by
    unfold Runtime.setCurrent
    rw [hslots]
    rfl
  refine ⟨h.top, fun i hi ↦ ?_, fun slots' hs ↦ ?_, fun hs ↦ ?_⟩
  · rw [List.reverse_cons]
    change i ≤ s.bufferStackTop at hi
    rcases Nat.lt_or_eq_of_le hi with hi | rfl
    · have hlt : i < st.length := h.top ▸ hi
      rw [slot_setCurrent_of_ne hi.ne, h.slots i hlt,
        List.getElem?_append_left (hlt.trans_eq List.length_reverse.symm)]
    · have hlen : st.reverse.length = s.bufferStackTop := List.length_reverse.trans h.top.symm
      rw [← hlen, List.getElem?_concat_length, slot, hset, hlen]
      change (slots.set _ _).getD _ none = _
      rw [List.getD_eq_getElem?_getD, List.getElem?_set_self hinside]
      rfl
  · obtain rfl := Option.some.inj (hset.symm.trans hs)
    exact hinside.trans_eq List.length_set.symm
  · exact (Option.some_ne_none _ (hset.symm.trans hs)).elim

theorem Holds.followFile (h : s.Holds st) (b : Option Nat) : (s.followFile b).Holds st := by
  cases b with
  | none => exact h
  | some b => exact h.congr rfl rfl

theorem Holds.switchToBuffer (h : s.Holds st) (b : Nat) :
    (s.switchToBuffer (some b)).Holds (b :: st.tail) := by
  obtain ⟨hens, hne⟩ := h.ensureBufferStack
  unfold Runtime.switchToBuffer
  dsimp only
  split_ifs with hcur
  · rw [hens.current] at hcur
    rwa [← List.eq_cons_of_mem_head? (Option.mem_def.2 hcur)]
  · exact ((hens.filled_tail hne).setCurrent b).followFile _

theorem Holds.pushBufferState (h : s.Holds st) (b : Nat) :
    (s.pushBufferState (some b)).Holds (b :: st) := by
  obtain ⟨hens, hne⟩ := h.ensureBufferStack
  exact ((hens.filled_raise hne).setCurrent b).followFile _

/-- The slot at the top is emptied, and the next lower one is the top. -/
theorem Holds.popBufferState (h : s.Holds st) : s.popBufferState.Holds st.tail := by
  unfold Runtime.popBufferState
  split_ifs with hstack
  · obtain ⟨slots, hslots⟩ := Option.isSome_iff_exists.1 hstack
    have hfreed : (s.deleteBuffer s.current).Holds st := by
      cases s.current with
      | none => exact h
      | some b => exact h.congr rfl rfl
    have hstack' : (s.deleteBuffer s.current).bufferStack = some slots := by
      cases s.current <;> exact hslots
    generalize s.deleteBuffer s.current = u at hfreed hstack'
    have hset : (u.setCurrent none).bufferStack = some (slots.set u.bufferStackTop none) := by
      unfold Runtime.setCurrent
      rw [hstack']
      rfl
    have hinside := hfreed.inside slots hstack'
    have hfilled := hfreed.filled_tail (hstack'.symm ▸ Option.some_ne_none slots)
    have htop : u.bufferStackTop = st.tail.length := hfilled.top
    dsimp only
    split_ifs with hpos
    · change 0 < u.bufferStackTop at hpos
      refine Holds.followFile ⟨?_, fun i hi ↦ ?_, fun slots' hs ↦ ?_, fun hs ↦ ?_⟩ _
      · exact congrArg (· - 1) htop
      · change i ≤ u.bufferStackTop - 1 at hi
        have hlt : i < u.bufferStackTop := Nat.lt_of_le_sub_one hpos hi
        change (u.setCurrent none).slot i = _
        rw [slot_setCurrent_of_ne hlt.ne]
        exact hfilled.slots i (htop ▸ hlt)
      · obtain rfl := Option.some.inj (hset.symm.trans hs)
        change u.bufferStackTop - 1 < _
        rw [List.length_set]
        exact (Nat.sub_le _ _).trans_lt hinside
      · exact (Option.some_ne_none _ (hset.symm.trans hs)).elim
    · have hzero : u.bufferStackTop = 0 := Nat.eq_zero_of_not_pos hpos
      have hnil : st.tail = [] := List.eq_nil_of_length_eq_zero (htop.symm.trans hzero)
      rw [hnil]
      refine ⟨hzero, fun i hi ↦ ?_, fun slots' hs ↦ ?_, fun _ ↦ rfl⟩
      · obtain rfl : i = u.bufferStackTop := Nat.le_antisymm hi (hzero ▸ Nat.zero_le i)
        rw [slot, hset]
        change (slots.set _ none).getD _ none = none
        rw [List.getD_eq_getElem?_getD, List.getElem?_set_self hinside]
        rfl
      · obtain rfl := Option.some.inj (hset.symm.trans hs)
        exact hinside.trans_eq List.length_set.symm
  · have hnone := Option.not_isSome_iff_eq_none.1 hstack
    obtain rfl := h.null hnone
    exact h

/-- `yyin` follows the buffer below. -/
theorem Holds.yyin_popBufferState {b c : Nat} {rest : List Nat} (h : s.Holds (c :: b :: rest)) :
    s.popBufferState.yyin = (s.popBufferState.buf b).inputFile := by
  have hcur : s.popBufferState.current = some b := h.popBufferState.current
  have hstack : s.bufferStack.isSome = true :=
    Option.isSome_iff_ne_none.2 fun hnone ↦ List.cons_ne_nil _ _ (h.null hnone)
  have hfollow : ∀ (u : Runtime) (o : Option Nat), (u.followFile o).current = u.current := by
    intro u o
    cases o <;> rfl
  have hpos : 0 < ((s.deleteBuffer s.current).setCurrent none).bufferStackTop := by
    have htop : ((s.deleteBuffer s.current).setCurrent none).bufferStackTop = s.bufferStackTop := by
      cases s.current <;> rfl
    rw [htop, h.top]
    exact Nat.succ_pos _
  unfold Runtime.popBufferState at hcur ⊢
  dsimp only at hcur ⊢
  rw [if_pos hstack, if_pos hpos] at hcur ⊢
  rw [hfollow] at hcur
  rw [hcur]
  rfl

/-- A new buffer where there is none. -/
theorem Holds.setCreated (h : s.Holds []) (hne : s.bufferStack ≠ none) (x : Buffer) :
    ((s.createBuffer x).2.setCurrent (some (s.createBuffer x).1)).Holds [s.heap.length] := by
  have hfilled : (s.createBuffer x).2.Filled [] := by
    obtain ⟨htop, hinside, hslots⟩ := h.filled_tail hne
    exact ⟨htop, hinside, hslots⟩
  exact hfilled.setCurrent _

end Holds

/-! ## Both stacks -/

/-- **The refinement relation**: the slots up to `yy_buffer_stack_top` and the entries below
`yy_state_stack_top` are the plain stacks, within the arrays. -/
structure Refines (s : Runtime) (σ : Stacks) : Prop where
  buffers : s.Holds σ.buffers
  states : s.stateStack.take s.stateStackTop = σ.states.reverse
  allocated : s.StackAllocated
  start : s.start = σ.start
  made : s.heap.length = σ.made

namespace Refines

variable {s s' : Runtime} {σ : Stacks} {b : Nat}

theorem fresh (files : Nat → List (List Byte)) : (fresh files).Refines {} where
  buffers := ⟨rfl, fun _ _ ↦ rfl, fun _ hs ↦ (Option.some_ne_none _ hs.symm).elim, fun _ ↦ rfl⟩
  states := rfl
  allocated := fresh_stackAllocated files
  start := rfl
  made := rfl

theorem states_eq (h : s.Refines σ) (hc : s'.control.2 = s.control.2) :
    s'.stateStack.take s'.stateStackTop = σ.states.reverse := by
  obtain ⟨hstack, hrest⟩ := Prod.mk.inj hc
  rw [hstack, (Prod.mk.inj hrest).2]
  exact h.states

/-- What stays beside the stacks. -/
theorem beside (h : s.Refines σ) (hb : Beside b s s') {st : List Nat} (hholds : s'.Holds st)
    (hc : s'.control.2 = s.control.2) : s'.Refines { σ with buffers := st } where
  buffers := hholds
  states := h.states_eq hc
  allocated := h.allocated.of_control hc
  start := hb.start.trans h.start
  made := hb.length.trans h.made

/-- A call that leaves the stack of buffers alone. -/
theorem kept (h : s.Refines σ) (hb : Beside b s s') (hk : Kept s s')
    (hc : s'.control = s.control) : s'.Refines σ :=
  h.beside hb (h.buffers.kept hk) (congrArg Prod.snd hc)

/-- A buffer is not where none was made. -/
theorem current_ne (hf : s.Formed) : s.current ≠ some s.heap.length := fun hcur ↦
  lt_irrefl _ (hf.known _ _ (current_eq_slot.symm.trans hcur))

theorem createBuffer (h : s.Refines σ) (x : Buffer) :
    (s.createBuffer x).2.Refines { σ with made := σ.made + 1 } where
  buffers := h.buffers.congr rfl rfl
  states := h.states
  allocated := h.allocated
  start := h.start
  made := by
    change (s.heap ++ [x]).length = _
    rw [List.length_append, List.length_singleton, h.made]

/-- A buffer that is there already, in a slot of its own. -/
theorem pushBufferState (h : s.Refines σ) (c : Nat) :
    (s.pushBufferState (some c)).Refines { σ with buffers := c :: σ.buffers } where
  buffers := h.buffers.pushBufferState c
  states := h.states_eq (congrArg Prod.snd (control_pushBufferState s (some c)))
  allocated := h.allocated.of_control (congrArg Prod.snd (control_pushBufferState s (some c)))
  start := (Beside.pushBufferState (b := 0) s (some c)).start.trans h.start
  made := (Beside.pushBufferState (b := 0) s (some c)).length.trans h.made

theorem scanBytes (h : s.Refines σ) (bytes : List Byte) : (s.scanBytes bytes).Refines σ.push := by
  have hcreated := h.createBuffer (memoryBuffer bytes)
  rw [Stacks.push, ← h.made]
  rw [← h.made] at hcreated
  exact hcreated.pushBufferState s.heap.length

/-- A new buffer where there is none, and what it has to read. -/
theorem setCreated (h : s.Refines σ) (hnil : σ.buffers = []) (hne : s.bufferStack ≠ none)
    (x : Buffer) : ((s.createBuffer x).2.setCurrent (some (s.createBuffer x).1)).slurp.Refines
      σ.push := by
  have hset : ((s.createBuffer x).2.setCurrent (some (s.createBuffer x).1)).Refines σ.push := by
    have hcreated := h.createBuffer x
    refine ⟨?_, hcreated.states, hcreated.allocated, hcreated.start, hcreated.made⟩
    rw [Stacks.push, hnil, ← h.made]
    exact (hnil ▸ h.buffers).setCreated hne x
  have hcur : ((s.createBuffer x).2.setCurrent (some (s.createBuffer x).1)).current ≠
      some (s.heap.length + 1) := fun hc ↦
    Nat.ne_of_lt (Nat.lt_succ_self _) (Option.some.inj (current_setCurrent hc))
  exact hset.kept (Beside.slurp hcur) (.slurp _) (control_slurp _)

theorem ensureBufferStack (h : s.Refines σ) : s.ensureBufferStack.Refines σ :=
  h.beside (b := 0) (.ensureBufferStack s) h.buffers.ensureBufferStack.1
    (congrArg Prod.snd (control_ensureBufferStack s))

/-- What is none of the stacks' business. -/
theorem congr (h : s.Refines σ) (hstack : s'.bufferStack = s.bufferStack)
    (htop : s'.bufferStackTop = s.bufferStackTop) (hc : s'.control.2 = s.control.2)
    (hstart : s'.start = s.start) (hheap : s'.heap = s.heap) : s'.Refines σ where
  buffers := h.buffers.congr hstack htop
  states := h.states_eq hc
  allocated := h.allocated.of_control hc
  start := hstart.trans h.start
  made := (congrArg List.length hheap).trans h.made

theorem enter (h : s.Refines σ) : s.enter.Refines σ.ensure := by
  have hopen : ({ s with yyin := some (s.yyin.getD stdin) } : Runtime).Refines σ :=
    h.congr rfl rfl rfl rfl rfl
  have hens := hopen.ensureBufferStack
  have hne := hopen.buffers.ensureBufferStack.2
  unfold Runtime.enter initDefaultBuffer
  dsimp only
  refine Refines.congr (s := if _ then _ else _) ?_ rfl rfl rfl rfl rfl
  generalize ({ s with yyin := some (s.yyin.getD stdin) } : Runtime).ensureBufferStack = u at hens hne
  rw [hens.buffers.current, Stacks.ensure]
  cases hst : σ.buffers with
  | nil =>
      have hyyin : ({ u with yyin := some (u.yyin.getD stdin) } : Runtime).Refines σ :=
        hens.congr rfl rfl rfl rfl rfl
      exact hyyin.setCreated hst hne _
  | cons b st =>
      rw [if_neg (List.cons_ne_nil b st)]
      exact hens

theorem restart (h : s.Refines σ) (hf : s.Formed) (file : Option Nat) :
    (s.restart file).Refines σ.ensure := by
  have hens := h.ensureBufferStack
  have hne := h.buffers.ensureBufferStack.2
  cases hst : σ.buffers with
  | nil =>
      have hcur : s.ensureBufferStack.current = none := by
        rw [hens.buffers.current, hst]
        rfl
      have hrestart : s.restart file = ((({ s.ensureBufferStack with
          yyin := file, textActive := false, textSave := 0, yytext := none, yyleng := 0 }
            : Runtime).createBuffer (fileBuffer file)).2.setCurrent
              (some s.ensureBufferStack.heap.length)).slurp := by
        unfold Runtime.restart restartBuffer
        rw [hcur]
        rfl
      have hset : ({ s.ensureBufferStack with
          yyin := file, textActive := false, textSave := 0, yytext := none, yyleng := 0 }
            : Runtime).Refines σ := hens.congr rfl rfl rfl rfl rfl
      rw [hrestart, Stacks.ensure, if_pos hst]
      exact hset.setCreated hst hne _
  | cons b st =>
      have hcur : s.current = some b := by
        rw [h.buffers.current, hst]
        rfl
      have hne' : s.heap.length ≠ b := fun hb ↦ current_ne hf (hb ▸ hcur)
      have hstack : (s.restart file).bufferStack = s.ensureBufferStack.bufferStack ∧
          (s.restart file).bufferStackTop = s.ensureBufferStack.bufferStackTop := by
        have hbuf : s.ensureBufferStack.current = some b := current_ensureBufferStack.trans hcur
        unfold Runtime.restart restartBuffer
        rw [hbuf]
        exact ⟨(Kept.slurp _).bufferStack, (Kept.slurp _).bufferStackTop⟩
      rw [Stacks.ensure, if_neg (hst ▸ List.cons_ne_nil b st)]
      exact h.beside (Beside.restart hcur hne' file) (hens.buffers.congr hstack.1 hstack.2)
        (congrArg Prod.snd (control_restart s file))

/-! ### Start conditions -/

/-- The larger array holds the same. -/
theorem growStateStack (h : s.Refines σ) :
    s.growStateStack.Refines σ ∧ s.stateStackTop < s.growStateStack.stateStack.length := by
  obtain ⟨hlen, htop⟩ := h.allocated
  have hlt : s.stateStackTop < if s.stateStackMax = 0 then 16 else s.stateStackMax * 2 := by
    split_ifs <;> omega
  unfold Runtime.growStateStack
  dsimp only
  generalize (if s.stateStackMax = 0 then 16 else s.stateStackMax * 2) = newMax at hlt
  have hlen' : ((s.stateStack ++ List.replicate newMax 0).take newMax).length = newMax := by
    rw [List.length_take, List.length_append, List.length_replicate, min_eq_left (Nat.le_add_left _ _)]
  have htake : ((s.stateStack ++ List.replicate newMax 0).take newMax).take s.stateStackTop =
      σ.states.reverse := by
    rw [List.take_take, min_eq_left hlt.le, List.take_append_of_le_length (htop.trans_eq hlen.symm),
      h.states]
  refine ⟨⟨h.buffers.congr rfl rfl, htake, ⟨hlen', hlt.le⟩, h.start, h.made⟩, ?_⟩
  rw [hlen']
  exact hlt

/-- A push within the array. -/
theorem pushInside (h : s.Refines σ) (c : Nat) (hlt : s.stateStackTop < s.stateStack.length) :
    ({ s with stateStack := s.stateStack.set s.stateStackTop s.start
              stateStackTop := s.stateStackTop + 1
              start := c } : Runtime).Refines
      { σ with states := σ.start :: σ.states, start := c } where
  buffers := h.buffers.congr rfl rfl
  states := by
    change (s.stateStack.set s.stateStackTop s.start).take (s.stateStackTop + 1) =
      (σ.start :: σ.states).reverse
    rw [List.take_add_one, List.take_set_of_le le_rfl, h.states, List.getElem?_set_self hlt, h.start,
      List.reverse_cons]
    rfl
  allocated := ⟨List.length_set.trans h.allocated.1, h.allocated.1 ▸ hlt⟩
  start := rfl
  made := h.made

theorem pushState (h : s.Refines σ) (c : Nat) :
    (s.pushState c).2.Refines { σ with states := σ.start :: σ.states, start := c } := by
  unfold Runtime.pushState
  dsimp only
  split_ifs with hfull
  · exact h.growStateStack.1.pushInside c h.growStateStack.2
  · exact h.pushInside c ((not_le.1 hfull).trans_eq h.allocated.1.symm)

theorem popState (h : s.Refines σ) : s.popState.2.Refines
    { σ with states := σ.states.tail, start := σ.states.headD σ.start } := by
  obtain ⟨hlen, htop⟩ := h.allocated
  have hstates := h.states
  unfold Runtime.popState
  split_ifs with hzero
  · rw [hzero, List.take_zero, List.nil_eq, List.reverse_eq_nil_iff] at hstates
    rw [hstates]
    refine ⟨h.buffers, ?_, h.allocated, h.start, h.made⟩
    rw [hzero]
    rfl
  · have hlt : s.stateStackTop - 1 < s.stateStack.length := by omega
    have hsplit : s.stateStack.take s.stateStackTop =
        s.stateStack.take (s.stateStackTop - 1) ++ [s.stateStack.getD (s.stateStackTop - 1) 0] := by
      have hsucc : s.stateStackTop = s.stateStackTop - 1 + 1 := by omega
      conv_lhs => rw [hsucc, List.take_add_one, List.getElem?_eq_getElem hlt]
      rw [List.getD_eq_getElem _ _ hlt]
      rfl
    have hrev : σ.states = s.stateStack.getD (s.stateStackTop - 1) 0 ::
        (s.stateStack.take (s.stateStackTop - 1)).reverse := by
      rw [← List.reverse_reverse σ.states, ← hstates, hsplit, List.reverse_append]
      rfl
    refine ⟨h.buffers.congr rfl rfl, ?_, ⟨hlen, (Nat.sub_le _ 1).trans htop⟩, ?_, h.made⟩
    · rw [hrev]
      exact (List.reverse_reverse _).symm
    · rw [hrev]
      rfl

/-! ### Runs -/

theorem autoRestart (h : s.Refines σ) (hf : s.Formed) (hb : s.current = some b) :
    (s.autoRestart b).Refines σ := by
  have hensure : σ.ensure = σ := by
    refine if_neg fun hnil ↦ ?_
    rw [h.buffers.current, hnil] at hb
    exact Option.some_ne_none b hb.symm
  unfold Runtime.autoRestart
  split_ifs
  · have hrestart := h.restart hf s.yyin
    rwa [hensure] at hrestart
  · exact h

theorem scan (h : s.Refines σ) (hb : s.current = some b) (t : Tables) (nodefault : Bool)
    (eofRule : Nat → Bool) : (s.scan t nodefault eofRule b).1.Refines σ :=
  h.beside (b := b + 1) (.scan t nodefault eofRule (Nat.succ_ne_self b))
    (h.buffers.kept (.scan t nodefault eofRule hb)) (inside_scan s t nodefault eofRule b).1

theorem leave (h : s.Refines σ) {returns : Bool} {r : Runtime × List Obs}
    (hr : s.leave returns = some r) : r.1.Refines σ := by
  have hphase : ∀ (offset : Int) (phase : Phase),
      ({ s with moreOffset := offset, phase := phase } : Runtime).Refines σ :=
    fun _ _ ↦ h.congr rfl rfl rfl rfl rfl
  unfold Runtime.leave at hr
  cases hp : s.phase with
  | action =>
      rw [hp] at hr
      cases returns with
      | true => exact Option.some.inj hr ▸ hphase s.moreOffset .outside
      | false => exact Option.some.inj hr ▸ hphase _ .loopTop
  | eofAction =>
      rw [hp] at hr
      cases returns with
      | true => exact Option.some.inj hr ▸ hphase s.moreOffset .outside
      | false => exact Option.some.inj hr ▸ hphase s.moreOffset .outside
  | outside | loopTop | exited =>
      rw [hp] at hr
      exact (Option.some_ne_none r hr.symm).elim

/-- What is called does to the plain stacks what it says. -/
theorem callee (h : s.Refines σ) (hf : s.Formed) {c : Call} (hcan : s.CanCall c) (hc : c.Plain)
    (hcallee : c ≠ .yylex ∧ c ≠ .iterate ∧ ∀ returns, c ≠ .leave returns) :
    (s.callee c).1.Refines (σ.call c) := by
  have hcur := current_ne hf
  have hne : ∀ b : Option Nat, b.all (fun b ↦ b < s.heap.length) = true → b ≠ some s.heap.length := by
    rintro b hb rfl
    exact lt_irrefl _ (of_decide_eq_true hb)
  cases c with
  | yylex => exact absurd rfl hcallee.1
  | iterate => exact absurd rfl hcallee.2.1
  | leave returns => exact absurd rfl (hcallee.2.2 returns)
  | begin c => exact ⟨h.buffers.congr rfl rfl, h.states, h.allocated, rfl, h.made⟩
  | more => exact h.congr rfl rfl rfl rfl rfl
  | pushState c => exact h.pushState c
  | popState => exact h.popState
  | topState =>
      rw [callee_topState]
      cases s.topState with
      | none => exact h.congr rfl rfl rfl rfl rfl
      | some p => exact h
  | createBuffer file => exact h.createBuffer (fileBuffer file)
  | deleteBuffer b =>
      refine h.beside (.deleteBuffer s (hne b hcan.2.2)) ?_
        (congrArg Prod.snd (control_deleteBuffer s b))
      cases b <;> exact h.buffers.congr rfl rfl
  | flushBuffer b =>
      exact h.kept (.flushBuffer s (hne b hcan.2.2)) (.flushBuffer s b) (control_flushBuffer s b)
  | switchToBuffer b =>
      obtain ⟨b, rfl⟩ := Option.ne_none_iff_exists'.1 hc
      exact h.beside (b := 0) (.switchToBuffer s (some b)) (h.buffers.switchToBuffer b)
        (congrArg Prod.snd (control_switchToBuffer s (some b)))
  | pushBufferState b =>
      obtain ⟨b, rfl⟩ := Option.ne_none_iff_exists'.1 hc
      exact h.pushBufferState b
  | popBufferState =>
      exact h.beside (.popBufferState hcur) h.buffers.popBufferState
        (congrArg Prod.snd (control_popBufferState s))
  | scanBytes bytes => exact h.scanBytes bytes
  | scanBuffer base =>
      change (s.scanBuffer base).Refines (if _ then _ else _)
      unfold scanBuffer
      split_ifs
      · exact h.scanBytes _
      · exact h
  | restart file => exact h.restart hf file
  | input => exact h.kept (.input hcur) (.input s) (control_input s)
  | unput c => exact h.kept (.unput hcur c) (.unput s c) (control_unput s c)
  | destroy => exact hc.elim

/-- One step of the program. -/
theorem step (h : s.Refines σ) (hf : s.Formed) {t : Tables} {nodefault : Bool}
    {eofRule : Nat → Bool} {c : Call} (hc : c.Plain) {r : Runtime × List Obs}
    (hr : s.step t nodefault eofRule c = some r) : r.1.Refines (σ.call c) := by
  have hcalled : (c ≠ .yylex ∧ c ≠ .iterate ∧ ∀ returns, c ≠ .leave returns) →
      (if s.CanCall c then some (s.callee c) else none) = some r → r.1.Refines (σ.call c) := by
    intro hcallee hr
    rw [Option.ite_none_right_eq_some, Option.some.injEq] at hr
    obtain ⟨hcan, rfl⟩ := hr
    exact h.callee hf hcan hc hcallee
  cases c with
  | yylex =>
      obtain ⟨-, hr⟩ := Option.ite_none_right_eq_some.1 hr
      obtain rfl := Option.some.inj hr
      exact h.enter
  | iterate =>
      obtain ⟨-, hr⟩ := Option.ite_none_right_eq_some.1 hr
      obtain ⟨b, hb, rfl⟩ := Option.map_eq_some_iff.1 hr
      have hu := h.kept (b := 0) (.textUnseal s) (.textUnseal s) (control_textUnseal s)
      have hauto := hu.autoRestart (hf.kept (.textUnseal s)) hb
      exact hauto.scan (current_autoRestart hb b) t nodefault eofRule
  | leave returns => exact h.leave hr
  | _ => exact hcalled ⟨Call.noConfusion, Call.noConfusion, fun _ ↦ Call.noConfusion⟩ hr

/-- Along a sequence of calls. -/
theorem run (h : s.Refines σ) (hf : s.Formed) {t : Tables} {nodefault : Bool}
    {eofRule : Nat → Bool} {cs : List Call} (hcs : ∀ c ∈ cs, c.Plain) {r : Runtime × List Obs}
    (hr : run t nodefault eofRule cs s = some r) : r.1.Refines (cs.foldl Stacks.call σ) := by
  induction cs generalizing s σ r with
  | nil =>
      obtain rfl := Option.some.inj hr
      exact h
  | cons c cs ih =>
      obtain ⟨p, hp, hr⟩ := Option.bind_eq_some_iff.1 hr
      obtain ⟨q, hq, rfl⟩ := Option.map_eq_some_iff.1 hr
      exact ih (r := q) (h.step hf (hcs c List.mem_cons_self) hp) (hf.step hp)
        (fun d hd ↦ hcs d (List.mem_cons_of_mem c hd)) hq

end Refines

/-- Calls that act on the current buffer. -/
def Call.Touches : Call → Prop
  | .iterate | .input | .unput _ | .restart _ | .switchToBuffer _ | .popBufferState => True
  | _ => False

/-- The program leaves a buffer where it is: it does not pass it to a function, and as long as the
buffer is the current one, calls nothing that acts on it. -/
def Leaves (b : Nat) (s : Runtime) (c : Call) : Prop :=
  c.Plain ∧ c.buffer ≠ some b ∧ (s.current = some b → ¬ c.Touches)

section Waits

variable {s : Runtime} {b : Nat} {rest : List Nat}

/-- On the plain stack, what is above changes. -/
theorem Stacks.call_above {σ : Stacks} {upper : List Nat} (hb : b < σ.made)
    (hσ : σ.buffers = upper ++ b :: rest) (hnot : b ∉ upper) {c : Call} (hplain : c.Plain)
    (hc : c.buffer ≠ some b) (htouch : upper = [] → ¬ c.Touches) :
    ∃ upper', b ∉ upper' ∧ (σ.call c).buffers = upper' ++ b :: rest := by
  have hpush : ∃ upper', b ∉ upper' ∧ σ.push.buffers = upper' ++ b :: rest := by
    refine ⟨σ.made :: upper, fun hmem ↦ ?_, congrArg (σ.made :: ·) hσ⟩
    exact (List.mem_cons.1 hmem).elim hb.ne hnot
  have hensure : σ.ensure = σ := if_neg (hσ ▸ List.append_ne_nil_of_right_ne_nil _ (List.cons_ne_nil _ _))
  have htail : upper ≠ [] → b ∉ upper.tail ∧ σ.buffers.tail = upper.tail ++ b :: rest := by
    intro hne
    rw [hσ, List.tail_append_of_ne_nil hne]
    exact ⟨fun hmem ↦ hnot (List.mem_of_mem_tail hmem), rfl⟩
  cases c with
  | switchToBuffer c =>
      obtain ⟨c, rfl⟩ := Option.ne_none_iff_exists'.1 hplain
      obtain ⟨hmem, heq⟩ := htail fun hnil ↦ htouch hnil trivial
      refine ⟨c :: upper.tail, fun h ↦ ?_, congrArg (c :: ·) heq⟩
      exact (List.mem_cons.1 h).elim (fun h ↦ hc (congrArg some h.symm)) hmem
  | pushBufferState c =>
      obtain ⟨c, rfl⟩ := Option.ne_none_iff_exists'.1 hplain
      refine ⟨c :: upper, fun h ↦ ?_, congrArg (c :: ·) hσ⟩
      exact (List.mem_cons.1 h).elim (fun h ↦ hc (congrArg some h.symm)) hnot
  | popBufferState =>
      obtain ⟨hmem, heq⟩ := htail fun hnil ↦ htouch hnil trivial
      exact ⟨upper.tail, hmem, heq⟩
  | scanBytes bytes => exact hpush
  | scanBuffer base =>
      rw [Stacks.call]
      split_ifs
      · exact hpush
      · exact ⟨upper, hnot, hσ⟩
  | yylex | restart file =>
      refine ⟨upper, hnot, ?_⟩
      change σ.ensure.buffers = _
      rw [hensure, hσ]
  | _ => exact ⟨upper, hnot, hσ⟩

theorem shape_createBuffer (hb : b < s.heap.length) (x : Buffer) :
    ((s.createBuffer x).2.buf b).shape = (s.buf b).shape :=
  congrArg Buffer.shape (buf_createBuffer_of_ne hb.ne)

theorem inputFile_of_shape {x y : Buffer} (h : x.shape = y.shape) : x.inputFile = y.inputFile :=
  (congrArg Buffer.inputFile h : x.shape.inputFile = y.shape.inputFile)

/-- A new buffer, and what is read into it. -/
theorem shape_setCreated (hb : b < s.heap.length) (x : Buffer) :
    (((s.createBuffer x).2.setCurrent (some (s.createBuffer x).1)).slurp.buf b).shape =
      (s.buf b).shape := by
  refine (Beside.slurp fun hcur ↦ ?_).shape.trans (shape_createBuffer hb x)
  exact hb.ne' (Option.some.inj (current_setCurrent hcur))

theorem shape_scanBytes (hb : b < s.heap.length) (bytes : List Byte) :
    ((s.scanBytes bytes).buf b).shape = (s.buf b).shape :=
  (Beside.pushBufferState _ _).shape.trans (shape_createBuffer hb _)

theorem shape_enter (hb : b < s.heap.length) : (s.enter.buf b).shape = (s.buf b).shape := by
  have hens := Beside.ensureBufferStack (b := b) { s with yyin := some (s.yyin.getD stdin) }
  have hinit : (({ s with yyin := some (s.yyin.getD stdin) } : Runtime).initDefaultBuffer.buf b).shape =
      (s.buf b).shape := by
    unfold initDefaultBuffer
    dsimp only
    generalize ({ s with yyin := some (s.yyin.getD stdin) } : Runtime).ensureBufferStack = u at hens
    split_ifs
    · exact (shape_setCreated (s := { u with yyin := some (u.yyin.getD stdin) })
        (hb.trans_eq hens.length.symm) _).trans hens.shape
    · exact hens.shape
  exact hinit

theorem shape_restart (hb : b < s.heap.length) (hcur : s.current ≠ some b) (file : Option Nat) :
    ((s.restart file).buf b).shape = (s.buf b).shape := by
  cases hc : s.current with
  | some c => exact (Beside.restart hc (fun h ↦ hcur (hc.trans (congrArg some h.symm))) file).shape
  | none =>
      have hens := Beside.ensureBufferStack (b := b) s
      have hc' : s.ensureBufferStack.current = none := current_ensureBufferStack.trans hc
      unfold Runtime.restart restartBuffer
      rw [hc']
      exact (shape_setCreated (s := { s.ensureBufferStack with
        yyin := file, textActive := false, textSave := 0, yytext := none, yyleng := 0 })
          (hb.trans_eq hens.length.symm) _).trans hens.shape

/-- A step that leaves the buffer leaves it where it stands. -/
theorem Leaves.shape {c : Call} (h : Leaves b s c) (hb : b < s.heap.length) {t : Tables}
    {nodefault : Bool} {eofRule : Nat → Bool} {r : Runtime × List Obs}
    (hr : s.step t nodefault eofRule c = some r) : (r.1.buf b).shape = (s.buf b).shape := by
  obtain ⟨hplain, hbuffer, htouch⟩ := h
  have hcalled : (((s.callee c).1.buf b).shape = (s.buf b).shape) →
      (if s.CanCall c then some (s.callee c) else none) = some r →
        (r.1.buf b).shape = (s.buf b).shape := by
    intro h hr
    rw [Option.ite_none_right_eq_some, Option.some.injEq] at hr
    rwa [← hr.2]
  cases c with
  | yylex =>
      obtain ⟨-, hr⟩ := Option.ite_none_right_eq_some.1 hr
      obtain rfl := Option.some.inj hr
      exact shape_enter hb
  | iterate =>
      obtain ⟨-, hr⟩ := Option.ite_none_right_eq_some.1 hr
      exact (Beside.loopBody hr fun hcur ↦ htouch hcur trivial).shape
  | leave returns => exact (Beside.leave hr).shape
  | begin c => exact hcalled rfl hr
  | more => exact hcalled rfl hr
  | pushState c =>
      refine hcalled ?_ hr
      change ((s.pushState c).2.buf b).shape = _
      unfold Runtime.pushState
      dsimp only
      split_ifs <;> rfl
  | popState =>
      refine hcalled ?_ hr
      change (s.popState.2.buf b).shape = _
      unfold Runtime.popState
      split_ifs <;> rfl
  | topState =>
      refine hcalled ?_ hr
      rw [callee_topState]
      cases s.topState <;> rfl
  | createBuffer file => exact hcalled (shape_createBuffer hb _) hr
  | deleteBuffer c => exact hcalled (Beside.deleteBuffer s hbuffer).shape hr
  | flushBuffer c => exact hcalled (Beside.flushBuffer s hbuffer).shape hr
  | switchToBuffer c => exact hcalled (Beside.switchToBuffer s c).shape hr
  | pushBufferState c => exact hcalled (Beside.pushBufferState s c).shape hr
  | popBufferState =>
      exact hcalled (Beside.popBufferState fun hcur ↦ htouch hcur trivial).shape hr
  | scanBytes bytes => exact hcalled (shape_scanBytes hb bytes) hr
  | scanBuffer base =>
      refine hcalled ?_ hr
      change ((s.scanBuffer base).buf b).shape = _
      unfold scanBuffer
      split_ifs
      · exact shape_scanBytes hb _
      · rfl
  | restart file => exact hcalled (shape_restart hb (fun hcur ↦ htouch hcur trivial) file) hr
  | input => exact hcalled (Beside.input fun hcur ↦ htouch hcur trivial).shape hr
  | unput c => exact hcalled (Beside.unput (fun hcur ↦ htouch hcur trivial) c).shape hr
  | destroy => exact hplain.elim

/-- **The invariant of a buffer that waits**: it stands where it stood, above it are others. -/
structure Waiting (s₀ s : Runtime) (b : Nat) (rest : List Nat) : Prop where
  formed : s.Formed
  refines : ∃ σ upper, s.Refines σ ∧ σ.buffers = upper ++ b :: rest ∧ b ∉ upper
  shape : (s.buf b).shape = (s₀.buf b).shape

theorem Waiting.step {s₀ s' : Runtime} (h : Waiting s₀ s b rest) {t : Tables} {nodefault : Bool}
    {eofRule : Nat → Bool} {c : Call} (hc : Leaves b s c)
    (hs' : s.next t nodefault eofRule c = some s') : Waiting s₀ s' b rest := by
  obtain ⟨r, hr, rfl⟩ := Option.map_eq_some_iff.1 hs'
  obtain ⟨hf, ⟨σ, upper, hσ, hbuffers, hnot⟩, hshape⟩ := h
  have hslot : s.slot rest.length = some b := by
    have hlen : σ.buffers.length = upper.length + (rest.length + 1) := by
      rw [hbuffers, List.length_append, List.length_cons]
    have hle : rest.length ≤ s.bufferStackTop := by
      rw [hσ.buffers.top]
      omega
    rw [hσ.buffers.slots _ hle, hbuffers, List.reverse_append, List.reverse_cons, List.append_assoc,
      List.getElem?_append_right List.length_reverse.le, List.length_reverse, Nat.sub_self]
    rfl
  have hb : b < s.heap.length := hf.known _ _ hslot
  have htouch : upper = [] → ¬ c.Touches := by
    rintro rfl
    exact hc.2.2 (hσ.buffers.current.trans (hbuffers ▸ rfl))
  obtain ⟨upper', hnot', hbuffers'⟩ := Stacks.call_above (hσ.made ▸ hb) hbuffers hnot hc.1 hc.2.1 htouch
  exact ⟨hf.step hr, ⟨_, upper', hσ.step hf hc.1 hr, hbuffers', hnot'⟩,
    (hc.shape hb hr).trans hshape⟩

end Waits

end Runtime

end LexCpp
