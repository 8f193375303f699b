import LexCpp.Scanner.Lexer

/-!
# Buffers in memory

`struct yy_buffer_state` with the allocation that `yyb_data` points to, and the functions that
write into it.  Every store is logged with whether it is inside the allocation, and every call
of `yyrealloc` and `yyfree` on it with whether the memory is the runtime's own.

Memory that `yyalloc` or `yyrealloc` hands out is taken to be zero: no byte of it is read
before it is written.
-/

namespace LexCpp

inductive Access where
  | write (inside : Bool)
  | realloc (ours : Bool)
  | free (ours : Bool)
deriving DecidableEq, Repr

/-- `struct yy_buffer_state`.  `moves` counts the allocations that `yyb_data` has left, so that
a pointer into one of them can be told from one into the present one. -/
structure Space where
  inputFile : Option Nat := none
  data : List Byte := []
  size : Nat := 0
  pos : Nat := 0
  bufEnd : Nat := 0
  atBol : Bool := true
  done : Bool := false
  ours : Bool := true
  moves : Nat := 0
  log : List Access := []
deriving DecidableEq, Repr

namespace Space

/-- `YY_BUF_SIZE` -/
def bufSize : Nat := 16384

/-- A difference of `size_t` values. -/
def sizeSub (a b : Nat) : Nat := if b ≤ a then a - b else a + 18446744073709551616 - b

/-! ## Loads and stores -/

def load (i : Int) (x : Space) : Byte := if 0 ≤ i then x.data.getD i.toNat 0 else 0

def store (i : Int) (c : Byte) (x : Space) : Space :=
  { x with
    data := if 0 ≤ i then x.data.set i.toNat c else x.data
    log := x.log ++ [.write (0 ≤ i ∧ i < x.data.length)] }

/-- The stores of `memcpy`, `memmove` or `fread`. -/
def blit (i : Nat) (bs : List Byte) (x : Space) : Space :=
  { x with
    data := if i + bs.length ≤ x.data.length then
        x.data.take i ++ bs ++ x.data.drop (i + bs.length)
      else x.data
    log := x.log ++ [.write (i + bs.length ≤ x.data.length)] }

/-- The two NULs at the end. -/
def terminate (x : Space) : Space := (x.store x.bufEnd 0).store (x.bufEnd + 1) 0

/-! ## The functions -/

/-- The loop `while (s < want) s *= 2` of `yy_buf_grow`. -/
def doubleLoop : Nat → Nat → Nat → Nat
  | 0, s, _ => s
  | n + 1, s, want => if s < want then doubleLoop n (s * 2) want else s

/-- The size that `yy_buf_grow` comes to. -/
def grownSize (size want : Nat) : Nat := doubleLoop want (if size = 0 then 4096 else size) want

/-- `yyrealloc` on the allocation. -/
def realloc (n : Nat) (x : Space) : Space :=
  { x with
    data := x.data.take n ++ List.replicate (n - x.data.length) 0
    moves := x.moves + 1
    log := x.log ++ [.realloc x.ours] }

/-- `yy_buf_grow` -/
def grow (want : Nat) (x : Space) : Space :=
  if want ≤ x.size then x
  else
    let s := grownSize x.size want
    { x.realloc (s + 2) with size := s }.terminate

/-- `yy_create_buffer` -/
def create (file : Option Nat) (size : Int) : Space :=
  let n := if 0 < size then size.toNat else bufSize
  let x : Space := { inputFile := file, data := List.replicate (n + 2) 0, size := n }
  (x.store 0 0).store 1 0

/-- `yyfree` on the memory, if it is the runtime's own. -/
def delete (x : Space) : Space :=
  if x.ours then { x with moves := x.moves + 1, log := x.log ++ [.free x.ours] } else x

/-- `yy_flush_buffer` -/
def flush (x : Space) : Space :=
  let x := { x with pos := 0, bufEnd := 0, done := x.inputFile.isNone, atBol := true }
  (x.store 0 0).store 1 0

/-- The buffer of `yy_scan_buffer`, over memory that ends in two NULs. -/
def scanBuffer (base : List Byte) : Space :=
  { data := base, size := base.length - 2, bufEnd := base.length - 2, done := true, ours := false }

/-- The buffer of `yy_scan_bytes`. -/
def scanBytes (bytes : List Byte) : Space :=
  let n := bytes.length
  let x : Space :=
    { data := List.replicate (n + 2) 0, size := n, bufEnd := n, done := true }
  ((x.blit 0 bytes).store n 0).store (n + 1) 0

/-- What `yy_refill` does once `YY_INPUT` has the bytes. -/
def receive (bs : List Byte) (x : Space) : Space :=
  let x := x.blit x.bufEnd bs
  { x with bufEnd := x.bufEnd + bs.length, done := x.done || bs.isEmpty }.terminate

/-- The start of `yy_unput`, where nothing is before the position: the bytes move up by one. -/
def shift (x : Space) : Space :=
  let x := x.grow (x.bufEnd + 1)
  { x.blit 1 (x.data.take x.bufEnd) with bufEnd := x.bufEnd + 1, pos := 1 }

/-- `yy_unput`, with the text unsealed. -/
def unput (c : Byte) (x : Space) : Space :=
  let x := if x.pos = 0 then x.shift else x
  { x.store (x.pos - 1 : Nat) c with pos := x.pos - 1, atBol := c = newline }

/-! ## What the stores keep -/

section Stores

variable (i : Int) (j : Nat) (c : Byte) (bs : List Byte) (x : Space)

@[simp] theorem length_store : (x.store i c).data.length = x.data.length := by
  change (if 0 ≤ i then x.data.set i.toNat c else x.data).length = _
  split_ifs
  · exact List.length_set
  · rfl

@[simp] theorem length_blit : (x.blit j bs).data.length = x.data.length := by
  change (if j + bs.length ≤ x.data.length then
    x.data.take j ++ bs ++ x.data.drop (j + bs.length) else x.data).length = _
  split_ifs with h
  · rw [List.length_append, List.length_append, List.length_take, List.length_drop,
      min_eq_left (le_of_add_le_left h), Nat.add_sub_cancel' h]
  · rfl

@[simp] theorem length_terminate : x.terminate.data.length = x.data.length := by
  rw [terminate, length_store, length_store]

@[simp] theorem length_realloc (n : Nat) : (x.realloc n).data.length = n := by
  change (x.data.take n ++ List.replicate (n - x.data.length) 0).length = n
  rw [List.length_append, List.length_take, List.length_replicate]
  omega

theorem store_natCast : (x.store j c).data = x.data.set j c := by
  change (if (0 : Int) ≤ j then x.data.set (j : Int).toNat c else x.data) = _
  rw [if_pos (Int.natCast_nonneg j), Int.toNat_natCast]

/-- A store leaves what is in front of it. -/
theorem take_store {m : Nat} (h : m ≤ j) : (x.store j c).data.take m = x.data.take m := by
  rw [store_natCast, List.take_set_of_le h]

theorem take_terminate {m : Nat} (h : m ≤ x.bufEnd) :
    x.terminate.data.take m = x.data.take m := by
  have hsucc : x.terminate = (x.store x.bufEnd 0).store (x.bufEnd + 1 : Nat) 0 := rfl
  rw [hsucc, take_store _ _ _ (Nat.le_succ_of_le h), take_store _ _ _ h]

end Stores

/-! ## The bounds -/

end Space

/-- No store outside. -/
def Access.Inside : Access → Prop
  | .write inside => inside = true
  | _ => True

namespace Space

/-- **The invariant of a buffer**: its position, its end and its size are in order, its
allocation has room for the two NULs behind it, and every store was inside. -/
structure Ok (x : Space) : Prop where
  pos_le : x.pos ≤ x.bufEnd
  end_le : x.bufEnd ≤ x.size
  room : x.data.length = x.size + 2
  inside : ∀ a ∈ x.log, a.Inside

namespace Ok

variable {x : Space}

theorem end_lt (h : x.Ok) : x.bufEnd + 1 < x.data.length := by
  rw [h.room]
  exact Nat.lt_succ_of_le (Nat.succ_le_succ h.end_le)

/-- The log with one more entry. -/
theorem inside_concat (h : x.Ok) {a : Access} (ha : a.Inside) : ∀ b ∈ x.log ++ [a], b.Inside := by
  intro b hb
  rcases List.mem_append.1 hb with hb | hb
  · exact h.inside b hb
  · rwa [List.mem_singleton.1 hb]

theorem store (h : x.Ok) {i : Int} (c : Byte) (hi : 0 ≤ i) (hi' : i < x.data.length) :
    (x.store i c).Ok where
  pos_le := h.pos_le
  end_le := h.end_le
  room := (length_store i c x).trans h.room
  inside := h.inside_concat (decide_eq_true ⟨hi, hi'⟩)

theorem store_natCast (h : x.Ok) {i : Nat} (c : Byte) (hi : i < x.data.length) :
    (x.store i c).Ok :=
  h.store c (Int.natCast_nonneg i) (Int.ofNat_lt.2 hi)

theorem blit (h : x.Ok) {i : Nat} {bs : List Byte} (hi : i + bs.length ≤ x.data.length) :
    (x.blit i bs).Ok where
  pos_le := h.pos_le
  end_le := h.end_le
  room := (length_blit i bs x).trans h.room
  inside := h.inside_concat (decide_eq_true hi)

theorem terminate (h : x.Ok) : x.terminate.Ok := by
  have hfirst : (x.store x.bufEnd 0).Ok := h.store_natCast 0 (Nat.lt_of_succ_lt h.end_lt)
  refine hfirst.store_natCast (i := x.bufEnd + 1) 0 ?_
  rw [length_store]
  exact h.end_lt

end Ok

/-- What of a buffer no store changes. -/
def shape (x : Space) : Space := { x with data := [], log := [] }

/-! ## Growth -/

/-- The loop ends with what is wanted. -/
theorem le_doubleLoop {n s want : Nat} (hs : 0 < s) (hn : want ≤ s + n) :
    want ≤ doubleLoop n s want := by
  induction n generalizing s with
  | zero => exact hn
  | succ n ih =>
      rw [doubleLoop]
      split_ifs with h
      · exact ih (by omega) (by omega)
      · exact not_lt.1 h

theorem le_doubleLoop_self (n s want : Nat) : s ≤ doubleLoop n s want := by
  induction n generalizing s with
  | zero => exact le_rfl
  | succ n ih =>
      rw [doubleLoop]
      split_ifs
      · exact (Nat.le_mul_of_pos_right s Nat.two_pos).trans (ih _)
      · exact le_rfl

theorem le_grownSize (size want : Nat) : want ≤ grownSize size want := by
  refine le_doubleLoop ?_ (Nat.le_add_left _ _)
  split_ifs with h
  · exact Nat.succ_pos _
  · exact Nat.pos_of_ne_zero h

theorem size_le_grownSize (size want : Nat) : size ≤ grownSize size want := by
  refine le_trans ?_ (le_doubleLoop_self _ _ _)
  split_ifs with h
  · rw [h]
    exact Nat.zero_le _
  · exact le_rfl

section Grow

variable {x : Space} {want : Nat}

theorem grow_of_le (h : want ≤ x.size) : x.grow want = x := if_pos h

theorem grow_of_lt (h : x.size < want) : x.grow want =
    { x.realloc (grownSize x.size want + 2) with size := grownSize x.size want }.terminate :=
  if_neg (not_le.2 h)

/-- What is wanted is there. -/
theorem le_size_grow (x : Space) (want : Nat) : want ≤ (x.grow want).size := by
  rcases le_or_gt want x.size with h | h
  · rwa [grow_of_le h]
  · rw [grow_of_lt h]
    exact le_grownSize _ _

/-- Growth changes nothing but the allocation and its size. -/
theorem grow_keeps (x : Space) (want : Nat) : (x.grow want).pos = x.pos ∧
    (x.grow want).bufEnd = x.bufEnd ∧ (x.grow want).done = x.done ∧
    (x.grow want).inputFile = x.inputFile ∧ (x.grow want).ours = x.ours := by
  rcases le_or_gt want x.size with h | h
  · rw [grow_of_le h]
    exact ⟨rfl, rfl, rfl, rfl, rfl⟩
  · rw [grow_of_lt h]
    exact ⟨rfl, rfl, rfl, rfl, rfl⟩

/-- The bytes of the buffer are copied. -/
theorem take_grow (h : x.Ok) {m : Nat} (hm : m ≤ x.bufEnd) :
    (x.grow want).data.take m = x.data.take m := by
  rcases le_or_gt want x.size with hle | hlt
  · rw [grow_of_le hle]
  · have hroom : m ≤ grownSize x.size want + 2 :=
      (hm.trans h.end_le).trans (le_add_right (size_le_grownSize _ _))
    have hlen : m ≤ (x.data.take (grownSize x.size want + 2)).length := by
      rw [List.length_take]
      exact le_min hroom (hm.trans (Nat.le_of_lt (Nat.lt_of_succ_lt h.end_lt)))
    rw [grow_of_lt hlt]
    refine Eq.trans (take_terminate _ ?_) ?_
    · exact hm
    change (x.data.take (grownSize x.size want + 2) ++ _).take m = _
    rw [List.take_append_of_le_length hlen, List.take_take, min_eq_left hroom]

theorem Ok.grow (h : x.Ok) (want : Nat) : (x.grow want).Ok := by
  rcases le_or_gt want x.size with hle | hlt
  · rwa [grow_of_le hle]
  · rw [grow_of_lt hlt]
    refine terminate ⟨h.pos_le, h.end_le.trans (size_le_grownSize _ _), ?_, ?_⟩
    · exact length_realloc x _
    · exact h.inside_concat trivial

end Grow

/-! ## The functions keep the bounds -/

namespace Ok

variable {x : Space}

/-- The NULs at the start of every allocation. -/
theorem storeFirst (h : x.Ok) : ((x.store 0 0).store 1 0).Ok := by
  have hroom : 1 < x.data.length := by
    rw [h.room]
    exact Nat.lt_add_left _ Nat.one_lt_two
  have hfirst : (x.store 0 0).Ok := h.store_natCast (i := 0) 0 (Nat.zero_lt_of_lt hroom)
  refine hfirst.store_natCast (i := 1) 0 ?_
  rw [length_store]
  exact hroom

theorem create (file : Option Nat) (size : Int) : (create file size).Ok := by
  refine storeFirst ⟨le_rfl, Nat.zero_le _, List.length_replicate, fun _ ha ↦ ?_⟩
  exact absurd ha List.not_mem_nil

theorem flush (h : x.Ok) : x.flush.Ok :=
  storeFirst ⟨le_rfl, Nat.zero_le _, h.room, h.inside⟩

theorem scanBuffer {base : List Byte} (hbase : 2 ≤ base.length) : (scanBuffer base).Ok where
  pos_le := Nat.zero_le _
  end_le := le_rfl
  room := (Nat.sub_add_cancel hbase).symm
  inside := fun _ ha ↦ absurd ha List.not_mem_nil

theorem scanBytes (bytes : List Byte) : (scanBytes bytes).Ok := by
  let x : Space :=
    { data := List.replicate (bytes.length + 2) 0, size := bytes.length, bufEnd := bytes.length
      done := true }
  have hx : x.Ok :=
    ⟨Nat.zero_le _, le_rfl, List.length_replicate, fun _ ha ↦ absurd ha List.not_mem_nil⟩
  have hcopy : (x.blit 0 bytes).Ok := by
    refine hx.blit ?_
    rw [hx.room, Nat.zero_add]
    exact Nat.le_add_right _ _
  exact hcopy.terminate

/-- `yy_refill`, with bytes for which there is room. -/
theorem receive (h : x.Ok) {bs : List Byte} (hbs : x.bufEnd + bs.length ≤ x.size) :
    (x.receive bs).Ok := by
  have hcopy : (x.blit x.bufEnd bs).Ok := by
    refine h.blit ?_
    rw [h.room]
    exact le_add_right hbs
  exact terminate ⟨h.pos_le.trans (Nat.le_add_right _ _), hbs, hcopy.room, hcopy.inside⟩

theorem shift (h : x.Ok) : x.shift.Ok := by
  have hgrow := h.grow (x.bufEnd + 1)
  have hsize : x.bufEnd + 1 ≤ (x.grow (x.bufEnd + 1)).size := le_size_grow x _
  have hend : (x.grow (x.bufEnd + 1)).bufEnd = x.bufEnd := (grow_keeps x _).2.1
  have hlen : ((x.grow (x.bufEnd + 1)).data.take (x.grow (x.bufEnd + 1)).bufEnd).length =
      x.bufEnd := by
    rw [List.length_take, min_eq_left (Nat.le_of_lt (Nat.lt_of_succ_lt hgrow.end_lt)), hend]
  have hfit : 1 + ((x.grow (x.bufEnd + 1)).data.take (x.grow (x.bufEnd + 1)).bufEnd).length ≤
      (x.grow (x.bufEnd + 1)).data.length := by
    have hlt := hgrow.end_lt
    rw [hend] at hlt
    rw [hlen, Nat.add_comm]
    exact Nat.le_of_lt hlt
  have hcopy := hgrow.blit hfit
  refine ⟨Nat.succ_le_succ (Nat.zero_le _), ?_, hcopy.room, hcopy.inside⟩
  change (x.grow (x.bufEnd + 1)).bufEnd + 1 ≤ _
  rw [hend]
  exact hsize

theorem unput (h : x.Ok) (c : Byte) : (x.unput c).Ok := by
  have hstore : ∀ y : Space, y.Ok → 0 < y.pos →
      ({ y.store (y.pos - 1 : Nat) c with pos := y.pos - 1, atBol := c = newline } : Space).Ok := by
    intro y hy hpos
    have hlt : y.pos - 1 < y.data.length :=
      (Nat.sub_lt hpos Nat.one_pos).trans_le (hy.pos_le.trans
        (Nat.le_of_lt (Nat.lt_of_succ_lt hy.end_lt)))
    have hok := hy.store_natCast c hlt
    exact ⟨(Nat.sub_le _ _).trans hy.pos_le, hy.end_le, hok.room, hok.inside⟩
  change Ok (_ : Space)
  unfold Space.unput
  split_ifs with hpos
  · exact hstore _ h.shift Nat.one_pos
  · exact hstore _ h (Nat.pos_of_ne_zero hpos)

end Ok

theorem done_unput (c : Byte) (x : Space) : (x.unput c).done = x.done := by
  unfold Space.unput
  split_ifs
  · exact (grow_keeps x _).2.2.1
  · rfl

/-! ## The unread bytes -/

/-- The bytes from the position to the end. -/
def unread (x : Space) : List Byte := (x.data.take x.bufEnd).drop x.pos

section Unread

variable {x : Space}

theorem length_unread (h : x.Ok) : x.unread.length = x.bufEnd - x.pos := by
  rw [unread, List.length_drop, List.length_take,
    min_eq_left (Nat.le_of_lt (Nat.lt_of_succ_lt h.end_lt))]

theorem unread_eq_nil_iff (h : x.Ok) : x.unread = [] ↔ x.bufEnd ≤ x.pos := by
  rw [← List.length_eq_zero_iff, length_unread h, Nat.sub_eq_zero_iff_le]

/-- The byte at the position is the first unread one. -/
theorem unread_eq_cons (h : x.Ok) (hpos : x.pos < x.bufEnd) :
    x.unread = x.data.getD x.pos 0 :: { x with pos := x.pos + 1 }.unread := by
  have hlen : x.pos < (x.data.take x.bufEnd).length := by
    rw [List.length_take, min_eq_left (Nat.le_of_lt (Nat.lt_of_succ_lt h.end_lt))]
    exact hpos
  have hdata : x.pos < x.data.length := hpos.trans (Nat.lt_of_succ_lt h.end_lt)
  rw [unread, List.drop_eq_getElem_cons hlen, List.getElem_take, List.getD_eq_getElem _ _ hdata]
  rfl

/-- A byte stored right before the position is in front of the unread ones. -/
theorem unread_store_pred (h : x.Ok) (hpos : 0 < x.pos) (c : Byte) :
    ({ x.store (x.pos - 1 : Nat) c with pos := x.pos - 1, atBol := c = newline } : Space).unread =
      c :: x.unread := by
  have hlt : x.pos - 1 < (x.data.take x.bufEnd).length := by
    rw [List.length_take, min_eq_left (Nat.le_of_lt (Nat.lt_of_succ_lt h.end_lt))]
    exact (Nat.sub_lt hpos Nat.one_pos).trans_le h.pos_le
  change ((x.store (x.pos - 1 : Nat) c).data.take x.bufEnd).drop (x.pos - 1) = _
  rw [store_natCast, List.take_set, List.drop_set, if_neg (lt_irrefl _), Nat.sub_self,
    List.drop_eq_getElem_cons hlt, List.set_cons_zero, Nat.sub_add_cancel hpos]
  rfl

/-- The bytes move up as they are. -/
theorem unread_shift (h : x.Ok) (hpos : x.pos = 0) : x.shift.unread = x.unread := by
  have hgrow := h.grow (x.bufEnd + 1)
  have hend : (x.grow (x.bufEnd + 1)).bufEnd = x.bufEnd := (grow_keeps x _).2.1
  have htake : (x.grow (x.bufEnd + 1)).data.take (x.grow (x.bufEnd + 1)).bufEnd = x.unread := by
    rw [hend, take_grow h le_rfl, unread, hpos, List.drop_zero]
  have hlen : x.unread.length = x.bufEnd := by
    rw [length_unread h, hpos, Nat.sub_zero]
  have hlt := hgrow.end_lt
  rw [hend] at hlt
  have hfit : 1 + x.unread.length ≤ (x.grow (x.bufEnd + 1)).data.length := by
    rw [hlen, Nat.add_comm]
    exact Nat.le_of_lt hlt
  have hone : ((x.grow (x.bufEnd + 1)).data.take 1).length = 1 := by
    rw [List.length_take]
    exact min_eq_left (le_of_add_le_left hfit)
  change (((x.grow (x.bufEnd + 1)).blit 1 _).data.take ((x.grow (x.bufEnd + 1)).bufEnd + 1)).drop 1
    = x.unread
  rw [htake, hend]
  change ((if 1 + x.unread.length ≤ (x.grow (x.bufEnd + 1)).data.length then
    (x.grow (x.bufEnd + 1)).data.take 1 ++ x.unread ++ _ else _).take (x.bufEnd + 1)).drop 1 = _
  rw [if_pos hfit, List.take_left' (by rw [List.length_append, hone, hlen, Nat.add_comm]),
    List.drop_left' hone]

/-- `yy_unput` puts a byte in front of the unread ones. -/
theorem unread_unput (h : x.Ok) (c : Byte) : (x.unput c).unread = c :: x.unread := by
  unfold Space.unput
  split_ifs with hpos
  · have hstore := unread_store_pred h.shift Nat.one_pos c
    rw [unread_shift h hpos] at hstore
    exact hstore
  · exact unread_store_pred h (Nat.pos_of_ne_zero hpos) c

end Unread

end Space

end LexCpp
