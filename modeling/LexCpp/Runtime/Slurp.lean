import LexCpp.Runtime.Frame

/-!
# Slurping a file

`yy_slurp` reads until `YY_INPUT` delivers nothing.  What it reads is all that can be seen of
the chunks in which a file is delivered, as long as nothing but `yy_slurp` reads it.
-/

namespace LexCpp

/-- What is read of the chunks until none is delivered. -/
def slurped (chunks : List (List Byte)) : List Byte := (chunks.takeWhile (· ≠ [])).flatten

/-- What is then still to be delivered. -/
def afterSlurp (chunks : List (List Byte)) : List (List Byte) := (chunks.dropWhile (· ≠ [])).tail

/-- Each time the file is slurped it has the same bytes. -/
def SameBytes (chunks chunks' : List (List Byte)) : Prop :=
  ∀ n, slurped (afterSlurp^[n] chunks) = slurped (afterSlurp^[n] chunks')

namespace SameBytes

variable {chunks chunks' : List (List Byte)}

theorem refl (chunks : List (List Byte)) : SameBytes chunks chunks := fun _ ↦ rfl

theorem slurped_eq (h : SameBytes chunks chunks') : slurped chunks = slurped chunks' := h 0

theorem afterSlurp (h : SameBytes chunks chunks') :
    SameBytes (LexCpp.afterSlurp chunks) (LexCpp.afterSlurp chunks') := fun n ↦ h (n + 1)

theorem iterate_afterSlurp_nil (n : Nat) : LexCpp.afterSlurp^[n] [] = [] := by
  induction n with
  | zero => rfl
  | succ n ih => exact ih

/-- Of chunks that are not empty only the bytes matter. -/
theorem of_flatten (hne : ∀ c ∈ chunks, c ≠ []) (hne' : ∀ c ∈ chunks', c ≠ [])
    (h : chunks.flatten = chunks'.flatten) : SameBytes chunks chunks' := by
  have hall : ∀ {chunks : List (List Byte)}, (∀ c ∈ chunks, c ≠ []) →
      slurped chunks = chunks.flatten ∧ LexCpp.afterSlurp chunks = [] := by
    intro chunks hne
    have hne : ∀ c ∈ chunks, decide (c ≠ []) = true := fun c hc ↦ decide_eq_true (hne c hc)
    refine ⟨?_, ?_⟩
    · rw [slurped, List.takeWhile_eq_self_iff.2 hne]
    · rw [LexCpp.afterSlurp, List.dropWhile_eq_nil_iff.2 hne]
      rfl
  intro n
  cases n with
  | zero => exact (hall hne).1.trans (h.trans (hall hne').1.symm)
  | succ n =>
      rw [Function.iterate_succ_apply, Function.iterate_succ_apply, (hall hne).2, (hall hne').2]

end SameBytes

namespace Runtime

/-- A buffer after `yy_refill`. -/
def deliver (chunk : List Byte) (x : Buffer) : Buffer :=
  { x with
    data := x.data.take x.bufEnd ++ chunk ++ [0, 0]
    bufEnd := x.bufEnd + chunk.length
    done := x.done || chunk.isEmpty }

/-- A buffer after `yy_slurp`. -/
def fill (bytes : List Byte) (x : Buffer) : Buffer :=
  { x with
    data := x.data.take x.bufEnd ++ bytes ++ [0, 0]
    bufEnd := x.bufEnd + bytes.length
    done := true }

theorem deliver_nil (x : Buffer) : deliver [] x = fill [] x := by
  simp [deliver, fill]

theorem fill_deliver {chunk : List Byte} (hchunk : chunk ≠ []) (bytes : List Byte) {x : Buffer}
    (hend : x.bufEnd ≤ x.data.length) :
    fill bytes (deliver chunk x) = fill (chunk ++ bytes) x := by
  have htake : ((x.data.take x.bufEnd ++ chunk) ++ [0, 0]).take (x.bufEnd + chunk.length) =
      x.data.take x.bufEnd ++ chunk := by
    refine List.take_left' ?_
    rw [List.length_append, List.length_take_of_le hend]
  unfold fill deliver
  simp only [List.length_append, List.append_assoc, Nat.add_assoc]
  rw [← List.append_assoc (x.data.take x.bufEnd) chunk [0, 0], htake, List.append_assoc]

variable {s : Runtime} {b : Nat}

theorem modifyBuf_eq_set (hb : b < s.heap.length) (f : Buffer → Buffer) :
    s.modifyBuf b f = { s with heap := s.heap.set b (f (s.buf b)) } := by
  unfold modifyBuf buf
  rw [List.modify_eq_set_get _ hb, List.getD_eq_getElem?_getD, List.getElem?_eq_getElem hb]
  rfl

theorem slurpLoop_of_done (hcur : s.current = some b) (hdone : (s.buf b).done = true) (n : Nat) :
    slurpLoop n s = s := by
  cases n with
  | zero => rfl
  | succ n =>
      unfold slurpLoop
      rw [hcur]
      exact if_pos hdone

theorem slurp_of_no_current (hcur : s.current = none) : s.slurp = s := by
  unfold slurp slurpLoop
  rw [hcur]

/-- A turn of the loop on a buffer that is not done. -/
theorem slurpLoop_succ (hcur : s.current = some b) (hb : b < s.heap.length)
    (hdone : (s.buf b).done = false) {chunk : List Byte} {files : Nat → List (List Byte)}
    (hinput : s.yyInput = (chunk, { s with files := files })) (n : Nat) :
    slurpLoop (n + 1) s = slurpLoop n
      { s with heap := s.heap.set b (deliver chunk (s.buf b)), files := files } := by
  have hnot : ¬ (s.buf b).done = true := by
    rw [hdone]
    exact Bool.false_ne_true
  have hrefill : s.refill =
      { s with heap := s.heap.set b (deliver chunk (s.buf b)), files := files } := by
    unfold refill
    rw [hcur]
    refine (if_neg hnot).trans ?_
    rw [hinput]
    exact modifyBuf_eq_set (s := { s with files := files }) hb (deliver chunk)
  conv_lhs => unfold slurpLoop
  rw [hcur]
  simp only
  rw [if_neg hnot, hrefill]

/-- The buffer of the last turn of the loop. -/
theorem slurpLoop_set (hcur : s.current = some b) (hb : b < s.heap.length) {x : Buffer}
    (hx : x.done = true) (files : Nat → List (List Byte)) (n : Nat) :
    slurpLoop n { s with heap := s.heap.set b x, files := files } =
      { s with heap := s.heap.set b x, files := files } := by
  refine slurpLoop_of_done (s := { s with heap := s.heap.set b x, files := files }) hcur ?_ n
  unfold buf
  rw [List.getD_eq_getElem?_getD, List.getElem?_set_self hb]
  exact hx

/-- `yy_slurp` without a file. -/
theorem slurp_of_no_file (hcur : s.current = some b) (hb : b < s.heap.length)
    (hdone : (s.buf b).done = false) (hyyin : s.yyin = none) :
    s.slurp = s.modifyBuf b (fill []) := by
  have hinput : s.yyInput = ([], s) := by
    unfold yyInput
    rw [hyyin]
  have hfuel : s.slurp = slurpLoop 2 s := by
    unfold slurp
    rw [hyyin]
    rfl
  rw [hfuel, slurpLoop_succ hcur hb hdone hinput, deliver_nil, modifyBuf_eq_set hb]
  exact slurpLoop_set hcur hb (x := fill [] (s.buf b)) rfl s.files 1

/-- The loop of `yy_slurp` on a file. -/
theorem slurpLoop_of_file {f : Nat} {chunks : List (List Byte)} {n : Nat}
    (hcur : s.current = some b) (hb : b < s.heap.length) (hdone : (s.buf b).done = false)
    (hend : (s.buf b).bufEnd ≤ (s.buf b).data.length) (hyyin : s.yyin = some f)
    (hfile : s.files f = chunks) (hn : chunks.length < n) :
    slurpLoop n s = { s with
      heap := s.heap.set b (fill (slurped chunks) (s.buf b))
      files := Function.update s.files f (afterSlurp chunks) } := by
  induction chunks generalizing s n with
  | nil =>
      obtain ⟨n, rfl⟩ := Nat.exists_eq_add_of_lt hn
      have hinput : s.yyInput = ([], { s with files := Function.update s.files f [] }) := by
        unfold yyInput
        rw [hyyin]
        simp only [hfile]
        rfl
      rw [slurpLoop_succ hcur hb hdone hinput, deliver_nil]
      exact slurpLoop_set hcur hb (x := fill [] (s.buf b)) rfl _ _
  | cons c chunks ih =>
      obtain ⟨n, rfl⟩ := Nat.exists_eq_add_of_lt hn
      have hinput : s.yyInput = (c, { s with files := Function.update s.files f chunks }) := by
        unfold yyInput
        rw [hyyin]
        simp only [hfile]
        rfl
      rw [slurpLoop_succ hcur hb hdone hinput]
      by_cases hc : c = []
      · subst hc
        rw [deliver_nil]
        exact slurpLoop_set hcur hb (x := fill [] (s.buf b)) rfl _ _
      · have hturn : (s.heap.set b (deliver c (s.buf b))).getD b {} = deliver c (s.buf b) := by
          rw [List.getD_eq_getElem?_getD, List.getElem?_set_self hb]
          rfl
        have hlen : chunks.length < (c :: chunks).length + n :=
          Nat.lt_add_right n (Nat.lt_succ_self _)
        rw [ih (s := { s with
            heap := s.heap.set b (deliver c (s.buf b))
            files := Function.update s.files f chunks })
          hcur (hb.trans_le List.length_set.ge) ?_ ?_ hyyin (Function.update_self ..) hlen]
        · have hbuf : Runtime.buf { s with
              heap := s.heap.set b (deliver c (s.buf b))
              files := Function.update s.files f chunks } b = deliver c (s.buf b) := hturn
          rw [hbuf, fill_deliver hc _ hend]
          simp only [List.set_set, Function.update_idem]
          rw [slurped, afterSlurp, slurped, afterSlurp, List.takeWhile_cons_of_pos (by simpa using hc),
            List.dropWhile_cons_of_pos (by simpa using hc), List.flatten_cons]
        · refine (congrArg Buffer.done hturn).trans ?_
          simp [deliver, hdone, hc]
        · change ((s.heap.set b (deliver c (s.buf b))).getD b {}).bufEnd ≤
            ((s.heap.set b (deliver c (s.buf b))).getD b {}).data.length
          rw [hturn]
          simp only [deliver, List.length_append, List.length_take_of_le hend]
          exact Nat.le_add_right _ _

/-- `yy_slurp` on a file. -/
theorem slurp_of_file {f : Nat} (hcur : s.current = some b) (hb : b < s.heap.length)
    (hdone : (s.buf b).done = false) (hend : (s.buf b).bufEnd ≤ (s.buf b).data.length)
    (hyyin : s.yyin = some f) :
    s.slurp = { s.modifyBuf b (fill (slurped (s.files f))) with
      files := Function.update s.files f (afterSlurp (s.files f)) } := by
  rw [modifyBuf_eq_set hb]
  refine slurpLoop_of_file hcur hb hdone hend hyyin rfl ?_
  rw [hyyin]
  exact Nat.lt_add_of_pos_right (Nat.succ_pos 1)

end Runtime

end LexCpp
