import LexCpp.Control.While
import LexCpp.Nfa.Basic

/-!
# Byte equivalence classes

`eclass.cpp` and `class_reps` of `dfa.cpp`.  `compute_eclasses` refines one class of
all bytes by the label of every edge, so that two bytes end in the same class exactly
if no edge tells them apart (`exists_computeEclasses`).

A class table is *onto* its class ids (`Eclasses.Valid`).  That is what keeps the ids
in eight bits: 256 bytes cannot fill 257 classes, so the loop that allocates ids never
saturates and no id is ever truncated.
-/

namespace LexCpp

/-- A byte-equivalence-class table: byte to class id. -/
structure Eclasses where
  ec : List Nat
  nclasses : Nat
deriving DecidableEq, Repr

/-- All bytes in order. -/
def bytes : List Byte := List.finRange 256

@[simp] theorem mem_bytes (b : Byte) : b ∈ bytes := List.mem_finRange b

/-- Narrowing to `uint8_t`. -/
def toUInt8 (n : Nat) : Nat := n % 256

namespace Eclasses

/-- The class of a byte. -/
def of (ec : Eclasses) (b : Byte) : Nat := ec.ec.getD b 0

def identityEclasses : Eclasses := { ec := bytes.map Fin.val, nclasses := 256 }

/-! ## Refinement -/

/-- The loop over the bytes that looks for members of class `c` inside and outside
`B`; it stops once it has seen both. -/
def scanClass (cls : List Nat) (B : ByteSet) (c : Nat) : List Byte → Bool → Bool → Bool × Bool
  | [], inAny, outAny => (inAny, outAny)
  | b :: bs, inAny, outAny =>
      if cls.getD b 0 != toUInt8 c then scanClass cls B c bs inAny outAny
      else
        let inAny := if B.test b then true else inAny
        let outAny := if B.test b then outAny else true
        if inAny && outAny then (inAny, outAny) else scanClass cls B c bs inAny outAny

/-- The locals of the loop over the classes; `saturated` records its early return. -/
structure RefineState where
  c : Nat := 0
  nclasses : Nat
  remap : List Int
  saturated : Bool := false

/-- Allocate a new class id if class `c` has members inside and outside `B`. -/
def refineBody (cls : List Nat) (B : ByteSet) (s : RefineState) : RefineState :=
  let seen := scanClass cls B s.c bytes false false
  if seen.1 && seen.2 then
    { c := s.c + 1
      nclasses := s.nclasses + 1
      remap := s.remap.set s.c s.nclasses
      saturated := 256 < s.nclasses + 1 }
  else { s with c := s.c + 1 }

/-- Split every class that has members inside and outside `B`; the members inside
move to the new id.  The bound of the loop grows with the ids it allocates. -/
def refine (ec : Eclasses) (B : ByteSet) : Option Eclasses :=
  (whileFuel (fun s ↦ !s.saturated && s.c < s.nclasses)
    (fun s ↦ some (refineBody ec.ec B s)) 258
    { nclasses := ec.nclasses, remap := List.replicate ec.nclasses (-1) }).map fun s ↦
      if s.saturated then { ec with nclasses := s.nclasses }
      else
        { ec := bytes.map fun b ↦
            if 0 ≤ s.remap.getD (ec.of b) (-1) && B.test b then
              toUInt8 (s.remap.getD (ec.of b) (-1)).toNat
            else ec.of b
          nclasses := s.nclasses }

/-- Refine by the labels of the edges, until there are 256 classes. -/
def refineAll : List NFAEdge → Eclasses → Option Eclasses
  | [], ec => some ec
  | e :: es, ec =>
      if e.on.empty then refineAll es ec
      else (ec.refine e.on).bind fun ec ↦
        if 256 ≤ ec.nclasses then some ec else refineAll es ec

end Eclasses

def computeEclasses (nfa : NFA) : Option Eclasses :=
  Eclasses.refineAll (nfa.states.flatMap NFAState.out)
    { ec := List.replicate 256 0, nclasses := 1 }

/-- The first byte of every class; 256 for a class without one. -/
def classReps (ec : Eclasses) : List Nat :=
  bytes.foldl (fun r b ↦ if r.getD (ec.of b) 0 == 256 then r.set (ec.of b) b.val else r)
    (List.replicate ec.nclasses 256)

namespace Eclasses

/-! ## What a class table says -/

/-- The class ids are those below `nclasses`, and each of them is taken. -/
structure Valid (ec : Eclasses) : Prop where
  length_ec : ec.ec.length = 256
  of_lt : ∀ b, ec.of b < ec.nclasses
  onto : ∀ k < ec.nclasses, ∃ b, ec.of b = k

/-- A function from the bytes onto the ids below `n` leaves at most 256 of them. -/
theorem le_of_onto {f : Byte → Nat} {n : Nat} (h : ∀ k < n, ∃ b, f b = k) : n ≤ 256 := by
  choose g hg using h
  have hinj : Function.Injective fun k : Fin n ↦ g k k.2 := fun k k' hk ↦ Fin.ext (by
    rw [← hg k k.2, ← hg k' k'.2]
    exact congrArg f hk)
  simpa using Fintype.card_le_of_injective _ hinj

theorem Valid.nclasses_le {ec : Eclasses} (h : ec.Valid) : ec.nclasses ≤ 256 := le_of_onto h.onto

theorem valid_identityEclasses : identityEclasses.Valid := by
  have hof : ∀ b : Byte, identityEclasses.of b = b := by
    intro b
    simp [of, identityEclasses, bytes]
  exact ⟨by simp [identityEclasses, bytes], fun b ↦ by rw [hof]; exact b.2,
    fun k hk ↦ ⟨⟨k, hk⟩, hof _⟩⟩

theorem scanClass_eq (cls : List Nat) (B : ByteSet) (c : Nat) (bs : List Byte) (i o : Bool) :
    ((scanClass cls B c bs i o).1 && (scanClass cls B c bs i o).2) =
      ((i || bs.any fun b ↦ cls.getD b 0 == toUInt8 c && B.test b) &&
        (o || bs.any fun b ↦ cls.getD b 0 == toUInt8 c && !B.test b)) := by
  induction bs generalizing i o with
  | nil => simp [scanClass]
  | cons b bs ih =>
      rw [scanClass]
      by_cases hc : cls.getD b 0 = toUInt8 c
      · simp only [hc, bne_self_eq_false, Bool.false_eq_true, if_false, List.any_cons, beq_self_eq_true,
          Bool.true_and]
        cases hB : B.test b <;> cases i <;> cases o <;> simp [ih]
      · rw [if_pos (by simpa using hc), ih]
        simp only [List.any_cons, beq_eq_false_iff_ne.2 hc, Bool.false_and, Bool.false_or]

/-! ### One refinement -/

section Refine

variable {ec : Eclasses} {B : ByteSet}

/-- Class `c` has members inside and outside `B`. -/
def Split (ec : Eclasses) (B : ByteSet) (c : Nat) : Prop :=
  ∃ b b', ec.of b = c ∧ ec.of b' = c ∧ B.test b = true ∧ B.test b' = false

theorem scanClass_iff_split {c : Nat} (hc : c < 256) :
    ((scanClass ec.ec B c bytes false false).1 && (scanClass ec.ec B c bytes false false).2) = true ↔
      Split ec B c := by
  rw [scanClass_eq, toUInt8, Nat.mod_eq_of_lt hc]
  simp only [Bool.false_or, Bool.and_eq_true, List.any_eq_true, mem_bytes, true_and, beq_iff_eq,
    Bool.not_eq_true', Split, Eclasses.of]
  constructor
  · rintro ⟨⟨b, hb, hB⟩, b', hb', hB'⟩
    exact ⟨b, b', hb, hb', hB, hB'⟩
  · rintro ⟨b, b', hb, hb', hB, hB'⟩
    exact ⟨⟨b, hb, hB⟩, b', hb', hB'⟩

/-- The class of a byte under the ids allocated so far. -/
def part (ec : Eclasses) (B : ByteSet) (remap : List Int) (b : Byte) : Nat :=
  if 0 ≤ remap.getD (ec.of b) (-1) && B.test b then (remap.getD (ec.of b) (-1)).toNat else ec.of b

theorem part_of_moved {remap : List Int} {b : Byte} (h : 0 ≤ remap.getD (ec.of b) (-1))
    (hB : B.test b = true) : part ec B remap b = (remap.getD (ec.of b) (-1)).toNat :=
  if_pos (by simp only [h, hB, decide_true, Bool.and_self])

theorem part_of_not_moved {remap : List Int} {b : Byte}
    (h : ¬ (0 ≤ remap.getD (ec.of b) (-1) ∧ B.test b = true)) : part ec B remap b = ec.of b :=
  if_neg (by simpa only [Bool.and_eq_true, decide_eq_true_eq] using h)

/-- What the loop over the classes keeps: the classes below `c` that have to be split
own one new id each, and the ids so far are all taken. -/
structure RefineInv (ec : Eclasses) (B : ByteSet) (s : RefineState) : Prop where
  not_saturated : s.saturated = false
  nclasses_le : ec.nclasses ≤ s.nclasses
  length_remap : s.remap.length = ec.nclasses
  remap_iff : ∀ k, 0 ≤ s.remap.getD k (-1) ↔ k < s.c ∧ Split ec B k
  remap_mem : ∀ k, 0 ≤ s.remap.getD k (-1) →
    (ec.nclasses : Int) ≤ s.remap.getD k (-1) ∧ s.remap.getD k (-1) < s.nclasses
  remap_inj : ∀ k k', 0 ≤ s.remap.getD k (-1) → s.remap.getD k (-1) = s.remap.getD k' (-1) → k = k'
  onto : ∀ j < s.nclasses, ∃ b, part ec B s.remap b = j

theorem RefineInv.nclasses_le_256 {s : RefineState} (h : RefineInv ec B s) : s.nclasses ≤ 256 :=
  le_of_onto h.onto

theorem getD_set_eq (l : List Int) {c : Nat} (hc : c < l.length) (v : Int) (k : Nat) :
    (l.set c v).getD k (-1) = if k = c then v else l.getD k (-1) := by
  by_cases h : k = c
  · subst h
    simp [hc]
  · simp [List.getElem?_set_ne (Ne.symm h), h]

theorem RefineInv.refineBody {s : RefineState} (hv : ec.Valid) (h : RefineInv ec B s)
    (hc : s.c < s.nclasses) : RefineInv ec B (Eclasses.refineBody ec.ec B s) ∧
      (Eclasses.refineBody ec.ec B s).c = s.c + 1 := by
  have hscan := @scanClass_iff_split ec B s.c (Nat.lt_of_lt_of_le hc h.nclasses_le_256)
  dsimp only [Eclasses.refineBody]
  by_cases hsplit : Split ec B s.c
  · -- a new id for the members inside
    rw [if_pos (hscan.2 hsplit)]
    obtain ⟨b₁, b₀, hb₁, hb₀, hB₁, hB₀⟩ := hsplit
    have hc₀ : s.c < s.remap.length := h.length_remap ▸ hb₁ ▸ hv.of_lt b₁
    have hget := getD_set_eq s.remap hc₀ s.nclasses
    have hfree : ¬ 0 ≤ s.remap.getD s.c (-1) := fun hpos ↦
      Nat.lt_irrefl _ ((h.remap_iff s.c).1 hpos).1
    have honto : ∀ j < s.nclasses + 1, ∃ b, part ec B (s.remap.set s.c s.nclasses) b = j := by
      intro j hj
      rcases Nat.lt_succ_iff_lt_or_eq.1 hj with hj | rfl
      · obtain ⟨b, rfl⟩ := h.onto j hj
        by_cases hb : ec.of b = s.c
        · -- an old class keeps the members outside
          refine ⟨b₀, ?_⟩
          rw [part_of_not_moved (by simp [hB₀]), part_of_not_moved fun hpos ↦ hfree (hb ▸ hpos.1),
            hb₀, hb]
        · refine ⟨b, ?_⟩
          simp only [part, hget, if_neg hb]
      · refine ⟨b₁, ?_⟩
        rw [part_of_moved (by rw [hget, if_pos hb₁]; exact Int.natCast_nonneg _) hB₁, hget,
          if_pos hb₁, Int.toNat_natCast]
    refine ⟨⟨?_, Nat.le_succ_of_le h.nclasses_le, ?_, fun k ↦ ?_, fun k ↦ ?_, fun k k' ↦ ?_, honto⟩,
      rfl⟩
    · have := le_of_onto honto
      exact decide_eq_false (Nat.not_lt.2 this)
    · rw [List.length_set, h.length_remap]
    · rw [hget]
      split_ifs with hk
      · subst hk
        exact ⟨fun _ ↦ ⟨Nat.lt_succ_self _, b₁, b₀, hb₁, hb₀, hB₁, hB₀⟩,
          fun _ ↦ Int.natCast_nonneg _⟩
      · rw [h.remap_iff]
        refine and_congr_left fun _ ↦ ?_
        change k < s.c ↔ k < s.c + 1
        omega
    · rw [hget]
      have := h.nclasses_le
      split_ifs with hk
      · intro _
        constructor <;> push_cast <;> omega
      · intro hpos
        have := h.remap_mem k hpos
        constructor <;> push_cast <;> omega
    · rw [hget, hget]
      split_ifs with hk hk' hk'
      · exact fun _ _ ↦ hk.trans hk'.symm
      · intro _ he
        have := (h.remap_mem k' (he ▸ Int.natCast_nonneg _)).2
        omega
      · intro hpos he
        have := (h.remap_mem k hpos).2
        omega
      · exact h.remap_inj k k'
  · rw [if_neg fun hs ↦ hsplit (hscan.1 hs)]
    refine ⟨⟨h.not_saturated, h.nclasses_le, h.length_remap, fun k ↦ ?_, h.remap_mem, h.remap_inj,
      h.onto⟩, rfl⟩
    rw [h.remap_iff]
    refine and_congr_left fun hk ↦ ?_
    have : k ≠ s.c := fun he ↦ hsplit (he ▸ hk)
    change k < s.c ↔ k < s.c + 1
    omega

/-- **One refinement.**  It succeeds, stays onto its ids, and separates exactly the
bytes that were separate or that `B` tells apart. -/
theorem Valid.exists_refine (hv : ec.Valid) (B : ByteSet) :
    ∃ ec', ec.refine B = some ec' ∧ ec'.Valid ∧
      ∀ b b', ec'.of b = ec'.of b' ↔ ec.of b = ec.of b' ∧ B.test b = B.test b' := by
  have hinit : RefineInv ec B { nclasses := ec.nclasses, remap := List.replicate ec.nclasses (-1) } := by
    have hneg : ∀ k, (List.replicate ec.nclasses (-1 : Int)).getD k (-1) = -1 := fun k ↦ by
      rw [List.getD_eq_getElem?_getD, List.getElem?_getD_replicate_default_eq]
    refine ⟨rfl, Nat.le_refl _, by simp, fun k ↦ ?_, fun k hk ↦ ?_, fun k k' hk ↦ ?_, fun j hj ↦ ?_⟩
    · rw [hneg]
      simp
    · rw [hneg] at hk
      omega
    · rw [hneg] at hk
      omega
    · obtain ⟨b, hb⟩ := hv.onto j hj
      exact ⟨b, by rw [part_of_not_moved (by rw [hneg]; simp), hb]⟩
  obtain ⟨s, hrun, hs, hdone⟩ := @exists_whileFuel _ (fun s ↦ !s.saturated && s.c < s.nclasses)
    (fun s ↦ some (refineBody ec.ec B s)) (RefineInv ec B) (fun s ↦ 257 - s.c)
    (fun s hs hc ↦ by
      rw [Bool.and_eq_true, decide_eq_true_eq] at hc
      obtain ⟨hs', hc'⟩ := hs.refineBody hv hc.2
      have := hs.nclasses_le_256
      exact ⟨_, rfl, hs', by simp only [hc']; omega⟩)
    _ hinit 258 (by simp)
  have hc : s.nclasses ≤ s.c := by simpa [hs.not_saturated] using hdone
  have hmoved : ∀ k, 0 ≤ s.remap.getD k (-1) ↔ Split ec B k := fun k ↦ by
    rw [hs.remap_iff, and_iff_right_iff_imp]
    rintro ⟨b, -, rfl, -⟩
    exact Nat.lt_of_lt_of_le (hv.of_lt b) (hs.nclasses_le.trans hc)
  have hlt : ∀ b, part ec B s.remap b < s.nclasses := by
    intro b
    by_cases hb : 0 ≤ s.remap.getD (ec.of b) (-1) ∧ B.test b = true
    · rw [part_of_moved hb.1 hb.2]
      have := (hs.remap_mem _ hb.1).2
      omega
    · rw [part_of_not_moved hb]
      exact Nat.lt_of_lt_of_le (hv.of_lt b) hs.nclasses_le
  set ec' : Eclasses :=
    { ec := bytes.map fun b ↦
        if 0 ≤ s.remap.getD (ec.of b) (-1) && B.test b then
          toUInt8 (s.remap.getD (ec.of b) (-1)).toNat
        else ec.of b
      nclasses := s.nclasses } with hec'
  have hof : ∀ b, ec'.of b = part ec B s.remap b := by
    intro b
    have hnarrow := Nat.lt_of_lt_of_le (hlt b) hs.nclasses_le_256
    have : ec'.of b = if 0 ≤ s.remap.getD (ec.of b) (-1) && B.test b then
        toUInt8 (s.remap.getD (ec.of b) (-1)).toNat else ec.of b := by
      simp [of, hec', bytes]
    rw [this]
    unfold part at hnarrow ⊢
    split_ifs at hnarrow ⊢
    · rw [toUInt8, Nat.mod_eq_of_lt hnarrow]
    · rfl
  refine ⟨ec', ?_, ⟨by simp [hec', bytes], fun b ↦ (hof b).symm ▸ hlt b, fun k hk ↦ ?_⟩,
    fun b b' ↦ ?_⟩
  · rw [refine, hrun, Option.map_some, hs.not_saturated]
    rfl
  · obtain ⟨b, hb⟩ := hs.onto k hk
    exact ⟨b, (hof b).trans hb⟩
  · rw [hof, hof]
    constructor
    · intro he
      by_cases hb : 0 ≤ s.remap.getD (ec.of b) (-1) ∧ B.test b = true <;>
        by_cases hb' : 0 ≤ s.remap.getD (ec.of b') (-1) ∧ B.test b' = true
      · rw [part_of_moved hb.1 hb.2, part_of_moved hb'.1 hb'.2] at he
        exact ⟨hs.remap_inj _ _ hb.1 (by omega), by rw [hb.2, hb'.2]⟩
      · rw [part_of_moved hb.1 hb.2, part_of_not_moved hb'] at he
        have := (hs.remap_mem _ hb.1).1
        have := hv.of_lt b'
        omega
      · rw [part_of_not_moved hb, part_of_moved hb'.1 hb'.2] at he
        have := (hs.remap_mem _ hb'.1).1
        have := hv.of_lt b
        omega
      · rw [part_of_not_moved hb, part_of_not_moved hb'] at he
        refine ⟨he, ?_⟩
        cases hB : B.test b <;> cases hB' : B.test b'
        · rfl
        · exact absurd ⟨(hmoved _).2 ⟨b', b, rfl, he, hB', hB⟩, hB'⟩ hb'
        · exact absurd ⟨(hmoved _).2 ⟨b, b', rfl, he.symm, hB, hB'⟩, hB⟩ hb
        · rfl
    · rintro ⟨he, hB⟩
      simp only [part, he, hB]

end Refine

/-! ### All refinements -/

/-- With 256 classes every byte is alone in its class. -/
theorem Valid.injective {ec : Eclasses} (hv : ec.Valid) (h : 256 ≤ ec.nclasses) :
    Function.Injective ec.of := by
  have hn : ec.nclasses = 256 := le_antisymm hv.nclasses_le h
  have hlt : ∀ b, ec.of b < 256 := fun b ↦ lt_of_lt_of_eq (hv.of_lt b) hn
  have hsurj : Function.Surjective fun b : Byte ↦ (⟨ec.of b, hlt b⟩ : Fin 256) :=
    fun k ↦ (hv.onto k (lt_of_lt_of_eq k.2 hn.symm)).imp fun b hb ↦ Fin.ext hb
  exact fun b b' hb ↦ Finite.injective_iff_surjective.2 hsurj (Fin.ext hb)

theorem Valid.exists_refineAll (es : List NFAEdge) {ec : Eclasses} (hv : ec.Valid) :
    ∃ ec', refineAll es ec = some ec' ∧ ec'.Valid ∧ ∀ b b', ec'.of b = ec'.of b' ↔
      ec.of b = ec.of b' ∧ ∀ e ∈ es, e.on.test b = e.on.test b' := by
  induction es generalizing ec with
  | nil => exact ⟨ec, rfl, hv, by simp⟩
  | cons e es ih =>
      rw [refineAll]
      split_ifs with he
      · -- an ε-edge has no byte in its label
        obtain ⟨ec', hrun, hv', hec'⟩ := ih hv
        refine ⟨ec', hrun, hv', fun b b' ↦ ?_⟩
        rw [hec', List.forall_mem_cons, ByteSet.empty_iff.1 he, ByteSet.empty_iff.1 he]
        simp only [true_and]
      · obtain ⟨ec₁, hrun₁, hv₁, hec₁⟩ := hv.exists_refine e.on
        rw [hrun₁, Option.bind_some]
        split_ifs with hfull
        · refine ⟨ec₁, rfl, hv₁, fun b b' ↦ ⟨fun hb ↦ ?_, fun hb ↦ ?_⟩⟩
          · obtain rfl := hv₁.injective hfull hb
            exact ⟨rfl, fun _ _ ↦ rfl⟩
          · exact (hec₁ b b').2 ⟨hb.1, hb.2 e List.mem_cons_self⟩
        · obtain ⟨ec', hrun, hv', hec'⟩ := ih hv₁
          refine ⟨ec', hrun, hv', fun b b' ↦ ?_⟩
          rw [hec', hec₁, List.forall_mem_cons, and_assoc]

/-- **Equivalence classes.**  The computation ends, with a table in which two bytes
share a class exactly if every edge covers both or neither. -/
theorem exists_computeEclasses (nfa : NFA) :
    ∃ ec, computeEclasses nfa = some ec ∧ ec.Valid ∧ ∀ b b', ec.of b = ec.of b' ↔
      ∀ st ∈ nfa.states, ∀ e ∈ st.out, e.on.test b = e.on.test b' := by
  have hof : ∀ b : Byte, of { ec := List.replicate 256 0, nclasses := 1 } b = 0 := fun b ↦ by
    rw [of, List.getD_eq_getElem?_getD, List.getElem?_getD_replicate_default_eq]
  have hv : Valid { ec := List.replicate 256 0, nclasses := 1 } :=
    ⟨List.length_replicate, fun b ↦ by rw [hof]; exact Nat.one_pos,
      fun k hk ↦ ⟨0, (hof 0).trans (Nat.lt_one_iff.1 hk).symm⟩⟩
  obtain ⟨ec, hrun, hec, hsep⟩ := hv.exists_refineAll (nfa.states.flatMap NFAState.out)
  refine ⟨ec, hrun, hec, fun b b' ↦ ?_⟩
  rw [hsep, hof, hof]
  simp only [true_and, List.mem_flatMap, forall_exists_index, and_imp]
  exact ⟨fun h st hst e he ↦ h e st hst he, fun h e st hst he ↦ h st hst e he⟩

/-- **The classes are the coarsest partition.**  Two bytes share a class exactly if every
edge has both or neither, and the ids are those below `nclasses`, each in use; they fit
into eight bits. -/
theorem computeEclasses_coarsest (nfa : NFA) : ∃ ec, computeEclasses nfa = some ec ∧
    (∀ b b', ec.of b = ec.of b' ↔
      ∀ st ∈ nfa.states, ∀ e ∈ st.out, e.on.test b = e.on.test b') ∧
    (∀ k, (∃ b, ec.of b = k) ↔ k < ec.nclasses) ∧
    1 ≤ ec.nclasses ∧ ec.nclasses ≤ 256 ∧ ec.ec.length = 256 ∧ ∀ v ∈ ec.ec, v < 256 := by
  obtain ⟨ec, hrun, hv, hsep⟩ := exists_computeEclasses nfa
  refine ⟨ec, hrun, hsep, fun k ↦ ⟨?_, hv.onto k⟩, Nat.one_le_of_lt (hv.of_lt 0), hv.nclasses_le,
    hv.length_ec, fun v hv' ↦ ?_⟩
  · rintro ⟨b, rfl⟩
    exact hv.of_lt b
  · obtain ⟨i, hi, rfl⟩ := List.mem_iff_getElem.1 hv'
    have hb := hv.of_lt ⟨i, hv.length_ec ▸ hi⟩
    rw [of, List.getD_eq_getElem _ _ hi] at hb
    exact hb.trans_le hv.nclasses_le

/-! ### Representatives -/

/-- The table after the loop has seen the bytes `bs`: an entry is still free, and then
none of them is in the class, or it is a byte of the class. -/
theorem Valid.classReps_inv {ec : Eclasses} (hv : ec.Valid) (bs : List Byte) :
    let r := bs.foldl (fun r b ↦ if r.getD (ec.of b) 0 == 256 then r.set (ec.of b) b.val else r)
      (List.replicate ec.nclasses 256)
    r.length = ec.nclasses ∧ ∀ c < ec.nclasses, (r.getD c 0 = 256 ∧ ∀ b ∈ bs, ec.of b ≠ c) ∨
      ∃ b : Byte, r.getD c 0 = b.val ∧ ec.of b = c := by
  induction bs using List.reverseRecOn with
  | nil => exact ⟨List.length_replicate, fun c hc ↦ Or.inl ⟨by simp [hc], by simp⟩⟩
  | append_singleton bs b ih =>
      simp only [List.foldl_concat]
      set r := bs.foldl (fun r b ↦ if r.getD (ec.of b) 0 == 256 then r.set (ec.of b) b.val else r)
        (List.replicate ec.nclasses 256)
      obtain ⟨hlen, hr⟩ := ih
      have hb : ec.of b < r.length := hlen ▸ hv.of_lt b
      by_cases hfree : r.getD (ec.of b) 0 = 256
      · rw [if_pos (by rw [hfree]; rfl)]
        refine ⟨(List.length_set).trans hlen, fun c hc ↦ ?_⟩
        by_cases hcb : c = ec.of b
        · exact Or.inr ⟨b, by simp [hcb, hb], hcb.symm⟩
        · have hget : (r.set (ec.of b) b.val).getD c 0 = r.getD c 0 := by
            simp [List.getElem?_set_ne (Ne.symm hcb)]
          rw [hget]
          refine (hr c hc).imp_left fun ⟨h, hno⟩ ↦ ⟨h, fun b' hb' ↦ ?_⟩
          rcases List.mem_append.1 hb' with hb' | hb'
          · exact hno b' hb'
          · rw [List.mem_singleton.1 hb']
            exact Ne.symm hcb
      · rw [if_neg (by simpa using hfree)]
        refine ⟨hlen, fun c hc ↦ (hr c hc).imp_left fun ⟨h, hno⟩ ↦ ⟨h, fun b' hb' ↦ ?_⟩⟩
        rcases List.mem_append.1 hb' with hb' | hb'
        · exact hno b' hb'
        · rw [List.mem_singleton.1 hb']
          exact fun hbc ↦ hfree (hbc ▸ h)

/-- The representative of a class is one of its bytes. -/
theorem Valid.exists_classReps {ec : Eclasses} (hv : ec.Valid) {c : Nat} (hc : c < ec.nclasses) :
    ∃ b : Byte, (classReps ec).getD c 0 = b.val ∧ ec.of b = c := by
  rcases (hv.classReps_inv bytes).2 c hc with ⟨-, hno⟩ | h
  · obtain ⟨b, hb⟩ := hv.onto c hc
    exact absurd hb (hno b (mem_bytes b))
  · exact h

end Eclasses

end LexCpp
