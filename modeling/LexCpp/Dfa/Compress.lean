import LexCpp.Dfa.Exact

/-!
# Comb compression

`compress_dfa` of `dfa.cpp`: the rows of the DFA, reduced to their live entries, are
laid over each other in one pool.  `yy_base[s]` is where row `s` starts and `yy_chk`
says which row owns a slot, so a lookup that meets a slot of another row knows that its
own row has no entry there.

The rows are packed in the order of an unstable sort.  Any sort will do: the order is a
parameter, of which only the length and the elements matter.
-/

namespace LexCpp

/-- `std::sort` with a comparator: some permutation of its input in which no element
precedes one that the comparator puts before it. -/
structure StdSort (α : Type) where
  sort : (α → α → Bool) → List α → List α
  perm : ∀ lt l, (sort lt l).Perm l
  sorted : ∀ lt l, (∀ a b, lt a b = true → lt b a = false) →
    (∀ a b c, lt b a = false → lt c b = false → lt c a = false) →
    (sort lt l).Pairwise fun a b ↦ lt b a = false

/-- One such sort. -/
def StdSort.insertion (α : Type) : StdSort α where
  sort lt l := l.insertionSort fun a b ↦ lt b a = false
  perm lt l := List.perm_insertionSort _ l
  sorted lt l hasymm htrans := by
    have : Std.Total fun a b ↦ lt b a = false := ⟨fun a b ↦ by
      cases h : lt b a with
      | false => exact Or.inl rfl
      | true => exact Or.inr (hasymm b a h)⟩
    have : IsTrans α fun a b ↦ lt b a = false := ⟨fun a b c ↦ htrans a b c⟩
    exact List.pairwise_insertionSort _ l

/-- The transitions of a state that are worth storing, as pairs of class and target. -/
def DFA.excs (dfa : DFA) (s : Nat) : List (Nat × Int) :=
  if s = 0 then []
  else (List.range dfa.nclasses).filterMap fun ec ↦
    let t := ((dfa.states[s]?.map DFAState.next).getD []).getD ec (-1)
    if 0 < t then some (ec, t) else none

structure CompressedDFA where
  yyBase : List Nat
  yyDef : List Nat
  yyNxt : List Int
  yyChk : List Int
  poolSize : Nat
deriving DecidableEq, Repr

/-- The pool while it is being filled. -/
structure Comb where
  base : List Nat
  chk : List Int
  nxt : List Int

namespace Comb

/-- `std::vector::resize`. -/
def resize {α : Type} (l : List α) (n : Nat) (a : α) : List α :=
  l.take n ++ List.replicate (n - l.length) a

def fitsAt (c : Comb) (base : Nat) (excs : List (Nat × Int)) : Bool :=
  excs.all fun e ↦ !(base + e.1 < c.chk.length && c.chk.getD (base + e.1) (-1) != -1)

/-- The end of a row placed at `base`. -/
def rowEnd (base : Nat) (excs : List (Nat × Int)) : Nat :=
  excs.foldl (fun hi e ↦ max hi (base + e.1 + 1)) 0

/-- Grow the pool until the row fits into it. -/
def growTo (c : Comb) (hi : Nat) : Comb :=
  if c.chk.length < hi then { c with chk := resize c.chk hi (-1), nxt := resize c.nxt hi 0 } else c

def placeAt (c : Comb) (base s : Nat) (excs : List (Nat × Int)) : Comb :=
  excs.foldl (fun c e ↦
    { c with chk := c.chk.set (base + e.1) s, nxt := c.nxt.set (base + e.1) e.2 })
    (c.growTo (rowEnd base excs))

/-- The lowest base at which the row fits. -/
def findBase (c : Comb) (excs : List (Nat × Int)) : Nat :=
  ((List.range (c.chk.length + 1)).find? fun base ↦ c.fitsAt base excs).getD 0

/-- Place the row of one state. -/
def placeRow (dfa : DFA) (c : Comb) (s : Nat) : Comb :=
  let best := c.findBase (dfa.excs s)
  { c with base := c.base.set s best }.placeAt best s (dfa.excs s)

end Comb

def compressDfa (std : StdSort Nat) (dfa : DFA) : CompressedDFA :=
  let nstates := dfa.states.length
  let order := std.sort (fun a b ↦ (dfa.excs b).length < (dfa.excs a).length)
    ((List.range' 1 (nstates - 1)).filter fun s ↦ !(dfa.excs s).isEmpty)
  let c := order.foldl (Comb.placeRow dfa)
    { base := List.replicate nstates 0
      chk := List.replicate dfa.nclasses (-1)
      nxt := List.replicate dfa.nclasses 0 }
  -- pad the pool so that every row's full class range stays in bounds
  let maxBase := c.base.foldl (fun m v ↦ if m < v then v else m) 0
  let needed := max (maxBase + dfa.nclasses) c.chk.length
  { yyBase := c.base
    yyDef := List.replicate nstates 0
    yyNxt := Comb.resize c.nxt needed 0
    yyChk := Comb.resize c.chk needed (-1)
    poolSize := needed }

namespace Comb

/-! ## Growing and placing -/

variable {dfa : DFA} {c : Comb}

theorem getD_resize {α : Type} (l : List α) {n : Nat} (a : α) (h : l.length ≤ n) (i : Nat) :
    (resize l n a).getD i a = l.getD i a := by
  rw [resize, List.take_of_length_le h]
  rcases Nat.lt_or_ge i l.length with hi | hi
  · exact List.getD_append l _ a i hi
  · rw [List.getD_append_right l _ a i hi, List.getD_eq_getElem?_getD,
      List.getElem?_getD_replicate_default_eq, List.getD_eq_default l a hi]

theorem length_resize {α : Type} (l : List α) {n : Nat} (a : α) (h : l.length ≤ n) :
    (resize l n a).length = n := by
  rw [resize, List.take_of_length_le h, List.length_append, List.length_replicate]
  omega

theorem le_rowEnd (base : Nat) (excs : List (Nat × Int)) {e : Nat × Int} (he : e ∈ excs) :
    base + e.1 < rowEnd base excs := by
  have hmono : ∀ (l : List (Nat × Int)) (m : Nat),
      m ≤ l.foldl (fun hi e ↦ max hi (base + e.1 + 1)) m ∧
        ∀ e ∈ l, base + e.1 + 1 ≤ l.foldl (fun hi e ↦ max hi (base + e.1 + 1)) m := by
    intro l
    induction l with
    | nil => exact fun m ↦ ⟨le_refl m, by simp⟩
    | cons a l ih =>
        intro m
        obtain ⟨h₁, h₂⟩ := ih (max m (base + a.1 + 1))
        rw [List.foldl_cons]
        refine ⟨(le_max_left _ _).trans h₁, fun e he ↦ ?_⟩
        rcases List.mem_cons.1 he with rfl | he
        · exact (le_max_right _ _).trans h₁
        · exact h₂ e he
  exact (hmono excs 0).2 e he

/-- What one row's stores do to the pool. -/
theorem foldl_place (base s : Nat) (excs : List (Nat × Int)) (hnd : (excs.map Prod.fst).Nodup)
    (hin : ∀ e ∈ excs, base + e.1 < c.chk.length) (hlen : c.nxt.length = c.chk.length) :
    let c' := excs.foldl (fun c e ↦
      { c with chk := c.chk.set (base + e.1) s, nxt := c.nxt.set (base + e.1) e.2 }) c
    c'.base = c.base ∧ c'.chk.length = c.chk.length ∧ c'.nxt.length = c.nxt.length ∧
      (∀ e ∈ excs, c'.chk.getD (base + e.1) (-1) = s ∧ c'.nxt.getD (base + e.1) 0 = e.2) ∧
      ∀ i, (∀ e ∈ excs, i ≠ base + e.1) →
        c'.chk.getD i (-1) = c.chk.getD i (-1) ∧ c'.nxt.getD i 0 = c.nxt.getD i 0 := by
  induction excs generalizing c with
  | nil => exact ⟨rfl, rfl, rfl, by simp, fun _ _ ↦ ⟨rfl, rfl⟩⟩
  | cons e excs ih =>
      rw [List.map_cons, List.nodup_cons] at hnd
      have he := hin e List.mem_cons_self
      obtain ⟨hb, hl, hl', hput, hkeep⟩ := ih (c := { c with
        chk := c.chk.set (base + e.1) s, nxt := c.nxt.set (base + e.1) e.2 }) hnd.2
        (fun e' he' ↦ by
          rw [List.length_set]
          exact hin e' (List.mem_cons_of_mem e he'))
        (by simpa using hlen)
      have hfirst := hkeep (base + e.1) fun e' he' hc ↦ hnd.1 (List.mem_map.2 ⟨e', he', by omega⟩)
      refine ⟨hb, by simpa using hl, by simpa using hl', fun e' he' ↦ ?_, fun i hi ↦ ?_⟩
      · rcases List.mem_cons.1 he' with rfl | he'
        · rw [List.foldl_cons, hfirst.1, hfirst.2]
          simp [he, hlen]
        · exact hput e' he'
      · have hne := hi e List.mem_cons_self
        obtain ⟨h₁, h₂⟩ := hkeep i fun e' he' ↦ hi e' (List.mem_cons_of_mem e he')
        rw [List.foldl_cons, h₁, h₂]
        simp [List.getElem?_set_ne (Ne.symm hne)]

/-! ## The pool -/

/-- The rows of `placed` lie in the pool without overlap. -/
structure Holds (dfa : DFA) (placed : List Nat) (c : Comb) : Prop where
  length_base : c.base.length = dfa.states.length
  length_nxt : c.nxt.length = c.chk.length
  put : ∀ s ∈ placed, ∀ e ∈ dfa.excs s, c.chk.getD (c.base.getD s 0 + e.1) (-1) = s ∧
    c.nxt.getD (c.base.getD s 0 + e.1) 0 = e.2
  own : ∀ i, c.chk.getD i (-1) = -1 ∨ ∃ s ∈ placed, c.chk.getD i (-1) = (s : Nat) ∧
    ∃ e ∈ dfa.excs s, i = c.base.getD s 0 + e.1

theorem growTo_spec (hlen : c.nxt.length = c.chk.length) (hi : Nat) :
    (c.growTo hi).base = c.base ∧ hi ≤ (c.growTo hi).chk.length ∧
      (c.growTo hi).nxt.length = (c.growTo hi).chk.length ∧
      ∀ i, (c.growTo hi).chk.getD i (-1) = c.chk.getD i (-1) ∧
        (c.growTo hi).nxt.getD i 0 = c.nxt.getD i 0 := by
  unfold growTo
  split_ifs with h
  · refine ⟨rfl, (length_resize c.chk (-1) h.le).ge, ?_, fun i ↦
      ⟨getD_resize c.chk (-1) h.le i, getD_resize c.nxt 0 (hlen ▸ h.le) i⟩⟩
    rw [length_resize c.chk (-1) h.le, length_resize c.nxt 0 (hlen ▸ h.le)]
  · exact ⟨rfl, Nat.le_of_not_lt h, hlen, fun _ ↦ ⟨rfl, rfl⟩⟩

theorem fitsAt_iff {base : Nat} {excs : List (Nat × Int)} :
    c.fitsAt base excs = true ↔ ∀ e ∈ excs, c.chk.getD (base + e.1) (-1) = -1 := by
  simp only [fitsAt, List.all_eq_true, Bool.not_eq_true', Bool.and_eq_false_iff, decide_eq_false_iff_not,
    bne_eq_false_iff_eq]
  refine forall₂_congr fun e _ ↦ ⟨fun h ↦ ?_, Or.inr⟩
  rcases h with h | h
  · exact List.getD_eq_default _ _ (Nat.le_of_not_lt h)
  · exact h

/-- There is always a base at which a row fits: behind the pool. -/
theorem fitsAt_findBase (c : Comb) (excs : List (Nat × Int)) :
    c.fitsAt (c.findBase excs) excs = true := by
  have hend : c.fitsAt c.chk.length excs = true :=
    fitsAt_iff.2 fun e _ ↦ List.getD_eq_default _ _ (Nat.le_add_right _ _)
  unfold findBase
  cases hf : (List.range (c.chk.length + 1)).find? fun base ↦ c.fitsAt base excs with
  | none =>
      have := List.find?_eq_none.1 hf c.chk.length (List.mem_range.2 (Nat.lt_succ_self _))
      exact absurd hend this
  | some b =>
      have := List.find?_some hf
      exact this

theorem excs_nodup (dfa : DFA) (s : Nat) : ((dfa.excs s).map Prod.fst).Nodup := by
  unfold DFA.excs
  split_ifs
  · exact List.nodup_nil
  · rw [List.map_filterMap]
    refine List.Nodup.filterMap (fun a b x ha hb ↦ ?_) List.nodup_range
    simp only [Option.mem_def, Option.map_eq_some_iff] at ha hb
    obtain ⟨p, hp, rfl⟩ := ha
    obtain ⟨q, hq, hqp⟩ := hb
    split_ifs at hp hq
    cases hp
    cases hq
    exact hqp.symm

/-- Placing one more row. -/
theorem Holds.placeRow {placed : List Nat} (h : Holds dfa placed c) {s : Nat}
    (hs : s ∉ placed) (hlt : s < dfa.states.length) :
    Holds dfa (s :: placed) (Comb.placeRow dfa c s) := by
  set best := c.findBase (dfa.excs s) with hbest
  have hfit := fitsAt_iff.1 (fitsAt_findBase c (dfa.excs s))
  rw [← hbest] at hfit
  set c₀ : Comb := { c with base := c.base.set s best } with hc₀
  obtain ⟨hb, hhi, hlen, hgrow⟩ := growTo_spec (c := c₀) h.length_nxt (rowEnd best (dfa.excs s))
  obtain ⟨hb', hl, hl', hput, hkeep⟩ := foldl_place (c := c₀.growTo (rowEnd best (dfa.excs s)))
    best s (dfa.excs s) (excs_nodup dfa s)
    (fun e he ↦ Nat.lt_of_lt_of_le (le_rowEnd best _ he) hhi) hlen
  set c' := Comb.placeRow dfa c s with hc'
  have hbase : c'.base = c.base.set s best := hb'.trans hb
  have hget : ∀ r, r ≠ s → c'.base.getD r 0 = c.base.getD r 0 := fun r hr ↦ by
    rw [hbase]
    simp [List.getElem?_set_ne (Ne.symm hr)]
  have hself : c'.base.getD s 0 = best := by
    rw [hbase]
    simp [h.length_base, hlt]
  -- a slot another row owns is not one of the new row's
  have hold : ∀ i, c.chk.getD i (-1) ≠ -1 → c'.chk.getD i (-1) = c.chk.getD i (-1) ∧
      c'.nxt.getD i 0 = c.nxt.getD i 0 := fun i hi ↦ by
    obtain ⟨h₁, h₂⟩ := hkeep i fun e he hie ↦ hi (hie ▸ hfit e he)
    exact ⟨h₁.trans (hgrow i).1, h₂.trans (hgrow i).2⟩
  refine ⟨by rw [hbase, List.length_set, h.length_base], hl'.trans (hlen.trans hl.symm),
    fun r hr e he ↦ ?_, fun i ↦ ?_⟩
  · rcases List.mem_cons.1 hr with rfl | hr
    · rw [hself]
      exact hput e he
    · obtain ⟨h₁, h₂⟩ := h.put r hr e he
      rw [hget r fun hrs ↦ hs (hrs ▸ hr)]
      obtain ⟨h₃, h₄⟩ := hold (c.base.getD r 0 + e.1) (by rw [h₁]; omega)
      exact ⟨h₃.trans h₁, h₄.trans h₂⟩
  · by_cases hi : ∃ e ∈ dfa.excs s, i = best + e.1
    · obtain ⟨e, he, rfl⟩ := hi
      exact Or.inr ⟨s, List.mem_cons_self, (hput e he).1, e, he, by rw [hself]⟩
    · obtain ⟨h₁, -⟩ := hkeep i fun e he hie ↦ hi ⟨e, he, hie⟩
      have hchk : c'.chk.getD i (-1) = c.chk.getD i (-1) := h₁.trans (hgrow i).1
      rw [hchk]
      refine (h.own i).imp_right fun ⟨r, hr, ho, e, he, hie⟩ ↦
        ⟨r, List.mem_cons_of_mem s hr, ho, e, he, ?_⟩
      rw [hget r fun hrs ↦ hs (hrs ▸ hr)]
      exact hie

theorem Holds.foldl_placeRow {placed : List Nat} (order : List Nat) (h : Holds dfa placed c)
    (hnd : order.Nodup) (hdis : ∀ s ∈ order, s ∉ placed)
    (hlt : ∀ s ∈ order, s < dfa.states.length) :
    ∃ all, Holds dfa all (order.foldl (Comb.placeRow dfa) c) ∧
      ∀ s, s ∈ all ↔ s ∈ placed ∨ s ∈ order := by
  induction order generalizing placed c with
  | nil => exact ⟨placed, h, by simp⟩
  | cons s order ih =>
      rw [List.nodup_cons] at hnd
      obtain ⟨all, hall, hmem⟩ := ih (h.placeRow (hdis s List.mem_cons_self)
        (hlt s List.mem_cons_self)) hnd.2 (fun r hr hc ↦ by
          rcases List.mem_cons.1 hc with rfl | hc
          · exact hnd.1 hr
          · exact hdis r (List.mem_cons_of_mem s hr) hc)
        (fun r hr ↦ hlt r (List.mem_cons_of_mem s hr))
      refine ⟨all, hall, fun r ↦ ?_⟩
      rw [hmem, List.mem_cons, List.mem_cons]
      tauto

end Comb

/-! ## Lookups -/

/-- The lookup of `YY_TRANSITION` over the packed tables. -/
def CompressedDFA.lookup (c : CompressedDFA) (s ec : Nat) : Int :=
  if c.yyChk.getD (c.yyBase.getD s 0 + ec) (-1) = s then c.yyNxt.getD (c.yyBase.getD s 0 + ec) 0
  else -1

theorem mem_excs {dfa : DFA} {s : Nat} {e : Nat × Int} : e ∈ dfa.excs s ↔ s ≠ 0 ∧
    e.1 < dfa.nclasses ∧ e.2 = ((dfa.states[s]?.map DFAState.next).getD []).getD e.1 (-1) ∧
      0 < e.2 := by
  unfold DFA.excs
  split_ifs with hs
  · simp [hs]
  · simp only [List.mem_filterMap, List.mem_range, ne_eq, hs, not_false_eq_true, true_and]
    constructor
    · rintro ⟨ec, hec, he⟩
      split_ifs at he with ht
      cases he
      exact ⟨hec, rfl, ht⟩
    · rintro ⟨hec, ht, hpos⟩
      refine ⟨e.1, hec, ?_⟩
      rw [← ht, if_pos hpos]

theorem le_foldl_max (l : List Nat) (v : Nat) (hv : v ∈ l) :
    v ≤ l.foldl (fun m v ↦ if m < v then v else m) 0 := by
  have hmono : ∀ (l : List Nat) (m : Nat), m ≤ l.foldl (fun m v ↦ if m < v then v else m) m ∧
      ∀ v ∈ l, v ≤ l.foldl (fun m v ↦ if m < v then v else m) m := by
    intro l
    induction l with
    | nil => exact fun m ↦ ⟨le_refl m, by simp⟩
    | cons a l ih =>
        intro m
        obtain ⟨h₁, h₂⟩ := ih (if m < a then a else m)
        have hle : m ≤ (if m < a then a else m) ∧ a ≤ (if m < a then a else m) := by
          split_ifs <;> omega
        rw [List.foldl_cons]
        refine ⟨hle.1.trans h₁, fun v hv ↦ ?_⟩
        rcases List.mem_cons.1 hv with rfl | hv
        · exact hle.2.trans h₁
        · exact h₂ v hv
  exact (hmono l 0).2 v hv

/-- The pool before the padding, and what the padding leaves of it. -/
theorem exists_comb (std : StdSort Nat) (dfa : DFA) : ∃ (c : Comb) (placed : List Nat) (needed : Nat),
    Comb.Holds dfa placed c ∧
    (∀ s, s ∈ placed ↔ (1 ≤ s ∧ s < dfa.states.length) ∧ dfa.excs s ≠ []) ∧
    c.chk.length ≤ needed ∧ (∀ v ∈ c.base, v + dfa.nclasses ≤ needed) ∧
    compressDfa std dfa =
      { yyBase := c.base, yyDef := List.replicate dfa.states.length 0
        yyNxt := Comb.resize c.nxt needed 0, yyChk := Comb.resize c.chk needed (-1)
        poolSize := needed } := by
  set order := std.sort (fun a b ↦ (dfa.excs b).length < (dfa.excs a).length)
    ((List.range' 1 (dfa.states.length - 1)).filter fun s ↦ !(dfa.excs s).isEmpty) with horder
  have hperm : order.Perm ((List.range' 1 (dfa.states.length - 1)).filter fun s ↦
      !(dfa.excs s).isEmpty) := std.perm _ _
  have hmem : ∀ r, r ∈ order ↔ (1 ≤ r ∧ r < dfa.states.length) ∧ dfa.excs r ≠ [] := fun r ↦ by
    rw [hperm.mem_iff, List.mem_filter, List.mem_range'_1]
    simp only [Bool.not_eq_true', List.isEmpty_eq_false_iff, ne_eq]
    refine and_congr_left fun _ ↦ ?_
    omega
  have hinit : Comb.Holds dfa [] { base := List.replicate dfa.states.length 0
                                   chk := List.replicate dfa.nclasses (-1)
                                   nxt := List.replicate dfa.nclasses 0 } :=
    ⟨List.length_replicate, by simp, by simp, fun i ↦ Or.inl (by
      rw [List.getD_eq_getElem?_getD, List.getElem?_getD_replicate_default_eq])⟩
  obtain ⟨placed, hplaced, hin⟩ := hinit.foldl_placeRow order
    (hperm.nodup_iff.2 (List.Nodup.filter _ List.nodup_range')) (by simp)
    (fun r hr ↦ ((hmem r).1 hr).1.2)
  refine ⟨_, placed, _, hplaced, fun s ↦ ?_, le_max_right _ _, fun v hv ↦ ?_, rfl⟩
  · rw [hin, hmem]
    simp only [List.not_mem_nil, false_or]
  · exact (Nat.add_le_add_right (le_foldl_max _ v hv) _).trans (le_max_left _ _)

theorem compressDfa_lengths (std : StdSort Nat) (dfa : DFA) :
    (compressDfa std dfa).yyChk.length = (compressDfa std dfa).poolSize ∧
    (compressDfa std dfa).yyNxt.length = (compressDfa std dfa).poolSize ∧
    (compressDfa std dfa).yyBase.length = dfa.states.length := by
  obtain ⟨c, placed, needed, hc, -, hle, -, heq⟩ := exists_comb std dfa
  rw [heq]
  exact ⟨Comb.length_resize _ _ hle, Comb.length_resize _ _ (hc.length_nxt ▸ hle), hc.length_base⟩

/-- **Comb packing is lossless and in bounds**, whatever the sort does with rows of one
length: a live entry is found, and every other lookup gives `-1`. -/
theorem compressDfa_lookup (std : StdSort Nat) (dfa : DFA) {s ec : Nat}
    (hs : s < dfa.states.length) (hec : ec < dfa.nclasses) :
    (compressDfa std dfa).yyBase.getD s 0 + ec < (compressDfa std dfa).poolSize ∧
    (compressDfa std dfa).yyChk.length = (compressDfa std dfa).poolSize ∧
    (compressDfa std dfa).yyNxt.length = (compressDfa std dfa).poolSize ∧
    (compressDfa std dfa).lookup s ec =
      if s ≠ 0 ∧ 0 < ((dfa.states[s]?.map DFAState.next).getD []).getD ec (-1) then
        ((dfa.states[s]?.map DFAState.next).getD []).getD ec (-1)
      else -1 := by
  obtain ⟨hchk, hnxt, hbase⟩ := compressDfa_lengths std dfa
  refine ⟨?_, hchk, hnxt, ?_⟩
  all_goals obtain ⟨c, placed, needed, hc, hplaced, hle, hpad, heq⟩ := exists_comb std dfa
  all_goals rw [heq] at hbase ⊢
  · have hs' : s < c.base.length := hbase ▸ hs
    have := hpad _ (List.getElem_mem hs')
    change c.base.getD s 0 + ec < needed
    rw [List.getD_eq_getElem _ _ hs']
    omega
  · have hle' : c.nxt.length ≤ needed := hc.length_nxt ▸ hle
    simp only [CompressedDFA.lookup, Comb.getD_resize _ _ hle, Comb.getD_resize _ _ hle']
    set t := ((dfa.states[s]?.map DFAState.next).getD []).getD ec (-1) with ht
    by_cases hlive : s ≠ 0 ∧ 0 < t
    · have he : (ec, t) ∈ dfa.excs s := mem_excs.2 ⟨hlive.1, hec, ht, hlive.2⟩
      have hs' : s ∈ placed := (hplaced s).2
        ⟨⟨Nat.one_le_iff_ne_zero.2 hlive.1, hs⟩, List.ne_nil_of_mem he⟩
      obtain ⟨h₁, h₂⟩ := hc.put s hs' _ he
      rw [if_pos h₁, if_pos hlive, h₂]
    · rw [if_neg hlive]
      refine if_neg fun hchk ↦ hlive ?_
      rcases hc.own (c.base.getD s 0 + ec) with ho | ⟨r, -, ho, e, he, hie⟩
      · rw [hchk] at ho
        omega
      · rw [hchk] at ho
        obtain rfl : s = r := by exact_mod_cast ho
        obtain ⟨h₀, -, h₂, h₃⟩ := mem_excs.1 he
        have hee : e.1 = ec := by omega
        rw [hee, ← ht] at h₂
        exact ⟨h₀, h₂ ▸ h₃⟩

/-! ## The packed tables of a DFA -/

/-- The entry of a row for a class. -/
def DFA.entry (dfa : DFA) (s ec : Nat) : Int :=
  ((dfa.states[s]?.map DFAState.next).getD []).getD ec (-1)

/-- State 0 is dead, and no transition leads into it. -/
structure DFA.DeadZero (dfa : DFA) : Prop where
  row_zero : ∀ ec < dfa.nclasses, dfa.entry 0 ec = -1
  target : ∀ s < dfa.states.length, s ≠ 0 → ∀ ec < dfa.nclasses,
    dfa.entry s ec = -1 ∨ (1 ≤ dfa.entry s ec ∧ dfa.entry s ec < dfa.states.length)

/-- **The packed tables are the dense ones.**  For any outcome of the sort: whatever the
pool holds, the search finds a base at which the row fits; every index the scanner forms
lies in both arrays; and every lookup gives the entry of the row. -/
theorem compressDfa_lossless (dfa : DFA) (hd : dfa.DeadZero) (std : StdSort Nat) :
    (∀ (c : Comb) (s : Nat), c.fitsAt (c.findBase (dfa.excs s)) (dfa.excs s) = true) ∧
    (compressDfa std dfa).yyNxt.length = (compressDfa std dfa).poolSize ∧
    (compressDfa std dfa).yyChk.length = (compressDfa std dfa).poolSize ∧
    (compressDfa std dfa).yyBase.length = dfa.states.length ∧
    ∀ s < dfa.states.length, ∀ ec < dfa.nclasses,
      (compressDfa std dfa).yyBase.getD s 0 + ec < (compressDfa std dfa).poolSize ∧
      (compressDfa std dfa).lookup s ec = dfa.entry s ec := by
  obtain ⟨hchk, hnxt, hbase⟩ := compressDfa_lengths std dfa
  refine ⟨fun c s ↦ Comb.fitsAt_findBase c _, hnxt, hchk, hbase, fun s hs ec hec ↦ ?_⟩
  obtain ⟨hlt, -, -, hlook⟩ := compressDfa_lookup std dfa hs hec
  refine ⟨hlt, hlook.trans ?_⟩
  change (if s ≠ 0 ∧ 0 < dfa.entry s ec then dfa.entry s ec else -1) = dfa.entry s ec
  by_cases hs₀ : s = 0
  · subst hs₀
    rw [if_neg fun h ↦ h.1 rfl, hd.row_zero ec hec]
  · rcases hd.target s hs hs₀ ec hec with he | ⟨hpos, -⟩
    · rw [he]
      exact if_neg fun h ↦ absurd h.2 (by decide)
    · exact if_pos ⟨hs₀, hpos⟩

/-- Rows with holes that fill each other. -/
def holesDfa : DFA :=
  { states := [{ next := [-1, -1, -1] }, { next := [2, -1, 3] }, { next := [-1, 1, -1] },
      { next := [3, -1, -1] }]
    condStarts := []
    eclasses := { ec := [], nclasses := 3 }
    nclasses := 3
    metaIds := []
    nmeta := 0 }

theorem compressDfa_lossless_holes :
    holesDfa.DeadZero ∧ (compressDfa (.insertion Nat) holesDfa).yyChk.length =
      (compressDfa (.insertion Nat) holesDfa).poolSize ∧
    (compressDfa (.insertion Nat) holesDfa).lookup 1 2 = 3 := by
  have hd : holesDfa.DeadZero := ⟨by decide, by decide⟩
  obtain ⟨-, -, hchk, -, hlook⟩ := compressDfa_lossless holesDfa hd (.insertion Nat)
  exact ⟨hd, hchk, (hlook 1 (by decide) 2 (by decide)).2⟩

end LexCpp
