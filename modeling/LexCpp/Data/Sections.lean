import Mathlib

/-!
# Arrays kept in a file

A file as a sequence of sections: the entries of an array one after the other, bytes that are passed
over, and values that have to be the expected ones.  Reading stores every entry as soon as it is read.
So a file that is refused halfway leaves the arrays as they were only as far as it repeats what
they hold (`readAll_arrays_eq_iff`).
-/

universe u v w

variable {ι : Type u} {β : Type v} {γ : Type w}

/-! ## Cells -/

/-- The first `n` cells of a width, as far as they are complete. -/
def cells (width : Nat) : Nat → List β → List (List β)
  | 0, _ => []
  | n + 1, r => if r.length < width then [] else r.take width :: cells width n (r.drop width)

theorem length_cells_le (width n : Nat) (r : List β) : (cells width n r).length ≤ n := by
  induction n generalizing r with
  | zero => exact le_rfl
  | succ n ih =>
      unfold cells
      split_ifs
      · exact Nat.zero_le _
      · exact Nat.succ_le_succ (ih _)

theorem length_cells_eq_iff (width n : Nat) (r : List β) :
    (cells width n r).length = n ↔ width * n ≤ r.length := by
  induction n generalizing r with
  | zero => exact iff_of_true rfl (Nat.zero_le _)
  | succ n ih =>
      have hsucc : width * (n + 1) = width + width * n := by rw [Nat.mul_succ, Nat.add_comm]
      unfold cells
      by_cases h : r.length < width
      · rw [if_pos h]
        exact iff_of_false (Nat.succ_ne_zero n).symm fun hle ↦ by omega
      · rw [if_neg h, List.length_cons, Nat.add_right_cancel_iff, ih, List.length_drop]
        omega

/-- What comes after the cells does not matter. -/
theorem cells_append {width n : Nat} {r : List β} (h : width * n ≤ r.length) (x : List β) :
    cells width n (r ++ x) = cells width n r := by
  induction n generalizing r with
  | zero => rfl
  | succ n ih =>
      have hsucc : width * (n + 1) = width + width * n := by rw [Nat.mul_succ, Nat.add_comm]
      have hw : width ≤ r.length := by omega
      unfold cells
      rw [if_neg (not_lt.2 hw), if_neg (not_lt.2 (hw.trans (by simp))), List.take_append_of_le_length hw,
        List.drop_append_of_le_length hw, ih (by rw [List.length_drop]; omega)]

/-- Entries written one after the other. -/
theorem cells_flatMap {width : Nat} {enc : γ → List β} (henc : ∀ v, (enc v).length = width) {n : Nat}
    {vs : List γ} (h : n ≤ vs.length) (x : List β) :
    cells width n (vs.flatMap enc ++ x) = (vs.take n).map enc := by
  induction n generalizing vs with
  | zero => rfl
  | succ n ih =>
      cases vs with
      | nil => exact absurd h (Nat.not_succ_le_zero n)
      | cons v vs =>
          have hv : (enc v).length = width := henc v
          unfold cells
          rw [List.flatMap_cons, List.append_assoc, if_neg (by simp [hv]), List.take_left' hv, List.drop_left' hv,
            ih (Nat.le_of_succ_le_succ h)]
          rfl

theorem length_flatMap_cells {width : Nat} {enc : γ → List β} (henc : ∀ v, (enc v).length = width)
    (vs : List γ) : (vs.flatMap enc).length = width * vs.length := by
  induction vs with
  | nil => rfl
  | cons v vs ih => rw [List.flatMap_cons, List.length_append, ih, henc, List.length_cons, Nat.mul_succ, Nat.add_comm]

theorem drop_flatMap_cells {width : Nat} {enc : γ → List β} (henc : ∀ v, (enc v).length = width) (n : Nat)
    (vs : List γ) : (vs.flatMap enc).drop (width * n) = (vs.drop n).flatMap enc := by
  induction n generalizing vs with
  | zero => rfl
  | succ n ih =>
      cases vs with
      | nil => simp
      | cons v vs =>
          rw [List.flatMap_cons, Nat.mul_succ, Nat.add_comm, ← List.drop_drop, List.drop_left' (henc v), ih,
            List.drop_succ_cons]

/-- An array whose first entries have been stored anew. -/
def overwrite (xs old : List γ) : List γ := xs ++ old.drop xs.length

theorem overwrite_of_length_eq {xs old : List γ} (h : old.length = xs.length) : overwrite xs old = xs := by
  rw [overwrite, ← h, List.drop_length, List.append_nil]

theorem overwrite_eq_self_iff {xs old : List γ} : overwrite xs old = old ↔ xs <+: old := by
  constructor
  · exact fun h ↦ ⟨_, h⟩
  · rintro ⟨ys, rfl⟩
    rw [overwrite, List.drop_left]

/-! ## Sections -/

inductive FileSection (ι : Type u) (γ : Type w) where
  /-- The entries of an array. -/
  | fill (a : ι) (width n : Nat)
  /-- Bytes of no interest. -/
  | skip (n : Nat)
  /-- A value that has to be the given one. -/
  | expect (width : Nat) (v : γ)
  /-- A condition on what was read before. -/
  | check (ok : Bool)

namespace FileSection

variable [DecidableEq ι] [DecidableEq γ] (dec : List β → γ)

def size : FileSection ι γ → Nat
  | fill _ width n => width * n
  | skip n => n
  | expect width _ => width
  | check _ => 0

/-- The array that the section is about. -/
def target : FileSection ι γ → Option ι
  | fill a _ _ => some a
  | _ => none

/-- Reading the section from `r` succeeds. -/
def Passes (r : List β) : FileSection ι γ → Prop
  | fill _ width n => width * n ≤ r.length
  | skip n => n ≤ r.length
  | expect width v => width ≤ r.length ∧ dec (r.take width) = v
  | check ok => ok = true

instance (r : List β) (s : FileSection ι γ) : Decidable (s.Passes dec r) :=
  match s with
  | fill _ width n => inferInstanceAs (Decidable (width * n ≤ r.length))
  | skip n => inferInstanceAs (Decidable (n ≤ r.length))
  | expect width v => inferInstanceAs (Decidable (width ≤ r.length ∧ dec (r.take width) = v))
  | check ok => inferInstanceAs (Decidable (ok = true))

/-- The arrays, with the entries stored that `r` has for the section. -/
def store (r : List β) (m : ι → List γ) : FileSection ι γ → ι → List γ
  | fill a width n => Function.update m a (overwrite ((cells width n r).map dec) (m a))
  | _ => m

/-- What is left to read, if all went well, and the arrays. -/
def read (s : FileSection ι γ) (r : List β) (m : ι → List γ) : Option (List β) × (ι → List γ) :=
  (if s.Passes dec r then some (r.drop s.size) else none, s.store dec r m)

/-- The entries that `r` has for the section are in the array already. -/
def Repeats (r : List β) (m : ι → List γ) : FileSection ι γ → Prop
  | fill a width n => (cells width n r).map dec <+: m a
  | _ => True

/-- The bytes `c` make up the section, as a file of the arrays `m` has it. -/
def Stores (m : ι → List γ) (c : List β) : FileSection ι γ → Prop
  | fill a width n => c.length = width * n ∧ (cells width n c).map dec = m a
  | skip n => c.length = n
  | expect width v => c.length = width ∧ dec c = v
  | check ok => c = [] ∧ ok = true

end FileSection

/-! ## Files -/

section Files

variable [DecidableEq ι] [DecidableEq γ] (dec : List β → γ)

/-- The sections in order, up to the first that fails. -/
def readAll : List (FileSection ι γ) → List β → (ι → List γ) → Option (List β) × (ι → List γ)
  | [], r, m => (some r, m)
  | s :: ss, r, m =>
      match s.read dec r m with
      | (some r, m) => readAll ss r m
      | (none, m) => (none, m)

/-- All the sections can be read. -/
def Accepted : List (FileSection ι γ) → List β → Prop
  | [], _ => True
  | s :: ss, r => s.Passes dec r ∧ Accepted ss (r.drop s.size)

/-- As far as they are read, the sections have what is in the arrays already. -/
def Agrees (m : ι → List γ) : List (FileSection ι γ) → List β → Prop
  | [], _ => True
  | s :: ss, r => s.Repeats dec r m ∧ (s.Passes dec r → Agrees m ss (r.drop s.size))

/-- The bytes are those of a file of the arrays `m`. -/
def Stored (m : ι → List γ) : List (FileSection ι γ) → List β → Prop
  | [], r => r = []
  | s :: ss, r => ∃ c k, r = c ++ k ∧ s.Stores dec m c ∧ Stored m ss k

def totalSize (ss : List (FileSection ι γ)) : Nat := (ss.map FileSection.size).sum

variable {dec} {m : ι → List γ} {r : List β} {s : FileSection ι γ} {ss : List (FileSection ι γ)}

theorem readAll_cons_of_passes (h : s.Passes dec r) :
    readAll dec (s :: ss) r m = readAll dec ss (r.drop s.size) (s.store dec r m) := by
  simp only [readAll, FileSection.read, if_pos h]

theorem readAll_cons_of_not_passes (h : ¬ s.Passes dec r) :
    readAll dec (s :: ss) r m = (none, s.store dec r m) := by
  simp only [readAll, FileSection.read, if_neg h]

theorem readAll_append_sections {tt : List (FileSection ι γ)} :
    readAll dec (ss ++ tt) r m = match readAll dec ss r m with
      | (some r, m) => readAll dec tt r m
      | (none, m) => (none, m) := by
  induction ss generalizing r m with
  | nil => rfl
  | cons s ss ih =>
      rw [List.cons_append]
      by_cases h : s.Passes dec r
      · rw [readAll_cons_of_passes h, readAll_cons_of_passes h, ih]
      · rw [readAll_cons_of_not_passes h, readAll_cons_of_not_passes h]

/-- Whether a file is accepted does not depend on the arrays. -/
theorem readAll_isSome_iff : (readAll dec ss r m).1.isSome = true ↔ Accepted dec ss r := by
  induction ss generalizing r m with
  | nil => exact iff_of_true rfl trivial
  | cons s ss ih =>
      by_cases h : s.Passes dec r
      · rw [readAll_cons_of_passes h, ih]
        exact (and_iff_right h).symm
      · rw [readAll_cons_of_not_passes h]
        exact iff_of_false Bool.false_ne_true fun hacc ↦ h hacc.1

omit [DecidableEq γ] in
theorem FileSection.store_of_ne {a : ι} (h : s.target ≠ some a) : s.store dec r m a = m a := by
  cases s with
  | fill b width n => exact Function.update_of_ne (fun hab ↦ h (congrArg some hab.symm)) _ _
  | skip n => rfl
  | expect width v => rfl
  | check ok => rfl

/-- An array that no section is about stays. -/
theorem readAll_of_not_target {a : ι} (h : some a ∉ ss.map FileSection.target) :
    (readAll dec ss r m).2 a = m a := by
  induction ss generalizing r m with
  | nil => rfl
  | cons s ss ih =>
      rw [List.map_cons, List.mem_cons, not_or] at h
      have hstore : s.store dec r m a = m a := s.store_of_ne (Ne.symm h.1)
      by_cases hpass : s.Passes dec r
      · rw [readAll_cons_of_passes hpass, ih h.2, hstore]
      · rw [readAll_cons_of_not_passes hpass]
        exact hstore

omit [DecidableEq γ] in
theorem FileSection.store_eq_self_iff : s.store dec r m = m ↔ s.Repeats dec r m := by
  cases s with
  | fill a width n => exact Function.update_eq_self_iff.trans overwrite_eq_self_iff
  | skip n => exact iff_of_true rfl trivial
  | expect width v => exact iff_of_true rfl trivial
  | check ok => exact iff_of_true rfl trivial

/-- **Nothing changes** if and only if the file repeats what the arrays hold, as far as it is
read. -/
theorem readAll_arrays_eq_iff (hnodup : (ss.filterMap FileSection.target).Nodup) :
    (readAll dec ss r m).2 = m ↔ Agrees dec m ss r := by
  induction ss generalizing r m with
  | nil => exact iff_of_true rfl trivial
  | cons s ss ih =>
      have hss : (ss.filterMap FileSection.target).Nodup := by
        cases hs : s.target with
        | none => rwa [List.filterMap_cons_none hs] at hnodup
        | some a =>
            rw [List.filterMap_cons_some hs] at hnodup
            exact (List.nodup_cons.1 hnodup).2
      have hfresh : ∀ a, s.target = some a → some a ∉ ss.map FileSection.target := by
        intro a ha hmem
        rw [List.filterMap_cons_some ha] at hnodup
        refine (List.nodup_cons.1 hnodup).1 (List.mem_filterMap.2 ?_)
        obtain ⟨s', hs', heq⟩ := List.mem_map.1 hmem
        exact ⟨s', hs', heq⟩
      by_cases hpass : s.Passes dec r
      · rw [readAll_cons_of_passes hpass, Agrees, ← FileSection.store_eq_self_iff]
        constructor
        · intro h
          have hstore : s.store dec r m = m := by
            funext a
            by_cases ha : s.target = some a
            · rw [← readAll_of_not_target (r := r.drop s.size) (m := s.store dec r m) (hfresh a ha), h]
            · exact FileSection.store_of_ne ha
          rw [hstore] at h
          exact ⟨hstore, fun _ ↦ (ih hss).1 h⟩
        · rintro ⟨hstore, h⟩
          rw [hstore]
          exact (ih hss).2 (h hpass)
      · rw [readAll_cons_of_not_passes hpass, Agrees, ← FileSection.store_eq_self_iff]
        exact ⟨fun h ↦ ⟨h, fun hp ↦ absurd hp hpass⟩, And.left⟩

/-! ### What was written is read -/

omit [DecidableEq ι] [DecidableEq γ] in
theorem FileSection.passes_append {c : List β} (h : s.Stores dec m c) (k : List β) :
    s.Passes dec (c ++ k) ∧ (c ++ k).drop s.size = k := by
  cases s with
  | fill a width n => exact ⟨h.1.symm.le.trans (by simp), List.drop_left' h.1⟩
  | skip n => exact ⟨(show c.length = n from h).symm.le.trans (by simp), List.drop_left' h⟩
  | expect width v =>
      refine ⟨⟨h.1.symm.le.trans (by simp), ?_⟩, List.drop_left' h.1⟩
      rw [List.take_left' h.1]
      exact h.2
  | check ok =>
      obtain ⟨rfl, hok⟩ := h
      exact ⟨hok, rfl⟩

omit [DecidableEq ι] [DecidableEq γ] in
theorem Stored.nil : Stored dec m ([] : List (FileSection ι γ)) [] := rfl

omit [DecidableEq ι] [DecidableEq γ] in
theorem Stored.cons {c k : List β} (hs : s.Stores dec m c) (hk : Stored dec m ss k) :
    Stored dec m (s :: ss) (c ++ k) := ⟨c, k, rfl, hs, hk⟩

omit [DecidableEq ι] [DecidableEq γ] in
theorem Accepted.of_stored (h : Stored dec m ss r) : Accepted dec ss r := by
  induction ss generalizing r with
  | nil => trivial
  | cons s ss ih =>
      obtain ⟨c, k, rfl, hs, hk⟩ := h
      obtain ⟨hpass, hdrop⟩ := s.passes_append hs k
      refine ⟨hpass, ?_⟩
      rw [hdrop]
      exact ih hk

/-- **Reading a file back**: the arrays that it is about are those it was written from. -/
theorem readAll_stored {m' : ι → List γ} (h : Stored dec m ss r)
    (hlen : ∀ a, some a ∈ ss.map FileSection.target → (m' a).length = (m a).length) :
    (readAll dec ss r m').1 = some [] ∧
      ∀ a, some a ∈ ss.map FileSection.target → (readAll dec ss r m').2 a = m a := by
  induction ss generalizing r m' with
  | nil =>
      obtain rfl : r = [] := h
      exact ⟨rfl, fun a ha ↦ absurd ha List.not_mem_nil⟩
  | cons s ss ih =>
      obtain ⟨c, k, rfl, hs, hk⟩ := h
      obtain ⟨hpass, hdrop⟩ := s.passes_append hs k
      rw [readAll_cons_of_passes hpass, hdrop]
      have hstore : ∀ a, s.target = some a → s.store dec (c ++ k) m' a = m a := by
        intro a ha
        cases s with
        | fill b width n =>
            obtain rfl := Option.some.inj ha
            have hcells : (cells width n (c ++ k)).map dec = m b := by
              rw [cells_append hs.1.symm.le]
              exact hs.2
            refine (Function.update_self _ _ _).trans ?_
            rw [hcells]
            exact overwrite_of_length_eq (hlen b List.mem_cons_self)
        | skip n => exact absurd ha (Option.some_ne_none a).symm
        | expect width v => exact absurd ha (Option.some_ne_none a).symm
        | check ok => exact absurd ha (Option.some_ne_none a).symm
      have hkeep : ∀ a, some a ∈ ss.map FileSection.target →
          (s.store dec (c ++ k) m' a).length = (m a).length := by
        intro a ha
        by_cases hs : s.target = some a
        · rw [hstore a hs]
        · rw [s.store_of_ne hs]
          exact hlen a (List.mem_cons_of_mem _ ha)
      obtain ⟨hsome, harrays⟩ := ih hk hkeep
      refine ⟨hsome, fun a ha ↦ ?_⟩
      by_cases hrest : some a ∈ ss.map FileSection.target
      · exact harrays a hrest
      · rw [readAll_of_not_target hrest]
        exact hstore a ((List.mem_cons.1 ha).resolve_right hrest).symm

/-- What comes after the last section does not matter. -/
theorem readAll_append (h : totalSize ss ≤ r.length) (x : List β) :
    readAll dec ss (r ++ x) m = ((readAll dec ss r m).1.map (· ++ x), (readAll dec ss r m).2) := by
  induction ss generalizing r m with
  | nil => rfl
  | cons s ss ih =>
      rw [totalSize, List.map_cons, List.sum_cons] at h
      have hsize : s.size ≤ r.length := (Nat.le_add_right _ _).trans h
      have hpass : s.Passes dec (r ++ x) ↔ s.Passes dec r := by
        cases s with
        | fill a width n => exact iff_of_true (hsize.trans (by simp)) hsize
        | skip n => exact iff_of_true (hsize.trans (by simp)) hsize
        | expect width v =>
            have htake : (r ++ x).take width = r.take width := List.take_append_of_le_length hsize
            exact and_congr (iff_of_true (hsize.trans (by simp)) hsize) (by rw [htake])
        | check ok => exact Iff.rfl
      have hstore : s.store dec (r ++ x) m = s.store dec r m := by
        cases s with
        | fill a width n => rw [FileSection.store, FileSection.store, cells_append hsize]
        | skip n => rfl
        | expect width v => rfl
        | check ok => rfl
      by_cases hp : s.Passes dec r
      · rw [readAll_cons_of_passes hp, readAll_cons_of_passes (hpass.2 hp), hstore,
          List.drop_append_of_le_length hsize, ih]
        rw [List.length_drop, totalSize]
        omega
      · rw [readAll_cons_of_not_passes hp, readAll_cons_of_not_passes (mt hpass.1 hp), hstore]
        rfl

/-! ### Files of words -/

variable {width : Nat} {enc : γ → List β}

omit [DecidableEq ι] [DecidableEq γ] in
/-- Arrays of entries of one width. -/
theorem accepted_fills_iff (henc : ∀ v, (enc v).length = width) (hwidth : 0 < width)
    (fills : List (ι × Nat)) (vs : List γ) :
    Accepted dec (fills.map (fun f ↦ .fill f.1 width f.2) ++ ss) (vs.flatMap enc) ↔
      (fills.map Prod.snd).sum ≤ vs.length ∧
        Accepted dec ss ((vs.drop (fills.map Prod.snd).sum).flatMap enc) := by
  induction fills generalizing vs with
  | nil => exact (and_iff_right (Nat.zero_le _)).symm
  | cons f fills ih =>
      have hpass : (FileSection.fill f.1 width f.2 : FileSection ι γ).Passes dec (vs.flatMap enc) ↔
          f.2 ≤ vs.length := by
        rw [FileSection.Passes, length_flatMap_cells henc]
        exact Nat.mul_le_mul_left_iff hwidth
      rw [List.map_cons, List.cons_append, Accepted, hpass, FileSection.size, drop_flatMap_cells henc, ih,
        List.map_cons, List.sum_cons, List.length_drop, List.drop_drop, ← and_assoc]
      refine and_congr_left fun _ ↦ ?_
      omega

omit [DecidableEq ι] [DecidableEq γ] in
theorem accepted_expect_iff (henc : ∀ v, (enc v).length = width) {v : γ} {vs : List γ}
    (hdec : ∀ v ∈ vs, dec (enc v) = v) (hwidth : 0 < width) :
    Accepted dec (.expect width v :: ss) (vs.flatMap enc) ↔
      vs.head? = some v ∧ Accepted dec ss (vs.tail.flatMap enc) := by
  cases vs with
  | nil =>
      refine iff_of_false (fun h ↦ ?_) fun h ↦ absurd h.1 (Option.some_ne_none v).symm
      exact absurd h.1.1 (not_le.2 hwidth)
  | cons a vs =>
      have ha : (enc a).length = width := henc a
      rw [Accepted, FileSection.Passes, FileSection.size, List.flatMap_cons, List.take_left' ha, List.drop_left' ha,
        hdec a List.mem_cons_self, List.head?_cons, Option.some.injEq, List.tail_cons]
      refine and_congr_left fun _ ↦ and_iff_right ?_
      rw [List.length_append, ha]
      exact Nat.le_add_right _ _

end Files
