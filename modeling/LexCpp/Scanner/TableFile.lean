import LexCpp.Data.Int32
import LexCpp.Data.Sections
import LexCpp.Scanner.Grammar

/-!
# Table files

`serialise_tables` of `tables.cpp`, and `yytables_fload`, which `emit_c` writes into a scanner that
is generated with `--tables-file`.

The loader stores what it reads as it reads it.  Past the header, what it does is `readAll` over the
sections of the file that it expects (`fload_eq`).
-/

namespace LexCpp

/-! ## The arrays of a scanner -/

/-- The tables that a table file is about. -/
inductive TableName where
  | yyEc
  | yyMeta
  | yyBase
  | yyDef
  | yyNxt
  | yyChk
  | yyAcceptNormal
  | yyAcceptEol
  | yyCondNormal
  | yyCondBol
  | yyRuleTrailLen
deriving DecidableEq, Repr

/-- What is in the tables; a table that the scanner does not have is empty. -/
abbrev Arrays := TableName → List Int

/-- The tables as `emit_c` emits them, a dense `yy_nxt` row by row. -/
def Tables.arrays (t : Tables) : Arrays
  | .yyEc => t.yyEc.map Nat.cast
  | .yyMeta => (t.yyMeta.getD []).map Nat.cast
  | .yyBase =>
      match t.yyNxt with
      | .dense _ => []
      | .packed c => c.yyBase.map Nat.cast
  | .yyDef =>
      match t.yyNxt with
      | .dense _ => []
      | .packed c => c.yyDef.map Nat.cast
  | .yyNxt =>
      match t.yyNxt with
      | .dense rows => rows.flatten
      | .packed c => c.yyNxt
  | .yyChk =>
      match t.yyNxt with
      | .dense _ => []
      | .packed c => c.yyChk
  | .yyAcceptNormal => t.yyAcceptNormal
  | .yyAcceptEol => t.yyAcceptEol
  | .yyCondNormal => t.yyCondNormal.map Nat.cast
  | .yyCondBol => t.yyCondBol.map Nat.cast
  | .yyRuleTrailLen => t.yyRuleTrailLen

/-! ## Writing -/

def putU8 (v : Nat) : List Byte := [Fin.ofNat 256 v]

def putU32 (v : Nat) : List Byte :=
  [Fin.ofNat 256 (v >>> 24), Fin.ofNat 256 (v >>> 16), Fin.ofNat 256 (v >>> 8), Fin.ofNat 256 v]

def putI32 (v : Int) : List Byte := putU32 (v % 4294967296).toNat

/-- `serialise_tables`. -/
def serialiseTables (std : StdSort Nat) (nfa : NFA) (dfa : DFA) (compressed : Bool)
    (scannerName : List Byte) : List Byte :=
  let c := compressDfa std dfa
  putU32 0xF13C57B1 ++ putU32 1 ++ putU32 scannerName.length ++ scannerName ++
  putU32 (if compressed then 1 else 0) ++
  putU32 dfa.nclasses ++ putU32 dfa.states.length ++ putU32 nfa.ruleTrail.length ++
  putU32 (if compressed then c.poolSize else 0) ++
  (bytes.flatMap fun b ↦ putU8 (dfa.eclasses.of b)) ++
  ((List.range dfa.nclasses).flatMap fun i ↦
    putU8 (if i < dfa.metaIds.length then dfa.metaIds.getD i 0 else i)) ++
  (if compressed then
    (c.yyBase.flatMap fun v : Nat ↦ putI32 v) ++ (c.yyDef.flatMap fun v : Nat ↦ putI32 v) ++
    c.yyNxt.flatMap putI32 ++ c.yyChk.flatMap putI32
  else
    dfa.states.flatMap fun st ↦ (List.range dfa.nclasses).flatMap fun cl ↦ putI32 (st.next.getD cl (-1))) ++
  (dfa.states.flatMap fun st ↦ putI32 st.acceptNormal) ++
  (dfa.states.flatMap fun st ↦ putI32 st.acceptEol) ++
  putU32 dfa.condStarts.length ++
  (dfa.condStarts.flatMap fun cs ↦ putI32 cs.normal) ++
  (dfa.condStarts.flatMap fun cs ↦ putI32 cs.bol) ++
  nfa.ruleTrail.flatMap putI32

/-! ## Loading -/

/-- The numbers that `emit_c` writes into the loader. -/
structure LoaderConsts where
  compressed : Bool
  ncls : Nat
  ns : Nat
  ncs : Nat
  nr : Nat
  pool : Nat
deriving DecidableEq, Repr

def loaderConsts (std : StdSort Nat) (mode : CompressMode) (nfa : NFA) (dfa : DFA) : LoaderConsts :=
  let compressed : Bool := mode = .compress
  { compressed := compressed
    ncls := dfa.nclasses
    ns := dfa.states.length
    ncs := dfa.condStarts.length
    nr := if nfa.ruleTrail.length = 0 then 1 else nfa.ruleTrail.length
    pool := if compressed then (compressDfa std dfa).poolSize else 0 }

/-- A stream that is open for reading. -/
structure InFile where
  bytes : List Byte
  pos : Nat := 0
deriving DecidableEq, Repr

structure LoadState where
  f : InFile
  arrays : Arrays

/-- What is left to read. -/
def LoadState.rest (s : LoadState) : List Byte := s.f.bytes.drop s.f.pos

/-- Code of the loader; `none` is a jump to `bad`, which undoes nothing. -/
def Loader (α : Type) : Type := LoadState → Option α × LoadState

namespace Loader

instance : Monad Loader where
  pure a s := (some a, s)
  bind x f s :=
    match x s with
    | (some a, s) => f a s
    | (none, s) => (none, s)

/-- `goto bad` unless the condition holds. -/
def orBad (c : Prop) [Decidable c] : Loader Unit := fun s ↦ (if c then some () else none, s)

/-- Up to `n` bytes. -/
def fread (n : Nat) : Loader (List Byte) := fun s ↦
  (some (s.rest.take n), { s with f := { s.f with pos := s.f.pos + (s.rest.take n).length } })

/-- `fseek` relative to the position, which may go past the end but not before the beginning. -/
def fseekCur (offset : Int) : Loader Unit := fun s ↦
  if (s.f.pos : Int) + offset < 0 then (none, s)
  else (some (), { s with f := { s.f with pos := ((s.f.pos : Int) + offset).toNat } })

/-- The value of some bytes, the most significant one first, as an `int`. -/
def ofBytes (b : List Byte) : Int := int32 (b.foldl (fun v x ↦ v * 256 + x.val) 0 : Nat)

def yyReadBe32 : Loader Int := do
  let b ← fread 4
  orBad (b.length = 4)
  return ofBytes b

/-- `dst[i] = v`. -/
def assign (dst : TableName) (i : Nat) (v : Int) : Loader Unit := fun s ↦
  (some (), { s with arrays := Function.update s.arrays dst ((s.arrays dst).set i v) })

/-- `yy_read_int_array`, from entry `i` on. -/
def yyReadIntArray (dst : TableName) : Nat → Nat → Loader Unit
  | _, 0 => pure ()
  | i, n + 1 => do
      let v ← yyReadBe32
      assign dst i v
      yyReadIntArray dst (i + 1) n

/-- `fread` into a table of bytes, all of which have to be there. -/
def freadInto (dst : TableName) (n : Nat) : Loader Unit := do
  let b ← fread n
  fun s ↦ (some (), { s with
    arrays := Function.update s.arrays dst (overwrite (b.map fun x ↦ (x.val : Int)) (s.arrays dst)) })
  orBad (b.length = n)

/-- `yytables_fload` as far as the check of the counts; the size of the pool is compared later. -/
def loadHeader (k : LoaderConsts) : Loader Int := do
  let magic ← yyReadBe32
  orBad (magic = int32 0xF13C57B1)
  let version ← yyReadBe32
  orBad (version = 1)
  let nameLen ← yyReadBe32
  fseekCur nameLen
  let _flags ← yyReadBe32
  let gotNclasses ← yyReadBe32
  let gotNstates ← yyReadBe32
  let _gotNrules ← yyReadBe32
  let gotPool ← yyReadBe32
  orBad (gotNclasses = k.ncls)
  orBad (gotNstates = k.ns)
  return gotPool

/-- The tables of transitions. -/
def loadTransitions (k : LoaderConsts) (gotPool : Int) : Loader Unit :=
  if k.compressed then do
    freadInto .yyMeta k.ncls
    orBad (gotPool = k.pool)
    yyReadIntArray .yyBase 0 k.ns
    yyReadIntArray .yyDef 0 k.ns
    yyReadIntArray .yyNxt 0 k.pool
    yyReadIntArray .yyChk 0 k.pool
  else do
    let yySkip ← fread k.ncls
    orBad (yySkip.length = k.ncls)
    yyReadIntArray .yyNxt 0 (k.ns * k.ncls)

def loadBody (k : LoaderConsts) (gotPool : Int) : Loader Unit := do
  freadInto .yyEc 256
  loadTransitions k gotPool
  yyReadIntArray .yyAcceptNormal 0 k.ns
  yyReadIntArray .yyAcceptEol 0 k.ns
  let gotNcond ← yyReadBe32
  orBad (gotNcond = k.ncs)
  yyReadIntArray .yyCondNormal 0 k.ncs
  yyReadIntArray .yyCondBol 0 k.ncs
  yyReadIntArray .yyRuleTrailLen 0 k.nr

end Loader

/-- `yytables_fload`: what it returns, and the tables.  The file may be one that cannot be opened. -/
def yytablesFload (k : LoaderConsts) (file : Option (List Byte)) (m : Arrays) : Int × Arrays :=
  match file with
  | none => (-1, m)
  | some bytes =>
      match (do Loader.loadBody k (← Loader.loadHeader k) : Loader Unit) ⟨{ bytes := bytes }, m⟩ with
      | (some _, s) => (0, s.arrays)
      | (none, s) => (-1, s.arrays)

/-! ## The sections of a file -/

/-- How many entries the loader has for each table. -/
def LoaderConsts.size (k : LoaderConsts) : TableName → Nat
  | .yyEc => 256
  | .yyMeta => if k.compressed then k.ncls else 0
  | .yyBase | .yyDef => if k.compressed then k.ns else 0
  | .yyNxt => if k.compressed then k.pool else k.ns * k.ncls
  | .yyChk => if k.compressed then k.pool else 0
  | .yyAcceptNormal | .yyAcceptEol => k.ns
  | .yyCondNormal | .yyCondBol => k.ncs
  | .yyRuleTrailLen => k.nr

/-- Tables of the declared sizes. -/
def LoaderConsts.Sized (k : LoaderConsts) (m : Arrays) : Prop := ∀ a, (m a).length = k.size a

/-- The sections that hold the transitions. -/
def transitionSections (k : LoaderConsts) (gotPool : Int) : List (FileSection TableName Int) :=
  if k.compressed then
    [.fill .yyMeta 1 k.ncls, .check (gotPool = k.pool), .fill .yyBase 4 k.ns, .fill .yyDef 4 k.ns,
      .fill .yyNxt 4 k.pool, .fill .yyChk 4 k.pool]
  else [.skip k.ncls, .fill .yyNxt 4 (k.ns * k.ncls)]

/-- What the loader expects after the header. -/
def sections (k : LoaderConsts) (gotPool : Int) : List (FileSection TableName Int) :=
  .fill .yyEc 1 256 :: transitionSections k gotPool ++
  [.fill .yyAcceptNormal 4 k.ns, .fill .yyAcceptEol 4 k.ns, .expect 4 (k.ncs : Int),
    .fill .yyCondNormal 4 k.ncs, .fill .yyCondBol 4 k.ncs, .fill .yyRuleTrailLen 4 k.nr]

/-- The `int` at a position. -/
def wordAt (file : List Byte) (i : Nat) : Option Int :=
  if i + 4 ≤ file.length then some (Loader.ofBytes ((file.drop i).take 4)) else none

/-- The pool size and the sections of a file with a header that the loader takes. -/
def header (k : LoaderConsts) (file : List Byte) : Option (Int × List Byte) := do
  let magic ← wordAt file 0
  guard (magic = int32 0xF13C57B1)
  let version ← wordAt file 4
  guard (version = 1)
  let nameLen ← wordAt file 8
  guard (0 ≤ 12 + nameLen)
  let p := (12 + nameLen).toNat
  let _flags ← wordAt file p
  let gotNclasses ← wordAt file (p + 4)
  let gotNstates ← wordAt file (p + 8)
  let _gotNrules ← wordAt file (p + 12)
  let gotPool ← wordAt file (p + 16)
  guard (gotNclasses = k.ncls)
  guard (gotNstates = k.ns)
  return (gotPool, file.drop (p + 20))

namespace Loader

/-! ### What the code does -/

variable {α β : Type}

theorem bind_apply (x : Loader α) (f : α → Loader β) (s : LoadState) :
    (x >>= f) s = match x s with
      | (some a, s) => f a s
      | (none, s) => (none, s) := rfl

/-- The result as reading sections has it. -/
def outcome (r : Option α × LoadState) : Option (List Byte) × Arrays :=
  (r.1.map fun _ ↦ r.2.rest, r.2.arrays)

/-- Some bytes further on. -/
def advanceBy (s : LoadState) (n : Nat) : LoadState := { s with f := { s.f with pos := s.f.pos + n } }

theorem rest_advanceBy (s : LoadState) (n : Nat) : (advanceBy s n).rest = s.rest.drop n := by
  rw [LoadState.rest, LoadState.rest, List.drop_drop]
  rfl

theorem fread_apply {n : Nat} {s : LoadState} (h : n ≤ s.rest.length) :
    fread n s = (some (s.rest.take n), advanceBy s n) := by
  have hlen : (s.rest.take n).length = n := List.length_take_of_le h
  unfold fread
  rw [hlen]
  rfl

theorem yyReadBe32_apply (s : LoadState) : yyReadBe32 s =
    if 4 ≤ s.rest.length then (some (ofBytes (s.rest.take 4)), advanceBy s 4)
    else (none, advanceBy s s.rest.length) := by
  unfold yyReadBe32
  rw [bind_apply]
  by_cases h : 4 ≤ s.rest.length
  · have hlen : (s.rest.take 4).length = 4 := List.length_take_of_le h
    rw [fread_apply h, if_pos h]
    simp only [bind_apply, orBad, if_pos hlen]
    rfl
  · have htake : s.rest.take 4 = s.rest := List.take_of_length_le (by omega)
    have hlen : ¬ s.rest.length = 4 := by omega
    rw [if_neg h]
    simp only [fread, htake, bind_apply, orBad, if_neg hlen]
    rfl

/-- Storing the first of some entries, and the others behind it. -/
theorem take_set_append_overwrite {γ : Type} {old : List γ} {i : Nat} (hi : i < old.length) (v : γ) (xs : List γ) :
    (old.set i v).take (i + 1) ++ overwrite xs ((old.set i v).drop (i + 1)) =
      old.take i ++ overwrite (v :: xs) (old.drop i) := by
  have htake : (old.set i v).take (i + 1) = old.take i ++ [v] := by
    rw [List.take_succ_eq_append_getElem (by simpa using hi), List.take_set_of_le le_rfl, List.getElem_set_self]
  have hdrop : (old.set i v).drop (i + 1) = old.drop (i + 1) := List.drop_set_of_lt (Nat.lt_succ_self i)
  rw [htake, hdrop, overwrite, overwrite, List.length_cons, List.drop_drop, List.drop_drop, List.append_assoc,
    List.singleton_append, List.cons_append, Nat.add_assoc, Nat.add_comm 1]

/-- What `yy_read_int_array` stores, and what it returns. -/
theorem yyReadIntArray_apply (dst : TableName) (n i : Nat) (s : LoadState)
    (h : i + n ≤ (s.arrays dst).length) :
    (yyReadIntArray dst i n s).2.arrays = Function.update s.arrays dst ((s.arrays dst).take i ++
      overwrite ((cells 4 n s.rest).map ofBytes) ((s.arrays dst).drop i)) ∧
    (yyReadIntArray dst i n s).1.map (fun _ ↦ (yyReadIntArray dst i n s).2.rest) =
      if 4 * n ≤ s.rest.length then some (s.rest.drop (4 * n)) else none := by
  induction n generalizing i s with
  | zero =>
      refine ⟨?_, rfl⟩
      change s.arrays = _
      rw [cells, List.map_nil, overwrite, List.length_nil, List.drop_zero, List.nil_append,
        List.take_append_drop, Function.update_eq_self]
  | succ n ih =>
      by_cases hr : 4 ≤ s.rest.length
      · obtain ⟨s', hrest', harrays', hrun⟩ : ∃ s' : LoadState, s'.rest = s.rest.drop 4 ∧
            s'.arrays = Function.update s.arrays dst ((s.arrays dst).set i (ofBytes (s.rest.take 4))) ∧
            yyReadIntArray dst i (n + 1) s = yyReadIntArray dst (i + 1) n s' := by
          refine ⟨⟨(advanceBy s 4).f, Function.update s.arrays dst ((s.arrays dst).set i
            (ofBytes (s.rest.take 4)))⟩, rest_advanceBy s 4, rfl, ?_⟩
          rw [yyReadIntArray, bind_apply, yyReadBe32_apply, if_pos hr]
          rfl
        have hdst : s'.arrays dst = (s.arrays dst).set i (ofBytes (s.rest.take 4)) := by
          rw [harrays', Function.update_self]
        obtain ⟨harrays, hrest⟩ := ih (i + 1) s' (by rw [hdst, List.length_set]; omega)
        rw [hrun, harrays, hrest, hrest', hdst, harrays', Function.update_idem,
          take_set_append_overwrite (by omega), List.length_drop, List.drop_drop, cells, if_neg (not_lt.2 hr)]
        refine ⟨rfl, if_congr ?_ (by rw [Nat.mul_succ, Nat.add_comm]) rfl⟩
        omega
      · have hrun : yyReadIntArray dst i (n + 1) s = (none, advanceBy s s.rest.length) := by
          rw [yyReadIntArray, bind_apply, yyReadBe32_apply, if_neg hr]
        rw [hrun, cells, if_pos (not_le.1 hr), if_neg (by omega), List.map_nil, overwrite, List.length_nil,
          List.drop_zero, List.nil_append, List.take_append_drop, Function.update_eq_self]
        exact ⟨rfl, rfl⟩

theorem bind_assoc {γ : Type} (x : Loader α) (f : α → Loader β) (g : β → Loader γ) :
    x >>= f >>= g = x >>= fun a ↦ f a >>= g := by
  funext s
  rw [bind_apply, bind_apply, bind_apply]
  rcases x s with ⟨_ | a, s⟩ <;> rfl

theorem ofBytes_singleton (x : Byte) : ofBytes [x] = x.val := by
  change int32 ((0 * 256 + x.val : Nat) : Int) = _
  rw [Nat.zero_mul, Nat.zero_add]
  exact int32_natCast (by omega)

/-- Bytes as entries of one byte each. -/
theorem map_cells_one (n : Nat) (r : List Byte) :
    (cells 1 n r).map ofBytes = (r.take n).map fun x ↦ (x.val : Int) := by
  induction n generalizing r with
  | zero => rfl
  | succ n ih =>
      cases r with
      | nil => rfl
      | cons x r =>
          have hlt : ¬ (x :: r).length < 1 := by simp
          rw [cells, if_neg hlt, List.map_cons, List.take_succ_cons]
          exact congrArg₂ List.cons (ofBytes_singleton x) (ih r)

/-! ### The code reads the sections -/

/-- On tables of the declared sizes the code reads these sections. -/
def Reads (k : LoaderConsts) (x : Loader Unit) (ss : List (FileSection TableName Int)) : Prop :=
  ∀ s, k.Sized s.arrays → outcome (x s) = readAll ofBytes ss s.rest s.arrays ∧ k.Sized (x s).2.arrays

namespace Reads

variable {k : LoaderConsts} {x y : Loader Unit} {ss tt : List (FileSection TableName Int)}

/-- One section: what is stored, and whether it passes. -/
theorem of_section {sec : FileSection TableName Int} (harrays : ∀ s, k.Sized s.arrays →
      (x s).2.arrays = sec.store ofBytes s.rest s.arrays ∧ k.Sized (sec.store ofBytes s.rest s.arrays))
    (hrest : ∀ s, k.Sized s.arrays → (x s).1.map (fun _ ↦ (x s).2.rest) =
      if sec.Passes ofBytes s.rest then some (s.rest.drop sec.size) else none) : Reads k x [sec] := by
  intro s hs
  refine ⟨Prod.ext ?_ ?_, (harrays s hs).1.symm ▸ (harrays s hs).2⟩
  · refine (hrest s hs).trans ?_
    by_cases h : sec.Passes ofBytes s.rest
    · rw [readAll_cons_of_passes h, if_pos h]
      rfl
    · rw [readAll_cons_of_not_passes h, if_neg h]
  · refine (harrays s hs).1.trans ?_
    by_cases h : sec.Passes ofBytes s.rest
    · rw [readAll_cons_of_passes h]
      rfl
    · rw [readAll_cons_of_not_passes h]

theorem bind (hx : Reads k x ss) (hy : Reads k y tt) : Reads k (x >>= fun _ ↦ y) (ss ++ tt) := by
  intro s hs
  obtain ⟨hout, hsized⟩ := hx s hs
  rw [bind_apply, readAll_append_sections, ← hout]
  rcases hrun : x s with ⟨_ | a, s'⟩
  · rw [hrun] at hsized
    exact ⟨rfl, hsized⟩
  · rw [hrun] at hsized
    exact hy s' hsized

theorem sized_fill {dst : TableName} {width n : Nat} (hn : n = k.size dst) {s : LoadState}
    (hs : k.Sized s.arrays) :
    k.Sized ((FileSection.fill dst width n : FileSection TableName Int).store ofBytes s.rest s.arrays) := by
  intro a
  by_cases ha : a = dst
  · subst ha
    have hstore : (FileSection.fill a width n : FileSection TableName Int).store ofBytes s.rest s.arrays a =
        overwrite ((cells width n s.rest).map ofBytes) (s.arrays a) := Function.update_self a _ s.arrays
    have hle : ((cells width n s.rest).map ofBytes).length ≤ (s.arrays a).length := by
      rw [List.length_map, hs a, ← hn]
      exact length_cells_le width n s.rest
    rw [hstore, overwrite, List.length_append, List.length_drop, Nat.add_sub_cancel' hle, hs a]
  · have hne : (FileSection.fill dst width n : FileSection TableName Int).target ≠ some a := fun h ↦
      ha (Option.some.inj h).symm
    rw [FileSection.store_of_ne hne]
    exact hs a

theorem intArray {dst : TableName} {n : Nat} (hn : n = k.size dst) :
    Reads k (yyReadIntArray dst 0 n) [.fill dst 4 n] := by
  refine of_section (fun s hs ↦ ⟨?_, sized_fill hn hs⟩) fun s hs ↦ ?_
  · exact (yyReadIntArray_apply dst n 0 s (by rw [hs dst, hn, Nat.zero_add])).1
  · exact (yyReadIntArray_apply dst n 0 s (by rw [hs dst, hn, Nat.zero_add])).2

/-- `fread` and the comparison of what it returns. -/
theorem fread_orBad (n : Nat) (s : LoadState) (m : Arrays) :
    let t : LoadState := { f := { s.f with pos := s.f.pos + (s.rest.take n).length }, arrays := m }
    (orBad ((s.rest.take n).length = n) t).1.map (fun _ ↦ t.rest) =
      if n ≤ s.rest.length then some (s.rest.drop n) else none := by
  intro t
  by_cases h : n ≤ s.rest.length
  · have hlen : (s.rest.take n).length = n := List.length_take_of_le h
    rw [if_pos h, orBad, if_pos hlen]
    refine congrArg some ?_
    change s.f.bytes.drop (s.f.pos + (s.rest.take n).length) = _
    rw [hlen, LoadState.rest, List.drop_drop]
  · have hlen : ¬ (s.rest.take n).length = n := by
      rw [List.length_take]
      omega
    rw [if_neg h, orBad, if_neg hlen]
    rfl

theorem byteArray {dst : TableName} {n : Nat} (hn : n = k.size dst) :
    Reads k (freadInto dst n) [.fill dst 1 n] := by
  refine of_section (fun s hs ↦ ⟨?_, sized_fill hn hs⟩) fun s hs ↦ ?_
  · rw [FileSection.store, map_cells_one]
    rfl
  · refine (fread_orBad n s _).trans ?_
    change _ = if 1 * n ≤ s.rest.length then some (s.rest.drop (1 * n)) else none
    rw [Nat.one_mul]

theorem skipped (n : Nat) : Reads k (do let b ← fread n; orBad (b.length = n)) [.skip n] :=
  of_section (fun _ hs ↦ ⟨rfl, hs⟩) fun s _ ↦ fread_orBad n s s.arrays

theorem check (c : Prop) [Decidable c] : Reads k (orBad c) [.check c] := by
  refine of_section (fun _ hs ↦ ⟨rfl, hs⟩) fun s _ ↦ ?_
  change _ = if decide c = true then some s.rest else none
  rw [orBad]
  by_cases h : c
  · rw [if_pos h, if_pos (decide_eq_true h)]
    rfl
  · rw [if_neg h, if_neg (by rwa [decide_eq_true_iff])]
    rfl

theorem expected (v : Int) : Reads k (do let w ← yyReadBe32; orBad (w = v)) [.expect 4 v] := by
  have hrun : ∀ s : LoadState, (do let w ← yyReadBe32; orBad (w = v) : Loader Unit) s =
      if 4 ≤ s.rest.length then (if ofBytes (s.rest.take 4) = v then some () else none, advanceBy s 4)
      else (none, advanceBy s s.rest.length) := by
    intro s
    rw [bind_apply, yyReadBe32_apply]
    by_cases h : 4 ≤ s.rest.length
    · rw [if_pos h, if_pos h]
      rfl
    · rw [if_neg h, if_neg h]
  refine of_section (fun s hs ↦ ⟨?_, hs⟩) fun s _ ↦ ?_
  · rw [hrun]
    split_ifs <;> rfl
  · change _ = if 4 ≤ s.rest.length ∧ ofBytes (s.rest.take 4) = v then some (s.rest.drop 4) else none
    rw [hrun]
    by_cases h : 4 ≤ s.rest.length
    · rw [if_pos h]
      by_cases hv : ofBytes (s.rest.take 4) = v
      · rw [if_pos hv, if_pos ⟨h, hv⟩]
        exact congrArg some (rest_advanceBy s 4)
      · rw [if_neg hv, if_neg fun hp ↦ hv hp.2]
        rfl
    · rw [if_neg h, if_neg fun hp ↦ h hp.1]
      rfl

end Reads

/-- **After the header** the loader reads the sections that it expects. -/
theorem reads_loadBody (k : LoaderConsts) (gotPool : Int) : Reads k (loadBody k gotPool) (sections k gotPool) := by
  have htransitions : Reads k (loadTransitions k gotPool) (transitionSections k gotPool) := by
    unfold loadTransitions transitionSections
    by_cases hc : k.compressed = true
    · rw [if_pos hc, if_pos hc]
      refine (Reads.byteArray (if_pos hc).symm).bind <| (Reads.check _).bind <|
        (Reads.intArray (if_pos hc).symm).bind <| (Reads.intArray (if_pos hc).symm).bind <|
        (Reads.intArray (if_pos hc).symm).bind <| Reads.intArray (if_pos hc).symm
    · rw [if_neg hc, if_neg hc, ← bind_assoc]
      exact (Reads.skipped k.ncls).bind (Reads.intArray (if_neg hc).symm)
  have hconds : Reads k (do
      let gotNcond ← yyReadBe32
      orBad (gotNcond = k.ncs)
      yyReadIntArray .yyCondNormal 0 k.ncs
      yyReadIntArray .yyCondBol 0 k.ncs
      yyReadIntArray .yyRuleTrailLen 0 k.nr)
      [.expect 4 (k.ncs : Int), .fill .yyCondNormal 4 k.ncs, .fill .yyCondBol 4 k.ncs,
        .fill .yyRuleTrailLen 4 k.nr] := by
    rw [← bind_assoc]
    exact (Reads.expected k.ncs).bind <| (Reads.intArray rfl).bind <| (Reads.intArray rfl).bind <|
      Reads.intArray rfl
  exact (Reads.byteArray rfl).bind <| htransitions.bind <| (Reads.intArray rfl).bind <|
    (Reads.intArray rfl).bind hconds

/-! ### The code reads the header -/

/-- The tables stay, and the result is the given one, with what is left to read. -/
def Heads (x : Loader α) (s : LoadState) (o : Option (α × List Byte)) : Prop :=
  (x s).2.arrays = s.arrays ∧ (x s).1.map (fun a ↦ (a, (x s).2.rest)) = o

namespace Heads

variable {file : List Byte} {p : Nat} {m : Arrays}

theorem word {f : Int → Loader α} {g : Int → Option (α × List Byte)}
    (hf : ∀ v, Heads (f v) ⟨⟨file, p + 4⟩, m⟩ (g v)) :
    Heads (yyReadBe32 >>= f) ⟨⟨file, p⟩, m⟩ (wordAt file p >>= g) := by
  have hlen : (⟨⟨file, p⟩, m⟩ : LoadState).rest.length = file.length - p := List.length_drop
  unfold Heads
  rw [bind_apply, yyReadBe32_apply, hlen, wordAt]
  by_cases h : p + 4 ≤ file.length
  · rw [if_pos h, if_pos (by omega)]
    exact hf _
  · rw [if_neg h, if_neg (by omega)]
    exact ⟨rfl, rfl⟩

theorem orBad {c : Prop} [Decidable c] {x : Loader α} {s : LoadState} {o : Option (α × List Byte)}
    (hx : Heads x s o) : Heads (do orBad c; x) s (do guard c; o) := by
  unfold Heads
  rw [bind_apply, Loader.orBad, guard]
  by_cases h : c
  · rw [if_pos h, if_pos h]
    exact hx
  · rw [if_neg h, if_neg h]
    exact ⟨rfl, rfl⟩

theorem fseekCur {offset : Int} {x : Loader α} {o : Option (α × List Byte)}
    (hx : Heads x ⟨⟨file, ((p : Int) + offset).toNat⟩, m⟩ o) :
    Heads (do fseekCur offset; x) ⟨⟨file, p⟩, m⟩ (do guard (0 ≤ (p : Int) + offset); o) := by
  unfold Heads
  rw [bind_apply, Loader.fseekCur, guard]
  by_cases h : 0 ≤ (p : Int) + offset
  · rw [if_pos h, if_neg (not_lt.2 h)]
    exact hx
  · rw [if_neg h, if_pos (not_le.1 h)]
    exact ⟨rfl, rfl⟩

end Heads

theorem heads_loadHeader (k : LoaderConsts) (file : List Byte) (m : Arrays) :
    Heads (loadHeader k) ⟨{ bytes := file }, m⟩ (header k file) := by
  unfold loadHeader header
  refine .word fun magic ↦ .orBad <| .word fun version ↦ .orBad <| .word fun nameLen ↦ .fseekCur <|
    .word fun flags ↦ .word fun gotNclasses ↦ .word fun gotNstates ↦ .word fun gotNrules ↦
    .word fun gotPool ↦ .orBad <| .orBad ⟨rfl, rfl⟩

end Loader

/-- **What `yytables_fload` does** with a file that can be opened. -/
theorem fload_eq {k : LoaderConsts} {m : Arrays} (hm : k.Sized m) (file : List Byte) :
    yytablesFload k (some file) m = match header k file with
      | some (gotPool, body) =>
          (if (readAll Loader.ofBytes (sections k gotPool) body m).1.isSome then 0 else -1,
            (readAll Loader.ofBytes (sections k gotPool) body m).2)
      | none => (-1, m) := by
  obtain ⟨harrays, hheader⟩ := Loader.heads_loadHeader k file m
  rw [yytablesFload, ← hheader]
  simp only [Loader.bind_apply]
  rcases hrun : Loader.loadHeader k ⟨{ bytes := file }, m⟩ with ⟨_ | gotPool, s⟩
  · rw [hrun] at harrays
    exact congrArg (Prod.mk (-1)) harrays
  · rw [hrun] at harrays
    have hs : s.arrays = m := harrays
    obtain ⟨hout, -⟩ := Loader.reads_loadBody k gotPool s (hs.symm ▸ hm)
    simp only [Option.map_some]
    rw [← hs, ← hout]
    rcases Loader.loadBody k gotPool s with ⟨_ | u, t⟩ <;> rfl

end LexCpp
