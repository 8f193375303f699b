import LexCpp.Scanner.TableFile

/-!
# Loading table files

What `yytables_fload` makes of the files that `serialise_tables` writes, and of others.
-/

namespace LexCpp

/-! ## Scanners with a loader -/

/-- A scanner that `main` generates.  The ids that its tables hold, and their sizes, are `int`s. -/
structure Scanner (std : StdSort Nat) where
  mode : CompressMode
  usesReject : Bool
  grammar : Grammar
  dfa : DFA
  tables : Tables
  generated : generate std mode usesReject grammar.nfa = some (dfa, tables)
  int32_mem : ∀ a, ∀ v ∈ tables.arrays a, int32 v = v
  length_lt : ∀ a, (tables.arrays a).length < 2147483648

namespace Scanner

variable {std : StdSort Nat} (S : Scanner std)

def compressed : Bool := S.mode = .compress

/-- The number of pattern rules. -/
def nrules : Nat := S.grammar.nfa.ruleTrail.length

def poolSize : Nat := if S.compressed then (compressDfa std S.dfa).poolSize else 0

/-- The loader of the scanner. -/
def consts : LoaderConsts := loaderConsts std S.mode S.grammar.nfa S.dfa

/-- The table file of the scanner. -/
def file (scannerName : List Byte) : List Byte :=
  serialiseTables std S.grammar.nfa S.dfa S.compressed scannerName

theorem built : buildDfa S.grammar.nfa (S.mode != .full) (S.mode == .compress) = some S.dfa ∧
    S.tables = emitTables std S.mode S.usesReject S.grammar.nfa S.dfa := by
  obtain ⟨dfa, hdfa, h⟩ := Option.bind_eq_some_iff.1 S.generated
  obtain ⟨rfl, h⟩ := Prod.mk.inj (Option.some.inj h)
  exact ⟨hdfa, h.symm⟩

theorem exact : ∃ sets, DFA.Exact S.grammar.nfa S.dfa sets := by
  obtain ⟨dfa, sets, hdfa, h⟩ := exists_buildDfa S.grammar.realizes.wf.inRange (S.mode != .full)
    (S.mode == .compress)
  obtain rfl := Option.some.inj (hdfa.symm.trans S.built.1)
  exact ⟨sets, h⟩

theorem nrules_eq : S.nrules = S.grammar.rules.length := by
  rw [nrules, S.grammar.realizes.wf.length_ruleTrail, S.grammar.realizes.length_ruleBol]

theorem nclasses_pos : 0 < S.dfa.nclasses := by
  obtain ⟨sets, h⟩ := S.exact
  rw [h.nclasses_eq]
  exact (Nat.zero_le _).trans_lt (h.valid.of_lt 0)

theorem nclasses_le : S.dfa.nclasses ≤ 256 := by
  obtain ⟨sets, h⟩ := S.exact
  rw [h.nclasses_eq]
  exact h.valid.nclasses_le

/-- The meta classes, if they are computed. -/
theorem metaIds_eq : S.dfa.metaIds = if S.compressed then
    (computeMetaClasses S.dfa.states S.dfa.nclasses).1 else [] := by
  have hb := S.built.1
  rw [buildDfa] at hb
  simp only [Option.bind_eq_bind, Option.bind_eq_some_iff, Option.pure_def, Option.some.injEq] at hb
  obtain ⟨ec, -, b, -, b', -, hdfa⟩ := hb
  rw [← hdfa, compressed]
  cases S.mode <;> rfl

end Scanner

/-- A fold each of whose steps adds one byte. -/
theorem foldl_adds_byte {σ : Type} {next : List Nat × σ → Nat → List Nat × σ}
    (hnext : ∀ acc c, ∃ id < 256, (next acc c).1 = acc.1 ++ [id]) (s : σ) (l : List Nat) :
    (l.foldl next ([], s)).1.length = l.length ∧ ∀ v ∈ (l.foldl next ([], s)).1, v < 256 := by
  induction l using List.reverseRecOn with
  | nil => exact ⟨rfl, fun v hv ↦ absurd hv List.not_mem_nil⟩
  | append_singleton l c ih =>
      obtain ⟨id, hid, heq⟩ := hnext (l.foldl next ([], s)) c
      rw [List.foldl_concat, heq, List.length_append, List.length_append, ih.1]
      refine ⟨rfl, fun v hv ↦ ?_⟩
      rcases List.mem_append.1 hv with hv | hv
      · exact ih.2 v hv
      · rwa [List.mem_singleton.1 hv]

/-- There is a meta class for every class, and it is a byte. -/
theorem length_computeMetaClasses (states : List DFAState) (nclasses : Nat) :
    (computeMetaClasses states nclasses).1.length = nclasses ∧
      ∀ v ∈ (computeMetaClasses states nclasses).1, v < 256 := by
  nth_rewrite 2 [← List.length_range (n := nclasses)]
  refine foldl_adds_byte (fun acc c ↦ ?_) [] (List.range nclasses)
  split
  · exact ⟨_, Nat.mod_lt _ (by decide), rfl⟩
  · exact ⟨_, Nat.mod_lt _ (by decide), rfl⟩

/-! ## Numbers in a file -/

theorem ofBytes_putU32 (n : Nat) : Loader.ofBytes (putU32 n) = int32 n := by
  have hval : (putU32 n).foldl (fun v x ↦ v * 256 + x.val) 0 = n % 4294967296 := by
    change (((0 * 256 + (n >>> 24) % 256) * 256 + (n >>> 16) % 256) * 256 + (n >>> 8) % 256) * 256 + n % 256 = _
    rw [Nat.shiftRight_eq_div_pow, Nat.shiftRight_eq_div_pow, Nat.shiftRight_eq_div_pow]
    omega
  rw [Loader.ofBytes, hval, int32, int32, Int.natCast_mod]
  exact Int.emod_bmod _ _

theorem putU32_mod (n : Nat) : putU32 (n % 4294967296) = putU32 n := by
  have hbyte : ∀ i ≤ 24, Fin.ofNat 256 ((n % 4294967296) >>> i) = Fin.ofNat 256 (n >>> i) := by
    intro i hi
    refine Fin.ext ?_
    change (n % 2 ^ 32) >>> i % 2 ^ 8 = n >>> i % 2 ^ 8
    refine Nat.eq_of_testBit_eq fun j ↦ ?_
    simp only [Nat.testBit_mod_two_pow, Nat.testBit_shiftRight]
    by_cases hj : j < 8
    · simp only [hj, decide_true, Bool.true_and, Bool.and_eq_right_iff_imp, decide_eq_true_eq]
      exact fun _ ↦ by omega
    · simp [hj]
  have h₀ : Fin.ofNat 256 (n % 4294967296) = Fin.ofNat 256 n := hbyte 0 (by decide)
  rw [putU32, putU32, hbyte 24 (by decide), hbyte 16 (by decide), hbyte 8 (by decide), h₀]

theorem putI32_natCast (n : Nat) : putI32 n = putU32 n := by
  rw [putI32, ← putU32_mod n]
  rfl

/-- **The sign survives.** -/
theorem ofBytes_putI32 (v : Int) : Loader.ofBytes (putI32 v) = int32 v := by
  have hcast : (((v % 4294967296).toNat : Nat) : Int) = v % 4294967296 :=
    Int.toNat_of_nonneg (Int.emod_nonneg v (by decide))
  rw [putI32, ofBytes_putU32, hcast, int32, int32]
  exact Int.emod_bmod _ _

@[simp] theorem length_putU32 (n : Nat) : (putU32 n).length = 4 := rfl

theorem length_putI32 (v : Int) : (putI32 v).length = 4 := rfl

section Chunks

variable {m : Arrays} {a : TableName}

/-- A table of `int`s in a file. -/
theorem stores_words {n : Nat} (hlen : (m a).length = n) (hint : ∀ v ∈ m a, int32 v = v) :
    (FileSection.fill a 4 n : FileSection TableName Int).Stores Loader.ofBytes m ((m a).flatMap putI32) := by
  subst hlen
  refine ⟨length_flatMap_cells length_putI32 _, ?_⟩
  have hcells : cells 4 (m a).length ((m a).flatMap putI32) = (m a).map putI32 := by
    have hcells := cells_flatMap length_putI32 (le_refl (m a).length) []
    rwa [List.append_nil, List.take_length] at hcells
  have hid : (m a).map (Loader.ofBytes ∘ putI32) = (m a).map id := List.map_congr_left fun v hv ↦ by
    rw [Function.comp_apply, ofBytes_putI32, hint v hv, id]
  rw [hcells, List.map_map, hid, List.map_id]

/-- A table of bytes in a file. -/
theorem stores_bytes {vs : List Nat} (hm : m a = vs.map Nat.cast) (hlt : ∀ v ∈ vs, v < 256) :
    (FileSection.fill a 1 vs.length : FileSection TableName Int).Stores Loader.ofBytes m (vs.flatMap putU8) := by
  have hmap : vs.flatMap putU8 = vs.map (Fin.ofNat 256) :=
    List.map_eq_flatMap.symm
  refine ⟨by rw [hmap, List.length_map, Nat.one_mul], ?_⟩
  rw [Loader.map_cells_one, hmap, ← List.length_map (f := Fin.ofNat 256), List.take_length, List.map_map, hm]
  refine List.map_congr_left fun v hv ↦ ?_
  exact congrArg Nat.cast (Nat.mod_eq_of_lt (hlt v hv))

end Chunks

/-! ## The file of a scanner -/

namespace Scanner

variable {std : StdSort Nat} (S : Scanner std)

theorem arrays_yyEc : S.tables.arrays .yyEc = (bytes.map S.dfa.eclasses.of).map Nat.cast := by
  have hec : S.tables.yyEc = bytes.map S.dfa.eclasses.of := by
    obtain ⟨hb, htables⟩ := S.built
    rw [htables]
    change (if S.mode = .full then bytes.map Fin.val else bytes.map S.dfa.eclasses.of) = _
    split_ifs with hm
    · rw [hm] at hb
      have hec : some Eclasses.identityEclasses = some S.dfa.eclasses := dfaEclasses_of_buildDfa hb
      refine List.map_congr_left fun b _ ↦ ?_
      rw [← Option.some.inj hec]
      simp [Eclasses.of, Eclasses.identityEclasses, bytes]
    · rfl
  exact congrArg (List.map Nat.cast) hec

theorem metaIds_ne_nil (hc : S.compressed = true) : S.dfa.metaIds ≠ [] := by
  intro hnil
  have hlen := (length_computeMetaClasses S.dfa.states S.dfa.nclasses).1
  rw [metaIds_eq, if_pos hc] at hnil
  rw [hnil] at hlen
  exact absurd hlen S.nclasses_pos.ne

theorem arrays_yyMeta : S.tables.arrays .yyMeta = S.dfa.metaIds.map Nat.cast := by
  rw [S.built.2]
  change ((if S.mode = .compress then
    some (if S.dfa.metaIds.isEmpty then List.range S.dfa.nclasses else S.dfa.metaIds) else none).getD []).map
      Nat.cast = _
  by_cases hm : S.mode = .compress
  · have hne : ¬ S.dfa.metaIds.isEmpty = true := fun h ↦
      S.metaIds_ne_nil (decide_eq_true hm) (List.isEmpty_iff.1 h)
    rw [if_pos hm, if_neg hne, Option.getD_some]
  · have hnil : S.dfa.metaIds = [] := (S.metaIds_eq).trans (if_neg (by simpa [compressed] using hm))
    rw [if_neg hm, hnil]
    rfl

theorem arrays_packed (hc : S.compressed = true) :
    S.tables.arrays .yyBase = (compressDfa std S.dfa).yyBase.map Nat.cast ∧
    S.tables.arrays .yyDef = (compressDfa std S.dfa).yyDef.map Nat.cast ∧
    S.tables.arrays .yyNxt = (compressDfa std S.dfa).yyNxt ∧
    S.tables.arrays .yyChk = (compressDfa std S.dfa).yyChk := by
  have hnxt : S.tables.yyNxt = .packed (compressDfa std S.dfa) := by
    rw [S.built.2]
    exact if_pos (of_decide_eq_true hc)
  refine ⟨?_, ?_, ?_, ?_⟩ <;> simp only [Tables.arrays, hnxt]

/-- The rows of the DFA end to end. -/
def rows : List Int :=
  S.dfa.states.flatMap fun st ↦ (List.range S.dfa.nclasses).map fun cl ↦ st.next.getD cl (-1)

theorem length_rows : S.rows.length = S.dfa.states.length * S.dfa.nclasses := by
  rw [rows]
  induction S.dfa.states with
  | nil => rw [List.length_nil, Nat.zero_mul]; rfl
  | cons st states ih =>
      rw [List.flatMap_cons, List.length_append, ih, List.length_map, List.length_range, List.length_cons,
        Nat.succ_mul, Nat.add_comm]

theorem arrays_dense (hc : S.compressed = false) :
    S.tables.arrays .yyBase = [] ∧ S.tables.arrays .yyDef = [] ∧ S.tables.arrays .yyNxt = S.rows ∧
    S.tables.arrays .yyChk = [] := by
  have hnxt : S.tables.yyNxt = .dense (emitDense S.dfa) := by
    rw [S.built.2]
    exact if_neg (of_decide_eq_false hc)
  refine ⟨?_, ?_, ?_, ?_⟩ <;> simp only [Tables.arrays, hnxt]
  exact flatten_rows2d 0 S.length_rows

/-- The `int`s of the file, after the meta classes. -/
def words : List Int :=
  S.tables.arrays .yyBase ++ S.tables.arrays .yyDef ++ S.tables.arrays .yyNxt ++ S.tables.arrays .yyChk ++
  S.tables.arrays .yyAcceptNormal ++ S.tables.arrays .yyAcceptEol ++ [(S.dfa.condStarts.length : Int)] ++
  S.tables.arrays .yyCondNormal ++ S.tables.arrays .yyCondBol ++ S.grammar.nfa.ruleTrail

/-- The meta class of a class in the file. -/
def metaOf (i : Nat) : Nat := if i < S.dfa.metaIds.length then S.dfa.metaIds.getD i 0 else i

/-- What comes after the header. -/
def body : List Byte :=
  (bytes.map S.dfa.eclasses.of).flatMap putU8 ++ ((List.range S.dfa.nclasses).map S.metaOf).flatMap putU8 ++
  S.words.flatMap putI32

/-- The beginning of the file, as far as the name. -/
def preamble (name : List Byte) : List Byte :=
  putU32 0xF13C57B1 ++ putU32 1 ++ putU32 name.length ++ name

theorem file_eq (name : List Byte) : S.file name = preamble name ++
    (putU32 (if S.compressed then 1 else 0) ++ putU32 S.dfa.nclasses ++ putU32 S.dfa.states.length ++
      putU32 S.nrules ++ putU32 S.poolSize ++ S.body) := by
  have hwords : S.words.flatMap putI32 =
      (if S.compressed then
        ((compressDfa std S.dfa).yyBase.flatMap fun v : Nat ↦ putI32 v) ++
        ((compressDfa std S.dfa).yyDef.flatMap fun v : Nat ↦ putI32 v) ++
        (compressDfa std S.dfa).yyNxt.flatMap putI32 ++ (compressDfa std S.dfa).yyChk.flatMap putI32
      else
        S.dfa.states.flatMap fun st ↦ (List.range S.dfa.nclasses).flatMap fun cl ↦
          putI32 (st.next.getD cl (-1))) ++
      (S.dfa.states.flatMap fun st ↦ putI32 st.acceptNormal) ++
      (S.dfa.states.flatMap fun st ↦ putI32 st.acceptEol) ++
      putU32 S.dfa.condStarts.length ++
      (S.dfa.condStarts.flatMap fun cs ↦ putI32 cs.normal) ++
      (S.dfa.condStarts.flatMap fun cs ↦ putI32 cs.bol) ++
      S.grammar.nfa.ruleTrail.flatMap putI32 := by
    have hrest : S.tables.arrays .yyAcceptNormal = S.dfa.states.map DFAState.acceptNormal ∧
        S.tables.arrays .yyAcceptEol = S.dfa.states.map DFAState.acceptEol ∧
        S.tables.arrays .yyCondNormal = (S.dfa.condStarts.map DFAStart.normal).map Nat.cast ∧
        S.tables.arrays .yyCondBol = (S.dfa.condStarts.map DFAStart.bol).map Nat.cast := by
      rw [S.built.2]
      exact ⟨rfl, rfl, rfl, rfl⟩
    obtain ⟨han, hae, hcn, hcb⟩ := hrest
    rw [words, han, hae, hcn, hcb]
    by_cases hc : S.compressed = true
    · obtain ⟨hbase, hdef, hnxt, hchk⟩ := S.arrays_packed hc
      rw [hbase, hdef, hnxt, hchk, if_pos hc]
      simp only [List.flatMap_append, List.flatMap_map, List.flatMap_singleton, putI32_natCast]
    · obtain ⟨hbase, hdef, hnxt, hchk⟩ := S.arrays_dense (Bool.eq_false_iff.2 hc)
      rw [hbase, hdef, hnxt, hchk, if_neg hc, rows]
      simp only [List.flatMap_append, List.flatMap_map, List.flatMap_singleton, putI32_natCast,
        List.flatMap_assoc, List.append_nil, List.nil_append]
  have hec : (bytes.map S.dfa.eclasses.of).flatMap putU8 = bytes.flatMap fun b ↦ putU8 (S.dfa.eclasses.of b) :=
    List.flatMap_map ..
  have hmeta : ((List.range S.dfa.nclasses).map S.metaOf).flatMap putU8 =
      (List.range S.dfa.nclasses).flatMap fun i ↦
        putU8 (if i < S.dfa.metaIds.length then S.dfa.metaIds.getD i 0 else i) := List.flatMap_map ..
  rw [file, serialiseTables, preamble, body, hwords, hec, hmeta, nrules, poolSize]
  simp only [List.append_assoc]

/-! ### Sizes -/

theorem consts_nr : S.consts.nr = if S.nrules = 0 then 1 else S.nrules := rfl

theorem length_emitArray {α : Type} (l : List α) (zero : α) :
    (emitArray l zero).length = if l.length = 0 then 1 else l.length := by
  cases l <;> rfl

theorem length_metaIds (hc : S.compressed = true) : S.dfa.metaIds.length = S.dfa.nclasses := by
  rw [metaIds_eq, if_pos hc]
  exact (length_computeMetaClasses _ _).1

/-- The sizes of the tables of transitions. -/
theorem sized_transitions : ∀ a ∈ [TableName.yyMeta, .yyBase, .yyDef, .yyNxt, .yyChk],
    (S.tables.arrays a).length = S.consts.size a := by
  simp only [List.forall_mem_cons, List.not_mem_nil, false_implies, implies_true, and_true]
  by_cases hc : S.compressed = true
  · obtain ⟨hbase, hdef, hnxt, hchk⟩ := S.arrays_packed hc
    obtain ⟨hchklen, hnxtlen, hbaselen⟩ := compressDfa_lengths std S.dfa
    have hk : S.consts.compressed = true := hc
    have hp : S.poolSize = (compressDfa std S.dfa).poolSize := if_pos hc
    rw [hbase, hdef, hnxt, hchk, arrays_yyMeta, List.length_map, List.length_map, List.length_map,
      S.length_metaIds hc, hbaselen, hnxtlen, hchklen, ← hp]
    exact ⟨(if_pos hk).symm, (if_pos hk).symm, List.length_replicate.trans (if_pos hk).symm, (if_pos hk).symm,
      (if_pos hk).symm⟩
  · obtain ⟨hbase, hdef, hnxt, hchk⟩ := S.arrays_dense (Bool.eq_false_iff.2 hc)
    have hk : ¬ S.consts.compressed = true := hc
    rw [hbase, hdef, hnxt, hchk, arrays_yyMeta, metaIds_eq, if_neg hc, length_rows]
    exact ⟨(if_neg hk).symm, (if_neg hk).symm, (if_neg hk).symm, (if_neg hk).symm, (if_neg hk).symm⟩

/-- The tables are emitted in the sizes that the loader has for them. -/
theorem sized : S.consts.Sized S.tables.arrays := by
  have hrest : S.tables.arrays .yyAcceptNormal = S.dfa.states.map DFAState.acceptNormal ∧
      S.tables.arrays .yyAcceptEol = S.dfa.states.map DFAState.acceptEol ∧
      S.tables.arrays .yyCondNormal = (S.dfa.condStarts.map DFAStart.normal).map Nat.cast ∧
      S.tables.arrays .yyCondBol = (S.dfa.condStarts.map DFAStart.bol).map Nat.cast ∧
      S.tables.arrays .yyRuleTrailLen = emitArray S.grammar.nfa.ruleTrail 0 := by
    rw [S.built.2]
    exact ⟨rfl, rfl, rfl, rfl, rfl⟩
  obtain ⟨han, hae, hcn, hcb, htrail⟩ := hrest
  intro a
  cases a with
  | yyEc =>
      rw [arrays_yyEc, List.length_map, List.length_map]
      exact List.length_finRange
  | yyMeta => exact S.sized_transitions _ (by decide)
  | yyBase => exact S.sized_transitions _ (by decide)
  | yyDef => exact S.sized_transitions _ (by decide)
  | yyNxt => exact S.sized_transitions _ (by decide)
  | yyChk => exact S.sized_transitions _ (by decide)
  | yyAcceptNormal => rw [han, List.length_map]; rfl
  | yyAcceptEol => rw [hae, List.length_map]; rfl
  | yyCondNormal => rw [hcn, List.length_map, List.length_map]; rfl
  | yyCondBol => rw [hcb, List.length_map, List.length_map]; rfl
  | yyRuleTrailLen => rw [htrail, length_emitArray]; rfl

theorem nstates_lt : S.dfa.states.length < 2147483648 := by
  have h := S.length_lt .yyAcceptNormal
  rwa [S.sized] at h

theorem nconds_lt : S.dfa.condStarts.length < 2147483648 := by
  have h := S.length_lt .yyCondNormal
  rwa [S.sized] at h

theorem poolSize_lt : S.poolSize < 2147483648 := by
  by_cases hc : S.compressed = true
  · have h := S.length_lt .yyNxt
    rw [S.sized] at h
    have hsize : S.consts.size .yyNxt = S.poolSize := if_pos hc
    rwa [hsize] at h
  · rw [poolSize, if_neg hc]
    decide

/-! ### The header -/

theorem wordAt_append (pre r : List Byte) (i : Nat) : wordAt (pre ++ r) (pre.length + i) = wordAt r i := by
  rw [wordAt, wordAt, List.length_append, Nat.add_assoc, ← List.drop_drop, List.drop_left]
  exact if_congr Nat.add_le_add_iff_left rfl rfl

theorem wordAt_zero (n : Nat) (r : List Byte) : wordAt (putU32 n ++ r) 0 = some (int32 n) := by
  have hlen : 0 + 4 ≤ (putU32 n ++ r).length := by
    rw [List.length_append, length_putU32]
    exact Nat.le_add_right 4 _
  rw [wordAt, if_pos hlen, List.drop_zero, List.take_left' (length_putU32 n), ofBytes_putU32]

theorem wordAt_succ (n : Nat) (r : List Byte) (i : Nat) : wordAt (putU32 n ++ r) (4 + i) = wordAt r i :=
  wordAt_append (putU32 n) r i

/-- The header of a file with a name of moderate length. -/
theorem header_file (k : LoaderConsts) {name : List Byte} (hname : name.length < 2147483648) :
    header k (S.file name) =
      if k.ncls = S.dfa.nclasses ∧ k.ns = S.dfa.states.length then some ((S.poolSize : Int), S.body)
      else none := by
  let flags : Nat := if S.compressed then 1 else 0
  have hpre : (preamble name).length = 12 + name.length := by
    simp only [preamble, List.length_append, length_putU32]
  have hfile : S.file name = preamble name ++ (putU32 flags ++ (putU32 S.dfa.nclasses ++
      (putU32 S.dfa.states.length ++ (putU32 S.nrules ++ (putU32 S.poolSize ++ S.body))))) := by
    rw [file_eq]
    simp only [List.append_assoc]
    rfl
  have hstart : S.file name = putU32 0xF13C57B1 ++ (putU32 1 ++ (putU32 name.length ++ (name ++
      (putU32 flags ++ (putU32 S.dfa.nclasses ++ (putU32 S.dfa.states.length ++ (putU32 S.nrules ++
      (putU32 S.poolSize ++ S.body)))))))) := by
    rw [hfile, preamble]
    simp only [List.append_assoc]
  have h₀ : wordAt (S.file name) 0 = some (int32 0xF13C57B1) := by
    rw [hstart, wordAt_zero, Nat.cast_ofNat]
  have h₄ : wordAt (S.file name) 4 = some 1 := by
    rw [hstart]
    exact (wordAt_succ _ _ 0).trans (wordAt_zero _ _)
  have h₈ : wordAt (S.file name) 8 = some (name.length : Int) := by
    rw [hstart]
    refine (wordAt_succ _ _ 4).trans ((wordAt_succ _ _ 0).trans ((wordAt_zero _ _).trans ?_))
    rw [int32_natCast hname]
  have hrest : ∀ i, wordAt (S.file name) (12 + name.length + i) =
      wordAt (putU32 flags ++ (putU32 S.dfa.nclasses ++ (putU32 S.dfa.states.length ++ (putU32 S.nrules ++
        (putU32 S.poolSize ++ S.body))))) i := fun i ↦ by
    rw [hfile, ← hpre, wordAt_append]
  have hflags : wordAt (S.file name) (12 + name.length) = some (int32 flags) :=
    (hrest 0).trans (wordAt_zero _ _)
  have hcls : wordAt (S.file name) (12 + name.length + 4) = some (S.dfa.nclasses : Int) := by
    refine (hrest 4).trans ((wordAt_succ _ _ 0).trans ((wordAt_zero _ _).trans ?_))
    rw [int32_natCast (S.nclasses_le.trans_lt (by decide))]
  have hns : wordAt (S.file name) (12 + name.length + 8) = some (S.dfa.states.length : Int) := by
    refine (hrest 8).trans ((wordAt_succ _ _ 4).trans ((wordAt_succ _ _ 0).trans ((wordAt_zero _ _).trans ?_)))
    rw [int32_natCast S.nstates_lt]
  have hnr : wordAt (S.file name) (12 + name.length + 12) = some (int32 S.nrules) :=
    (hrest 12).trans ((wordAt_succ _ _ 8).trans ((wordAt_succ _ _ 4).trans ((wordAt_succ _ _ 0).trans
      (wordAt_zero _ _))))
  have hpool : wordAt (S.file name) (12 + name.length + 16) = some (S.poolSize : Int) := by
    refine (hrest 16).trans ((wordAt_succ _ _ 12).trans ((wordAt_succ _ _ 8).trans ((wordAt_succ _ _ 4).trans
      ((wordAt_succ _ _ 0).trans ((wordAt_zero _ _).trans ?_)))))
    rw [int32_natCast S.poolSize_lt]
  have hbody : (S.file name).drop (12 + name.length + 20) = S.body := by
    rw [hfile, ← hpre, ← List.drop_drop, List.drop_left]
    rfl
  have hp : (12 + (name.length : Int)).toNat = 12 + name.length := by omega
  have hguard : ∀ {c : Prop} [Decidable c] {α : Type} (f : Unit → Option α),
      (guard c : Option Unit).bind f = if c then f () else none := fun {c} _ {α} f ↦ by
    rw [guard]
    by_cases h : c
    · rw [if_pos h, if_pos h]
      rfl
    · rw [if_neg h, if_neg h]
      rfl
  unfold header
  simp only [Option.bind_eq_bind, h₀, h₄, h₈, Option.bind_some, hguard, hp, hflags, hcls, hns, hnr, hpool, hbody]
  rw [if_pos trivial, if_pos trivial, if_pos (by omega), ite_and]
  simp only [Nat.cast_inj, eq_comm (a := S.dfa.nclasses), eq_comm (a := S.dfa.states.length)]
  rfl

/-! ### A file that is read back -/

theorem stores_array {a : TableName} {n : Nat} (hn : n = S.consts.size a) :
    (FileSection.fill a 4 n : FileSection TableName Int).Stores Loader.ofBytes S.tables.arrays
      ((S.tables.arrays a).flatMap putI32) :=
  stores_words ((S.sized a).trans hn.symm) (S.int32_mem a)

theorem stores_yyEc : (FileSection.fill .yyEc 1 256 : FileSection TableName Int).Stores Loader.ofBytes
    S.tables.arrays ((bytes.map S.dfa.eclasses.of).flatMap putU8) := by
  have hlen : (bytes.map S.dfa.eclasses.of).length = 256 := by
    rw [List.length_map]
    exact List.length_finRange
  rw [← hlen]
  refine stores_bytes S.arrays_yyEc fun v hv ↦ ?_
  obtain ⟨b, -, rfl⟩ := List.mem_map.1 hv
  obtain ⟨sets, h⟩ := S.exact
  exact (h.valid.of_lt b).trans_le (h.nclasses_eq ▸ S.nclasses_le)

theorem map_metaOf (hc : S.compressed = true) : (List.range S.dfa.nclasses).map S.metaOf = S.dfa.metaIds := by
  refine List.ext_getElem ?_ fun i hi hi' ↦ ?_
  · rw [List.length_map, List.length_range, S.length_metaIds hc]
  · rw [List.getElem_map, List.getElem_range, metaOf, if_pos hi', List.getD_eq_getElem _ _ hi']

theorem stores_yyMeta (hc : S.compressed = true) :
    (FileSection.fill .yyMeta 1 S.dfa.nclasses : FileSection TableName Int).Stores Loader.ofBytes
      S.tables.arrays (((List.range S.dfa.nclasses).map S.metaOf).flatMap putU8) := by
  rw [S.map_metaOf hc, ← S.length_metaIds hc]
  refine stores_bytes S.arrays_yyMeta fun v hv ↦ ?_
  rw [metaIds_eq, if_pos hc] at hv
  exact (length_computeMetaClasses _ _).2 v hv

theorem length_metaBytes : (((List.range S.dfa.nclasses).map S.metaOf).flatMap putU8).length = S.dfa.nclasses := by
  have hone : ∀ v : Nat, (putU8 v).length = 1 := fun _ ↦ rfl
  rw [length_flatMap_cells hone, List.length_map, List.length_range, Nat.one_mul]

theorem arrays_yyRuleTrailLen (hrules : 0 < S.nrules) :
    S.tables.arrays .yyRuleTrailLen = S.grammar.nfa.ruleTrail := by
  have htrail : S.tables.arrays .yyRuleTrailLen = emitArray S.grammar.nfa.ruleTrail 0 := by
    rw [S.built.2]
    rfl
  rw [htrail, emitArray, if_neg]
  rw [List.isEmpty_iff_length_eq_zero]
  exact hrules.ne'

/-- After the header the file holds what the scanner's own loader expects there. -/
theorem stored (hrules : 0 < S.nrules) :
    Stored Loader.ofBytes S.tables.arrays (sections S.consts S.poolSize) S.body := by
  have hncs : (FileSection.expect 4 (S.dfa.condStarts.length : Int) : FileSection TableName Int).Stores
      Loader.ofBytes S.tables.arrays (putI32 S.dfa.condStarts.length) :=
    ⟨rfl, (ofBytes_putI32 _).trans (int32_natCast S.nconds_lt)⟩
  have hnr : S.consts.nr = S.consts.size .yyRuleTrailLen := rfl
  have hend := (Stored.cons (S.stores_array (a := .yyAcceptNormal) rfl) <|
    Stored.cons (S.stores_array (a := .yyAcceptEol) rfl) <| Stored.cons hncs <|
    Stored.cons (S.stores_array (a := .yyCondNormal) rfl) <|
    Stored.cons (S.stores_array (a := .yyCondBol) rfl) <|
    Stored.cons (S.stores_array hnr) .nil)
  rw [S.arrays_yyRuleTrailLen hrules] at hend
  have hwords : S.words.flatMap putI32 =
      (S.tables.arrays .yyBase).flatMap putI32 ++ ((S.tables.arrays .yyDef).flatMap putI32 ++
      ((S.tables.arrays .yyNxt).flatMap putI32 ++ ((S.tables.arrays .yyChk).flatMap putI32 ++
      ((S.tables.arrays .yyAcceptNormal).flatMap putI32 ++ ((S.tables.arrays .yyAcceptEol).flatMap putI32 ++
      (putI32 S.dfa.condStarts.length ++ ((S.tables.arrays .yyCondNormal).flatMap putI32 ++
      ((S.tables.arrays .yyCondBol).flatMap putI32 ++
      (S.grammar.nfa.ruleTrail.flatMap putI32 ++ []))))))))) := by
    rw [words]
    simp only [List.flatMap_append, List.flatMap_singleton, List.append_assoc, List.append_nil]
  rw [body, List.append_assoc, hwords]
  refine Stored.cons S.stores_yyEc ?_
  unfold transitionSections
  by_cases hc : S.compressed = true
  · have hk : S.consts.compressed = true := hc
    rw [if_pos hk]
    refine Stored.cons (S.stores_yyMeta hc) ?_
    refine Stored.cons (c := []) ⟨rfl, decide_eq_true rfl⟩ ?_
    refine Stored.cons (S.stores_array (if_pos hk).symm) ?_
    refine Stored.cons (S.stores_array (if_pos hk).symm) ?_
    refine Stored.cons (S.stores_array (if_pos hk).symm) ?_
    exact Stored.cons (S.stores_array (if_pos hk).symm) hend
  · have hk : ¬ S.consts.compressed = true := hc
    obtain ⟨hbase, hdef, -, hchk⟩ := S.arrays_dense (Bool.eq_false_iff.2 hc)
    rw [if_neg hk, hbase, hdef, hchk, List.flatMap_nil, List.nil_append, List.nil_append, List.nil_append]
    refine Stored.cons S.length_metaBytes ?_
    exact Stored.cons (S.stores_array (if_neg hk).symm) hend

/-- The file of the one scanner has the mode and the counts of the other. -/
structure Alike (A B : Scanner std) : Prop where
  compressed : A.compressed = B.compressed
  nclasses : A.dfa.nclasses = B.dfa.nclasses
  nstates : A.dfa.states.length = B.dfa.states.length
  nconds : A.dfa.condStarts.length = B.dfa.condStarts.length
  poolSize : A.poolSize = B.poolSize

/-- The numbers of rules are the same too. -/
structure Fits (A B : Scanner std) : Prop extends Alike A B where
  nrules : A.nrules = B.nrules

variable {A B : Scanner std}

theorem Fits.consts_eq (h : A.Fits B) : A.consts = B.consts := by
  have hA : A.consts = ⟨A.compressed, A.dfa.nclasses, A.dfa.states.length, A.dfa.condStarts.length,
      if A.nrules = 0 then 1 else A.nrules, A.poolSize⟩ := rfl
  rw [hA, h.compressed, h.nclasses, h.nstates, h.nconds, h.nrules, h.poolSize]
  rfl

/-- The tables that the sections are about. -/
theorem target_sections (k : LoaderConsts) (gotPool : Int) : (sections k gotPool).map FileSection.target =
    if k.compressed then
      [some .yyEc, some .yyMeta, none, some .yyBase, some .yyDef, some .yyNxt, some .yyChk,
        some .yyAcceptNormal, some .yyAcceptEol, none, some .yyCondNormal, some .yyCondBol,
        some .yyRuleTrailLen]
    else
      [some .yyEc, none, some .yyNxt, some .yyAcceptNormal, some .yyAcceptEol, none, some .yyCondNormal,
        some .yyCondBol, some .yyRuleTrailLen] := by
  rw [sections, transitionSections]
  split_ifs <;> rfl

/-- A table that the loader does not fill is not there. -/
theorem target_or_empty (k : LoaderConsts) (gotPool : Int) (a : TableName) :
    some a ∈ (sections k gotPool).map FileSection.target ∨ k.size a = 0 := by
  rw [target_sections]
  by_cases hk : k.compressed = true
  · rw [if_pos hk]
    cases a <;> exact .inl (by decide)
  · rw [if_neg hk]
    cases a with
    | yyMeta | yyBase | yyDef | yyChk => exact .inr (if_neg hk)
    | yyEc | yyNxt | yyAcceptNormal | yyAcceptEol | yyCondNormal | yyCondBol | yyRuleTrailLen =>
        exact .inl (by decide)

/-- The tables name rules of the scanner. -/
theorem mem_accept_lt : ∀ a ∈ [TableName.yyAcceptNormal, .yyAcceptEol], ∀ v ∈ S.tables.arrays a,
    v < S.nrules := by
  obtain ⟨sets, h⟩ := S.exact
  have hstate : ∀ st ∈ S.dfa.states, st.acceptNormal < S.nrules ∧ st.acceptEol < S.nrules := by
    intro st hst
    obtain ⟨i, hi⟩ := List.getElem?_of_mem hst
    cases i with
    | zero =>
        obtain rfl := Option.some.inj (h.head_states.symm.trans hi)
        exact ⟨by change (-1 : Int) < _; omega, by change (-1 : Int) < _; omega⟩
    | succ i =>
        have hlt : i < sets.length := by
          have := (List.getElem?_eq_some_iff.1 hi).1
          rw [h.length_states] at this
          exact Nat.lt_of_succ_lt_succ this
        obtain ⟨st', hst', haccept, -⟩ := h.row i sets[i] (List.getElem?_eq_getElem hlt)
        obtain rfl := Option.some.inj (hst'.symm.trans hi)
        have hof := S.grammar.nfa.isAcceptOf_acceptFor sets[i]
        rw [← haccept] at hof
        have hmem : ∀ r ∈ st'.accepts.list, r < S.nrules := fun r hr ↦ by
          obtain ⟨-, q, -, rfl⟩ := (hof.mem_list r).1 hr
          rw [S.nrules_eq]
          exact NFA.buildNfa_acceptRule_lt _ _ _ q
        have hleast : ∀ {P : Int → Prop} {x : Int}, IsLeastRule (fun r ↦ r ∈ st'.accepts.list ∧ P r) x →
            x < S.nrules := fun hx ↦ by
          rcases hx with ⟨hx, -⟩ | ⟨rfl, -⟩
          · exact hmem _ hx.1
          · omega
        exact ⟨hleast hof.normal, hleast hof.eol⟩
  have harrays : S.tables.arrays .yyAcceptNormal = S.dfa.states.map DFAState.acceptNormal ∧
      S.tables.arrays .yyAcceptEol = S.dfa.states.map DFAState.acceptEol := by
    rw [S.built.2]
    exact ⟨rfl, rfl⟩
  intro a ha v hv
  rcases List.mem_cons.1 ha with rfl | ha
  · rw [harrays.1] at hv
    obtain ⟨st, hst, rfl⟩ := List.mem_map.1 hv
    exact (hstate st hst).1
  · obtain rfl := List.mem_singleton.1 ha
    rw [harrays.2] at hv
    obtain ⟨st, hst, rfl⟩ := List.mem_map.1 hv
    exact (hstate st hst).2

/-! ### Files of other scanners -/

/-- How many `int`s the loader reads before the number of start conditions. -/
def before : Nat :=
  S.consts.size .yyBase + S.consts.size .yyDef + S.consts.size .yyNxt + S.consts.size .yyChk +
  S.dfa.states.length + S.dfa.states.length

theorem length_words : S.words.length = S.before + 1 + 2 * S.dfa.condStarts.length + S.nrules := by
  simp only [words, List.length_append, List.length_singleton, S.sized _, before, nrules]
  have h₁ : S.consts.size .yyAcceptNormal = S.dfa.states.length := rfl
  have h₂ : S.consts.size .yyAcceptEol = S.dfa.states.length := rfl
  have h₃ : S.consts.size .yyCondNormal = S.dfa.condStarts.length := rfl
  have h₄ : S.consts.size .yyCondBol = S.dfa.condStarts.length := rfl
  omega

theorem getElem?_words : S.words[S.before]? = some (S.dfa.condStarts.length : Int) := by
  have hpre : (S.tables.arrays .yyBase ++ S.tables.arrays .yyDef ++ S.tables.arrays .yyNxt ++
      S.tables.arrays .yyChk ++ S.tables.arrays .yyAcceptNormal ++ S.tables.arrays .yyAcceptEol).length =
      S.before := by
    simp only [List.length_append, S.sized _, before]
    rfl
  rw [words, List.append_assoc, List.append_assoc, List.append_assoc, ← hpre,
    List.getElem?_append_right (le_refl _), Nat.sub_self]
  rfl

theorem int32_words : ∀ v ∈ S.words, int32 v = v := by
  have htrail : ∀ v ∈ S.grammar.nfa.ruleTrail, int32 v = v := fun v hv ↦ by
    have hrules : 0 < S.nrules := List.length_pos_of_mem hv
    rw [← S.arrays_yyRuleTrailLen hrules] at hv
    exact S.int32_mem _ v hv
  intro v hv
  simp only [words, List.mem_append, List.mem_singleton] at hv
  rcases hv with ((((((((((hv | hv) | hv) | hv) | hv) | hv) | rfl) | hv) | hv) | hv))
  · exact S.int32_mem _ v hv
  · exact S.int32_mem _ v hv
  · exact S.int32_mem _ v hv
  · exact S.int32_mem _ v hv
  · exact S.int32_mem _ v hv
  · exact S.int32_mem _ v hv
  · exact int32_natCast S.nconds_lt
  · exact S.int32_mem _ v hv
  · exact S.int32_mem _ v hv
  · exact htrail v hv

/-- Where the loader of `A` looks for the number of start conditions, the file of `B` has that of `A`,
and as many `int`s after it as the loader goes on to read. -/
def Finds (A B : Scanner std) : Prop :=
  B.words[A.before]? = some (A.dfa.condStarts.length : Int) ∧
  A.before + 1 + 2 * A.dfa.condStarts.length + A.consts.nr ≤ B.words.length

/-- The `int`s of a file, read by the loader of another scanner. -/
theorem accepted_words_iff (A B : Scanner std) (fills : List (TableName × Nat))
    (hsum : (fills.map Prod.snd).sum = A.before) :
    Accepted Loader.ofBytes (fills.map (fun f ↦ .fill f.1 4 f.2) ++ [.expect 4 (A.consts.ncs : Int),
      .fill .yyCondNormal 4 A.consts.ncs, .fill .yyCondBol 4 A.consts.ncs, .fill .yyRuleTrailLen 4 A.consts.nr])
      (B.words.flatMap putI32) ↔ A.Finds B := by
  have hdec : ∀ v ∈ B.words.drop A.before, Loader.ofBytes (putI32 v) = v := fun v hv ↦
    (ofBytes_putI32 v).trans (B.int32_words v (List.mem_of_mem_drop hv))
  have hlast : Accepted Loader.ofBytes (_ ++ []) ((B.words.drop A.before).tail.flatMap putI32) ↔ _ :=
    accepted_fills_iff length_putI32 (by decide)
      [(TableName.yyCondNormal, A.consts.ncs), (.yyCondBol, A.consts.ncs), (.yyRuleTrailLen, A.consts.nr)]
      (B.words.drop A.before).tail
  have hncs : A.consts.ncs = A.dfa.condStarts.length := rfl
  rw [accepted_fills_iff length_putI32 (by decide), hsum, accepted_expect_iff length_putI32 hdec (by decide)]
  refine (and_congr_right fun _ ↦ and_congr_right fun _ ↦ hlast).trans ?_
  simp only [List.map_cons, List.map_nil, List.sum_cons, List.sum_nil, List.length_tail, List.length_drop,
    Accepted, and_true, Finds, List.head?_drop, hncs]
  constructor
  · rintro ⟨hle, hhead, hrest⟩
    have hlt := (List.getElem?_eq_some_iff.1 hhead).1
    exact ⟨hhead, by omega⟩
  · rintro ⟨hhead, hle⟩
    exact ⟨by omega, hhead, by omega⟩

/-- The loader of `A` takes what comes after the header of a file of `B`. -/
theorem accepted_body_iff (A B : Scanner std) (hcls : A.dfa.nclasses = B.dfa.nclasses) :
    Accepted Loader.ofBytes (sections A.consts B.poolSize) B.body ↔
      (A.compressed = true → B.poolSize = A.poolSize) ∧ A.Finds B := by
  have hec : ∀ r : List Byte, (FileSection.fill .yyEc 1 256 : FileSection TableName Int).Passes Loader.ofBytes
      ((bytes.map B.dfa.eclasses.of).flatMap putU8 ++ r) ∧
      ((bytes.map B.dfa.eclasses.of).flatMap putU8 ++ r).drop 256 = r := fun r ↦
    FileSection.passes_append B.stores_yyEc r
  have hmeta : ∀ r : List Byte, A.dfa.nclasses ≤
      (((List.range B.dfa.nclasses).map B.metaOf).flatMap putU8 ++ r).length ∧
      (((List.range B.dfa.nclasses).map B.metaOf).flatMap putU8 ++ r).drop A.dfa.nclasses = r := by
    intro r
    have hlen := B.length_metaBytes
    rw [← hcls] at hlen
    refine ⟨?_, ?_⟩
    · rw [List.length_append, ← hcls, hlen]
      exact Nat.le_add_right _ _
    · rw [← hcls]
      exact List.drop_left' hlen
  rw [body, List.append_assoc]
  refine (and_iff_right (hec _).1).trans ?_
  change Accepted Loader.ofBytes (transitionSections A.consts B.poolSize ++ _)
    (((bytes.map B.dfa.eclasses.of).flatMap putU8 ++ _).drop 256) ↔ _
  rw [(hec _).2, transitionSections]
  by_cases hc : A.compressed = true
  · have hk : A.consts.compressed = true := hc
    rw [if_pos hk]
    have hsum : ([(TableName.yyBase, A.consts.ns), (.yyDef, A.consts.ns), (.yyNxt, A.consts.pool),
        (.yyChk, A.consts.pool), (.yyAcceptNormal, A.consts.ns), (.yyAcceptEol, A.consts.ns)].map
          Prod.snd).sum = A.before := by
      simp only [before, LoaderConsts.size, if_pos hk, List.map_cons, List.map_nil, List.sum_cons, List.sum_nil]
      have hns : A.consts.ns = A.dfa.states.length := rfl
      omega
    refine (and_iff_right ?_).trans ?_
    · change 1 * A.dfa.nclasses ≤ _
      rw [Nat.one_mul]
      exact (hmeta _).1
    change Accepted Loader.ofBytes _ ((((List.range B.dfa.nclasses).map B.metaOf).flatMap putU8 ++ _).drop
      (1 * A.dfa.nclasses)) ↔ _
    rw [Nat.one_mul, (hmeta _).2]
    have hpool : decide ((B.poolSize : Int) = A.consts.pool) = true ↔ (A.compressed = true → B.poolSize = A.poolSize) := by
      rw [decide_eq_true_iff, Nat.cast_inj]
      exact ⟨fun h _ ↦ h, fun h ↦ h hc⟩
    exact and_congr hpool (A.accepted_words_iff B _ hsum)
  · have hk : ¬ A.consts.compressed = true := hc
    rw [if_neg hk, and_iff_right fun h ↦ absurd h hc]
    have hsum : ([(TableName.yyNxt, A.consts.ns * A.consts.ncls), (.yyAcceptNormal, A.consts.ns),
        (.yyAcceptEol, A.consts.ns)].map Prod.snd).sum = A.before := by
      simp only [before, LoaderConsts.size, if_neg hk, List.map_cons, List.map_nil, List.sum_cons, List.sum_nil]
      have hns : A.consts.ns = A.dfa.states.length := rfl
      omega
    refine (and_iff_right (hmeta _).1).trans ?_
    change Accepted Loader.ofBytes _ ((((List.range B.dfa.nclasses).map B.metaOf).flatMap putU8 ++ _).drop
      A.dfa.nclasses) ↔ _
    rw [(hmeta _).2]
    exact A.accepted_words_iff B _ hsum

/-- Which of the files of other scanners are loaded. -/
theorem fload_eq_zero_iff (A B : Scanner std) {name : List Byte} (hname : name.length < 2147483648)
    {m : Arrays} (hm : A.consts.Sized m) : (yytablesFload A.consts (some (B.file name)) m).1 = 0 ↔
      A.dfa.nclasses = B.dfa.nclasses ∧ A.dfa.states.length = B.dfa.states.length ∧
      (A.compressed = true → B.poolSize = A.poolSize) ∧ A.Finds B := by
  rw [fload_eq hm, header_file B A.consts hname]
  by_cases hcounts : A.dfa.nclasses = B.dfa.nclasses ∧ A.dfa.states.length = B.dfa.states.length
  · have hk : A.consts.ncls = B.dfa.nclasses ∧ A.consts.ns = B.dfa.states.length := hcounts
    rw [if_pos hk]
    have hzero : ∀ o : Option (List Byte), (if o.isSome then (0 : Int) else -1) = 0 ↔ o.isSome = true := by
      intro o
      cases o with
      | none => exact iff_of_false (by decide) Bool.false_ne_true
      | some r => exact iff_of_true rfl rfl
    simp only
    rw [hzero, readAll_isSome_iff, ← and_assoc, and_iff_right hcounts]
    exact A.accepted_body_iff B hcounts.1
  · have hk : ¬ (A.consts.ncls = B.dfa.nclasses ∧ A.consts.ns = B.dfa.states.length) := hcounts
    rw [if_neg hk]
    exact iff_of_false (fun h ↦ absurd (show (-1 : Int) = 0 from h) (by decide)) fun h ↦ hcounts ⟨h.1, h.2.1⟩

/-- The file of a scanner with the same counts is loaded. -/
theorem Fits.fload_file (h : A.Fits B) (hrules : 0 < A.nrules) {name : List Byte}
    (hname : name.length < 2147483648) {m : Arrays} (hm : A.consts.Sized m) :
    yytablesFload A.consts (some (B.file name)) m = (0, B.tables.arrays) := by
  rw [fload_eq hm, header_file B A.consts hname, if_pos ⟨h.nclasses, h.nstates⟩]
  rw [h.consts_eq] at hm ⊢
  have hlen : ∀ a, (m a).length = (B.tables.arrays a).length := fun a ↦ (hm a).trans (B.sized a).symm
  obtain ⟨hread, harrays⟩ := readAll_stored (B.stored (h.nrules ▸ hrules)) fun a _ ↦ hlen a
  refine Prod.ext (if_pos (by rw [hread]; rfl)) (funext fun a ↦ ?_)
  rcases target_or_empty B.consts B.poolSize a with ha | ha
  · exact harrays a ha
  · have hm₀ : m a = [] := List.eq_nil_of_length_eq_zero ((hm a).trans ha)
    have hB₀ : B.tables.arrays a = [] := List.eq_nil_of_length_eq_zero ((B.sized a).trans ha)
    refine Eq.trans ?_ hB₀.symm
    by_cases htarget : some a ∈ (sections B.consts B.poolSize).map FileSection.target
    · exact (harrays a htarget).trans hB₀
    · exact (readAll_of_not_target htarget).trans hm₀

end Scanner

/-! ## The beginning of a file -/

theorem wordAt_append_left {pre : List Byte} {i : Nat} (h : i + 4 ≤ pre.length) (x : List Byte) :
    wordAt (pre ++ x) i = wordAt pre i := by
  have hle : i + 4 ≤ (pre ++ x).length := h.trans (by simp)
  rw [wordAt, wordAt, if_pos h, if_pos hle, List.drop_append_of_le_length (Nat.le_of_add_right_le h),
    List.take_append_of_le_length]
  rw [List.length_drop]
  omega

/-- The header, and the rest of a file that goes on. -/
theorem header_append (k : LoaderConsts) {pre : List Byte} (hpre : 12 ≤ pre.length)
    (h : ∀ n, wordAt pre 8 = some n → 0 ≤ 12 + n → (12 + n).toNat + 20 ≤ pre.length) (x : List Byte) :
    header k (pre ++ x) = (header k pre).map fun r ↦ (r.1, r.2 ++ x) := by
  have hbind : ∀ {α β γ : Type} (o : Option α) {f : α → Option β} {g : α → Option γ} {t : γ → β},
      (∀ a, o = some a → f a = (g a).map t) → o.bind f = (o.bind g).map t := by
    intro α β γ o f g t hfg
    cases o with
    | none => rfl
    | some a => exact hfg a rfl
  unfold header
  simp only [Option.bind_eq_bind]
  rw [wordAt_append_left (by omega), wordAt_append_left (by omega), wordAt_append_left (by omega)]
  refine hbind _ fun magic _ ↦ hbind _ fun _ _ ↦ hbind _ fun version _ ↦ hbind _ fun _ _ ↦
    hbind _ fun n hn ↦ hbind _ fun u hu ↦ ?_
  have hnonneg : 0 ≤ 12 + n := by
    by_contra hneg
    rw [guard, if_neg hneg] at hu
    exact Option.some_ne_none _ hu.symm
  have hle := h n hn hnonneg
  rw [wordAt_append_left (by omega), wordAt_append_left (by omega), wordAt_append_left (by omega),
    wordAt_append_left (by omega), wordAt_append_left (by omega), List.drop_append_of_le_length hle]
  exact hbind _ fun _ _ ↦ hbind _ fun _ _ ↦ hbind _ fun _ _ ↦ hbind _ fun _ _ ↦ hbind _ fun _ _ ↦
    hbind _ fun _ _ ↦ hbind _ fun _ _ ↦ rfl

/-- Where the sections of a file begin. -/
theorem header_body {k : LoaderConsts} {file body : List Byte} {gotPool : Int}
    (h : header k file = some (gotPool, body)) :
    ∃ n, wordAt file 8 = some n ∧ 0 ≤ 12 + n ∧ body = file.drop ((12 + n).toNat + 20) := by
  unfold header at h
  simp only [Option.bind_eq_bind] at h
  obtain ⟨_, -, h⟩ := Option.bind_eq_some_iff.1 h
  obtain ⟨_, -, h⟩ := Option.bind_eq_some_iff.1 h
  obtain ⟨_, -, h⟩ := Option.bind_eq_some_iff.1 h
  obtain ⟨_, -, h⟩ := Option.bind_eq_some_iff.1 h
  obtain ⟨n, hn, h⟩ := Option.bind_eq_some_iff.1 h
  obtain ⟨u, hu, h⟩ := Option.bind_eq_some_iff.1 h
  obtain ⟨_, -, h⟩ := Option.bind_eq_some_iff.1 h
  obtain ⟨_, -, h⟩ := Option.bind_eq_some_iff.1 h
  obtain ⟨_, -, h⟩ := Option.bind_eq_some_iff.1 h
  obtain ⟨_, -, h⟩ := Option.bind_eq_some_iff.1 h
  obtain ⟨_, -, h⟩ := Option.bind_eq_some_iff.1 h
  obtain ⟨_, -, h⟩ := Option.bind_eq_some_iff.1 h
  obtain ⟨_, -, h⟩ := Option.bind_eq_some_iff.1 h
  refine ⟨n, hn, ?_, (Prod.mk.inj (Option.some.inj h)).2.symm⟩
  by_contra hneg
  rw [guard, if_neg hneg] at hu
  exact Option.some_ne_none _ hu.symm

/-- What the loader does not get to does not matter. -/
theorem fload_append {k : LoaderConsts} {m : Arrays} (hm : k.Sized m) {pre : List Byte} {need : Nat}
    (hneed : ∀ gotPool, totalSize (sections k gotPool) ≤ need) (hpre : 12 ≤ pre.length)
    (h : ∀ n, wordAt pre 8 = some n → 0 ≤ 12 + n → (12 + n).toNat + 20 + need ≤ pre.length)
    (x : List Byte) : yytablesFload k (some (pre ++ x)) m = yytablesFload k (some pre) m := by
  have hheader := header_append k hpre (fun n hn hnonneg ↦ (Nat.le_add_right _ need).trans (h n hn hnonneg)) x
  rw [fload_eq hm, fload_eq hm, hheader]
  cases hr : header k pre with
  | none => rfl
  | some r =>
      obtain ⟨gotPool, body⟩ := r
      obtain ⟨n, hn, hnonneg, rfl⟩ := header_body hr
      have hbody : need ≤ (pre.drop ((12 + n).toNat + 20)).length := by
        rw [List.length_drop]
        have := h n hn hnonneg
        omega
      simp only [Option.map_some]
      rw [readAll_append ((hneed gotPool).trans hbody), Option.isSome_map]

end LexCpp
