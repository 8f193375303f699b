import LexCpp.Scanner.TableLoad

/-!
# Which table files a scanner takes

When a file is read back (`roundTrip_iff`), when a load that fails has changed nothing
(`unchanged_iff`), and when the loader tells the files of other scanners (`onlyMatching_iff`).
-/

namespace LexCpp

/-! ## Small scanners -/

/-- The tables that hold `int`s. -/
def intTables : List TableName :=
  [.yyMeta, .yyBase, .yyDef, .yyNxt, .yyChk, .yyAcceptNormal, .yyAcceptEol, .yyCondNormal, .yyCondBol,
    .yyRuleTrailLen]

/-- Tables in dense mode, in which no number is large. -/
structure SmallTables (nfa : NFA) (dfa : DFA) (t : Tables) : Prop where
  emitted : emitTables (StdSort.insertion Nat) .fullEc false nfa dfa = t
  of_lt : ∀ b, dfa.eclasses.of b < 256
  int32_mem : ∀ a ∈ intTables, ∀ v ∈ t.arrays a, int32 v = v
  length_lt : ∀ a ∈ intTables, (t.arrays a).length < 2147483648

namespace SmallTables

variable {nfa : NFA} {dfa : DFA} {t : Tables} (h : SmallTables nfa dfa t)
include h

theorem yyEc_eq : t.yyEc = bytes.map dfa.eclasses.of := by
  rw [← h.emitted]
  rfl

theorem int32_arrays (a : TableName) : ∀ v ∈ t.arrays a, int32 v = v := by
  cases a with
  | yyEc =>
      intro v hv
      rw [Tables.arrays, h.yyEc_eq, List.map_map] at hv
      obtain ⟨b, -, rfl⟩ := List.mem_map.1 hv
      exact int32_natCast ((h.of_lt b).trans (by decide))
  | yyMeta | yyBase | yyDef | yyNxt | yyChk | yyAcceptNormal | yyAcceptEol | yyCondNormal | yyCondBol
  | yyRuleTrailLen => exact h.int32_mem _ (by decide)

theorem length_arrays (a : TableName) : (t.arrays a).length < 2147483648 := by
  cases a with
  | yyEc =>
      rw [Tables.arrays, h.yyEc_eq, List.length_map, List.length_map, bytes, List.length_finRange]
      decide
  | yyMeta | yyBase | yyDef | yyNxt | yyChk | yyAcceptNormal | yyAcceptEol | yyCondNormal | yyCondBol
  | yyRuleTrailLen => exact h.length_lt _ (by decide)

end SmallTables

/-- The scanner with these tables. -/
def Scanner.ofSmall (std : StdSort Nat) (G : Grammar) (dfa : DFA) (t : Tables)
    (hbuild : buildDfa G.nfa true false = some dfa) (h : SmallTables G.nfa dfa t) : Scanner std where
  mode := .fullEc
  usesReject := false
  grammar := G
  dfa := dfa
  tables := t
  generated := by
    have hbuild' : buildDfa G.nfa (CompressMode.fullEc != .full) (CompressMode.fullEc == .compress) = some dfa :=
      hbuild
    have hmode : ¬ CompressMode.fullEc = .compress := by decide
    have htables : emitTables std .fullEc false G.nfa dfa = t := by
      rw [← h.emitted]
      simp only [emitTables, if_neg hmode]
    rw [generate, hbuild', ← htables]
    rfl
  int32_mem := h.int32_arrays
  length_lt := h.length_arrays

/-- The byte of a pattern: `a` or `b`. -/
def letterByte (second : Bool) : Byte := if second then 98 else 97

/-- One rule, with a letter for its pattern. -/
def letterGrammar (second : Bool) : Grammar :=
  { rules := [{ root := .cls (ByteSet.add {} (letterByte second)) }] }

def letterDfa (second : Bool) : DFA where
  states := [{ next := [-1, -1] }, { next := [-1, 3] }, { next := [-1, 3] },
    { next := [-1, -1], acceptNormal := 0, acceptList := [0] }]
  condStarts := [⟨1, 2⟩]
  eclasses := { ec := bytes.map fun b ↦ if b = letterByte second then 1 else 0, nclasses := 2 }
  nclasses := 2

theorem buildDfa_letter (second : Bool) :
    buildDfa (letterGrammar second).nfa true false = some (letterDfa second) := by
  cases second <;> decide +kernel

theorem letter_of (second : Bool) (b : Byte) :
    (letterDfa second).eclasses.of b = if b = letterByte second then 1 else 0 := by
  simp [Eclasses.of, letterDfa, bytes]

def letterTables (second : Bool) : Tables :=
  emitTables (StdSort.insertion Nat) .fullEc false (letterGrammar second).nfa (letterDfa second)

theorem letterTables_small (second : Bool) :
    SmallTables (letterGrammar second).nfa (letterDfa second) (letterTables second) := by
  refine ⟨rfl, fun b ↦ ?_, ?_, ?_⟩
  · rw [letter_of]
    split_ifs <;> decide
  · revert second
    decide +kernel
  · revert second
    decide +kernel

/-- The scanner of a letter. -/
def letter (std : StdSort Nat) (second : Bool) : Scanner std :=
  .ofSmall std (letterGrammar second) (letterDfa second) (letterTables second) (buildDfa_letter second)
    (letterTables_small second)

/-- A grammar without rules. -/
def noRulesGrammar : Grammar := { rules := [] }

def noRulesDfa : DFA where
  states := [{ next := [-1] }, { next := [-1] }, { next := [-1] }]
  condStarts := [⟨1, 2⟩]
  eclasses := { ec := bytes.map fun _ ↦ 0, nclasses := 1 }
  nclasses := 1

def noRulesTables : Tables :=
  emitTables (StdSort.insertion Nat) .fullEc false noRulesGrammar.nfa noRulesDfa

theorem noRulesTables_small : SmallTables noRulesGrammar.nfa noRulesDfa noRulesTables := by
  refine ⟨rfl, fun b ↦ ?_, by decide +kernel, by decide +kernel⟩
  have hlt : b.val < (bytes.map fun _ ↦ 0).length := by
    rw [List.length_map, bytes, List.length_finRange]
    exact b.2
  change (bytes.map fun _ ↦ 0).getD b 0 < 256
  rw [List.getD_eq_getElem _ _ hlt, List.getElem_map]
  decide

/-- The scanner that only echoes. -/
def noRules (std : StdSort Nat) : Scanner std :=
  .ofSmall std noRulesGrammar noRulesDfa noRulesTables (by decide +kernel) noRulesTables_small

theorem letter_fits (std : StdSort Nat) (second second' : Bool) :
    (letter std second).Fits (letter std second') :=
  { compressed := rfl, nclasses := rfl, nstates := rfl, nconds := rfl, poolSize := rfl
    nrules := (letter std second).nrules_eq.trans (letter std second').nrules_eq.symm }

/-- All that the loader of the small scanner reads. -/
theorem totalSize_letter (std : StdSort Nat) (second : Bool) (gotPool : Int) :
    totalSize (sections (letter std second).consts gotPool) = 338 := by
  have hnr : (letter std second).consts.nr = 1 := by
    rw [Scanner.consts_nr, Scanner.nrules_eq]
    rfl
  change totalSize (.fill TableName.yyEc 1 256 :: [.skip 2, .fill .yyNxt 4 (4 * 2), .fill .yyAcceptNormal 4 4,
    .fill .yyAcceptEol 4 4, .expect 4 (1 : Int), .fill .yyCondNormal 4 1, .fill .yyCondBol 4 1,
    .fill .yyRuleTrailLen 4 (letter std second).consts.nr]) = 338
  rw [hnr]
  rfl

theorem letter_arrays_ne (std : StdSort Nat) : (letter std true).tables.arrays ≠ (letter std false).tables.arrays := by
  intro h
  have hec := congrFun h .yyEc
  rw [Scanner.arrays_yyEc, Scanner.arrays_yyEc] at hec
  rw [List.map_map, List.map_map] at hec
  have ha := List.map_inj_left.1 hec (97 : Byte) (mem_bytes 97)
  have hof : ((letterDfa true).eclasses.of 97 : Int) = (letterDfa false).eclasses.of 97 := ha
  rw [letter_of, letter_of] at hof
  exact absurd hof (by decide)

theorem int32_le_sub {n : Nat} (hn : 2147483648 ≤ n) : int32 n ≤ n - 4294967296 := by
  have hlt := int32_lt (n : Int)
  have hdiv := Int.bmod_add_bdiv (n : Int) 4294967296
  unfold int32 at hlt ⊢
  omega

/-- **Table files round-trip** if and only if the name in them is shorter than 2^31 bytes: the header
has 32 bits for its length, which the loader takes for an `int`. -/
theorem roundTrip_iff (std : StdSort Nat) (name : List Byte) :
    (∀ A B : Scanner std, A.Fits B → 0 < A.nrules → ∀ m, A.consts.Sized m →
      yytablesFload A.consts (some (B.file name)) m = (0, B.tables.arrays)) ↔ name.length < 2147483648 := by
  refine ⟨fun h ↦ ?_, fun hname A B hfits hrules m hm ↦ hfits.fload_file hrules hname hm⟩
  by_contra hname
  rw [not_lt] at hname
  let A := letter std false
  have hrules : 0 < A.nrules := by
    rw [Scanner.nrules_eq]
    exact Nat.one_pos
  -- the loader does not get beyond the name
  have hshort : ∀ x, yytablesFload A.consts (some (Scanner.preamble name ++ x)) A.tables.arrays =
      yytablesFload A.consts (some (Scanner.preamble name)) A.tables.arrays := by
    have hpre : (Scanner.preamble name).length = 12 + name.length := by
      simp only [Scanner.preamble, List.length_append, length_putU32]
    refine fload_append A.sized (fun g ↦ (totalSize_letter std false g).le) (by omega) fun n hn hnonneg ↦ ?_
    have hlen : wordAt (Scanner.preamble name) 8 = some (int32 name.length) := by
      rw [Scanner.preamble, List.append_assoc, List.append_assoc]
      exact (Scanner.wordAt_succ _ _ 4).trans ((Scanner.wordAt_succ _ _ 0).trans (Scanner.wordAt_zero _ _))
    rw [hlen] at hn
    obtain rfl := Option.some.inj hn
    have hle := int32_le_sub hname
    omega
  have hload : ∀ second, yytablesFload A.consts (some (Scanner.preamble name)) A.tables.arrays =
      (0, (letter std second).tables.arrays) := fun second ↦ by
    rw [← h A (letter std second) (letter_fits std false second) hrules _ A.sized, Scanner.file_eq, hshort]
  exact letter_arrays_ne std (Prod.mk.inj ((hload true).symm.trans (hload false))).2

/-- A name of 2^31 bytes has a negative length for the loader. -/
theorem fload_longName (std : StdSort Nat) {name : List Byte} (hname : name.length = 2147483648) :
    (yytablesFload (letter std false).consts (some ((letter std false).file name))
      (letter std false).tables.arrays).1 = -1 := by
  have hheader : header (letter std false).consts ((letter std false).file name) = none := by
    cases hr : header (letter std false).consts ((letter std false).file name) with
    | none => rfl
    | some r =>
        obtain ⟨n, hn, hnonneg, -⟩ := header_body hr
        have hlen : wordAt ((letter std false).file name) 8 = some (int32 name.length) := by
          rw [Scanner.file_eq, Scanner.preamble, List.append_assoc, List.append_assoc, List.append_assoc]
          exact (Scanner.wordAt_succ _ _ 4).trans ((Scanner.wordAt_succ _ _ 0).trans (Scanner.wordAt_zero _ _))
        rw [hlen, hname] at hn
        obtain rfl := Option.some.inj hn
        exact absurd hnonneg (by decide)
  rw [fload_eq (letter std false).sized, hheader]

/-- A scanner does not take its own file with 2^31 zero bytes for the name. -/
theorem not_roundTrip_longName :
    ¬ ∀ (std : StdSort Nat) (name : List Byte) (A B : Scanner std), A.Fits B → 0 < A.nrules → ∀ m, A.consts.Sized m →
      yytablesFload A.consts (some (B.file name)) m = (0, B.tables.arrays) := by
  intro h
  let std := StdSort.insertion Nat
  have hrules : 0 < (letter std false).nrules := by
    rw [Scanner.nrules_eq]
    exact Nat.one_pos
  have hload := h std (List.replicate 2147483648 0) (letter std false) (letter std false)
    (letter_fits std false false) hrules _ (letter std false).sized
  have hfail := fload_longName std (List.length_replicate (n := 2147483648) (a := (0 : Byte)))
  rw [hload] at hfail
  exact absurd hfail (by decide)

/-! ## Failed loads -/

theorem nodup_target_sections (k : LoaderConsts) (gotPool : Int) :
    ((sections k gotPool).filterMap FileSection.target).Nodup := by
  have hmap : (sections k gotPool).filterMap FileSection.target =
      ((sections k gotPool).map FileSection.target).filterMap id := by
    rw [List.filterMap_map]
    rfl
  rw [hmap, Scanner.target_sections]
  split_ifs <;> decide

/-- A file that ends within the first table. -/
def cutFile : List Byte := ((letter (StdSort.insertion Nat) true).file [121, 121]).take 160

/-- The load fails, and the scanner for `a` has lost the class of its letter. -/
theorem cutFile_changes :
    (yytablesFload (letter (StdSort.insertion Nat) false).consts (some cutFile) (letterTables false).arrays).1 = -1 ∧
    (yytablesFload (letter (StdSort.insertion Nat) false).consts (some cutFile) (letterTables false).arrays).2 .yyEc ≠
      (letterTables false).arrays .yyEc := by
  decide +kernel

/-- **A load that fails changes nothing** if and only if the file is refused for its header, or holds
what the tables hold already, as far as the loader reads it. -/
theorem unchanged_iff {std : StdSort Nat} (S : Scanner std) {m m' : Arrays} (hm : S.consts.Sized m)
    {file : Option (List Byte)} (h : yytablesFload S.consts file m = (-1, m')) :
    m' = m ↔ ∀ bytes, file = some bytes → ∀ gotPool body, header S.consts bytes = some (gotPool, body) →
      Agrees Loader.ofBytes m (sections S.consts gotPool) body := by
  cases file with
  | none =>
      obtain ⟨-, rfl⟩ := Prod.mk.inj h
      exact iff_of_true rfl fun bytes hfile ↦ absurd hfile (Option.some_ne_none bytes).symm
  | some bytes =>
      rw [fload_eq hm] at h
      cases hr : header S.consts bytes with
      | none =>
          rw [hr] at h
          obtain ⟨-, rfl⟩ := Prod.mk.inj h
          refine iff_of_true rfl fun bytes' hfile gotPool body hr' ↦ ?_
          obtain rfl := Option.some.inj hfile
          exact absurd (hr.symm.trans hr') (Option.some_ne_none _).symm
      | some r =>
          obtain ⟨gotPool, body⟩ := r
          rw [hr] at h
          obtain ⟨-, rfl⟩ := Prod.mk.inj h
          rw [readAll_arrays_eq_iff (nodup_target_sections S.consts gotPool)]
          constructor
          · intro hagrees bytes' hfile gotPool' body' hr'
            obtain rfl := Option.some.inj hfile
            obtain ⟨rfl, rfl⟩ := Prod.mk.inj (Option.some.inj (hr.symm.trans hr'))
            exact hagrees
          · exact fun hagrees ↦ hagrees bytes rfl gotPool body hr

theorem unchanged_iff_cutFile :
    (yytablesFload (letter (StdSort.insertion Nat) false).consts (some cutFile) (letterTables false).arrays).2 =
      (letterTables false).arrays ↔
    ∀ bytes, some cutFile = some bytes → ∀ gotPool body,
      header (letter (StdSort.insertion Nat) false).consts bytes = some (gotPool, body) →
      Agrees Loader.ofBytes (letterTables false).arrays
        (sections (letter (StdSort.insertion Nat) false).consts gotPool) body := by
  have hfail : (yytablesFload (letter (StdSort.insertion Nat) false).consts (some cutFile)
      (letterTables false).arrays).1 = -1 := by decide +kernel
  have hload : yytablesFload (letter (StdSort.insertion Nat) false).consts (some cutFile)
      (letterTables false).arrays = (-1, (yytablesFload (letter (StdSort.insertion Nat) false).consts
        (some cutFile) (letterTables false).arrays).2) := by
    rw [← hfail]
  exact unchanged_iff (letter (StdSort.insertion Nat) false) (letter (StdSort.insertion Nat) false).sized hload

/-! ## Other scanners' files -/

namespace Scanner

variable {std : StdSort Nat} {A B : Scanner std}

theorem before_eq (hmode : A.compressed = B.compressed) (hcls : A.dfa.nclasses = B.dfa.nclasses)
    (hns : A.dfa.states.length = B.dfa.states.length) (hpool : A.poolSize = B.poolSize) : A.before = B.before := by
  have hconsts : ∀ S : Scanner std, S.consts = ⟨S.compressed, S.dfa.nclasses, S.dfa.states.length,
      S.dfa.condStarts.length, if S.nrules = 0 then 1 else S.nrules, S.poolSize⟩ := fun _ ↦ rfl
  simp only [before, hconsts, hmode, hcls, hns, hpool, LoaderConsts.size]

/-- In the mode of its scanner, a file is told by everything but the number of rules. -/
theorem fload_eq_zero_iff_alike (hmode : A.compressed = B.compressed) {name : List Byte}
    (hname : name.length < 2147483648) {m : Arrays} (hm : A.consts.Sized m) :
    (yytablesFload A.consts (some (B.file name)) m).1 = 0 ↔ A.Alike B ∧ A.consts.nr ≤ B.nrules := by
  have hpool : ∀ S : Scanner std, S.compressed = false → S.poolSize = 0 := fun S hS ↦
    if_neg (Bool.eq_false_iff.1 hS)
  rw [fload_eq_zero_iff A B hname hm]
  constructor
  · rintro ⟨hcls, hns, hsize, hword, hle⟩
    have hpoolSize : A.poolSize = B.poolSize := by
      cases hc : A.compressed with
      | true => exact (hsize hc).symm
      | false => rw [hpool A hc, hpool B (hmode.symm.trans hc)]
    have hbefore := before_eq hmode hcls hns hpoolSize
    rw [hbefore, getElem?_words] at hword
    have hncs : A.dfa.condStarts.length = B.dfa.condStarts.length :=
      Nat.cast_inj.1 (Option.some.inj hword).symm
    rw [hbefore, length_words, hncs] at hle
    exact ⟨⟨hmode, hcls, hns, hncs, hpoolSize⟩, by omega⟩
  · rintro ⟨h, hle⟩
    have hbefore := before_eq hmode h.nclasses h.nstates h.poolSize
    refine ⟨h.nclasses, h.nstates, fun _ ↦ h.poolSize.symm, ?_, ?_⟩
    · rw [hbefore, getElem?_words, h.nconds]
    · rw [hbefore, length_words, h.nconds]
      omega

/-- A compressed scanner refuses the files of dense ones for their pool size, which is 0. -/
theorem poolSize_ne (hA : A.compressed = true) (hB : B.compressed = false) : B.poolSize ≠ A.poolSize := by
  have hpoolB : B.poolSize = 0 := if_neg (Bool.eq_false_iff.1 hB)
  have hpoolA : A.poolSize = (compressDfa std A.dfa).poolSize := if_pos hA
  obtain ⟨sets, h⟩ := A.exact
  have hstates : 0 < A.dfa.states.length := h.length_states ▸ Nat.succ_pos _
  have hlt := (compressDfa_lookup std A.dfa hstates A.nclasses_pos).1
  rw [hpoolA, hpoolB]
  omega

end Scanner

/-- The scanner without rules refuses its own file, for want of an entry in the last table. -/
theorem noRules_refused :
    ¬ ((yytablesFload (noRules (StdSort.insertion Nat)).consts
        (some ((noRules (StdSort.insertion Nat)).file [121, 121])) noRulesTables.arrays).1 = 0 ↔
      (noRules (StdSort.insertion Nat)).Fits (noRules (StdSort.insertion Nat))) := by
  have hfits : (noRules (StdSort.insertion Nat)).Fits (noRules (StdSort.insertion Nat)) := ⟨⟨rfl, rfl, rfl, rfl, rfl⟩, rfl⟩
  have hload : (yytablesFload (noRules (StdSort.insertion Nat)).consts
      (some ((noRules (StdSort.insertion Nat)).file [121, 121])) noRulesTables.arrays).1 = -1 := by decide +kernel
  intro h
  exact absurd (hload.symm.trans (h.2 hfits)) (by decide)

open Scanner in
/-- **The files that are accepted** are those with the scanner's own mode and counts, and their tables
name its rules, if and only if a file that fits but for the number of rules has no more rules than
the scanner, which has one at least, and a compressed file does not look like a dense one. -/
theorem onlyMatching_iff {std : StdSort Nat} (A B : Scanner std) {name : List Byte}
    (hname : name.length < 2147483648) {m : Arrays} (hm : A.consts.Sized m) :
    (((yytablesFload A.consts (some (B.file name)) m).1 = 0 ↔ A.Fits B) ∧
      ((yytablesFload A.consts (some (B.file name)) m).1 = 0 → ∀ a ∈ [TableName.yyAcceptNormal, .yyAcceptEol],
        ∀ v ∈ (yytablesFload A.consts (some (B.file name)) m).2 a, v < A.nrules)) ↔
    (A.Alike B → 0 < A.nrules ∧ B.nrules ≤ A.nrules) ∧
    (A.compressed = false → B.compressed = true → A.dfa.nclasses = B.dfa.nclasses →
      A.dfa.states.length = B.dfa.states.length → ¬ A.Finds B) := by
  by_cases hmode : A.compressed = B.compressed
  · have hzero := fload_eq_zero_iff_alike hmode hname hm
    have hnr : A.consts.nr = if A.nrules = 0 then 1 else A.nrules := A.consts_nr
    constructor
    · rintro ⟨haccept, -⟩
      refine ⟨fun halike ↦ ?_, fun hA hB ↦ absurd (hmode.symm.trans hA) (by rw [hB]; decide)⟩
      have hrules : A.consts.nr ≤ B.nrules ↔ A.nrules = B.nrules :=
        ⟨fun hle ↦ (haccept.1 (hzero.2 ⟨halike, hle⟩)).nrules, fun heq ↦ (hzero.1 (haccept.2 ⟨halike, heq⟩)).2⟩
      rw [hnr] at hrules
      split_ifs at hrules <;> omega
    · rintro ⟨hcond, -⟩
      have haccept : (yytablesFload A.consts (some (B.file name)) m).1 = 0 ↔ A.Fits B := by
        rw [hzero, hnr]
        constructor
        · rintro ⟨halike, hle⟩
          obtain ⟨hpos, hrules⟩ := hcond halike
          rw [if_neg hpos.ne'] at hle
          exact ⟨halike, le_antisymm hle hrules⟩
        · intro hfits
          rw [if_neg (hcond hfits.toAlike).1.ne']
          exact ⟨hfits.toAlike, hfits.nrules.le⟩
      refine ⟨haccept, fun h ↦ ?_⟩
      have hfits := haccept.1 h
      rw [hfits.fload_file (hcond hfits.toAlike).1 hname hm, hfits.nrules]
      exact B.mem_accept_lt
  · have hfits : ¬ A.Fits B := fun h ↦ hmode h.compressed
    have halike : ¬ A.Alike B := fun h ↦ hmode h.compressed
    have hzero := fload_eq_zero_iff A B hname hm
    have hrefuse : (yytablesFload A.consts (some (B.file name)) m).1 ≠ 0 ↔
        (A.compressed = false → B.compressed = true → A.dfa.nclasses = B.dfa.nclasses →
          A.dfa.states.length = B.dfa.states.length → ¬ A.Finds B) := by
      rw [Ne, hzero]
      cases hA : A.compressed with
      | true =>
          have hB : B.compressed = false := by
            rw [hA] at hmode
            exact Bool.eq_false_iff.2 fun h ↦ hmode h.symm
          exact iff_of_true (fun h ↦ poolSize_ne hA hB (h.2.2.1 rfl)) fun h ↦ absurd h (by decide)
      | false =>
          have hB : B.compressed = true := by
            rw [hA] at hmode
            exact Bool.eq_true_of_not_eq_false fun h ↦ hmode h.symm
          constructor
          · exact fun h _ _ hcls hns hfinds ↦ h ⟨hcls, hns, fun hf ↦ absurd hf (by decide), hfinds⟩
          · exact fun h hall ↦ h rfl hB hall.1 hall.2.1 hall.2.2.2
    constructor
    · rintro ⟨haccept, -⟩
      exact ⟨fun h ↦ absurd h halike, hrefuse.1 fun h ↦ hfits (haccept.1 h)⟩
    · rintro ⟨-, hcond⟩
      have hne := hrefuse.2 hcond
      exact ⟨iff_of_false hne hfits, fun h ↦ absurd h hne⟩

open Scanner in
theorem onlyMatching_iff_letters :
    (((yytablesFload (letter (StdSort.insertion Nat) false).consts (some ((letter (StdSort.insertion Nat) true).file [121, 121]))
          (letter (StdSort.insertion Nat) false).tables.arrays).1 = 0 ↔ (letter (StdSort.insertion Nat) false).Fits (letter (StdSort.insertion Nat) true)) ∧
      ((yytablesFload (letter (StdSort.insertion Nat) false).consts (some ((letter (StdSort.insertion Nat) true).file [121, 121]))
          (letter (StdSort.insertion Nat) false).tables.arrays).1 = 0 → ∀ a ∈ [TableName.yyAcceptNormal, .yyAcceptEol],
        ∀ v ∈ (yytablesFload (letter (StdSort.insertion Nat) false).consts (some ((letter (StdSort.insertion Nat) true).file [121, 121]))
          (letter (StdSort.insertion Nat) false).tables.arrays).2 a, v < (letter (StdSort.insertion Nat) false).nrules)) ↔
    ((letter (StdSort.insertion Nat) false).Alike (letter (StdSort.insertion Nat) true) →
      0 < (letter (StdSort.insertion Nat) false).nrules ∧ (letter (StdSort.insertion Nat) true).nrules ≤ (letter (StdSort.insertion Nat) false).nrules) ∧
    ((letter (StdSort.insertion Nat) false).compressed = false → (letter (StdSort.insertion Nat) true).compressed = true →
      (letter (StdSort.insertion Nat) false).dfa.nclasses = (letter (StdSort.insertion Nat) true).dfa.nclasses →
      (letter (StdSort.insertion Nat) false).dfa.states.length = (letter (StdSort.insertion Nat) true).dfa.states.length →
      ¬ (letter (StdSort.insertion Nat) false).Finds (letter (StdSort.insertion Nat) true)) :=
  onlyMatching_iff (letter (StdSort.insertion Nat) false) (letter (StdSort.insertion Nat) true) (by decide) (letter (StdSort.insertion Nat) false).sized

end LexCpp
