import LexCpp.Data.Int32
import LexCpp.Scanner.Loop

/-!
# The scan with `REJECT`

`yy_lex_body_reject` keeps one length for every rule: the longest at which it matched,
as a C `int`.  `yy_find_best` picks the longest of these, and `REJECT` crosses out the
one that was picked and picks again.
-/

namespace LexCpp

open Munch

/-- The locals of the scan. -/
structure RejectScan where
  yyState : Int
  yyScan : Nat
  matchLens : List Int
deriving DecidableEq, Repr

namespace RejectScan

/-- Enter a length for the rules of a row, those with `$` only at a line end. -/
def collect (t : Tables) (atEol : Bool) (cur : Int) (row lens : List Int) : List Int :=
  row.foldl (fun lens r ↦
    if t.ruleEol r && !atEol then lens
    else if lens.getD r.toNat (-1) < cur then lens.set r.toNat cur
    else lens) lens

/-- Enter the rules that end in the current state. -/
def record (t : Tables) (buf : List Byte) (mb : Nat) (s : RejectScan) : RejectScan :=
  let atEol : Bool := buf.length ≤ s.yyScan ∨ buf[s.yyScan]? = some newline
  { s with
    matchLens :=
      collect t atEol (int32 (s.yyScan - mb : Nat)) (t.acceptRow s.yyState) s.matchLens }

/-- The loop, over the bytes from `yy_scan` on. -/
def loop (t : Tables) (buf : List Byte) (mb : Nat) : List Byte → RejectScan → RejectScan
  | [], s => s
  | b :: rest, s =>
      let next := t.transition s.yyState b
      if next < 0 then s
      else loop t buf mb rest
        ({ s with yyState := next, yyScan := s.yyScan + 1 }.record t buf mb)

/-- The start of the scan, with the accepts of the entry state. -/
def start (t : Tables) (buf : List Byte) (mb c : Nat) (atBol : Bool) : RejectScan :=
  { yyState := t.entry c atBol
    yyScan := mb
    matchLens := List.replicate t.yyRuleTrailLen.length (-1) : RejectScan }.record t buf mb

end RejectScan

/-- `yy_match_lens` after the scan from position `mb` of the buffer. -/
def matchLens (t : Tables) (buf : List Byte) (mb c : Nat) (atBol : Bool) : List Int :=
  (RejectScan.loop t buf mb (buf.drop mb) (RejectScan.start t buf mb c atBol)).matchLens

/-- Let rule `r` replace what was picked so far. -/
def findBestStep (lens : List Int) (sel : Selected) (r : Nat) : Selected :=
  let L := lens.getD r (-1)
  if 0 ≤ L then
    if sel.rule < 0 ∨ sel.len < L.toNat then ⟨r, L.toNat⟩ else sel
  else sel

/-- `yy_find_best`. -/
def findBest (lens : List Int) : Selected :=
  (List.range lens.length).foldl (findBestStep lens) {}

/-- What `yy_lex_body_reject` selects at a position, before any `REJECT`. -/
def rejectSelect (t : Tables) (buf : List Byte) (mb c : Nat) (atBol : Bool) : Selected :=
  findBest (matchLens t buf mb c atBol)

/-- The pairs of rule and length that are tried if every action runs `REJECT`, up to the
default rule. -/
def rejectChain : Nat → List Int → Option (List (Nat × Nat))
  | 0, _ => none
  | fuel + 1, lens =>
      let sel := findBest lens
      if sel.rule < 0 ∨ sel.len = 0 then some []
      else (rejectChain fuel (lens.set sel.rule.toNat (-1))).map ((sel.rule.toNat, sel.len) :: ·)

/-! ## The lengths -/

namespace RejectScan

theorem length_collect (t : Tables) (atEol : Bool) (cur : Int) (row lens : List Int) :
    (collect t atEol cur row lens).length = lens.length := by
  unfold collect
  induction row generalizing lens with
  | nil => rfl
  | cons r row ih =>
      rw [List.foldl_cons, ih]
      split_ifs <;> simp

/-- A rule of the row is entered unless it waits for a line end. -/
theorem getD_collect (t : Tables) (atEol : Bool) (cur : Int) (row lens : List Int) {j : Nat}
    (hj : j < lens.length) (hrow : ∀ r ∈ row, 0 ≤ r) :
    (collect t atEol cur row lens).getD j (-1) =
      if (j : Int) ∈ row ∧ (t.ruleEol j = true → atEol = true) then max (lens.getD j (-1)) cur
      else lens.getD j (-1) := by
  induction row generalizing lens with
  | nil => simp [collect]
  | cons r row ih =>
      lift r to Nat using hrow r List.mem_cons_self
      have htail := fun r hr ↦ hrow r (List.mem_cons_of_mem _ hr)
      have hset : ∀ v, (lens.set r v).getD j (-1) = if j = r then v else lens.getD j (-1) := by
        intro v
        by_cases hjr : j = r
        · subst hjr
          simp [hj]
        · simp [hjr, List.getElem?_set_ne (Ne.symm hjr)]
      have hcons : collect t atEol cur ((r : Int) :: row) lens = collect t atEol cur row
          (if t.ruleEol r && !atEol then lens
            else if lens.getD r (-1) < cur then lens.set r cur else lens) := by
        rw [collect, List.foldl_cons, Int.toNat_natCast]
        rfl
      rw [hcons, ih _ (by split_ifs <;> simpa using hj) htail]
      simp only [List.mem_cons, Nat.cast_inj]
      by_cases hjr : j = r
      · subst hjr
        split_ifs <;> simp_all <;> omega
      · split_ifs <;> simp_all

end RejectScan

/-! ## The lengths kept -/

namespace Grammar

/-- Rule `r` matches the first `n` of the bytes left, with `$` only at a line end. -/
def LawfulAt (G : Grammar) (c : Nat) (atBol : Bool) (rest : List Byte) (n r : Nat) : Prop :=
  G.MatchesAt c atBol rest n r ∧ (G.eol r = true → AtLineEnd rest n)

theorem LawfulAt.lt {G : Grammar} {c : Nat} {atBol : Bool} {rest : List Byte} {n r : Nat}
    (h : G.LawfulAt c atBol rest n r) : r < G.rules.length := h.1.2.lt

end Grammar

section Spec

variable {t : Tables} {G : Grammar} {mb c : Nat} {atBol : Bool} {buf : List Byte}

/-- **The invariant**: the state after `k` bytes, and for every rule the greatest `int`
of the lengths below `m` at which it matched. -/
structure RejectInv (t : Tables) (G : Grammar) (mb c : Nat) (atBol : Bool) (rest : List Byte)
    (k m : Nat) (s : RejectScan) : Prop where
  state : s.yyState = t.follow (t.entry c atBol) (rest.take k)
  nonneg : 0 ≤ s.yyState
  scan : s.yyScan = mb + k
  length_matchLens : s.matchLens.length = t.yyRuleTrailLen.length
  lens : ∀ j < t.yyRuleTrailLen.length,
    GreatestOr (fun L ↦ ∃ n < m, G.LawfulAt c atBol rest n j ∧ (L : Int) = int32 n)
      (s.matchLens.getD j (-1))

/-- Entering the state after `k` bytes. -/
theorem RejectInv.record (ht : t.Implements G) (ha : t.yyAccept.isSome) (he : t.yyRuleEol.isSome)
    (hc : c < G.condNames.length) {k : Nat} (hk : k ≤ (buf.drop mb).length) {s : RejectScan}
    (h : RejectInv t G mb c atBol (buf.drop mb) k k s) :
    RejectInv t G mb c atBol (buf.drop mb) k (k + 1) (s.record t buf mb) := by
  have hpos : 0 ≤ t.follow (t.entry c atBol) ((buf.drop mb).take k) := h.state ▸ h.nonneg
  have hrow := ht.acceptRow ha c hc atBol _ hpos
  refine ⟨h.state, h.nonneg, h.scan, ?_, fun j hj ↦ ?_⟩
  · exact (RejectScan.length_collect ..).trans h.length_matchLens
  · have hcur : s.yyScan - mb = k := by
      rw [h.scan]
      omega
    change GreatestOr _ ((RejectScan.collect t _ (int32 (s.yyScan - mb : Nat))
      (t.acceptRow s.yyState) s.matchLens).getD j (-1))
    rw [RejectScan.getD_collect _ _ _ _ _ (h.length_matchLens ▸ hj) (fun r hr ↦ by
      rw [h.state] at hr
      obtain ⟨i, rfl, -⟩ := (hrow r).1 hr
      exact Int.natCast_nonneg i), hcur, h.scan, h.state]
    have hlawful : ((j : Int) ∈ t.acceptRow (t.follow (t.entry c atBol) ((buf.drop mb).take k)) ∧
        (t.ruleEol j = true →
          decide (buf.length ≤ mb + k ∨ buf[mb + k]? = some newline) = true)) ↔
        G.LawfulAt c atBol (buf.drop mb) k j := by
      rw [hrow, decide_eq_true_iff, ← atLineEnd_drop, ht.ruleEol he, Grammar.LawfulAt,
        Grammar.MatchesAt, and_iff_right hk]
      simp
    by_cases hin : G.LawfulAt c atBol (buf.drop mb) k j
    · rw [if_pos (hlawful.2 hin)]
      refine (h.lens j hj).max _ fun L ↦ ?_
      constructor
      · rintro ⟨n, hn, hL, hLn⟩
        rcases Nat.lt_succ_iff_lt_or_eq.1 hn with hn' | rfl
        · exact Or.inl ⟨n, hn', hL, hLn⟩
        · exact Or.inr hLn
      · rintro (⟨n, hn, hL⟩ | hL)
        · exact ⟨n, Nat.lt_succ_of_lt hn, hL⟩
        · exact ⟨k, Nat.lt_succ_self k, hin, hL⟩
    · rw [if_neg (mt hlawful.1 hin)]
      refine (h.lens j hj).congr fun L ↦ exists_congr fun n ↦ ?_
      constructor
      · rintro ⟨hn, hL⟩
        exact ⟨Nat.lt_succ_of_lt hn, hL⟩
      · rintro ⟨hn, hL, hLn⟩
        exact ⟨lt_of_le_of_ne (Nat.lt_succ_iff.1 hn) fun hnk ↦ hin (hnk ▸ hL), hL, hLn⟩

/-- If nothing is met from `m` bytes on, the lengths are those of all the bytes left. -/
theorem RejectInv.lens_end {rest : List Byte} {k m : Nat} {s : RejectScan}
    (h : RejectInv t G mb c atBol rest k m s)
    (hno : ∀ n, m ≤ n → n ≤ rest.length → ∀ j, ¬ G.Matches c atBol j (rest.take n)) {j : Nat}
    (hj : j < t.yyRuleTrailLen.length) :
    GreatestOr (fun L ↦ ∃ n, G.LawfulAt c atBol rest n j ∧ (L : Int) = int32 n)
      (s.matchLens.getD j (-1)) := by
  refine (h.lens j hj).congr fun L ↦ exists_congr fun n ↦ ?_
  refine and_iff_right_of_imp fun ⟨hL, _⟩ ↦ ?_
  by_contra hmn
  exact hno n (not_lt.1 hmn) hL.1.1 j hL.1.2

/-- The loop, from the invariant to the end. -/
theorem RejectInv.loop (ht : t.Implements G) (ha : t.yyAccept.isSome) (he : t.yyRuleEol.isSome)
    (hc : c < G.condNames.length) (v l : List Byte) (hrest : buf.drop mb = v ++ l)
    {s : RejectScan} (h : RejectInv t G mb c atBol (buf.drop mb) v.length (v.length + 1) s) :
    (RejectScan.loop t buf mb l s).matchLens.length = t.yyRuleTrailLen.length ∧
    ∀ j < t.yyRuleTrailLen.length,
      GreatestOr (fun L ↦ ∃ n, G.LawfulAt c atBol (buf.drop mb) n j ∧ (L : Int) = int32 n)
        ((RejectScan.loop t buf mb l s).matchLens.getD j (-1)) := by
  induction l generalizing v s with
  | nil =>
      have hlen : (buf.drop mb).length = v.length := by simp [hrest]
      exact ⟨h.length_matchLens, fun j hj ↦ h.lens_end (fun n hn hn' ↦ by omega) hj⟩
  | cons b l ih =>
      have htake : (buf.drop mb).take v.length = v := by simp [hrest]
      have hstate : s.yyState = t.follow (t.entry c atBol) v := by rw [h.state, htake]
      have hnext : t.transition s.yyState b = t.follow (t.entry c atBol) (v ++ [b]) := by
        rw [Tables.follow_concat _ (hstate ▸ h.nonneg), hstate]
      have hrest' : buf.drop mb = (v ++ [b]) ++ l := by simp [hrest]
      have hlt : v.length < (buf.drop mb).length := by simp [hrest]
      unfold RejectScan.loop
      simp only
      split_ifs with hjam
      · refine ⟨h.length_matchLens, fun j hj ↦ h.lens_end (fun n hn hn' i ↦ ?_) hj⟩
        have hsplit : (buf.drop mb).take n = (v ++ [b]) ++ l.take (n - (v.length + 1)) := by
          rw [hrest', List.take_append, List.take_of_length_le (by simpa using hn)]
          simp
        refine (ht.jam c hc atBol _ ?_ i).1
        rw [hsplit, Tables.follow_append, ← hnext, Tables.follow_of_neg _ hjam]
        exact hjam
      · have htake' : (buf.drop mb).take (v.length + 1) = v ++ [b] := by
          rw [hrest', List.take_left' (by simp)]
        have hnew : RejectInv t G mb c atBol (buf.drop mb) (v.length + 1) (v.length + 1)
            { s with yyState := t.transition s.yyState b, yyScan := s.yyScan + 1 } :=
          { h with
            state := by rw [hnext, htake']
            nonneg := not_lt.1 hjam
            scan := by rw [h.scan, Nat.add_assoc] }
        have hinv := hnew.record ht ha he hc hlt
        exact ih (v ++ [b]) hrest' (by rwa [List.length_append, List.length_singleton])

/-- **What `yy_match_lens` holds**: for every rule the greatest of its lengths, each
taken as an `int`, or `-1`. -/
theorem matchLens_spec (ht : t.Implements G) (ha : t.yyAccept.isSome) (he : t.yyRuleEol.isSome)
    (hc : c < G.condNames.length) (buf : List Byte) (mb : Nat) (atBol : Bool) :
    (matchLens t buf mb c atBol).length = t.yyRuleTrailLen.length ∧
    ∀ j < t.yyRuleTrailLen.length,
      GreatestOr (fun L ↦ ∃ n, G.LawfulAt c atBol (buf.drop mb) n j ∧ (L : Int) = int32 n)
        ((matchLens t buf mb c atBol).getD j (-1)) := by
  have hnew : RejectInv t G mb c atBol (buf.drop mb) 0 0
      { yyState := t.entry c atBol, yyScan := mb
        matchLens := List.replicate t.yyRuleTrailLen.length (-1) } :=
    { state := rfl
      nonneg := ht.entry_nonneg c hc atBol
      scan := rfl
      length_matchLens := List.length_replicate
      lens := fun j hj ↦ by
        rw [List.getD_eq_getElem _ _ (by simpa using hj), List.getElem_replicate]
        exact GreatestOr.none fun p ⟨n, hn, _⟩ ↦ absurd hn (Nat.not_lt_zero n) }
  exact (hnew.record ht ha he hc (Nat.zero_le _)).loop ht ha he hc [] _ rfl

end Spec

/-! ## The choice -/

/-- One rule more. -/
theorem findBestStep_spec {lens : List Int} {k : Nat} {sel : Selected}
    (h : Selects (fun L r ↦ r < k ∧ lens.getD r (-1) = (L : Int)) sel.rule sel.len) :
    Selects (fun L r ↦ r < k + 1 ∧ lens.getD r (-1) = (L : Int)) (findBestStep lens sel k).rule
      (findBestStep lens sel k).len := by
  unfold findBestStep
  simp only
  by_cases hL : 0 ≤ lens.getD k (-1)
  · have hins := h.insert (k := k) (L := (lens.getD k (-1)).toNat) (fun n r hM ↦ hM.1)
      (N := fun L r ↦ r < k + 1 ∧ lens.getD r (-1) = (L : Int)) (fun n r ↦ by
        rw [Nat.lt_succ_iff_lt_or_eq, or_and_right]
        refine or_congr_right ⟨?_, ?_⟩
        · rintro ⟨rfl, hr⟩
          exact ⟨by omega, rfl⟩
        · rintro ⟨hn, rfl⟩
          exact ⟨rfl, by omega⟩)
    rw [if_pos hL]
    split_ifs with hbetter
    · rwa [if_pos hbetter, if_pos hbetter] at hins
    · rwa [if_neg hbetter, if_neg hbetter] at hins
  · rw [if_neg hL]
    refine h.congr fun n r ↦ ?_
    rw [Nat.lt_succ_iff_lt_or_eq, or_and_right, or_iff_left]
    rintro ⟨rfl, hr⟩
    omega

/-- The best of the rules of a list. -/
theorem findBest_spec (lens : List Int) :
    Selects (fun L r ↦ r < lens.length ∧ lens.getD r (-1) = (L : Int)) (findBest lens).rule
      (findBest lens).len := by
  have hfold : ∀ k, Selects (fun L r ↦ r < k ∧ lens.getD r (-1) = (L : Int))
      ((List.range k).foldl (findBestStep lens) {}).rule
      ((List.range k).foldl (findBestStep lens) {}).len := by
    intro k
    induction k with
    | zero => exact Selects.none fun n r hM ↦ absurd hM.1 (Nat.not_lt_zero r)
    | succ k ih =>
        rw [List.range_succ, List.foldl_concat]
        exact findBestStep_spec ih
  exact hfold lens.length

/-! ## The two bodies -/

/-- What `yy_lex_body` takes: rule and length, or the default rule. -/
def lexTaken (t : Tables) (buf : List Byte) (mb c : Nat) (atBol : Bool) : Option (Nat × Nat) :=
  let sel := lexSelect t buf mb c atBol
  if sel.rule < 0 then none else some (sel.rule.toNat, sel.len)

/-- What `yy_lex_body_reject` takes first: rule and length, or the default rule. -/
def rejectTaken (t : Tables) (buf : List Byte) (mb c : Nat) (atBol : Bool) : Option (Nat × Nat) :=
  let sel := rejectSelect t buf mb c atBol
  if sel.rule < 0 ∨ sel.len = 0 then none else some (sel.rule.toNat, sel.len)

section Bodies

variable {t : Tables} {G : Grammar} {c : Nat}

theorem lexTaken_isBest (ht : t.Implements G) (hc : c < G.condNames.length) (buf : List Byte)
    (mb : Nat) (atBol : Bool) :
    IsBest (Considered G c atBol (buf.drop mb)) (lexTaken t buf mb c atBol) :=
  isBest_of_selects (lexSelect_spec ht hc buf mb atBol)

/-- The lengths that the matches of a rule leave in its slot, as candidates. -/
def Collected (G : Grammar) (c : Nat) (atBol : Bool) (rest : List Byte) (L r : Nat) : Prop :=
  0 < L ∧ ∃ n, G.LawfulAt c atBol rest n r ∧ (L : Int) = int32 n

/-- The slots hold the best of what was collected. -/
theorem rejectTaken_isBest (ht : t.Implements G) (ha : t.yyAccept.isSome)
    (he : t.yyRuleEol.isSome) (hc : c < G.condNames.length) (buf : List Byte) (mb : Nat)
    (atBol : Bool) :
    IsBest (Collected G c atBol (buf.drop mb)) (rejectTaken t buf mb c atBol) := by
  obtain ⟨hlen, hlens⟩ := matchLens_spec ht ha he hc buf mb atBol
  have hbest := isBest_pos_of_selects (findBest_spec (matchLens t buf mb c atBol))
  -- a slot holds a collected length, and every collected length is at most its slot
  have hslot : ∀ L r, Collected G c atBol (buf.drop mb) L r → ∃ L', L ≤ L' ∧
      r < (matchLens t buf mb c atBol).length ∧
      (matchLens t buf mb c atBol).getD r (-1) = (L' : Int) := by
    rintro L r ⟨hpos, n, hn, hL⟩
    have hr : r < t.yyRuleTrailLen.length := lt_of_lt_of_le hn.lt ht.length_rules
    rcases hlens r hr with ⟨-, hno⟩ | ⟨L', hL', hg⟩
    · exact absurd ⟨n, hn, hL⟩ (hno L)
    · exact ⟨L', hg.2 ⟨n, hn, hL⟩, hlen ▸ hr, hL'⟩
  rcases hbest with ⟨ho, hno⟩ | ⟨r, L, ho, hg⟩
  · refine Or.inl ⟨ho, fun L r hC ↦ ?_⟩
    obtain ⟨L', hle, hr, hL'⟩ := hslot L r hC
    exact hno L' r ⟨lt_of_lt_of_le hC.1 hle, hr, hL'⟩
  · refine Or.inr ⟨r, L, ho, ?_⟩
    obtain ⟨⟨hpos, hr, hL⟩, hmax⟩ := isGreatest_cand_iff.1 hg
    refine isGreatest_cand_iff.2 ⟨⟨hpos, ?_⟩, fun L' r' hC ↦ ?_⟩
    · have hslots := hlens r (hlen ▸ hr)
      rw [hL] at hslots
      exact (GreatestOr.natCast_iff.1 hslots).1
    · obtain ⟨L'', hle, hr', hL''⟩ := hslot L' r' hC
      have := hmax L'' r' ⟨lt_of_lt_of_le hC.1 hle, hr', hL''⟩
      omega

/-- When the bodies agree: a match that `yy_lex_body` considers fits into an `int`, and a
shorter `$` match at a line end is no better than one of those. -/
def BodiesAgreeAt (G : Grammar) (c : Nat) (atBol : Bool) (rest : List Byte) : Prop :=
  (∀ n r, Considered G c atBol rest n r → n < 2147483648) ∧
  ∀ n r L : Nat, G.SlotAt true c atBol rest n r → AtLineEnd rest n → 0 < L →
    (L : Int) = int32 n →
      ∃ n' r', Considered G c atBol rest n' r' ∧ (L < n' ∨ (L = n' ∧ r' ≤ r))

/-- What is considered is lawful. -/
theorem Considered.lawfulAt {atBol : Bool} {rest : List Byte} {n r : Nat}
    (h : Considered G c atBol rest n r) : 0 < n ∧ G.LawfulAt c atBol rest n r := by
  rcases h with ⟨hn, hM, he⟩ | ⟨⟨hn, hM, -⟩, hend, -⟩
  · exact ⟨hn, hM, fun h ↦ absurd (he.symm.trans h) (by decide)⟩
  · exact ⟨hn, hM, fun _ ↦ hend⟩

/-- The best of what is considered is the best of what is collected. -/
theorem bodiesAgreeAt_iff {atBol : Bool} {rest : List Byte} {o o' : Option (Nat × Nat)}
    (h : IsBest (Considered G c atBol rest) o) (h' : IsBest (Collected G c atBol rest) o') :
    o = o' ↔ BodiesAgreeAt G c atBol rest := by
  rw [h.eq_iff h']
  constructor
  · rintro ⟨hsub, hdom⟩
    refine ⟨fun n r hC ↦ ?_, fun n r L hM hend hpos hL ↦ ?_⟩
    · obtain ⟨L, r', ⟨-, m, -, hL⟩, hle⟩ := hsub n r hC
      have hle' := cand_le_cand.1 hle
      have := int32_lt m
      omega
    · obtain ⟨n', r', hC, hle⟩ := hdom L r ⟨hpos, n, ⟨hM.1, fun _ ↦ hend⟩, hL⟩
      exact ⟨n', r', hC, cand_le_cand.1 hle⟩
  · rintro ⟨hfit, heol⟩
    refine ⟨fun n r hC ↦ ?_, fun L r hC ↦ ?_⟩
    · obtain ⟨hn, hlaw⟩ := hC.lawfulAt
      exact ⟨n, r, ⟨hn, n, hlaw, (int32_natCast (hfit n r hC)).symm⟩, le_refl _⟩
    · obtain ⟨hpos, n, hlaw, hL⟩ := hC
      cases he : G.eol r with
      | true =>
          obtain ⟨n', r', hC', hle⟩ := heol n r L ⟨hlaw.1, he⟩ (hlaw.2 he) hpos hL
          exact ⟨n', r', hC', cand_le_cand.2 hle⟩
      | false =>
          have hn : 0 < n := by
            rcases Nat.eq_zero_or_pos n with rfl | hn
            · have : int32 ((0 : Nat) : Int) = 0 := rfl
              omega
            · exact hn
          have hC' : Considered G c atBol rest n r := Or.inl ⟨hn, hlaw.1, he⟩
          have := int32_natCast (hfit n r hC')
          exact ⟨n, r, hC', cand_le_cand.2 (Or.inr ⟨by omega, le_refl r⟩)⟩

end Bodies

/-- **The two bodies** select the same at a position exactly if no `$` match at a line
end is lost to a longer one, and the lengths fit into an `int`. -/
theorem lexTaken_eq_rejectTaken_iff (G : Grammar) (std : StdSort Nat) (mode : CompressMode) :
    ∃ dfa t dfa' t', generate std mode false G.nfa = some (dfa, t) ∧
      generate std mode true G.nfa = some (dfa', t') ∧
      ∀ c < G.condNames.length, ∀ (atBol : Bool) (buf : List Byte) (mb : Nat),
        lexTaken t buf mb c atBol = rejectTaken t' buf mb c atBol ↔
          BodiesAgreeAt G c atBol (buf.drop mb) := by
  obtain ⟨dfa, t, hgen, ht, -, -⟩ := G.exists_tables std mode false
  obtain ⟨dfa', t', hgen', ht', ha, he⟩ := G.exists_tables std mode true
  exact ⟨dfa, t, dfa', t', hgen, hgen', fun c hc atBol buf mb ↦
    bodiesAgreeAt_iff (lexTaken_isBest ht hc buf mb atBol)
      (rejectTaken_isBest ht' ha he hc buf mb atBol)⟩

/-- `a$` and `a\nb$`. -/
def nestedEol : Grammar :=
  { rules :=
      [{ root := .concat (.cls (ByteSet.add {} 97)) .anchorEOL },
       { root := .concat (.concat (.cls (ByteSet.add {} 97))
          (.concat (.cls (ByteSet.add {} newline)) (.cls (ByteSet.add {} 98)))) .anchorEOL }] }

/-- On `a\nbc` the longer `$` match, which no line end follows, hides the shorter one from
`yy_lex_body`. -/
theorem lexTaken_ne_rejectTaken :
    ((generate (.insertion Nat) .fullEc false nestedEol.nfa).map fun g ↦
        lexTaken g.2 [97, newline, 98, 99] 0 0 true) = some none ∧
    ((generate (.insertion Nat) .fullEc true nestedEol.nfa).map fun g ↦
        rejectTaken g.2 [97, newline, 98, 99] 0 0 true) = some (some (0, 1)) := by
  decide +kernel

/-! ## The chain of `REJECT` -/

/-- The chain ends, and goes through the filled slots from the best to the worst. -/
theorem exists_rejectChain (fuel : Nat) (lens : List Int)
    (hfuel : lens.countP (0 ≤ ·) < fuel) :
    ∃ l, rejectChain fuel lens = some l ∧
      (∀ r n, (r, n) ∈ l ↔ 0 < n ∧ r < lens.length ∧ lens.getD r (-1) = (n : Int)) ∧
      l.Pairwise fun x y ↦ cand y.2 y.1 < cand x.2 x.1 := by
  induction fuel generalizing lens with
  | zero => exact absurd hfuel (Nat.not_lt_zero _)
  | succ fuel ih =>
      have hbest := isBest_pos_of_selects (findBest_spec lens)
      unfold rejectChain
      simp only
      by_cases hdef : (findBest lens).rule < 0 ∨ (findBest lens).len = 0
      · rw [if_pos hdef] at hbest ⊢
        rcases hbest with ⟨-, hno⟩ | ⟨_, _, ho, -⟩
        · refine ⟨[], rfl, fun r n ↦ ?_, List.Pairwise.nil⟩
          simpa using hno n r
        · exact absurd ho.symm (Option.some_ne_none _)
      · rw [if_neg hdef] at hbest ⊢
        rcases hbest with ⟨ho, -⟩ | ⟨r, L, ho, hg⟩
        · exact absurd ho (Option.some_ne_none _)
        · obtain ⟨hr, hL⟩ := Prod.mk.inj (Option.some.inj ho)
          rw [hr, hL]
          obtain ⟨⟨hpos, hlt, hget⟩, hmax⟩ := isGreatest_cand_iff.1 hg
          have hset : ∀ r', (lens.set r (-1)).getD r' (-1) =
              if r' = r then -1 else lens.getD r' (-1) := by
            intro r'
            by_cases hrr : r' = r
            · subst hrr
              simp [hlt]
            · simp [hrr, List.getElem?_set_ne (Ne.symm hrr)]
          have hcount : (lens.set r (-1)).countP (0 ≤ ·) + 1 = lens.countP (0 ≤ ·) := by
            have hget' : 0 ≤ lens[r] := by
              rw [List.getD_eq_getElem _ _ hlt] at hget
              omega
            have hmem : 0 < lens.countP (0 ≤ ·) :=
              List.countP_pos_iff.2 ⟨lens[r], List.getElem_mem hlt, by simpa using hget'⟩
            rw [List.countP_set hlt]
            simp only [hget', decide_true, if_true]
            simp
            omega
          obtain ⟨l, hl, hmem, hsorted⟩ := ih (lens.set r (-1)) (by omega)
          have hmem' : ∀ r' n, (r', n) ∈ l ↔ r' ≠ r ∧ 0 < n ∧ r' < lens.length ∧
              lens.getD r' (-1) = (n : Int) := by
            intro r' n
            rw [hmem, hset, List.length_set]
            split_ifs with hrr
            · exact iff_of_false (fun h ↦ h.2.2) fun h ↦ h.1 hrr
            · exact (and_iff_right hrr).symm
          refine ⟨(r, L) :: l, by rw [hl]; rfl, fun r' n ↦ ?_, List.pairwise_cons.2 ⟨?_, hsorted⟩⟩
          · rw [List.mem_cons, hmem', Prod.mk.injEq]
            constructor
            · rintro (⟨rfl, rfl⟩ | ⟨-, h⟩)
              · exact ⟨hpos, hlt, hget⟩
              · exact h
            · intro h
              by_cases hrr : r' = r
              · subst hrr
                exact Or.inl ⟨rfl, by omega⟩
              · exact Or.inr ⟨hrr, h⟩
          · rintro ⟨r', n⟩ hin
            obtain ⟨hrr, h⟩ := (hmem' r' n).1 hin
            refine lt_of_le_of_ne (hg.2 (cand_mem_candidates.2 h)) fun heq ↦ hrr ?_
            exact (cand_inj.1 heq).2

/-- What is tried at a position if every action runs `REJECT`. -/
def rejectTried (t : Tables) (buf : List Byte) (mb c : Nat) (atBol : Bool) :
    Option (List (Nat × Nat)) :=
  rejectChain ((matchLens t buf mb c atBol).length + 1) (matchLens t buf mb c atBol)

/-- The complete priority list: every match once, longer ones first, lower rules first. -/
def IsPriorityList (G : Grammar) (c : Nat) (atBol : Bool) (rest : List Byte)
    (l : List (Nat × Nat)) : Prop :=
  (∀ r n, (r, n) ∈ l ↔ 0 < n ∧ G.LawfulAt c atBol rest n r) ∧
    l.Pairwise fun x y ↦ y.2 < x.2 ∨ (y.2 = x.2 ∧ x.1 < y.1)

/-- **What `REJECT` walks** is the complete priority list exactly if no rule matches at
two lengths, and every length fits into an `int`. -/
theorem isPriorityList_rejectTried_iff (G : Grammar) (std : StdSort Nat) (mode : CompressMode) :
    ∃ dfa t, generate std mode true G.nfa = some (dfa, t) ∧
      ∀ c < G.condNames.length, ∀ (atBol : Bool) (buf : List Byte) (mb : Nat),
        ∃ l, rejectTried t buf mb c atBol = some l ∧
          (IsPriorityList G c atBol (buf.drop mb) l ↔
            ∀ r n, 0 < n → G.LawfulAt c atBol (buf.drop mb) n r → n < 2147483648 ∧
              ∀ n', 0 < n' → G.LawfulAt c atBol (buf.drop mb) n' r → n' = n) := by
  obtain ⟨dfa, t, hgen, ht, ha, he⟩ := G.exists_tables std mode true
  refine ⟨dfa, t, hgen, fun c hc atBol buf mb ↦ ?_⟩
  obtain ⟨hlen, hlens⟩ := matchLens_spec ht ha he hc buf mb atBol
  obtain ⟨l, hl, hmem, hsorted⟩ := exists_rejectChain _ (matchLens t buf mb c atBol)
    (Nat.lt_succ_of_le List.countP_le_length)
  refine ⟨l, hl, ⟨fun h r n hpos hlaw ↦ ?_, fun h ↦ ⟨fun r n ↦ ?_, ?_⟩⟩⟩
  · have hslot : ∀ n', 0 < n' → G.LawfulAt c atBol (buf.drop mb) n' r →
        r < (matchLens t buf mb c atBol).length ∧
        (matchLens t buf mb c atBol).getD r (-1) = (n' : Int) :=
      fun n' hpos' hlaw' ↦ ((hmem r n').1 ((h.1 r n').2 ⟨hpos', hlaw'⟩)).2
    obtain ⟨hr, hget⟩ := hslot n hpos hlaw
    refine ⟨?_, fun n' hpos' hlaw' ↦ ?_⟩
    · have hspec := hlens r (hlen ▸ hr)
      rw [hget] at hspec
      obtain ⟨m, -, hm⟩ := (GreatestOr.natCast_iff.1 hspec).1
      have := int32_lt m
      omega
    · have := (hslot n' hpos' hlaw').2
      omega
  · rw [hmem]
    constructor
    · rintro ⟨hpos, hr, hget⟩
      have hspec := hlens r (hlen ▸ hr)
      rw [hget] at hspec
      obtain ⟨m, hlaw, hm⟩ := (GreatestOr.natCast_iff.1 hspec).1
      have hm' : 0 < m := by
        rcases Nat.eq_zero_or_pos m with rfl | hm'
        · have : int32 ((0 : Nat) : Int) = 0 := rfl
          omega
        · exact hm'
      have := int32_natCast (h r m hm' hlaw).1
      obtain rfl : n = m := by omega
      exact ⟨hpos, hlaw⟩
    · rintro ⟨hpos, hlaw⟩
      have hr : r < t.yyRuleTrailLen.length := lt_of_lt_of_le hlaw.lt ht.length_rules
      refine ⟨hpos, hlen ▸ hr, ?_⟩
      have hfit := int32_natCast (h r n hpos hlaw).1
      have hgreatest : GreatestOr (fun L ↦ ∃ n, G.LawfulAt c atBol (buf.drop mb) n r ∧
          (L : Int) = int32 n) n := by
        refine GreatestOr.natCast_iff.2 ⟨⟨n, hlaw, hfit.symm⟩, ?_⟩
        rintro L ⟨m, hlaw', hL⟩
        rcases Nat.eq_zero_or_pos m with rfl | hm
        · have : int32 ((0 : Nat) : Int) = 0 := rfl
          omega
        · obtain rfl := (h r n hpos hlaw).2 m hm hlaw'
          omega
      exact (hlens r hr).unique hgreatest
  · refine hsorted.imp fun {x y} hxy ↦ ?_
    exact (cand_lt_cand.1 hxy).imp id fun ⟨h₁, h₂⟩ ↦ ⟨h₁, h₂⟩

/-- `a+`. -/
def plusRule : Grammar := { rules := [{ root := .plus (.cls (ByteSet.add {} 97)) }] }

/-- On `aa` only the longest match of `a+` is tried before the default rule. -/
theorem rejectTried_plusRule :
    ((generate (.insertion Nat) .fullEc true plusRule.nfa).bind fun g ↦
        rejectTried g.2 [97, 97] 0 0 true) = some [(0, 2)] ∧
      ¬ IsPriorityList plusRule 0 true ([97, 97] : List Byte) [(0, 2)] := by
  refine ⟨by decide +kernel, fun h ↦ ?_⟩
  have hlang : ([97] : List Byte) ∈ (Node.plus (.cls (ByteSet.add {} 97))).reads :=
    Language.mem_mul.2 ⟨[97], ByteSet.singleton_mem_edgeLang (by decide), [],
      Language.nil_mem_kstar _, rfl⟩
  have := (h.1 0 1).2 ⟨by decide, ⟨by decide, _, rfl, by decide, hlang⟩, by decide⟩
  exact absurd this (by decide)

end LexCpp
