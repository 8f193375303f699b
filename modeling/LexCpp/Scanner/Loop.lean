import LexCpp.Scanner.Grammar

/-!
# The scan loop

The scan of `yy_lex_body`: from the position of the buffer on, bytes are consumed until
the tables jam or the buffer ends, while the last accept of each kind and the last
marker position of every rule are kept; then one of the two accepts is selected.

The loop reads past the match it will select.  `scanFrom_spec` says what is kept when
it stops, in terms of all the bytes left: nothing after the jam matches.
-/

namespace LexCpp

open Munch

/-- The locals of the scan.  An unset boundary position is `(size_t)-1`. -/
structure Scan where
  yyState : Int
  yyScan : Nat
  accN : Int := -1
  accNLen : Nat := 0
  accE : Int := -1
  accELen : Nat := 0
  boundaryPos : List Int
deriving DecidableEq, Repr

/-- `yy_rule` and `yy_len`. -/
structure Selected where
  rule : Int := -1
  len : Nat := 0
deriving DecidableEq, Repr

namespace Scan

/-- Enter the rules with a marker in the current state. -/
def recordBoundary (t : Tables) (s : Scan) : Scan :=
  { s with
    boundaryPos :=
      if t.yyBoundary.isSome then
        (t.boundaryRow s.yyState).foldl (fun bp r ↦ bp.set r.toNat s.yyScan) s.boundaryPos
      else s.boundaryPos }

/-- Enter the accepts of the current state. -/
def recordAccept (t : Tables) (mb : Nat) (s : Scan) : Scan :=
  let an := t.acceptNormal s.yyState
  let ae := t.acceptEol s.yyState
  { s with
    accN := if 0 ≤ an then an else s.accN
    accNLen := if 0 ≤ an then s.yyScan - mb else s.accNLen
    accE := if 0 ≤ ae then ae else s.accE
    accELen := if 0 ≤ ae then s.yyScan - mb else s.accELen }

def record (t : Tables) (mb : Nat) (s : Scan) : Scan := (s.recordBoundary t).recordAccept t mb

/-- The loop, over the bytes from `yy_scan` on. -/
def loop (t : Tables) (mb : Nat) : List Byte → Scan → Scan
  | [], s => s
  | b :: rest, s =>
      let next := t.transition s.yyState b
      if next < 0 then s
      else loop t mb rest ({ s with yyState := next, yyScan := s.yyScan + 1 }.record t mb)

/-- The start of the scan, with the accepts and markers of the entry state. -/
def start (t : Tables) (mb c : Nat) (atBol : Bool) : Scan :=
  { yyState := t.entry c atBol
    yyScan := mb
    boundaryPos := List.replicate t.yyRuleTrailLen.length (-1) : Scan }.record t mb

end Scan

/-- The whole scan from position `mb` of the buffer. -/
def scanFrom (t : Tables) (buf : List Byte) (mb c : Nat) (atBol : Bool) : Scan :=
  Scan.loop t mb (buf.drop mb) (Scan.start t mb c atBol)

/-- The last `$` accept, if a line ends there and the last plain accept is no better. -/
def Scan.selectEol (buf : List Byte) (mb : Nat) (s : Scan) : Selected :=
  if 0 ≤ s.accE ∧ 0 < s.accELen then
    let after := mb + s.accELen
    if buf.length ≤ after ∨ buf[after]? = some newline then
      if s.accELen < s.accNLen then ⟨s.accN, s.accNLen⟩
      else if s.accNLen = s.accELen ∧ 0 ≤ s.accN ∧ s.accN < s.accE then ⟨s.accN, s.accNLen⟩
      else ⟨s.accE, s.accELen⟩
    else {}
  else {}

/-- Choose between the two accepts. -/
def Scan.select (buf : List Byte) (mb : Nat) (s : Scan) : Selected :=
  let sel := s.selectEol buf mb
  if sel.rule < 0 ∧ 0 ≤ s.accN ∧ 0 < s.accNLen then ⟨s.accN, s.accNLen⟩ else sel

/-- What `yy_lex_body` selects at a position. -/
def lexSelect (t : Tables) (buf : List Byte) (mb c : Nat) (atBol : Bool) : Selected :=
  (scanFrom t buf mb c atBol).select buf mb

/-! ## What the loop keeps -/

namespace Scan

/-- Entering a position for some rules. -/
theorem getD_foldl_set (row : List Int) (p : Int) (bp : List Int) {j : Nat} (hj : j < bp.length)
    (hrow : ∀ r ∈ row, 0 ≤ r) :
    (row.foldl (fun bp r ↦ bp.set r.toNat p) bp).getD j (-1) =
      if (j : Int) ∈ row then p else bp.getD j (-1) := by
  induction row generalizing bp with
  | nil => simp
  | cons r row ih =>
      lift r to Nat using hrow r List.mem_cons_self
      rw [List.foldl_cons, ih _ (by simpa using hj) fun r hr ↦ hrow r (List.mem_cons_of_mem _ hr)]
      simp only [Int.toNat_natCast, List.mem_cons, Nat.cast_inj]
      by_cases hrow' : (j : Int) ∈ row
      · simp [hrow']
      · by_cases hjr : j = r
        · subst hjr
          simp [hj]
        · simp [hrow', hjr, List.getElem?_set_ne (Ne.symm hjr)]

theorem length_foldl_set (row : List Int) (p : Int) (bp : List Int) :
    (row.foldl (fun bp r ↦ bp.set r.toNat p) bp).length = bp.length := by
  induction row generalizing bp with
  | nil => rfl
  | cons r row ih => rw [List.foldl_cons, ih, List.length_set]

end Scan

section Spec

variable {t : Tables} {G : Grammar} {mb c : Nat} {atBol : Bool} {rest : List Byte}

/-- **The invariant**: the state after `k` bytes, and the best of the positions below
`m`. -/
structure ScanInv (t : Tables) (G : Grammar) (mb c : Nat) (atBol : Bool) (rest : List Byte)
    (k m : Nat) (s : Scan) : Prop where
  state : s.yyState = t.follow (t.entry c atBol) (rest.take k)
  nonneg : 0 ≤ s.yyState
  scan : s.yyScan = mb + k
  normal : Selects (fun n r ↦ n < m ∧ G.SlotAt false c atBol rest n r) s.accN s.accNLen
  eol : Selects (fun n r ↦ n < m ∧ G.SlotAt true c atBol rest n r) s.accE s.accELen
  length_boundaryPos : s.boundaryPos.length = t.yyRuleTrailLen.length
  boundary : t.yyBoundary.isSome → ∀ j < t.yyRuleTrailLen.length,
    GreatestOr (fun p ↦ ∃ n < m, p = mb + n ∧ G.HeadsAt c atBol rest j n)
      (s.boundaryPos.getD j (-1))

/-- Entering the state after `k` bytes. -/
theorem ScanInv.record (ht : t.Implements G) (hc : c < G.condNames.length) {k : Nat}
    (hk : k ≤ rest.length) {s : Scan} (h : ScanInv t G mb c atBol rest k k s) :
    ScanInv t G mb c atBol rest k (k + 1) (s.record t mb) := by
  have hlen : s.yyScan - mb = k := by
    rw [h.scan]
    omega
  have hpos : 0 ≤ t.follow (t.entry c atBol) (rest.take k) := h.state ▸ h.nonneg
  have hslot : ∀ e n r, (n < k + 1 ∧ G.SlotAt e c atBol rest n r) ↔
      (n < k ∧ G.SlotAt e c atBol rest n r) ∨
        (n = k ∧ G.Matches c atBol r (rest.take k) ∧ G.eol r = e) := by
    intro e n r
    rw [Nat.lt_succ_iff_lt_or_eq, or_and_right]
    refine or_congr_right (and_congr_right fun hn ↦ ?_)
    simp [Grammar.SlotAt, Grammar.MatchesAt, hn, hk]
  refine ⟨h.state, h.nonneg, h.scan, ?_, ?_, ?_, fun hb j hj ↦ ?_⟩
  · change Selects _ (if 0 ≤ t.acceptNormal s.yyState then t.acceptNormal s.yyState else s.accN)
      (if 0 ≤ t.acceptNormal s.yyState then s.yyScan - mb else s.accNLen)
    rw [hlen, h.state]
    exact h.normal.step (fun n r hM ↦ hM.1) (ht.acceptNormal c hc atBol _ hpos) (hslot false)
  · change Selects _ (if 0 ≤ t.acceptEol s.yyState then t.acceptEol s.yyState else s.accE)
      (if 0 ≤ t.acceptEol s.yyState then s.yyScan - mb else s.accELen)
    rw [hlen, h.state]
    exact h.eol.step (fun n r hM ↦ hM.1) (ht.acceptEol c hc atBol _ hpos) (hslot true)
  · change (if t.yyBoundary.isSome then _ else s.boundaryPos).length = _
    split_ifs
    · rw [Scan.length_foldl_set, h.length_boundaryPos]
    · exact h.length_boundaryPos
  · have hrow := ht.boundaryRow hb c hc atBol _ hpos
    change GreatestOr _ ((if t.yyBoundary.isSome then _ else s.boundaryPos).getD j (-1))
    rw [if_pos hb, Scan.getD_foldl_set _ _ _ (h.length_boundaryPos ▸ hj) (fun r hr ↦ by
        rw [h.state] at hr
        obtain ⟨i, rfl, -⟩ := (hrow r).1 hr
        exact Int.natCast_nonneg i), h.scan, h.state]
    have hmem : (j : Int) ∈ t.boundaryRow (t.follow (t.entry c atBol) (rest.take k)) ↔
        G.HeadsAt c atBol rest j k := by
      rw [hrow]
      simp [Grammar.HeadsAt, hk]
    split_ifs with hin
    · refine GreatestOr.natCast_iff.2 ⟨⟨k, Nat.lt_succ_self k, rfl, hmem.1 hin⟩, ?_⟩
      rintro p ⟨n, hn, rfl, -⟩
      exact Nat.add_le_add_left (Nat.lt_succ_iff.1 hn) mb
    · refine (h.boundary hb j hj).congr fun p ↦ exists_congr fun n ↦ ?_
      constructor
      · exact fun ⟨hn, hp⟩ ↦ ⟨Nat.lt_succ_of_lt hn, hp⟩
      · rintro ⟨hn, hp, hh⟩
        refine ⟨lt_of_le_of_ne (Nat.lt_succ_iff.1 hn) fun hnk ↦ ?_, hp, hh⟩
        exact hin (hmem.2 (hnk ▸ hh))

/-- What is kept when the loop stops: the best of all the bytes left. -/
structure ScanEnd (t : Tables) (G : Grammar) (mb c : Nat) (atBol : Bool) (rest : List Byte)
    (s : Scan) : Prop where
  normal : Selects (G.SlotAt false c atBol rest) s.accN s.accNLen
  eol : Selects (G.SlotAt true c atBol rest) s.accE s.accELen
  boundary : t.yyBoundary.isSome → ∀ j < t.yyRuleTrailLen.length,
    GreatestOr (fun p ↦ ∃ n, p = mb + n ∧ G.HeadsAt c atBol rest j n) (s.boundaryPos.getD j (-1))

/-- If nothing is met from `m` bytes on, the invariant is the end. -/
theorem ScanInv.scanEnd {k m : Nat} {s : Scan} (h : ScanInv t G mb c atBol rest k m s)
    (hno : ∀ n, m ≤ n → n ≤ rest.length → ∀ j, ¬ G.Matches c atBol j (rest.take n) ∧
      ¬ G.Heads c atBol j (rest.take n)) : ScanEnd t G mb c atBol rest s := by
  have hlt : ∀ e n r, (n < m ∧ G.SlotAt e c atBol rest n r) ↔ G.SlotAt e c atBol rest n r := by
    refine fun e n r ↦ and_iff_right_of_imp fun hM ↦ ?_
    by_contra hmn
    exact (hno n (not_lt.1 hmn) hM.1.1 r).1 hM.1.2
  refine ⟨h.normal.congr (hlt false), h.eol.congr (hlt true), fun hb j hj ↦ ?_⟩
  refine (h.boundary hb j hj).congr fun p ↦ exists_congr fun n ↦ ?_
  refine and_iff_right_of_imp fun ⟨_, hh⟩ ↦ ?_
  by_contra hmn
  exact (hno n (not_lt.1 hmn) hh.1 j).2 hh.2

/-- The loop, from the invariant to the end. -/
theorem ScanInv.loop (ht : t.Implements G) (hc : c < G.condNames.length) (v l : List Byte)
    (hrest : rest = v ++ l) {s : Scan}
    (h : ScanInv t G mb c atBol rest v.length (v.length + 1) s) :
    ScanEnd t G mb c atBol rest (Scan.loop t mb l s) := by
  induction l generalizing v s with
  | nil =>
      have hlen : rest.length = v.length := by simp [hrest]
      exact h.scanEnd fun n hn hn' ↦ by omega
  | cons b l ih =>
      have htake : rest.take v.length = v := by simp [hrest]
      have hstate : s.yyState = t.follow (t.entry c atBol) v := by rw [h.state, htake]
      have hnext : t.transition s.yyState b = t.follow (t.entry c atBol) (v ++ [b]) := by
        rw [Tables.follow_concat _ (hstate ▸ h.nonneg), hstate]
      have hrest' : rest = (v ++ [b]) ++ l := by simp [hrest]
      have hlt : v.length < rest.length := by simp [hrest]
      unfold Scan.loop
      simp only
      split_ifs with hjam
      · refine h.scanEnd fun n hn hn' j ↦ ?_
        have hsplit : rest.take n = (v ++ [b]) ++ l.take (n - (v.length + 1)) := by
          rw [hrest', List.take_append, List.take_of_length_le (by simpa using hn)]
          simp
        refine ht.jam c hc atBol _ ?_ j
        rw [hsplit, Tables.follow_append, ← hnext, Tables.follow_of_neg _ hjam]
        exact hjam
      · have htake' : rest.take (v.length + 1) = v ++ [b] := by
          rw [hrest', List.take_left' (by simp)]
        have hnew : ScanInv t G mb c atBol rest (v.length + 1) (v.length + 1)
            { s with yyState := t.transition s.yyState b, yyScan := s.yyScan + 1 } :=
          { h with
            state := by rw [hnext, htake']
            nonneg := not_lt.1 hjam
            scan := by rw [h.scan, Nat.add_assoc] }
        have hinv := hnew.record ht hc hlt
        exact ih (v ++ [b]) hrest' (by rwa [List.length_append, List.length_singleton])

/-- **The scan keeps the best of each kind.** -/
theorem scanFrom_spec (ht : t.Implements G) (hc : c < G.condNames.length) (buf : List Byte)
    (mb : Nat) (atBol : Bool) :
    ScanEnd t G mb c atBol (buf.drop mb) (scanFrom t buf mb c atBol) := by
  have hnew : ScanInv t G mb c atBol (buf.drop mb) 0 0
      { yyState := t.entry c atBol, yyScan := mb
        boundaryPos := List.replicate t.yyRuleTrailLen.length (-1) } :=
    { state := rfl
      nonneg := ht.entry_nonneg c hc atBol
      scan := rfl
      normal := Selects.none fun n r hM ↦ absurd hM.1 (Nat.not_lt_zero n)
      eol := Selects.none fun n r hM ↦ absurd hM.1 (Nat.not_lt_zero n)
      length_boundaryPos := List.length_replicate
      boundary := fun _ j hj ↦ by
        rw [List.getD_eq_getElem _ _ (by simpa using hj), List.getElem_replicate]
        exact GreatestOr.none fun p ⟨n, hn, _⟩ ↦ absurd hn (Nat.not_lt_zero n) }
  exact (hnew.record ht hc (Nat.zero_le _)).loop ht hc [] _ rfl

end Spec

/-! ## What is selected -/

/-- The matches that the selection looks at: all without `$`, and with `$` only the
longest, if a line ends there. -/
def Considered (G : Grammar) (c : Nat) (atBol : Bool) (rest : List Byte) (n r : Nat) : Prop :=
  (0 < n ∧ G.SlotAt false c atBol rest n r) ∨
    ((0 < n ∧ G.SlotAt true c atBol rest n r) ∧ AtLineEnd rest n ∧
      ∀ n' r', G.SlotAt true c atBol rest n' r' → n' ≤ n)

theorem atLineEnd_drop {buf : List Byte} {mb n : Nat} :
    AtLineEnd (buf.drop mb) n ↔ buf.length ≤ mb + n ∨ buf[mb + n]? = some newline := by
  rw [AtLineEnd, List.getElem?_drop]
  rcases Nat.lt_or_ge (mb + n) buf.length with h | h
  · simp [h]
  · simp [h]

/-- The kept `$` accept is the only one to be considered. -/
theorem ScanEnd.eol_considered {t : Tables} {G : Grammar} {mb c : Nat} {atBol : Bool}
    {rest : List Byte} {s : Scan} (h : ScanEnd t G mb c atBol rest s) :
    ((0 < s.accELen ∧ AtLineEnd rest s.accELen) ∧
      Selects (fun n r ↦ (0 < n ∧ G.SlotAt true c atBol rest n r) ∧ AtLineEnd rest n ∧
        ∀ n' r', G.SlotAt true c atBol rest n' r' → n' ≤ n) s.accE s.accELen) ∨
    (¬ (0 < s.accELen ∧ AtLineEnd rest s.accELen) ∧
      ∀ n r, ¬ ((0 < n ∧ G.SlotAt true c atBol rest n r) ∧ AtLineEnd rest n ∧
        ∀ n' r', G.SlotAt true c atBol rest n' r' → n' ≤ n)) := by
  rcases h.eol with ⟨-, hlen, hno⟩ | ⟨e, he, hg⟩
  · exact Or.inr ⟨by omega, fun n r hM ↦ hno n r hM.1.2⟩
  · rw [isGreatest_cand_iff] at hg
    have hmax : ∀ n' r', G.SlotAt true c atBol rest n' r' → n' ≤ s.accELen := by
      intro n' r' hM
      have := hg.2 n' r' hM
      omega
    have honly : ∀ n r, ((0 < n ∧ G.SlotAt true c atBol rest n r) ∧ AtLineEnd rest n ∧
        ∀ n' r', G.SlotAt true c atBol rest n' r' → n' ≤ n) → n = s.accELen :=
      fun n r hM ↦ le_antisymm (hmax n r hM.1.2) (hM.2.2 _ _ hg.1)
    by_cases hend : 0 < s.accELen ∧ AtLineEnd rest s.accELen
    · refine Or.inl ⟨hend, ?_⟩
      rw [he]
      refine Selects.natCast_iff.2 (isGreatest_cand_iff.2 ⟨⟨⟨hend.1, hg.1⟩, hend.2, hmax⟩, ?_⟩)
      exact fun n' r' hM ↦ hg.2 n' r' hM.1.2
    · refine Or.inr ⟨hend, fun n r hM ↦ hend ?_⟩
      obtain rfl := honly n r hM
      exact ⟨hM.1.1, hM.2.1⟩

/-- A `$` accept at a line end. -/
theorem Scan.select_of_eol {buf : List Byte} {mb : Nat} {s : Scan} (hE : 0 ≤ s.accE)
    (hN : 0 < s.accNLen → 0 ≤ s.accN) (hlen : 0 < s.accELen)
    (hend : AtLineEnd (buf.drop mb) s.accELen) : s.select buf mb =
      if s.accELen < s.accNLen ∨ (s.accNLen = s.accELen ∧ s.accN < s.accE) then
        ⟨s.accN, s.accNLen⟩
      else ⟨s.accE, s.accELen⟩ := by
  have hsel : s.selectEol buf mb =
      if s.accELen < s.accNLen ∨ (s.accNLen = s.accELen ∧ s.accN < s.accE) then
        ⟨s.accN, s.accNLen⟩
      else ⟨s.accE, s.accELen⟩ := by
    rw [selectEol, if_pos ⟨hE, hlen⟩]
    simp only [← atLineEnd_drop, if_pos hend]
    split_ifs <;> grind
  rw [select, hsel]
  refine if_neg fun h ↦ ?_
  split_ifs at h <;> grind

/-- No `$` accept at a line end. -/
theorem Scan.select_of_not_eol {buf : List Byte} {mb : Nat} {s : Scan}
    (hN : 0 < s.accNLen → 0 ≤ s.accN)
    (hend : ¬ (0 < s.accELen ∧ AtLineEnd (buf.drop mb) s.accELen)) : s.select buf mb =
      if 0 < s.accNLen then ⟨s.accN, s.accNLen⟩ else {} := by
  have hsel : s.selectEol buf mb = {} := by
    rw [selectEol]
    simp only [← atLineEnd_drop]
    split_ifs with h h' <;> first | rfl | exact absurd ⟨h.2, h'⟩ hend
  rw [select, hsel]
  by_cases h : 0 < s.accNLen
  · rw [if_pos h]
    exact if_pos ⟨by decide, hN h, h⟩
  · rw [if_neg h]
    exact if_neg fun h' ↦ h h'.2.2

/-- The selection takes the better of the two accepts. -/
theorem ScanEnd.select {t : Tables} {G : Grammar} {mb c : Nat} {atBol : Bool} {buf : List Byte}
    {s : Scan} (h : ScanEnd t G mb c atBol (buf.drop mb) s) :
    Selects (Considered G c atBol (buf.drop mb)) (s.select buf mb).rule (s.select buf mb).len := by
  have hposN := h.normal.nonneg_of_pos
  rcases h.eol_considered with ⟨hend, hE⟩ | ⟨hend, hE⟩
  · have hposE := h.eol.nonneg_of_pos hend.1
    rw [Scan.select_of_eol hposE hposN hend.1 hend.2]
    rcases h.normal.pos with ⟨hlen, hN⟩ | ⟨hlen, hN⟩
    · obtain ⟨e, he⟩ := Int.eq_ofNat_of_zero_le hposE
      obtain ⟨r, hr⟩ := Int.eq_ofNat_of_zero_le (hposN hlen)
      rw [he] at hE ⊢
      rw [hr] at hN ⊢
      -- the two accepts are of different rules
      have hne : r ≠ e := by
        rintro rfl
        have h₁ := (Selects.natCast_iff.1 hN).1.2.2
        have h₂ := (Selects.natCast_iff.1 hE).1.1.2.2
        exact absurd (h₁.symm.trans h₂) (by decide)
      have hiff : (s.accELen < s.accNLen ∨ (s.accNLen = s.accELen ∧ (r : Int) < e)) ↔
          cand s.accELen e ≤ cand s.accNLen r := by
        rw [cand_le_cand]
        omega
      have hor := hN.or hE
      simp only [hiff]
      split_ifs at hor ⊢ <;> exact hor
    · rw [if_neg (by omega)]
      exact hE.congr fun n r ↦ (or_iff_right (hN n r)).symm
  · rw [Scan.select_of_not_eol hposN hend]
    rcases h.normal.pos with ⟨hlen, hN⟩ | ⟨hlen, hN⟩
    · rw [if_pos hlen]
      exact hN.congr fun n r ↦ (or_iff_left (hE n r)).symm
    · rw [if_neg (by omega)]
      exact Selects.none fun n r ↦ not_or.2 ⟨hN n r, hE n r⟩

/-- **What `yy_lex_body` selects.** -/
theorem lexSelect_spec {t : Tables} {G : Grammar} {c : Nat} (ht : t.Implements G)
    (hc : c < G.condNames.length) (buf : List Byte) (mb : Nat) (atBol : Bool) :
    Selects (Considered G c atBol (buf.drop mb)) (lexSelect t buf mb c atBol).rule
      (lexSelect t buf mb c atBol).len :=
  (scanFrom_spec ht hc buf mb atBol).select

end LexCpp
