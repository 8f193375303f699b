import LexCpp.Scanner.Calls

/-!
# A match ends in the buffer

Whatever is in the tables: neither body takes more than the bytes that are left.
-/

namespace LexCpp

/-! ## The scan -/

namespace Scan

variable {t : Tables} {mb n : Nat}

theorem len_record {s : Scan} (hscan : s.yyScan ≤ n) (hlen : s.accNLen ≤ n - mb ∧ s.accELen ≤ n - mb) :
    (s.record t mb).accNLen ≤ n - mb ∧ (s.record t mb).accELen ≤ n - mb := by
  have hcur : s.yyScan - mb ≤ n - mb := Nat.sub_le_sub_right hscan mb
  constructor
  · change (if 0 ≤ t.acceptNormal s.yyState then s.yyScan - mb else s.accNLen) ≤ n - mb
    split_ifs
    · exact hcur
    · exact hlen.1
  · change (if 0 ≤ t.acceptEol s.yyState then s.yyScan - mb else s.accELen) ≤ n - mb
    split_ifs
    · exact hcur
    · exact hlen.2

theorem len_loop {l : List Byte} {s : Scan} (hscan : s.yyScan + l.length ≤ n)
    (hlen : s.accNLen ≤ n - mb ∧ s.accELen ≤ n - mb) :
    (loop t mb l s).accNLen ≤ n - mb ∧ (loop t mb l s).accELen ≤ n - mb := by
  induction l generalizing s with
  | nil => exact hlen
  | cons b l ih =>
      rw [List.length_cons, ← Nat.add_assoc, Nat.add_right_comm] at hscan
      rw [loop]
      split_ifs
      · exact hlen
      · exact ih hscan (len_record (le_of_add_le_left hscan) hlen)

theorem len_select {buf : List Byte} {s : Scan} {k : Nat} (hlen : s.accNLen ≤ k ∧ s.accELen ≤ k) :
    (s.select buf mb).len ≤ k := by
  have heol : (s.selectEol buf mb).len ≤ k := by
    unfold selectEol
    dsimp only
    split_ifs
    · exact hlen.1
    · exact hlen.1
    · exact hlen.2
    · exact Nat.zero_le _
    · exact Nat.zero_le _
  unfold select
  dsimp only
  split_ifs
  · exact hlen.1
  · exact heol

end Scan

theorem len_lexSelect {t : Tables} {buf : List Byte} {mb : Nat} (hmb : mb ≤ buf.length) (c : Nat)
    (atBol : Bool) : (lexSelect t buf mb c atBol).len ≤ buf.length - mb := by
  refine Scan.len_select (Scan.len_loop ?_ (Scan.len_record hmb ⟨Nat.zero_le _, Nat.zero_le _⟩))
  change mb + (buf.drop mb).length ≤ buf.length
  rw [List.length_drop, Nat.add_sub_cancel' hmb]

/-! ## The scan with `REJECT` -/

namespace RejectScan

variable {t : Tables} {buf : List Byte} {mb : Nat} {K : Int}

theorem le_collect {atEol : Bool} {cur : Int} {row lens : List Int} (hcur : cur ≤ K)
    (hlens : ∀ L ∈ lens, L ≤ K) : ∀ L ∈ collect t atEol cur row lens, L ≤ K := by
  unfold collect
  induction row generalizing lens with
  | nil => exact hlens
  | cons r row ih =>
      rw [List.foldl_cons]
      refine ih ?_
      split_ifs
      · exact hlens
      · intro L hL
        rcases List.mem_or_eq_of_mem_set hL with hL | rfl
        · exact hlens L hL
        · exact hcur
      · exact hlens

theorem le_record {s : RejectScan} (hscan : s.yyScan ≤ buf.length)
    (hlens : ∀ L ∈ s.matchLens, L ≤ (buf.length - mb : Nat)) :
    ∀ L ∈ (s.record t buf mb).matchLens, L ≤ (buf.length - mb : Nat) := by
  refine le_collect ((Session.int32_le _).trans ?_) hlens
  exact Int.ofNat_le.2 (Nat.sub_le_sub_right hscan mb)

theorem le_loop {l : List Byte} {s : RejectScan} (hscan : s.yyScan + l.length ≤ buf.length)
    (hlens : ∀ L ∈ s.matchLens, L ≤ (buf.length - mb : Nat)) :
    ∀ L ∈ (loop t buf mb l s).matchLens, L ≤ (buf.length - mb : Nat) := by
  induction l generalizing s with
  | nil => exact hlens
  | cons b l ih =>
      rw [List.length_cons, ← Nat.add_assoc, Nat.add_right_comm] at hscan
      rw [loop]
      split_ifs
      · exact hlens
      · exact ih hscan (le_record (le_of_add_le_left hscan) hlens)

end RejectScan

theorem len_findBest {lens : List Int} {k : Nat} (hlens : ∀ L ∈ lens, L ≤ k) :
    (findBest lens).len ≤ k := by
  have hstep : ∀ (sel : Selected) (r : Nat), sel.len ≤ k → (findBestStep lens sel r).len ≤ k := by
    intro sel r hsel
    unfold findBestStep
    dsimp only
    split_ifs with hpos
    · change (lens.getD r (-1)).toNat ≤ k
      rcases Nat.lt_or_ge r lens.length with hr | hr
      · rw [List.getD_eq_getElem _ _ hr]
        exact Int.toNat_le.2 (hlens _ (List.getElem_mem hr))
      · rw [List.getD_eq_default _ _ hr]
        exact Nat.zero_le _
    · exact hsel
    · exact hsel
  unfold findBest
  induction lens.length with
  | zero => exact Nat.zero_le _
  | succ n ih =>
      rw [List.range_succ, List.foldl_concat]
      exact hstep _ _ ih

/-- Every length kept for `REJECT` lies in the buffer. -/
theorem le_matchLens {t : Tables} {buf : List Byte} {mb : Nat} (hmb : mb ≤ buf.length) (c : Nat)
    (atBol : Bool) : ∀ L ∈ matchLens t buf mb c atBol, L ≤ (buf.length - mb : Nat) := by
  refine RejectScan.le_loop ?_ (RejectScan.le_record hmb fun L hL ↦ ?_)
  · change mb + (buf.drop mb).length ≤ buf.length
    rw [List.length_drop, Nat.add_sub_cancel' hmb]
  · rw [List.eq_of_mem_replicate hL]
    exact (Int.negSucc_lt_zero 0).le.trans (Int.natCast_nonneg _)

theorem len_rejectSelect {t : Tables} {buf : List Byte} {mb : Nat} (hmb : mb ≤ buf.length) (c : Nat)
    (atBol : Bool) : (rejectSelect t buf mb c atBol).len ≤ buf.length - mb :=
  len_findBest (le_matchLens hmb c atBol)

/-! ## Either body -/

theorem cutTrail_le (trail : Int) (len : Nat) : cutTrail trail len ≤ len := by
  unfold cutTrail
  split_ifs
  · exact Nat.sub_le _ _
  · exact le_rfl

theorem cutBoundary_le (bp : Int) (mb len : Nat) : cutBoundary bp mb len ≤ len := by
  unfold cutBoundary
  split_ifs with h
  · rw [Int.toNat_le]
    linarith [h.2.2]
  · exact le_rfl

/-- A match does not go past the end. -/
theorem len_bodyMatch {t : Tables} {buf : List Byte} {mb c : Nat} {atBol : Bool} {m : Match}
    (hmb : mb ≤ buf.length) (hm : bodyMatch t buf mb c atBol = some m) :
    mb + m.len ≤ buf.length := by
  suffices hlen : m.len ≤ buf.length - mb by
    rw [← Nat.add_sub_cancel' hmb]
    exact Nat.add_le_add_left hlen mb
  unfold bodyMatch at hm
  split_ifs at hm
  · unfold rejectMatch at hm
    dsimp only at hm
    split_ifs at hm
    obtain rfl := Option.some.inj hm
    exact (cutTrail_le _ _).trans (len_rejectSelect hmb c atBol)
  · have hsel := len_lexSelect (t := t) hmb c atBol
    unfold lexMatch at hm
    dsimp only at hm
    split_ifs at hm
    · obtain rfl := Option.some.inj hm
      exact (cutBoundary_le _ _ _).trans hsel
    · obtain rfl := Option.some.inj hm
      exact (cutTrail_le _ _).trans hsel

end LexCpp
