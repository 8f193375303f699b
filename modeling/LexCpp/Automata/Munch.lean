import Mathlib

/-!
# Longest match, first rule

The order in which a scanner prefers its matches: a longer one before a shorter one, and
of two of one length the one of the lower rule.  A scanner keeps the best match found so
far in a rule and a length, with rule `-1` for none; `Selects` says what these two hold,
and the rest of the file how they are kept.
-/

namespace Munch

/-- A match as length and rule; the greater one is preferred. -/
abbrev Candidate := ℕ ×ₗ ℕᵒᵈ

/-- The match of `n` symbols by rule `r`. -/
def cand (n r : ℕ) : Candidate := toLex (n, OrderDual.toDual r)

theorem cand_le_cand {n n' r r' : ℕ} : cand n r ≤ cand n' r' ↔ n < n' ∨ (n = n' ∧ r' ≤ r) :=
  Prod.Lex.toLex_le_toLex

theorem cand_lt_cand {n n' r r' : ℕ} : cand n r < cand n' r' ↔ n < n' ∨ (n = n' ∧ r' < r) :=
  Prod.Lex.toLex_lt_toLex

theorem cand_inj {n n' r r' : ℕ} : cand n r = cand n' r' ↔ n = n' ∧ r = r' := by
  rw [cand, cand, toLex_inj, Prod.mk.injEq, OrderDual.toDual_inj]

/-- The matches of a relation between lengths and rules. -/
def candidates (M : ℕ → ℕ → Prop) : Set Candidate :=
  {x | M (ofLex x).1 (OrderDual.ofDual (ofLex x).2)}

@[simp] theorem cand_mem_candidates {M : ℕ → ℕ → Prop} {n r : ℕ} :
    cand n r ∈ candidates M ↔ M n r := Iff.rfl

/-- The best match, spelled out. -/
theorem isGreatest_cand_iff {M : ℕ → ℕ → Prop} {n r : ℕ} :
    IsGreatest (candidates M) (cand n r) ↔
      M n r ∧ ∀ n' r', M n' r' → n' < n ∨ (n' = n ∧ r ≤ r') :=
  and_congr Iff.rfl
    ⟨fun h _ _ hM ↦ cand_le_cand.1 (h (cand_mem_candidates.2 hM)),
      fun h _ hx ↦ cand_le_cand.2 (h _ _ hx)⟩

/-! ## Least rules -/

/-- The least rule of a set, or `-1` if there is none. -/
def LeastOr (P : ℕ → Prop) (x : ℤ) : Prop :=
  (x = -1 ∧ ∀ r, ¬ P r) ∨ ∃ r : ℕ, x = r ∧ IsLeast {r | P r} r

theorem LeastOr.nonneg_iff {P : ℕ → Prop} {x : ℤ} (h : LeastOr P x) : 0 ≤ x ↔ ∃ r, P r := by
  rcases h with ⟨rfl, hno⟩ | ⟨r, rfl, hr⟩
  · exact iff_of_false (by omega) fun ⟨r, hr⟩ ↦ hno r hr
  · exact iff_of_true (by omega) ⟨r, hr.1⟩

/-- The greatest number of a set, or `-1` if there is none. -/
def GreatestOr (P : ℕ → Prop) (x : ℤ) : Prop :=
  (x = -1 ∧ ∀ n, ¬ P n) ∨ ∃ n : ℕ, x = n ∧ IsGreatest {n | P n} n

namespace GreatestOr

variable {P Q : ℕ → Prop} {x y : ℤ}

theorem congr (h : GreatestOr P x) (hPQ : ∀ n, P n ↔ Q n) : GreatestOr Q x := by
  have : P = Q := funext fun n ↦ propext (hPQ n)
  exact this ▸ h

theorem none (hno : ∀ n, ¬ P n) : GreatestOr P (-1) := Or.inl ⟨rfl, hno⟩

theorem neg_one_le (h : GreatestOr P x) : -1 ≤ x := by
  rcases h with ⟨rfl, -⟩ | ⟨n, rfl, -⟩ <;> omega

theorem nonneg_iff (h : GreatestOr P x) : 0 ≤ x ↔ ∃ n, P n := by
  rcases h with ⟨rfl, hno⟩ | ⟨n, rfl, hn⟩
  · exact iff_of_false (by omega) fun ⟨n, hn⟩ ↦ hno n hn
  · exact iff_of_true (by omega) ⟨n, hn.1⟩

theorem natCast_iff {n : ℕ} : GreatestOr P n ↔ IsGreatest {n | P n} n := by
  constructor
  · rintro (⟨hn, -⟩ | ⟨m, hm, hg⟩)
    · omega
    · obtain rfl : n = m := by exact_mod_cast hm
      exact hg
  · exact fun hg ↦ Or.inr ⟨n, rfl, hg⟩

theorem unique (h : GreatestOr P x) (h' : GreatestOr P y) : x = y := by
  rcases h with ⟨rfl, hno⟩ | ⟨n, rfl, hn⟩
  · rcases h' with ⟨rfl, -⟩ | ⟨m, rfl, hm⟩
    · rfl
    · exact absurd hm.1 (hno m)
  · rcases h' with ⟨rfl, hno⟩ | ⟨m, rfl, hm⟩
    · exact absurd hn.1 (hno n)
    · rw [hn.unique hm]

/-- **One number more.** -/
theorem max (h : GreatestOr P x) (y : ℤ) (hQ : ∀ n : ℕ, Q n ↔ P n ∨ (n : ℤ) = y) :
    GreatestOr Q (Max.max x y) := by
  rcases h with ⟨rfl, hno⟩ | ⟨n, rfl, hn⟩
  · rcases lt_or_ge y 0 with hy | hy
    · refine Or.inl ⟨by omega, fun n hn ↦ ?_⟩
      rcases (hQ n).1 hn with hP | hy'
      · exact hno n hP
      · omega
    · lift y to ℕ using hy
      refine Or.inr ⟨y, by omega, (hQ y).2 (Or.inr rfl), fun m hm ↦ ?_⟩
      rcases (hQ m).1 hm with hP | hy'
      · exact absurd hP (hno m)
      · omega
  · rcases le_or_gt y n with hy | hy
    · refine Or.inr ⟨n, by omega, (hQ n).2 (Or.inl hn.1), fun m hm ↦ ?_⟩
      rcases (hQ m).1 hm with hP | hy'
      · exact hn.2 hP
      · omega
    · lift y to ℕ using by omega
      refine Or.inr ⟨y, by omega, (hQ y).2 (Or.inr rfl), fun m hm ↦ ?_⟩
      rcases (hQ m).1 hm with hP | hy'
      · have := hn.2 hP
        omega
      · omega

end GreatestOr

/-! ## The best match so far -/

/-- A rule and a length that hold the best match of a relation, or `-1` and 0. -/
def Selects (M : ℕ → ℕ → Prop) (rule : ℤ) (len : ℕ) : Prop :=
  (rule = -1 ∧ len = 0 ∧ ∀ n r, ¬ M n r) ∨
    ∃ r : ℕ, rule = r ∧ IsGreatest (candidates M) (cand len r)

namespace Selects

variable {M N : ℕ → ℕ → Prop} {rule rule' : ℤ} {len len' : ℕ}

theorem congr (h : Selects M rule len) (hMN : ∀ n r, M n r ↔ N n r) : Selects N rule len := by
  have : M = N := funext fun n ↦ funext fun r ↦ propext (hMN n r)
  exact this ▸ h

theorem nonneg_iff (h : Selects M rule len) : 0 ≤ rule ↔ ∃ n r, M n r := by
  rcases h with ⟨rfl, -, hno⟩ | ⟨r, rfl, hr⟩
  · exact iff_of_false (by omega) fun ⟨n, r, hM⟩ ↦ hno n r hM
  · exact iff_of_true (by omega) ⟨len, r, hr.1⟩

theorem neg_iff (h : Selects M rule len) : rule < 0 ↔ ∀ n r, ¬ M n r := by
  rw [← not_le, h.nonneg_iff]
  exact ⟨fun h n r hM ↦ h ⟨n, r, hM⟩, fun h ⟨n, r, hM⟩ ↦ h n r hM⟩

theorem nonneg_of_pos (h : Selects M rule len) (hlen : 0 < len) : 0 ≤ rule := by
  rcases h with ⟨-, rfl, -⟩ | ⟨r, rfl, -⟩
  · exact absurd hlen (lt_irrefl 0)
  · exact Int.natCast_nonneg r

theorem eq_neg_one (h : Selects M rule len) (hno : ∀ n r, ¬ M n r) : rule = -1 ∧ len = 0 := by
  rcases h with ⟨hr, hl, -⟩ | ⟨r, rfl, hr⟩
  · exact ⟨hr, hl⟩
  · exact absurd hr.1 (hno _ _)

/-- The best match is a match that is as good as any. -/
theorem natCast_iff {r : ℕ} : Selects M r len ↔ IsGreatest (candidates M) (cand len r) := by
  constructor
  · rintro (⟨hr, -, -⟩ | ⟨r', hr', hg⟩)
    · omega
    · obtain rfl : r = r' := by exact_mod_cast hr'
      exact hg
  · exact fun hg ↦ Or.inr ⟨r, rfl, hg⟩

theorem unique (h : Selects M rule len) (h' : Selects M rule' len') :
    rule = rule' ∧ len = len' := by
  rcases h with ⟨hr, hl, hno⟩ | ⟨r, rfl, hg⟩
  · obtain ⟨hr', hl'⟩ := h'.eq_neg_one hno
    exact ⟨hr.trans hr'.symm, hl.trans hl'.symm⟩
  · rcases h' with ⟨-, -, hno⟩ | ⟨r', rfl, hg'⟩
    · exact absurd hg.1 (hno _ _)
    · obtain ⟨rfl, rfl⟩ := cand_inj.1 (hg.unique hg')
      exact ⟨rfl, rfl⟩

/-- Nothing has been found in an empty relation. -/
theorem none (hno : ∀ n r, ¬ M n r) : Selects M (-1) 0 := Or.inl ⟨rfl, rfl, hno⟩

/-- **One symbol more.**  The rules that match at a length beyond all others replace
what was kept by the least of them, if there are any. -/
theorem step (h : Selects M rule len) {k : ℕ} (hk : ∀ n r, M n r → n < k) {P : ℕ → Prop} {x : ℤ}
    (hx : LeastOr P x) (hN : ∀ n r, N n r ↔ M n r ∨ (n = k ∧ P r)) :
    Selects N (if 0 ≤ x then x else rule) (if 0 ≤ x then k else len) := by
  rcases hx with ⟨rfl, hno⟩ | ⟨r, rfl, hr⟩
  · rw [if_neg (by omega), if_neg (by omega)]
    refine h.congr fun n r ↦ ?_
    rw [hN, or_iff_left fun hP ↦ hno r hP.2]
  · rw [if_pos (Int.natCast_nonneg r), if_pos (Int.natCast_nonneg r), natCast_iff,
      isGreatest_cand_iff, hN]
    refine ⟨Or.inr ⟨rfl, hr.1⟩, fun n' r' hM' ↦ ?_⟩
    rcases (hN n' r').1 hM' with hM | ⟨rfl, hP⟩
    · exact Or.inl (hk n' r' hM)
    · exact Or.inr ⟨rfl, hr.2 hP⟩

/-- **One rule more.**  A rule above all others replaces what was kept if its match is
longer. -/
theorem insert (h : Selects M rule len) {k L : ℕ} (hk : ∀ n r, M n r → r < k)
    (hN : ∀ n r, N n r ↔ M n r ∨ (n = L ∧ r = k)) :
    Selects N (if rule < 0 ∨ len < L then k else rule) (if rule < 0 ∨ len < L then L else len) := by
  rcases h with ⟨rfl, -, hno⟩ | ⟨r, rfl, hg⟩
  · rw [if_pos (Or.inl (by omega)), if_pos (Or.inl (by omega)), natCast_iff, isGreatest_cand_iff, hN]
    refine ⟨Or.inr ⟨rfl, rfl⟩, fun n' r' hM' ↦ ?_⟩
    obtain ⟨rfl, rfl⟩ := ((hN n' r').1 hM').resolve_left (hno n' r')
    exact Or.inr ⟨rfl, le_refl _⟩
  · rw [isGreatest_cand_iff] at hg
    have hr : r < k := hk _ _ hg.1
    have hneg : ¬ (r : ℤ) < 0 := by omega
    simp only [hneg, false_or]
    split_ifs with hlt
    · rw [natCast_iff, isGreatest_cand_iff, hN]
      refine ⟨Or.inr ⟨rfl, rfl⟩, fun n' r' hM' ↦ ?_⟩
      rcases (hN n' r').1 hM' with hM | ⟨rfl, rfl⟩
      · have := hg.2 n' r' hM
        omega
      · exact Or.inr ⟨rfl, le_refl _⟩
    · rw [natCast_iff, isGreatest_cand_iff, hN]
      refine ⟨Or.inl hg.1, fun n' r' hM' ↦ ?_⟩
      rcases (hN n' r').1 hM' with hM | ⟨rfl, rfl⟩
      · exact hg.2 n' r' hM
      · omega

/-- Dropping the empty matches. -/
theorem pos (h : Selects M rule len) :
    (0 < len ∧ Selects (fun n r ↦ 0 < n ∧ M n r) rule len) ∨
      (len = 0 ∧ ∀ n r, ¬ (0 < n ∧ M n r)) := by
  rcases h with ⟨rfl, hlen, hno⟩ | ⟨r, rfl, hg⟩
  · exact Or.inr ⟨hlen, fun n r hM ↦ hno n r hM.2⟩
  · rw [isGreatest_cand_iff] at hg
    rcases Nat.eq_zero_or_pos len with rfl | hpos
    · refine Or.inr ⟨rfl, fun n r' hM ↦ ?_⟩
      have := hg.2 n r' hM.2
      omega
    · refine Or.inl ⟨hpos, natCast_iff.2 (isGreatest_cand_iff.2 ⟨⟨hpos, hg.1⟩, ?_⟩)⟩
      exact fun n' r' hM ↦ hg.2 n' r' hM.2

/-- **The better of two** is the best of both. -/
theorem or {r r' : ℕ} (h : Selects M r len) (h' : Selects N r' len') :
    Selects (fun n r ↦ M n r ∨ N n r) (if cand len' r' ≤ cand len r then r else r')
      (if cand len' r' ≤ cand len r then len else len') := by
  rw [natCast_iff] at h h'
  split_ifs with hle
  · refine natCast_iff.2 ⟨Or.inl h.1, fun x hx ↦ ?_⟩
    rcases hx with hx | hx
    · exact h.2 hx
    · exact (h'.2 hx).trans hle
  · refine natCast_iff.2 ⟨Or.inr h'.1, fun x hx ↦ ?_⟩
    rcases hx with hx | hx
    · exact (h.2 hx).trans (le_of_not_ge hle)
    · exact h'.2 hx

end Selects

/-! ## Choices -/

/-- The best match, or none. -/
def IsBest (M : ℕ → ℕ → Prop) (o : Option (ℕ × ℕ)) : Prop :=
  (o = none ∧ ∀ n r, ¬ M n r) ∨ ∃ r n, o = some (r, n) ∧ IsGreatest (candidates M) (cand n r)

theorem IsBest.exists_eq {M : ℕ → ℕ → Prop} {o : Option (ℕ × ℕ)} (h : IsBest M o) {n r : ℕ}
    (hM : M n r) : ∃ r' n', o = some (r', n') ∧ M n' r' ∧ cand n r ≤ cand n' r' := by
  rcases h with ⟨-, hno⟩ | ⟨r', n', rfl, hg⟩
  · exact absurd hM (hno n r)
  · exact ⟨r', n', rfl, hg.1, hg.2 (cand_mem_candidates.2 hM)⟩

/-- **Two relations have the same best match** exactly if each match of one is matched
by one of the other that is no worse. -/
theorem IsBest.eq_iff {M N : ℕ → ℕ → Prop} {o o' : Option (ℕ × ℕ)} (h : IsBest M o)
    (h' : IsBest N o') : o = o' ↔
      (∀ n r, M n r → ∃ n' r', N n' r' ∧ cand n r ≤ cand n' r') ∧
      (∀ n r, N n r → ∃ n' r', M n' r' ∧ cand n r ≤ cand n' r') := by
  constructor
  · rintro rfl
    refine ⟨fun n r hM ↦ ?_, fun n r hN ↦ ?_⟩
    · obtain ⟨r', n', ho, -, hle⟩ := h.exists_eq hM
      rcases h' with ⟨ho', -⟩ | ⟨r'', n'', ho', hg⟩
      · exact absurd (ho.symm.trans ho') (Option.some_ne_none _)
      · obtain ⟨rfl, rfl⟩ := Prod.mk.inj (Option.some.inj (ho.symm.trans ho'))
        exact ⟨n', r', hg.1, hle⟩
    · obtain ⟨r', n', ho, -, hle⟩ := h'.exists_eq hN
      rcases h with ⟨ho', -⟩ | ⟨r'', n'', ho', hg⟩
      · exact absurd (ho.symm.trans ho') (Option.some_ne_none _)
      · obtain ⟨rfl, rfl⟩ := Prod.mk.inj (Option.some.inj (ho.symm.trans ho'))
        exact ⟨n', r', hg.1, hle⟩
  · rintro ⟨hMN, hNM⟩
    rcases h with ⟨rfl, hno⟩ | ⟨r, n, rfl, hg⟩
    · rcases h' with ⟨rfl, -⟩ | ⟨r', n', rfl, hg'⟩
      · rfl
      · obtain ⟨n, r, hM, -⟩ := hNM n' r' hg'.1
        exact absurd hM (hno n r)
    · obtain ⟨n', r', hN, hle⟩ := hMN n r hg.1
      obtain ⟨r'', n'', rfl, hN', hle'⟩ := h'.exists_eq hN
      obtain ⟨m, s, hM, hle''⟩ := hNM n'' r'' hN'
      have hback : cand n'' r'' ≤ cand n r := hle''.trans (hg.2 (cand_mem_candidates.2 hM))
      obtain ⟨rfl, rfl⟩ := cand_inj.1 (le_antisymm (hle.trans hle') hback)
      rfl

/-- What is kept, as a choice. -/
theorem isBest_of_selects {M : ℕ → ℕ → Prop} {rule : ℤ} {len : ℕ} (h : Selects M rule len) :
    IsBest M (if rule < 0 then none else some (rule.toNat, len)) := by
  rcases h with ⟨rfl, -, hno⟩ | ⟨r, rfl, hg⟩
  · exact Or.inl ⟨rfl, hno⟩
  · exact Or.inr ⟨r, len, if_neg (by omega), hg⟩

/-- What is kept, as a choice among the matches that are not empty. -/
theorem isBest_pos_of_selects {M : ℕ → ℕ → Prop} {rule : ℤ} {len : ℕ} (h : Selects M rule len) :
    IsBest (fun n r ↦ 0 < n ∧ M n r)
      (if rule < 0 ∨ len = 0 then none else some (rule.toNat, len)) := by
  rcases h.pos with ⟨hlen, hsel⟩ | ⟨hlen, hno⟩
  · have := h.nonneg_of_pos hlen
    have hbest := isBest_of_selects hsel
    rwa [if_neg (by omega)] at hbest ⊢
  · exact Or.inl ⟨if_pos (Or.inr hlen), hno⟩

/-- **An element with one candidate**: either that outranks all the others, or the best is the
best of the others. -/
theorem IsBest.cases_single {M : ℕ → ℕ → Prop} {k d : ℕ} {A : Prop} {o : Option (ℕ × ℕ)}
    (h : IsBest M o) (hk : ∀ n, M n k ↔ n = d ∧ A) :
    ((A ∧ ∀ n r, r ≠ k → M n r → cand n r < cand d k) ∧ o = some (k, d)) ∨
      (¬ (A ∧ ∀ n r, r ≠ k → M n r → cand n r < cand d k) ∧
        IsBest (fun n r ↦ r ≠ k ∧ M n r) o) := by
  by_cases hwin : A ∧ ∀ n r, r ≠ k → M n r → cand n r < cand d k
  · refine Or.inl ⟨hwin, ?_⟩
    obtain ⟨r, n, rfl, hM, hle⟩ := h.exists_eq ((hk d).2 ⟨rfl, hwin.1⟩)
    by_cases hr : r = k
    · subst hr
      obtain ⟨rfl, -⟩ := (hk n).1 hM
      rfl
    · exact absurd (hwin.2 n r hr hM) hle.not_gt
  · refine Or.inr ⟨hwin, ?_⟩
    rcases h with ⟨rfl, hno⟩ | ⟨r, n, rfl, hg⟩
    · exact Or.inl ⟨rfl, fun n r hM ↦ hno n r hM.2⟩
    · obtain ⟨hM, hmax⟩ := isGreatest_cand_iff.1 hg
      by_cases hr : r = k
      · subst hr
        obtain ⟨rfl, hA⟩ := (hk n).1 hM
        refine absurd ⟨hA, fun n' r' hr' hM' ↦ cand_lt_cand.2 ?_⟩ hwin
        rcases hmax n' r' hM' with hlt | ⟨heq, hle⟩
        · exact Or.inl hlt
        · exact Or.inr ⟨heq, lt_of_le_of_ne hle (Ne.symm hr')⟩
      · exact Or.inr ⟨r, n, rfl,
          isGreatest_cand_iff.2 ⟨⟨hr, hM⟩, fun n' r' hM' ↦ hmax n' r' hM'.2⟩⟩

theorem IsBest.unique {M : ℕ → ℕ → Prop} {o o' : Option (ℕ × ℕ)} (h : IsBest M o)
    (h' : IsBest M o') : o = o' :=
  (h.eq_iff h').2 ⟨fun n r hM ↦ ⟨n, r, hM, le_refl _⟩, fun n r hM ↦ ⟨n, r, hM, le_refl _⟩⟩

theorem IsBest.congr {M N : ℕ → ℕ → Prop} {o : Option (ℕ × ℕ)} (h : IsBest M o)
    (hMN : ∀ n r, M n r ↔ N n r) : IsBest N o := by
  obtain rfl : M = N := funext fun n ↦ funext fun r ↦ propext (hMN n r)
  exact h

end Munch
