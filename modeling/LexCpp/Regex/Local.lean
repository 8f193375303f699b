import LexCpp.Regex.Ends

/-!
# What the parser looks at

A method takes bytes off the front of the text and looks at a few more.  It is *local* if what it
does is settled by the bytes it takes and by what it looks at after them: before any text that
looks the same from there on, it takes the same bytes, gives the same result and reports the same.
-/

namespace LexCpp

/-! ## Texts that look the same -/

/-- The bytes that close a group, a bracket expression or a string.  Nothing that looks ahead looks
past one of them. -/
def isCloser (b : Byte) : Bool := b = chr ')' || b = chr ']' || b = chr '"'

/-- Texts that look the same to what looks ahead: up to a closing byte, or up to a `{` where the
other text has a `(`. -/
inductive Agree : List Byte → List Byte → Prop
  | refl (r : List Byte) : Agree r r
  | brace (r k : List Byte) : Agree (chr '{' :: r) (chr '(' :: k)
  | closer {e : Byte} (he : isCloser e = true) (r k : List Byte) : Agree (e :: r) (e :: k)
  | cons (b : Byte) {r k : List Byte} (h : Agree r k) : Agree (b :: r) (b :: k)

/-- The bytes past which texts that look the same do so. -/
def isOpenByte (b : Byte) : Bool := b != chr '{' && b != chr '(' && !isCloser b

namespace Agree

variable {r k : List Byte}

theorem append (u : List Byte) (h : Agree r k) : Agree (u ++ r) (u ++ k) := by
  induction u with
  | nil => exact h
  | cons b u ih => exact .cons b ih

theorem eq_nil (h : Agree [] k) : k = [] := by
  cases h
  rfl

theorem isEmpty_eq (h : Agree r k) : k.isEmpty = r.isEmpty := by
  cases h <;> rfl

/-- The next byte is the same, or it is a `{` for which the other text has a `(`. -/
theorem head_eq (h : Agree r k) : k.getD 0 0 = r.getD 0 0 ∨
    (r.getD 0 0 = chr '{' ∧ k.getD 0 0 = chr '(') := by
  cases h with
  | brace r k => exact Or.inr ⟨rfl, rfl⟩
  | refl | closer | cons => exact Or.inl rfl

/-- A test of the next byte that does not tell `{` from `(`. -/
theorem head_iff {p : Byte → Prop} (hp : p (chr '{') ↔ p (chr '(')) (h : Agree r k) :
    p (k.getD 0 0) ↔ p (r.getD 0 0) := by
  rcases h.head_eq with heq | ⟨hr, hk⟩
  · rw [heq]
  · rw [hr, hk, hp]

theorem head_test {p : Byte → Bool} (hp : p (chr '{') = p (chr '(')) (h : Agree r k) :
    p (k.getD 0 0) = p (r.getD 0 0) := by
  rcases h.head_eq with heq | ⟨hr, hk⟩
  · rw [heq]
  · rw [hr, hk, hp]

/-- Past a byte that is the same. -/
theorem of_cons {b : Byte} (hb : isOpenByte b = true) (h : Agree (b :: r) k) :
    ∃ k', k = b :: k' ∧ Agree r k' := by
  cases h with
  | refl => exact ⟨r, rfl, .refl r⟩
  | brace => exact absurd hb (by decide)
  | closer he =>
      rw [isOpenByte, he, Bool.not_true, Bool.and_false] at hb
      exact absurd hb Bool.false_ne_true
  | cons _ h => exact ⟨_, rfl, h⟩

theorem of_cons' {b : Byte} (hb : isOpenByte b = true) (h : Agree r (b :: k)) :
    ∃ r', r = b :: r' ∧ Agree r' k := by
  cases h with
  | refl => exact ⟨k, rfl, .refl k⟩
  | brace => exact absurd hb (by decide)
  | closer he =>
      rw [isOpenByte, he, Bool.not_true, Bool.and_false] at hb
      exact absurd hb Bool.false_ne_true
  | cons _ h => exact ⟨_, rfl, h⟩

theorem of_append {u : List Byte} (hu : ∀ b ∈ u, isOpenByte b = true) (h : Agree (u ++ r) k) :
    ∃ k', k = u ++ k' ∧ Agree r k' := by
  induction u generalizing k with
  | nil => exact ⟨k, rfl, h⟩
  | cons b u ih =>
      obtain ⟨k₁, rfl, h₁⟩ := h.of_cons (hu b List.mem_cons_self)
      obtain ⟨k', rfl, h'⟩ := ih (fun c hc ↦ hu c (List.mem_cons_of_mem b hc)) h₁
      exact ⟨k', rfl, h'⟩

theorem of_append' {u : List Byte} (hu : ∀ b ∈ u, isOpenByte b = true) (h : Agree r (u ++ k)) :
    ∃ r', r = u ++ r' ∧ Agree r' k := by
  induction u generalizing r with
  | nil => exact ⟨r, rfl, h⟩
  | cons b u ih =>
      obtain ⟨r₁, rfl, h₁⟩ := of_cons' (hu b List.mem_cons_self) h
      obtain ⟨r', rfl, h'⟩ := ih (fun c hc ↦ hu c (List.mem_cons_of_mem b hc)) h₁
      exact ⟨r', rfl, h'⟩

end Agree

/-! ## Local methods -/

namespace Parser

variable {α β : Type}

/-- What `x` does from a state, `y` does before every text that looks the same from where `x` stops.
A loop is given more turns than there are bytes. -/
def LocalAt (x : Parser α) (y : Nat → Parser α) (s : ParseState) : Prop :=
  ∀ a s', x s = some (a, s') → ∃ u ws, s.rest = u ++ s'.rest ∧ s'.diags = s.diags ++ ws ∧
    ∀ k, Agree s'.rest k → ∀ m d, (u ++ k).length < m → y m ⟨u ++ k, d⟩ = some (a, ⟨k, d ++ ws⟩)

/-- What `x` does, `y` does. -/
def Local (x : Parser α) (y : Nat → Parser α) : Prop := ∀ s, LocalAt x y s

namespace LocalAt

variable {x x' : Parser α} {y y' : Nat → Parser α} {s : ParseState}

/-- Taking `u`, whatever comes after it. -/
theorem of_eval {u r : List Byte} {d w : List Diag} (a : α) (hx : x ⟨u ++ r, d⟩ = some (a, ⟨r, d ++ w⟩))
    (hy : ∀ k, Agree r k → ∀ m d, (u ++ k).length < m → y m ⟨u ++ k, d⟩ = some (a, ⟨k, d ++ w⟩)) :
    LocalAt x y ⟨u ++ r, d⟩ := by
  intro a' s' h
  obtain ⟨rfl, rfl⟩ := Prod.mk.inj (Option.some.inj (hx.symm.trans h))
  exact ⟨u, w, rfl, rfl, hy⟩

theorem bind {z : Parser β} {v : Nat → Parser β} {f : β → Parser α} {g : Nat → β → Parser α}
    (hz : LocalAt z v s) (hf : ∀ b s', z s = some (b, s') → LocalAt (f b) (fun m ↦ g m b) s') :
    LocalAt (z >>= f) (fun m ↦ v m >>= g m) s := by
  intro a s' h
  obtain ⟨b, s₁, h₁, h₂⟩ := exists_of_eval_bind h
  obtain ⟨u₁, ws₁, hu₁, hws₁, hk₁⟩ := hz b s₁ h₁
  obtain ⟨u₂, ws₂, hu₂, hws₂, hk₂⟩ := hf b s₁ h₁ a s' h₂
  refine ⟨u₁ ++ u₂, ws₁ ++ ws₂, ?_, ?_, fun k hk m d hm ↦ ?_⟩
  · rw [hu₁, hu₂, List.append_assoc]
  · rw [hws₂, hws₁, List.append_assoc]
  · rw [List.append_assoc] at hm ⊢
    have hagree : Agree s₁.rest (u₂ ++ k) := hu₂ ▸ hk.append u₂
    change (v m >>= g m) _ = _
    rw [eval_bind_of (hk₁ (u₂ ++ k) hagree m d hm), ← List.append_assoc d]
    exact hk₂ k hk m (d ++ ws₁) (lt_of_le_of_lt (List.suffix_append u₁ _).length_le hm)

/-- A test of the text ahead that texts which look the same pass alike. -/
theorem look {z : Parser α} {v : Nat → Parser α} {c : List Byte → Prop} [DecidablePred c]
    (hc : ∀ r k, Agree r k → (c k ↔ c r)) (hx : c s.rest → LocalAt x y s)
    (hx' : ¬ c s.rest → LocalAt x' y' s) (hz : z s = if c s.rest then x s else x' s)
    (hv : ∀ m s, v (m + 1) s = if c s.rest then y (m + 1) s else y' (m + 1) s) : LocalAt z v s := by
  intro a s' h
  rw [hz] at h
  by_cases hs : c s.rest
  · rw [if_pos hs] at h
    obtain ⟨u, ws, hu, hws, hk⟩ := hx hs a s' h
    refine ⟨u, ws, hu, hws, fun k hagree m d hm ↦ ?_⟩
    obtain ⟨m, rfl⟩ := Nat.exists_eq_add_one_of_ne_zero (Nat.ne_zero_of_lt hm)
    rw [hv, if_pos ((hc _ _ (hu ▸ hagree.append u)).2 hs)]
    exact hk k hagree (m + 1) d hm
  · rw [if_neg hs] at h
    obtain ⟨u, ws, hu, hws, hk⟩ := hx' hs a s' h
    refine ⟨u, ws, hu, hws, fun k hagree m d hm ↦ ?_⟩
    obtain ⟨m, rfl⟩ := Nat.exists_eq_add_one_of_ne_zero (Nat.ne_zero_of_lt hm)
    rw [hv, if_neg fun hs' ↦ hs ((hc _ _ (hu ▸ hagree.append u)).1 hs')]
    exact hk k hagree (m + 1) d hm

/-- The next byte, where it is not a `{`. -/
theorem peek {f : Byte → Parser α} {g : Nat → Byte → Parser α} (hs : s.rest.getD 0 0 ≠ chr '{')
    (hf : LocalAt (f (s.rest.getD 0 0)) (fun m ↦ g m (s.rest.getD 0 0)) s) :
    LocalAt (Parser.peek >>= f) (fun m ↦ Parser.peek >>= g m) s := by
  intro a s' h
  rw [eval_bind_of (eval_peek s)] at h
  obtain ⟨u, ws, hu, hws, hk⟩ := hf a s' h
  refine ⟨u, ws, hu, hws, fun k hagree m d hm ↦ ?_⟩
  have hhead : (u ++ k).getD 0 0 = s.rest.getD 0 0 :=
    (hu ▸ hagree.append u : Agree s.rest (u ++ k)).head_eq.resolve_right fun h ↦ hs h.1
  change (Parser.peek >>= g m) _ = _
  rw [eval_bind_of (eval_peek _), hhead]
  exact hk k hagree m d hm

/-- A turn of a loop, which takes something. -/
theorem turn {z v : Parser β} {f : β → Parser α} {g : Nat → β → Parser α} (hz : LocalAt z (fun _ ↦ v) s)
    (htakes : ∀ b s', z s = some (b, s') → s'.rest ≠ s.rest)
    (hf : ∀ b s', z s = some (b, s') → LocalAt (f b) (fun m ↦ g m b) s') :
    LocalAt (z >>= f) (fun m ↦ v >>= g (m - 1)) s := by
  intro a s' h
  obtain ⟨b, s₁, h₁, h₂⟩ := exists_of_eval_bind h
  obtain ⟨u₁, ws₁, hu₁, hws₁, hk₁⟩ := hz b s₁ h₁
  obtain ⟨u₂, ws₂, hu₂, hws₂, hk₂⟩ := hf b s₁ h₁ a s' h₂
  have hne : u₁ ≠ [] := fun hnil ↦ htakes b s₁ h₁ (by rw [hu₁, hnil, List.nil_append])
  refine ⟨u₁ ++ u₂, ws₁ ++ ws₂, ?_, ?_, fun k hk m d hm ↦ ?_⟩
  · rw [hu₁, hu₂, List.append_assoc]
  · rw [hws₂, hws₁, List.append_assoc]
  · rw [List.append_assoc] at hm ⊢
    obtain ⟨m, rfl⟩ := Nat.exists_eq_add_one_of_ne_zero (Nat.ne_zero_of_lt hm)
    have hpos := List.length_pos_of_ne_nil hne
    rw [List.length_append] at hm
    have hagree : Agree s₁.rest (u₂ ++ k) := hu₂ ▸ hk.append u₂
    change (v >>= g m) _ = _
    rw [eval_bind_of (hk₁ (u₂ ++ k) hagree _ d (Nat.lt_succ_self _)), ← List.append_assoc d]
    exact hk₂ k hk m (d ++ ws₁) (by omega)

end LocalAt

namespace Local

variable {x x' : Parser α} {y y' : Nat → Parser α}

theorem none : Local (outOfFuel : Parser α) y :=
  fun _ _ _ h ↦ absurd h (Option.some_ne_none _).symm

theorem pure (a : α) : Local (pure a) fun _ ↦ pure a := by
  rintro ⟨r, d⟩
  refine LocalAt.of_eval (u := []) (w := []) a ?_ fun k _ m d _ ↦ ?_
  · rw [List.append_nil]
    rfl
  · rw [List.append_nil]
    rfl

theorem bind {z : Parser β} {v : Nat → Parser β} {f : β → Parser α} {g : Nat → β → Parser α}
    (hz : Local z v) (hf : ∀ b, Local (f b) fun m ↦ g m b) : Local (z >>= f) fun m ↦ v m >>= g m :=
  fun s ↦ (hz s).bind fun b s' _ ↦ hf b s'

/-- A test of the text ahead. -/
theorem look {c : List Byte → Prop} [DecidablePred c] (hc : ∀ r k, Agree r k → (c k ↔ c r))
    (hx : Local x y) (hx' : Local x' y') :
    Local (fun s ↦ if c s.rest then x s else x' s) fun m s ↦ if c s.rest then y m s else y' m s :=
  fun s ↦ LocalAt.look hc (fun _ ↦ hx s) (fun _ ↦ hx' s) rfl fun _ _ ↦ rfl

/-- A branch on the next byte. -/
theorem peek_ite {p : Byte → Prop} [DecidablePred p] (hp : p (chr '{') ↔ p (chr '('))
    (hx : Local x y) (hx' : Local x' y') :
    Local (peek >>= fun c ↦ if p c then x else x') fun m ↦ peek >>= fun c ↦
      if p c then y m else y' m := by
  refine fun s ↦ LocalAt.look (c := fun r ↦ p (r.getD 0 0)) (fun _ _ h ↦ h.head_iff hp)
    (fun _ ↦ hx s) (fun _ ↦ hx' s) ?_ fun m s ↦ ?_
  · rw [eval_bind_of (eval_peek s), eval_ite]
  · rw [eval_bind_of (eval_peek s), eval_ite]

/-- A branch on the next byte which takes it if it is a `{`. -/
theorem peek {f : Byte → Parser α} {g : Nat → Byte → Parser α} (hf : ∀ c, Local (f c) fun m ↦ g m c)
    (hbrace : ∀ s a s', f (chr '{') s = some (a, s') → s.rest = chr '{' :: s.rest.tail →
      s'.rest ≠ s.rest) :
    Local (peek >>= f) fun m ↦ Parser.peek >>= g m := by
  intro s a s' h
  rw [eval_bind_of (eval_peek s)] at h
  obtain ⟨u, ws, hu, hws, hk⟩ := hf _ s a s' h
  refine ⟨u, ws, hu, hws, fun k hagree m d hm ↦ ?_⟩
  change (Parser.peek >>= g m) _ = _
  rw [eval_bind_of (eval_peek _)]
  have hhead : (u ++ k).getD 0 0 = s.rest.getD 0 0 := by
    rcases (hu ▸ hagree.append u : Agree s.rest (u ++ k)).head_eq with heq | ⟨hr, hk'⟩
    · exact heq
    · rw [hr] at h
      cases u with
      | cons b u => rw [hu]; rfl
      | nil =>
          have hrest : s.rest = chr '{' :: s.rest.tail := by
            cases hs : s.rest with
            | nil => rw [hs] at hr; exact absurd hr (by decide)
            | cons b r => rw [hs] at hr; rw [← show b = chr '{' from hr]; rfl
          exact absurd hu.symm (hbrace s a s' h hrest)
  rw [hhead]
  exact hk k hagree m d hm

theorem skip : Local skip fun _ ↦ Parser.skip := by
  rintro ⟨r, d⟩
  cases r with
  | nil =>
      refine LocalAt.of_eval (u := []) (w := []) () (by simp) fun k hk m d _ ↦ ?_
      obtain rfl := hk.eq_nil
      simp
  | cons b r => exact LocalAt.of_eval (u := [b]) (w := []) () (by simp) fun k _ m d _ ↦ by simp

theorem report (d : Diag) : Local (report d) fun _ ↦ report d := by
  rintro ⟨r, ds⟩
  exact LocalAt.of_eval (u := []) (w := [d]) () rfl fun k _ m d' _ ↦ rfl

/-- The next byte, taken. -/
theorem advance : Local advance fun _ ↦ advance := by
  rintro ⟨r, d⟩
  cases r with
  | nil =>
      refine LocalAt.of_eval (u := []) (w := []) 0 (by simp) fun k hk m d _ ↦ ?_
      obtain rfl := hk.eq_nil
      simp
  | cons b r => exact LocalAt.of_eval (u := [b]) (w := []) b (by simp) fun k _ m d _ ↦ by simp

theorem accept {c : Char} (hc : chr '{' = chr c ↔ chr '(' = chr c) :
    Local (accept c) fun _ ↦ accept c :=
  peek_ite hc (skip.bind fun _ ↦ pure true) (pure false)

/-- The same text read with other diagnostics before. -/
theorem rerun {x' : Parser α} (h : Local x fun _ ↦ x') {s s' : ParseState} {a : α}
    (hrun : x s = some (a, s')) (d : List Diag) :
    ∃ ws, s'.diags = s.diags ++ ws ∧ x' ⟨s.rest, d⟩ = some (a, ⟨s'.rest, d ++ ws⟩) := by
  obtain ⟨u, ws, hu, hws, hk⟩ := h s a s' hrun
  have heval := hk s'.rest (.refl _) _ d (Nat.lt_succ_self _)
  rw [← hu] at heval
  exact ⟨ws, hws, heval⟩

/-- A loop with as many turns as there are bytes, and one more. -/
theorem loop {X : Nat → Parser α} (hX : ∀ n, Local (X n) X) :
    Local (remaining >>= fun n ↦ X (n + 1)) fun _ ↦ remaining >>= fun n ↦ X (n + 1) := by
  intro s a s' h
  rw [eval_bind_of (eval_remaining s)] at h
  obtain ⟨u, ws, hu, hws, hk⟩ := hX _ s a s' h
  exact ⟨u, ws, hu, hws, fun k hagree _ d _ ↦ hk k hagree _ d (Nat.lt_succ_self _)⟩

theorem ite {c : Prop} [Decidable c] (hx : c → Local x y) (hx' : ¬ c → Local x' y') :
    Local (if c then x else x') fun m ↦ if c then y m else y' m := by
  split_ifs with hc
  · exact hx hc
  · exact hx' hc

/-! ### Bytes -/

theorem readOctal (n v : Nat) : Local (readOctal n v) fun _ ↦ readOctal n v := by
  induction n generalizing v with
  | zero => exact pure v
  | succ n ih =>
      refine peek_ite (p := fun c ↦ (!isOctal c) = true) (by decide) (pure v) ?_
      exact advance.bind fun d ↦ ih _

theorem readHex (n v : Nat) : Local (readHex n v) fun _ ↦ readHex n v := by
  induction n generalizing v with
  | zero => exact pure v
  | succ n ih =>
      refine peek_ite (p := fun c ↦ (!isXdigit c) = true) (by decide) (pure v) ?_
      exact advance.bind fun d ↦ ih _

theorem readEscapeByte : Local readEscapeByte fun _ ↦ readEscapeByte := by
  refine skip.bind fun _ ↦ peek (fun c ↦ ite (fun _ ↦ pure 0) fun _ ↦ ?_) fun s a s' h hs ↦ ?_
  · cases controlEscapes.find? fun e ↦ chr e.1 = c with
    | some e => exact skip.bind fun _ ↦ pure _
    | none =>
        exact ite (fun _ ↦ (readOctal 3 0).bind fun _ ↦ pure _) fun _ ↦
          ite (fun _ ↦ skip.bind fun _ ↦ (readHex 2 0).bind fun _ ↦ pure _) fun _ ↦ skip.bind fun _ ↦ pure _
  · have hfind : controlEscapes.find? (fun e ↦ chr e.1 = chr '{') = Option.none := by decide
    rw [if_neg (by decide), hfind] at h
    simp only at h
    rw [if_neg (by decide), if_neg (by decide), eval_bind_of (eval_skip s)] at h
    obtain ⟨-, rfl⟩ := Prod.mk.inj (Option.some.inj h)
    rw [hs]
    exact (List.cons_ne_self _ _).symm

theorem readClassByte : Local readClassByte fun _ ↦ readClassByte :=
  peek_ite (by decide) readEscapeByte advance

/-- A run of bytes all of which texts that look the same have alike. -/
theorem exists_readWhile {p : Byte → Bool} (hp : ∀ b, p b = true → isOpenByte b = true) (n : Nat)
    (r : List Byte) : ∃ w r₁, r = w ++ r₁ ∧ (∀ b ∈ w, isOpenByte b = true) ∧
      ∀ k, Agree r₁ k → ∀ d, readWhile p n ⟨w ++ k, d⟩ = some (w, ⟨k, d⟩) := by
  have hbrace : p (chr '{') = p (chr '(') := by
    have hfalse : ∀ b, isOpenByte b = false → p b = false := fun b hb ↦ by
      by_contra hpb
      rw [hp b (Bool.eq_true_of_not_eq_false hpb)] at hb
      exact Bool.noConfusion hb
    rw [hfalse _ (by decide), hfalse _ (by decide)]
  induction n generalizing r with
  | zero => exact ⟨[], r, rfl, fun b hb ↦ absurd hb List.not_mem_nil, fun k _ d ↦ rfl⟩
  | succ n ih =>
      cases r with
      | nil =>
          refine ⟨[], [], rfl, fun b hb ↦ absurd hb List.not_mem_nil, fun k hk d ↦ ?_⟩
          obtain rfl := hk.eq_nil
          rfl
      | cons b r =>
          by_cases hb : p b = true
          · obtain ⟨w, r₁, rfl, hw, hread⟩ := ih r
            refine ⟨b :: w, r₁, rfl, ?_, fun k hk d ↦ ?_⟩
            · rintro c (_ | ⟨_, hc⟩)
              · exact hp b hb
              · exact hw c hc
            · simp [readWhile, hb, hread k hk d]
          · refine ⟨[], b :: r, rfl, fun b hb ↦ absurd hb List.not_mem_nil, fun k hk d ↦ ?_⟩
            have hstop : p (k.getD 0 0) = false :=
              (hk.head_test hbrace).trans (Bool.eq_false_of_not_eq_true hb)
            simp only [List.getD_eq_getElem?_getD] at hstop
            simp [readWhile, hstop]

end Local

/-! ### Bracket expressions -/

/-- A name in a POSIX class, and what comes of it. -/
theorem eval_tryPosixClass (env : ParseEnv) {w k : List Byte} {d : List Diag}
    (hread : readWhile isAlpha 16 ⟨w ++ k, d⟩ = some (w, ⟨k, d⟩)) :
    tryPosixClass env ⟨chr '[' :: chr ':' :: (w ++ k), d⟩ =
      if k.getD 0 0 ≠ chr ':' ∨ k.getD 1 0 ≠ chr ']' then
        some (none, ⟨chr '[' :: chr ':' :: (w ++ k), d⟩)
      else
        match posixBytes w env.ci with
        | some bs => some (some bs, ⟨k.tail.tail, d⟩)
        | none => some (none, ⟨chr '[' :: chr ':' :: (w ++ k), d ++ [⟨.warning, env.loc,
            "unrecognised POSIX class `[:" ++ text w ++ ":]`; treating as literal characters"⟩]⟩) := by
  unfold tryPosixClass
  rw [eval_bind_of (eval_save _), eval_bind_of (eval_skip _), eval_bind_of (eval_skip _)]
  refine (eval_bind_of hread).trans ?_
  rw [eval_bind_of (eval_peek _), eval_bind_of (eval_peekAt _ 1), eval_ite]
  split_ifs
  · rfl
  · rw [eval_bind_of (eval_skip _), eval_bind_of (eval_skip _)]
    cases posixBytes w env.ci <;> rfl

/-- The closing `:]` of a POSIX class is seen alike. -/
theorem closes_posix_iff {r k : List Byte} (h : Agree r k) :
    (k.getD 0 0 ≠ chr ':' ∨ k.getD 1 0 ≠ chr ']') ↔ (r.getD 0 0 ≠ chr ':' ∨ r.getD 1 0 ≠ chr ']') := by
  have hhead : k.getD 0 0 = chr ':' ↔ r.getD 0 0 = chr ':' :=
    h.head_iff (p := fun b ↦ b = chr ':') (by decide)
  by_cases hr : r.getD 0 0 = chr ':'
  · cases r with
    | nil => exact absurd hr (by decide)
    | cons b r =>
        obtain rfl : b = chr ':' := hr
        obtain ⟨k', rfl, h'⟩ := h.of_cons (by decide)
        have hnext : k'.getD 0 0 = chr ']' ↔ r.getD 0 0 = chr ']' :=
          h'.head_iff (p := fun b ↦ b = chr ']') (by decide)
        simp only [List.getD_cons_zero, List.getD_cons_succ, ne_eq, hnext]
  · exact iff_of_true (Or.inl fun hk ↦ hr (hhead.1 hk)) (Or.inl hr)

theorem tryPosixClass_local (env : ParseEnv) {s : ParseState}
    (hs : s.rest.getD 0 0 = chr '[' ∧ s.rest.getD 1 0 = chr ':') :
    LocalAt (tryPosixClass env) (fun _ ↦ tryPosixClass env) s := by
  obtain ⟨rest, d⟩ := s
  obtain ⟨r, rfl⟩ : ∃ r, rest = chr '[' :: chr ':' :: r := by
    match rest, hs with
    | b :: c :: r, ⟨h₁, h₂⟩ => exact ⟨r, by rw [← show b = chr '[' from h₁, ← show c = chr ':' from h₂]⟩
  obtain ⟨w, r, rfl, hw, hread⟩ := Local.exists_readWhile (p := isAlpha) (by decide +kernel) 16 r
  have hback : ∀ {k}, Agree (chr '[' :: chr ':' :: (w ++ r)) k → ∃ k₁,
      k = chr '[' :: chr ':' :: (w ++ k₁) ∧ Agree r k₁ := by
    intro k hk
    obtain ⟨k₁, rfl, h₁⟩ := hk.of_cons (by decide)
    obtain ⟨k₂, rfl, h₂⟩ := h₁.of_cons (by decide)
    obtain ⟨k₃, rfl, h₃⟩ := h₂.of_append hw
    exact ⟨k₃, rfl, h₃⟩
  intro a s' h
  rw [eval_tryPosixClass env (hread r (.refl r) d)] at h
  by_cases hclose : r.getD 0 0 ≠ chr ':' ∨ r.getD 1 0 ≠ chr ']'
  · rw [if_pos hclose] at h
    obtain ⟨rfl, rfl⟩ := Prod.mk.inj (Option.some.inj h)
    refine ⟨[], [], rfl, (List.append_nil _).symm, fun k hk m d _ ↦ ?_⟩
    obtain ⟨k₁, rfl, hk₁⟩ := hback hk
    rw [List.append_nil]
    change tryPosixClass env ⟨chr '[' :: chr ':' :: (w ++ k₁), d⟩ = _
    rw [eval_tryPosixClass env (hread k₁ hk₁ d), if_pos ((closes_posix_iff hk₁).2 hclose)]
  · rw [if_neg hclose] at h
    cases hbytes : posixBytes w env.ci with
    | none =>
        rw [hbytes] at h
        obtain ⟨rfl, rfl⟩ := Prod.mk.inj (Option.some.inj h)
        refine ⟨[], _, rfl, rfl, fun k hk m d _ ↦ ?_⟩
        obtain ⟨k₁, rfl, hk₁⟩ := hback hk
        change tryPosixClass env ⟨chr '[' :: chr ':' :: (w ++ k₁), d⟩ = _
        rw [eval_tryPosixClass env (hread k₁ hk₁ d), if_neg fun h ↦ hclose ((closes_posix_iff hk₁).1 h),
          hbytes]
    | some bs =>
        rw [hbytes] at h
        obtain ⟨rfl, rfl⟩ := Prod.mk.inj (Option.some.inj h)
        obtain ⟨r, rfl⟩ : ∃ r', r = chr ':' :: chr ']' :: r' := by
          rw [not_or, not_not, not_not] at hclose
          match r, hclose with
          | b :: c :: r, ⟨h₁, h₂⟩ =>
              exact ⟨r, by rw [← show b = chr ':' from h₁, ← show c = chr ']' from h₂]⟩
        refine ⟨chr '[' :: chr ':' :: (w ++ [chr ':', chr ']']), [], ?_, (List.append_nil _).symm,
          fun k hk m d _ ↦ ?_⟩
        · simp
        · have heval := eval_tryPosixClass env
            (hread (chr ':' :: chr ']' :: k) (.cons _ (.cons _ hk)) d)
          rw [if_neg (by simp), hbytes] at heval
          simpa using heval

/-- A `-` that makes a range. -/
def RangeAhead (r : List Byte) : Prop :=
  r.getD 0 0 = chr '-' ∧ r.getD 1 0 ≠ chr ']' ∧ r.getD 1 0 ≠ 0

instance (r : List Byte) : Decidable (RangeAhead r) :=
  inferInstanceAs (Decidable (r.getD 0 0 = chr '-' ∧ r.getD 1 0 ≠ chr ']' ∧ r.getD 1 0 ≠ 0))

/-- The `[:` of a POSIX class. -/
def PosixAhead (r : List Byte) : Prop := r.getD 0 0 = chr '[' ∧ r.getD 1 0 = chr ':'

instance (r : List Byte) : Decidable (PosixAhead r) :=
  inferInstanceAs (Decidable (r.getD 0 0 = chr '[' ∧ r.getD 1 0 = chr ':'))

/-- A test of the byte after `c`. -/
theorem second_iff {r k : List Byte} {c : Byte} (hc : isOpenByte c = true) (hc₀ : c ≠ 0)
    {p : Byte → Prop} (hp : p (chr '{') ↔ p (chr '(')) (h : Agree r k) :
    (k.getD 0 0 = c ∧ p (k.getD 1 0)) ↔ (r.getD 0 0 = c ∧ p (r.getD 1 0)) := by
  have hne : ∀ b : Byte, isOpenByte b = false → b ≠ c := fun b hb heq ↦ by
    rw [heq, hc] at hb
    exact Bool.noConfusion hb
  have hhead : k.getD 0 0 = c ↔ r.getD 0 0 = c :=
    h.head_iff (p := fun b ↦ b = c) (iff_of_false (hne _ (by decide)) (hne _ (by decide)))
  by_cases hr : r.getD 0 0 = c
  · cases r with
    | nil => exact absurd hr.symm hc₀
    | cons b r =>
        obtain rfl : b = c := hr
        obtain ⟨k', rfl, h'⟩ := h.of_cons hc
        exact and_congr Iff.rfl (h'.head_iff hp)
  · exact iff_of_false (fun hk ↦ hr (hhead.1 hk.1)) fun hr' ↦ hr hr'.1

theorem byteItem_local (env : ParseEnv) (cls : ByteSet) :
    Local (byteItem env cls) fun _ ↦ byteItem env cls := by
  refine Local.readClassByte.bind fun a s ↦ ?_
  have hrange : Local (do skip; let b ← readClassByte; return cls.addRangeCi a b env.ci) fun _ ↦ (do
      skip; let b ← readClassByte; return cls.addRangeCi a b env.ci) :=
    Local.skip.bind fun _ ↦ Local.readClassByte.bind fun b ↦ Local.pure (cls.addRangeCi a b env.ci)
  refine LocalAt.look (c := RangeAhead) (fun r k h ↦ ?_) (fun _ ↦ hrange s)
    (fun _ ↦ Local.pure (cls.addByteCi a env.ci) s) ?_ fun _ s ↦ ?_
  · exact second_iff (p := fun b ↦ b ≠ chr ']' ∧ b ≠ 0) (by decide) (by decide) (by decide) h
  · rw [eval_bind_of (eval_peek s), eval_bind_of (eval_peekAt s 1), eval_bind_of (eval_peekAt s 1),
      eval_ite]
    rfl
  · rw [eval_bind_of (eval_peek s), eval_bind_of (eval_peekAt s 1), eval_bind_of (eval_peekAt s 1),
      eval_ite]
    rfl

theorem classItem_local (env : ParseEnv) (cls : ByteSet) :
    Local (classItem env cls) fun _ ↦ classItem env cls := by
  have hitem : ∀ o : Option (List Byte), Local (match o with
      | some bs => pure (cls.addAll bs)
      | none => byteItem env cls) fun _ ↦ (match o with
      | some bs => pure (cls.addAll bs)
      | none => byteItem env cls) := by
    intro o
    cases o with
    | some bs => exact .pure _
    | none => exact byteItem_local env cls
  intro s
  refine LocalAt.look (c := PosixAhead) (fun r k h ↦ ?_)
    (fun hs ↦ (tryPosixClass_local env hs).bind fun o s' _ ↦ hitem o s')
    (fun _ ↦ (Local.pure none).bind hitem s) ?_ fun _ s ↦ ?_
  · exact second_iff (p := fun b ↦ b = chr ':') (by decide) (by decide) (by decide) h
  · unfold classItem
    rw [eval_bind_of (eval_peek s), eval_bind_of (eval_peekAt s 1), eval_ite]
    rfl
  · unfold classItem
    rw [eval_bind_of (eval_peek s), eval_bind_of (eval_peekAt s 1), eval_ite]
    rfl

theorem classStops_eq {first : Bool} {r k : List Byte} (h : Agree r k) :
    classStops first k = classStops first r := by
  have hhead : (k.getD 0 0 != chr ']') = (r.getD 0 0 != chr ']') :=
    h.head_test (p := fun b ↦ b != chr ']') (by decide)
  rw [classStops, classStops, h.isEmpty_eq, hhead]

/-- What takes something leaves another text, unless there was nothing. -/
theorem Takes.rest_ne {x : Parser α} {s : ParseState} (h : Takes x s) (hs : s.rest ≠ []) :
    ∀ a s', x s = some (a, s') → s'.rest ≠ s.rest := by
  intro a s' hrun heq
  have hlen := Returns.ensures h a s' hrun
  rw [heq] at hlen
  exact absurd hlen (Nat.not_le_of_lt (Nat.sub_lt (List.length_pos_of_ne_nil hs) Nat.one_pos))

theorem classLoop_local (env : ParseEnv) (n : Nat) (first : Bool) (cls : ByteSet) :
    Local (classLoop env n first cls) fun m ↦ classLoop env m first cls := by
  induction n generalizing first cls with
  | zero => exact .none
  | succ n ih =>
      intro s
      have hturn : ¬ classStops first s.rest = true → LocalAt (classItem env cls >>= classLoop env n false)
          (fun m ↦ classItem env cls >>= classLoop env (m - 1) false) s := by
        intro hs
        have hne : s.rest ≠ [] := fun hnil ↦ hs (by rw [hnil]; rfl)
        exact (classItem_local env cls s).turn ((Ends.classItem env cls s).rest_ne hne)
          fun cls' s' _ ↦ ih false cls' s'
      exact LocalAt.look (c := fun r ↦ classStops first r = true) (fun r k h ↦ by rw [classStops_eq h])
        (fun _ ↦ Local.pure cls s) hturn (classLoop_succ env n first cls s)
        fun m s ↦ classLoop_succ env m first cls s

/-- The closing bracket. -/
def closeClass (env : ParseEnv) (neg : Bool) (cls : ByteSet) : Parser Node := do
  if (← peek) ≠ chr ']' then
    report ⟨.error, env.loc, "unterminated character class"⟩
    return .cls cls
  skip
  return .cls (if neg then cls.inverse else cls)

theorem closeClass_local (env : ParseEnv) (neg : Bool) (cls : ByteSet) :
    Local (closeClass env neg cls) fun _ ↦ closeClass env neg cls := by
  refine Local.peek_ite (p := fun c ↦ c ≠ chr ']') (by decide) ?_ ?_
  · exact (Local.report _).bind fun _ ↦ .pure _
  · exact Local.skip.bind fun _ ↦ .pure _

theorem parseClass_local (env : ParseEnv) : Local (parseClass env) fun _ ↦ parseClass env :=
  Local.skip.bind fun _ ↦ (Local.accept (by decide)).bind fun neg ↦
    Local.loop (X := fun n ↦ classLoop env n true {} >>= closeClass env neg) fun n ↦
      (classLoop_local env n true {}).bind fun cls ↦ closeClass_local env neg cls

/-! ### Strings -/

/-- Where a string ends. -/
def quotedStops (r : List Byte) : Bool := r.isEmpty || r.getD 0 0 = chr '"'

theorem quotedStops_eq {r k : List Byte} (h : Agree r k) : quotedStops k = quotedStops r := by
  have hhead : k.getD 0 0 = chr '"' ↔ r.getD 0 0 = chr '"' :=
    h.head_iff (p := fun b ↦ b = chr '"') (by decide)
  rw [quotedStops, quotedStops, h.isEmpty_eq, decide_eq_decide.2 hhead]

theorem quotedLoop_succ (env : ParseEnv) (n : Nat) (acc : Option Node) (s : ParseState) :
    quotedLoop env (n + 1) acc s =
      if quotedStops s.rest = true then some (acc, s)
      else (readClassByte >>= fun b ↦ quotedLoop env n (some (concat acc (litNode b env.ci)))) s := by
  rw [quotedLoop, eval_bind_of (eval_atEnd s), eval_bind_of (eval_peek s), eval_ite]
  rfl

theorem quotedLoop_local (env : ParseEnv) (n : Nat) (acc : Option Node) :
    Local (quotedLoop env n acc) fun m ↦ quotedLoop env m acc := by
  induction n generalizing acc with
  | zero => exact .none
  | succ n ih =>
      intro s
      have hturn : ¬ quotedStops s.rest = true → LocalAt
          (readClassByte >>= fun b ↦ quotedLoop env n (some (concat acc (litNode b env.ci))))
          (fun m ↦ readClassByte >>= fun b ↦ quotedLoop env (m - 1) (some (concat acc (litNode b env.ci))))
          s := by
        intro hs
        have hne : s.rest ≠ [] := fun hnil ↦ hs (by rw [hnil]; rfl)
        exact (Local.readClassByte s).turn
          (g := fun m b ↦ quotedLoop env m (some (concat acc (litNode b env.ci))))
          ((Ends.readClassByte s).rest_ne hne) fun b s' _ ↦ ih _ s'
      exact LocalAt.look (c := fun r ↦ quotedStops r = true) (fun r k h ↦ by rw [quotedStops_eq h])
        (fun _ ↦ Local.pure acc s) hturn (quotedLoop_succ env n acc s)
        fun m s ↦ quotedLoop_succ env m acc s

/-- The closing quote. -/
def closeQuoted (env : ParseEnv) (acc : Option Node) : Parser Node := do
  if (← peek) ≠ chr '"' then
    report ⟨.error, env.loc, "unterminated quoted string in regex"⟩
    return acc.getD .empty
  skip
  return acc.getD .empty

theorem closeQuoted_local (env : ParseEnv) (acc : Option Node) :
    Local (closeQuoted env acc) fun _ ↦ closeQuoted env acc := by
  refine Local.peek_ite (p := fun c ↦ c ≠ chr '"') (by decide) ?_ ?_
  · exact (Local.report _).bind fun _ ↦ .pure _
  · exact Local.skip.bind fun _ ↦ .pure _

theorem parseQuoted_local (env : ParseEnv) : Local (parseQuoted env) fun _ ↦ parseQuoted env :=
  Local.skip.bind fun _ ↦ Local.loop (X := fun n ↦ quotedLoop env n none >>= closeQuoted env) fun n ↦
    (quotedLoop_local env n none).bind fun acc ↦ closeQuoted_local env acc

theorem parseEscapeAtom_local (env : ParseEnv) : Local (parseEscapeAtom env) fun _ ↦ parseEscapeAtom env :=
  Local.readEscapeByte.bind fun _ ↦ .pure _

/-! ### Operators -/

/-- The operator after an operand. -/
def parseOperator (p : Node) : Parser (Option Node) := do
  let c ← peek
  if c = chr '*' then
    skip
    return some (.star p)
  else if c = chr '+' then
    skip
    return some (.plus p)
  else if c = chr '?' then
    skip
    return some (.question p)
  else if c = chr '{' ∧ isDigit (← peekAt 1) then return some (← parseRepeat p)
  else return some p

theorem parsePostfix_eq (rec : ParseEnv → Parser Node) (env : ParseEnv) :
    parsePostfix rec env = parsePrimary rec env >>= fun o ↦
      match o with
      | none => pure none
      | some p => parseOperator p := rfl

theorem isOpenByte_of_isDigit {b : Byte} (hb : isDigit b = true) : isOpenByte b = true := by
  revert b
  decide +kernel

/-- Digits, commas and a closing brace. -/
theorem Bounds.forall_mem {p : Byte → Prop} (hdigit : ∀ c, isDigit c = true → p c) (hcomma : p (chr ','))
    (hclose : p (chr '}')) {b : List Byte} {lo hi : Nat} (h : Bounds b lo hi) :
    ∀ c ∈ b ++ [chr '}'], p c := by
  intro c hc
  rw [List.mem_append, List.mem_singleton] at hc
  rcases hc with hc | rfl
  · cases h with
    | exactly _ _ hds => exact hdigit c (hds c hc)
    | atLeast ds _ hds =>
        rw [List.mem_append, List.mem_singleton] at hc
        rcases hc with hc | rfl
        · exact hdigit c (hds c hc)
        · exact hcomma
    | between ds es _ hds _ hes =>
        rw [List.mem_append, List.mem_cons] at hc
        rcases hc with hc | rfl | hc
        · exact hdigit c (hds c hc)
        · exact hcomma
        · exact hdigit c (hes c hc)
  · exact hclose

theorem Bounds.isOpenByte {b : List Byte} {lo hi : Nat} (h : Bounds b lo hi) :
    ∀ c ∈ b ++ [chr '}'], isOpenByte c = true :=
  h.forall_mem (fun _ hc ↦ isOpenByte_of_isDigit hc) (by decide) (by decide)

/-- An opening brace and a digit. -/
def RepeatAhead (r : List Byte) : Prop := r.getD 0 0 = chr '{' ∧ isDigit (r.getD 1 0) = true

instance (r : List Byte) : Decidable (RepeatAhead r) :=
  inferInstanceAs (Decidable (r.getD 0 0 = chr '{' ∧ isDigit (r.getD 1 0) = true))

theorem Agree.repeatAhead {r k : List Byte} (h : Agree r k) (hk : RepeatAhead k) :
    ∃ r' k', r = chr '{' :: r' ∧ k = chr '{' :: k' ∧ Agree r' k' ∧ RepeatAhead r := by
  cases h with
  | refl =>
      cases r with
      | nil => exact absurd hk.1 (by decide)
      | cons b r =>
          obtain rfl : b = chr '{' := hk.1
          exact ⟨r, r, rfl, rfl, .refl r, hk⟩
  | brace => exact absurd (show chr '(' = chr '{' from hk.1) (by decide)
  | closer he =>
      obtain rfl := hk.1
      exact absurd he (by decide)
  | cons b h =>
      obtain rfl : b = chr '{' := hk.1
      exact ⟨_, _, rfl, rfl, h, rfl, (h.head_test (p := isDigit) (by decide)).symm.trans hk.2⟩

/-- A repetition, or nothing. -/
def parseBraces (p : Node) : Parser (Option Node) := fun s ↦
  if RepeatAhead s.rest then (do return some (← parseRepeat p) : Parser (Option Node)) s
  else some (some p, s)

theorem parseBraces_local (p : Node) : Local (parseBraces p) fun _ ↦ parseBraces p := by
  have hbounds : ∀ {b k : List Byte} {lo hi : Nat} {d : List Diag}, Bounds b lo hi →
      parseBraces p ⟨chr '{' :: (b ++ chr '}' :: k), d⟩ = some (some (.rep lo hi p), ⟨k, d⟩) := by
    intro b k lo hi d hb
    have hdigit : isDigit ((b ++ chr '}' :: k).getD 0 0) = true := by
      cases hb with
      | exactly _ hne hds | atLeast _ hne hds | between _ _ hne hds =>
          obtain ⟨c, ds, rfl⟩ := List.exists_cons_of_ne_nil hne
          exact hds c List.mem_cons_self
    rw [parseBraces, if_pos ⟨rfl, hdigit⟩, eval_bind_of (eval_parseRepeat_bounds hb p)]
    rfl
  have hstay : ∀ {r : List Byte} {d : List Diag}, (∀ r', r = chr '{' :: r' → ∀ b lo hi k,
      Bounds b lo hi → r' ≠ b ++ chr '}' :: k) → parseBraces p ⟨r, d⟩ = some (some p, ⟨r, d⟩) := by
    intro r d h
    rw [parseBraces]
    by_cases hr : RepeatAhead r
    · rw [if_pos hr]
      cases r with
      | nil => exact absurd hr.1 (by decide)
      | cons c r =>
          obtain rfl : c = chr '{' := hr.1
          rw [eval_bind_of (eval_parseRepeat_none (h r rfl) p)]
          rfl
    · rw [if_neg hr]
  rintro ⟨r, d⟩
  by_cases hform : ∃ b lo hi k, Bounds b lo hi ∧ r = chr '{' :: (b ++ chr '}' :: k)
  · obtain ⟨b, lo, hi, k, hb, rfl⟩ := hform
    have hu : ∀ k, chr '{' :: (b ++ chr '}' :: k) = chr '{' :: (b ++ [chr '}']) ++ k := by simp
    rw [hu k]
    refine LocalAt.of_eval (w := []) (some (.rep lo hi p)) ?_ fun k' _ m d' _ ↦ ?_
    · rw [← hu, hbounds hb, List.append_nil]
    · rw [← hu, hbounds hb, List.append_nil]
  · have hr : ∀ r', r = chr '{' :: r' → ∀ b lo hi k, Bounds b lo hi → r' ≠ b ++ chr '}' :: k :=
      fun r' hr b lo hi k hb heq ↦ hform ⟨b, lo, hi, k, hb, by rw [hr, heq]⟩
    refine LocalAt.of_eval (u := []) (w := []) (some p) ?_ fun k hk m d' _ ↦ ?_
    · rw [List.append_nil]
      exact hstay hr
    · rw [List.append_nil]
      by_cases hahead : RepeatAhead k
      · obtain ⟨r', k', rfl, rfl, h', -⟩ := Agree.repeatAhead hk hahead
        refine hstay fun k₁ heq b lo hi k₂ hb hk₂ ↦ ?_
        obtain rfl := List.tail_eq_of_cons_eq heq
        rw [hk₂, ← List.singleton_append, ← List.append_assoc] at h'
        obtain ⟨r₂, rfl, -⟩ := h'.of_append' hb.isOpenByte
        exact hr _ rfl b lo hi r₂ hb (by rw [List.append_assoc, List.singleton_append])
      · rw [parseBraces]
        exact if_neg hahead

theorem parseOperator_eq (p : Node) : parseOperator p = fun s ↦
    if s.rest.getD 0 0 = chr '*' then (do skip; return some (.star p) : Parser (Option Node)) s
    else if s.rest.getD 0 0 = chr '+' then (do skip; return some (.plus p) : Parser (Option Node)) s
    else if s.rest.getD 0 0 = chr '?' then (do skip; return some (.question p) : Parser (Option Node)) s
    else parseBraces p s := by
  funext s
  rw [parseOperator, eval_bind_of (eval_peek s), eval_ite, eval_ite, eval_ite,
    eval_bind_of (eval_peekAt s 1), eval_ite]
  rfl

theorem parseOperator_local (p : Node) : Local (parseOperator p) fun _ ↦ parseOperator p := by
  have hop : ∀ t : Node, Local (do skip; return some t) fun _ ↦ (do skip; return some t) := fun t ↦
    Local.skip.bind fun _ ↦ .pure (some t)
  have hplain : ∀ c : Byte, c ≠ chr '{' → c ≠ chr '(' → ∀ r k, Agree r k →
      (k.getD 0 0 = c ↔ r.getD 0 0 = c) := fun c hbrace hparen r k h ↦
    h.head_iff (p := fun b ↦ b = c) (iff_of_false hbrace.symm hparen.symm)
  rw [parseOperator_eq]
  exact Local.look (hplain _ (by decide) (by decide)) (hop _) <|
    Local.look (hplain _ (by decide) (by decide)) (hop _) <|
    Local.look (hplain _ (by decide) (by decide)) (hop _) (parseBraces_local p)

end Parser

end LexCpp
