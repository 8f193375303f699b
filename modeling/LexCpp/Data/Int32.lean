/-!
# C's `int`

The value that a cast to `int`, or `int` arithmetic, leaves of an integer: the
representative of its residue modulo `2^32` that is nearest to 0.
-/

/-- A cast to `int`. -/
def int32 (x : Int) : Int := x.bmod 4294967296

theorem int32_lt (x : Int) : int32 x < 2147483648 := by
  have := Int.bmod_lt (x := x) (m := 4294967296) (by decide)
  unfold int32
  omega

theorem neg_le_int32 (x : Int) : -2147483648 ≤ int32 x := by
  have := Int.le_bmod (x := x) (m := 4294967296) (by decide)
  unfold int32
  omega

/-- What fits is unchanged. -/
theorem int32_eq_self {x : Int} (h : -2147483648 ≤ x) (h' : x < 2147483648) : int32 x = x :=
  Int.bmod_eq_of_le (by omega) (by omega)

theorem int32_natCast {n : Nat} (h : n < 2147483648) : int32 n = n :=
  int32_eq_self (by omega) (by omega)
