import Mathlib.Algebra.Order.Ring.Pow

/-!
# Doubling delays

A delay that doubles with every failure up to a cap, over any ordered semiring, and the
doublings that double precision can hold.
-/

namespace Backoff

section Delay

variable {α : Type} [Semiring α] [LinearOrder α] [IsStrictOrderedRing α] {base cap : α}
  {m n : ℕ}

/-- The delay behind `n` doublings. -/
def delay (base cap : α) (n : ℕ) : α := min (base * 2 ^ n) cap

omit [IsStrictOrderedRing α] in
/-- A delay stays below its cap. -/
theorem delay_le (n : ℕ) : delay base cap n ≤ cap := min_le_right _ _

/-- A delay is not negative. -/
theorem delay_nonneg (hb : 0 ≤ base) (hc : 0 ≤ cap) (n : ℕ) : 0 ≤ delay base cap n :=
  le_min (mul_nonneg hb (pow_nonneg zero_le_two n)) hc

/-- A delay is positive. -/
theorem delay_pos (hb : 0 < base) (hc : 0 < cap) (n : ℕ) : 0 < delay base cap n :=
  lt_min (mul_pos hb (pow_pos zero_lt_two n)) hc

/-- One more doubling changes the delay until the cap is reached. -/
theorem delay_eq_delay_succ_iff (hb : 0 < base) :
    delay base cap n = delay base cap (n + 1) ↔ cap ≤ base * 2 ^ n := by
  have hlt : base * 2 ^ n < base * 2 ^ (n + 1) :=
    mul_lt_mul_of_pos_left (pow_lt_pow_right₀ one_lt_two (Nat.lt_succ_self n)) hb
  unfold delay
  constructor
  · intro h
    by_contra hcap
    rw [min_eq_left (not_le.mp hcap).le] at h
    exact absurd (lt_min hlt (not_le.mp hcap)) (h ▸ lt_irrefl _)
  · intro hcap
    rw [min_eq_right hcap, min_eq_right (hcap.trans hlt.le)]

end Delay

/-- The least power of two above the range of double precision. -/
@[irreducible]
def doubleBound : ℕ := 2 ^ 1024

/-- A power of two fits while its exponent is below 1024. -/
theorem two_pow_lt_doubleBound {n : ℕ} : 2 ^ n < doubleBound ↔ n < 1024 := by
  unfold doubleBound
  rw [pow_lt_pow_iff_right₀ one_lt_two]

/-- A multiple of a power of two fits while the sum of their exponents is below 1024. -/
theorem mul_two_pow_lt_doubleBound {c k n : ℕ} (hlow : 2 ^ k ≤ c) (hhigh : c < 2 ^ (k + 1)) :
    c * 2 ^ n < doubleBound ↔ k + n < 1024 := by
  constructor
  · intro h
    rw [← two_pow_lt_doubleBound, pow_add]
    exact (Nat.mul_le_mul_right _ hlow).trans_lt h
  · intro h
    have hle : 2 ^ (k + n + 1) ≤ doubleBound := by
      unfold doubleBound
      exact pow_le_pow_right₀ one_le_two h
    calc c * 2 ^ n < 2 ^ (k + 1) * 2 ^ n := Nat.mul_lt_mul_of_pos_right hhigh (Nat.two_pow_pos n)
      _ = 2 ^ (k + n + 1) := by rw [← pow_add, Nat.add_right_comm]
      _ ≤ doubleBound := hle

end Backoff
