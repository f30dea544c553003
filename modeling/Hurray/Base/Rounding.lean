import Mathlib.Data.Nat.Notation
import Mathlib.Tactic.Basic
import Mathlib.Tactic.Common

/-! Rounding a number up to a multiple, as the offsets of a container are. -/
namespace Hurray.Base

/-- The next multiple of `a`, with a rest rather than a quotient. -/
def roundUp (n a : ℕ) : ℕ := if n % a = 0 then n else n + (a - n % a)

variable {n a : ℕ}

theorem le_roundUp (n a : ℕ) : n ≤ roundUp n a := by
  unfold roundUp
  split <;> omega

theorem roundUp_of_dvd (h : a ∣ n) : roundUp n a = n :=
  if_pos (Nat.mod_eq_zero_of_dvd h)

theorem dvd_roundUp (ha : 0 < a) (n : ℕ) : a ∣ roundUp n a := by
  unfold roundUp
  split
  · next h => exact Nat.dvd_of_mod_eq_zero h
  · have hlt := Nat.mod_lt n ha
    have hsum : n + (a - n % a) = a * (n / a + 1) := by
      have hdiv := Nat.div_add_mod n a
      rw [Nat.mul_add, Nat.mul_one]
      omega
    rw [hsum]
    exact Nat.dvd_mul_right a _

end Hurray.Base
