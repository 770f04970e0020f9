import Mathlib.Algebra.BigOperators.Group.Finset.Basic
import Mathlib.Algebra.Order.Ring.Int
import Mathlib.Algebra.Prime.Lemmas
import Mathlib.Tactic.Linarith
import Mathlib.Tactic.Ring

/-! # Errors that a weighted sum finds

A checksum made of the sum of the digits and of the sum of these sums sees the sum of the errors, and the
sum of them with their places as weights. Modulo a power of a prime one or two small errors that are not
too far apart cannot vanish from both.
-/

namespace WeightedSum

open Finset

/-- A high power of a prime that divides a product is not divided by what a low power does not divide. -/
theorem pow_dvd_of_mul {r x y : ℤ} (prime : Prime r) {a b : ℕ} (divides : r ^ (a + b) ∣ x * y) (not : ¬ r ^ b ∣ y) :
    r ^ (a + 1) ∣ x := by
  induction b generalizing y with
  | zero => exact absurd (pow_zero r ▸ one_dvd y) not
  | succ b ih =>
    by_cases factor : r ∣ y
    · obtain ⟨z, rfl⟩ := factor
      refine @ih z ?_ fun divides' => not ?_
      · refine (mul_dvd_mul_iff_left prime.ne_zero).mp ?_
        calc r * r ^ (a + b) = r ^ (a + (b + 1)) := by ring
          _ ∣ x * (r * z) := divides
          _ = r * (x * z) := by ring
      · rw [pow_succ']
        exact mul_dvd_mul_left r divides'
    · have power := prime.pow_dvd_of_dvd_mul_right _ factor divides
      exact (pow_dvd_pow r (by omega)).trans power

variable {errors : ℕ → ℤ} {n i j : ℕ}

/-- Only two summands. -/
theorem sum_two (below : i < j) (inside : j < n) (weight : ℕ → ℤ)
    (elsewhere : ∀ k < n, k ≠ i → k ≠ j → errors k = 0) :
    ∑ k ∈ range n, weight k * errors k = weight i * errors i + weight j * errors j := by
  rw [← sum_pair (f := fun k => weight k * errors k) below.ne]
  refine (sum_subset ?_ fun k bound apart => ?_).symm
  · intro k pair
    rcases mem_insert.mp pair with rfl | last
    · exact mem_range.mpr (below.trans inside)
    · exact mem_range.mpr (mem_singleton.mp last ▸ inside)
  · simp only [mem_insert, mem_singleton, not_or] at apart
    rw [elsewhere k (mem_range.mp bound) apart.1 apart.2, mul_zero]

/-- Two errors that vanish from both sums are none. -/
theorem errors_eq_zero {r : ℤ} (prime : Prime r) {a b : ℕ} (below : i < j) (inside : j < n)
    (elsewhere : ∀ k < n, k ≠ i → k ≠ j → errors k = 0) (small : ∀ k, |errors k| < r ^ b)
    (wide : 2 * r ^ b ≤ r ^ (a + b)) (near : ¬ r ^ (a + 1) ∣ ((j - i : ℕ) : ℤ))
    (total : r ^ (a + b) ∣ ∑ k ∈ range n, errors k) (moment : r ^ (a + b) ∣ ∑ k ∈ range n, (k : ℤ) * errors k) :
    errors i = 0 ∧ errors j = 0 := by
  have sum := sum_two below inside (fun _ => 1) elsewhere
  simp only [one_mul] at sum
  rw [sum] at total
  rw [sum_two below inside (fun k => k) elsewhere] at moment
  have opposite : errors i + errors j = 0 := by
    refine Int.eq_zero_of_abs_lt_dvd total ?_
    have first := small i
    have second := small j
    have triangle := abs_add_le (errors i) (errors j)
    linarith
  have distance : (i : ℤ) * errors i + j * errors j = ((j - i : ℕ) : ℤ) * errors j := by
    rw [eq_neg_of_add_eq_zero_left opposite, Nat.cast_sub below.le]
    ring
  have none : errors j = 0 := by
    by_contra some
    refine near (pow_dvd_of_mul prime (distance ▸ moment) fun divides => some ?_)
    exact Int.eq_zero_of_abs_lt_dvd divides (small j)
  exact ⟨by rw [none] at opposite; simpa using opposite, none⟩

/-- One error. -/
theorem error_eq_zero {m : ℤ} (inside : i < n) (elsewhere : ∀ k < n, k ≠ i → errors k = 0)
    (small : |errors i| < m) (total : m ∣ ∑ k ∈ range n, errors k) : errors i = 0 := by
  have alone : ∑ k ∈ range n, errors k = errors i :=
    sum_eq_single i (fun k bound apart => elsewhere k (mem_range.mp bound) apart)
      fun outside => absurd (mem_range.mpr inside) outside
  exact Int.eq_zero_of_abs_lt_dvd (alone ▸ total) small

end WeightedSum
