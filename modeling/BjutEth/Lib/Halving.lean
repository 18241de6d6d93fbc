import Mathlib

namespace BjutEth

open Finset Nat

theorem sum_range_mul_div (f : ℕ → ℕ) (B k : ℕ) :
    ∑ n ∈ range (B * k), f (n / B) = B * ∑ y ∈ range k, f y := by
  induction k with
  | zero => simp
  | succ k ih =>
    have hterm : ∑ i ∈ range B, f ((B * k + i) / B) = B * f k := by
      have hconst : ∀ i ∈ range B, f ((B * k + i) / B) = f k := by
        intro i hi
        have hi := mem_range.mp hi
        rw [mul_add_div (by omega), div_eq_of_lt hi, add_zero]
      rw [sum_congr rfl hconst, sum_const, card_range, smul_eq_mul]
    rw [mul_succ, sum_range_add, ih, hterm, sum_range_succ, mul_add]

/-- However long it runs, a rate that is halved after every `B` steps pays out at most
what two terms at its first value would. -/
theorem sum_shiftRight_div_le (a B N : ℕ) (hB : 0 < B) :
    ∑ n ∈ range N, a >>> (n / B) ≤ 2 * (B * a) := by
  have hle : N ≤ B * (N / B + 1) := by
    have := lt_mul_div_succ N hB
    omega
  calc ∑ n ∈ range N, a >>> (n / B)
      ≤ ∑ n ∈ range (B * (N / B + 1)), a >>> (n / B) :=
        sum_le_sum_of_subset (range_subset_range.mpr hle)
    _ = B * ∑ y ∈ range (N / B + 1), a >>> y := sum_range_mul_div (a >>> ·) B _
    _ = B * ∑ y ∈ range (N / B + 1), a / 2 ^ y := by
        simp only [shiftRight_eq_div_pow]
    _ ≤ B * (a * 2 / (2 - 1)) := Nat.mul_le_mul_left B (geom_sum_le le_rfl a _)
    _ = 2 * (B * a) := by
        rw [Nat.div_one]
        ring

end BjutEth
