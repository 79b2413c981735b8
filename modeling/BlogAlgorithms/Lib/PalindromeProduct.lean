import BlogAlgorithms.Lib.Palindrome
import Mathlib.Tactic.Ring

namespace Palindrome

/-- The number is a product of two numbers with `n` digits. -/
def IsProduct (b n p : Nat) : Prop := ∃ x ∈ digitNumbers b n, ∃ y ∈ digitNumbers b n, p = x * y

/-- A divisor that is not below its cofactor has `n + 1` digits, and so has
the cofactor: with a shorter one the product would be shorter. -/
theorem isProduct_iff {b n p : Nat} (base : 1 < b) (length : p ∈ digitNumbers b (2 * (n + 1))) :
    IsProduct b (n + 1) p ↔ ∃ i, 0 < i ∧ i < b ^ (n + 1) ∧ p ≤ i * i ∧ i ∣ p := by
  obtain ⟨lower, upper⟩ := (mem_digitNumbers_succ base).mp (show p ∈ digitNumbers b (2 * n + 1 + 1) from length)
  constructor
  · rintro ⟨x, lengthX, y, lengthY, rfl⟩
    have power : 0 < b ^ n := Nat.pow_pos (by omega)
    obtain ⟨lowerX, upperX⟩ := (mem_digitNumbers_succ base).mp lengthX
    obtain ⟨lowerY, upperY⟩ := (mem_digitNumbers_succ base).mp lengthY
    rcases le_total x y with below | above
    · exact ⟨y, by omega, upperY, Nat.mul_le_mul_right y below, Dvd.intro_left x rfl⟩
    · exact ⟨x, by omega, upperX, Nat.mul_le_mul_left x above, Dvd.intro y rfl⟩
  · rintro ⟨i, positive, small, square, j, rfl⟩
    have long : b ^ n ≤ j := by
      by_contra short
      have less : i * j < b ^ (n + 1) * b ^ n := Nat.mul_lt_mul'' small (by omega)
      rw [← pow_add, show n + 1 + n = 2 * n + 1 by omega] at less
      omega
    have cofactor : j ≤ i := Nat.le_of_mul_le_mul_left square positive
    exact ⟨i, (mem_digitNumbers_succ base).mpr ⟨by omega, small⟩, j,
      (mem_digitNumbers_succ base).mpr ⟨long, by omega⟩, rfl⟩

/-- The left half of the palindrome `(9 * t + 2) * (9 * t + 9)`, where `t` is
the smallest number with `k + 3` decimal digits. -/
theorem digits_half (k : Nat) :
    Nat.digits 10 (9 + 10 ^ (k + 1) * 81) = [9] ++ List.replicate k 0 ++ [1, 8] := by
  have nine : Nat.digits 10 9 = [9] := by decide
  have eightyOne : Nat.digits 10 81 = [1, 8] := by decide
  have joined : Nat.digits 10 9 ++ List.replicate k 0 ++ Nat.digits 10 81 =
      Nat.digits 10 (9 + 10 ^ ((Nat.digits 10 9).length + k) * 81) :=
    Nat.digits_append_zeroes_append_digits Nat.one_lt_ofNat (by decide)
  rw [nine, eightyOne, List.length_singleton, Nat.add_comm 1 k] at joined
  exact joined.symm

theorem mirrored_half_product (k : Nat) :
    mirrored 10 (9 + 10 ^ (k + 1) * 81) = (9 * 10 ^ (k + 2) + 2) * (9 * 10 ^ (k + 2) + 9) := by
  have length : 9 + 10 ^ (k + 1) * 81 ∈ digitNumbers 10 (k + 3) := by
    change (Nat.digits 10 (9 + 10 ^ (k + 1) * 81)).length = k + 3
    rw [digits_half]
    simp
  have reversed : Nat.ofDigits 10 ([9] ++ List.replicate k 0 ++ [1, 8]).reverse = 18 + 100 * (10 ^ k * 9) := by
    simp [Nat.ofDigits_append, Nat.ofDigits_cons, Nat.ofDigits_replicate_zero]
    ring
  rw [mirrored_eq length, digits_half, reversed]
  ring

/-- Some decimal palindrome with `2 * n` digits is a product of two numbers
with `n` digits. -/
theorem exists_product {n : Nat} (digits : 2 ≤ n) :
    ∃ upper ∈ digitNumbers 10 n, IsProduct 10 n (mirrored 10 upper) := by
  have range {m u : Nat} (bounds : 10 ^ m ≤ u ∧ u < 10 ^ (m + 1)) : u ∈ digitNumbers 10 (m + 1) :=
    (mem_digitNumbers_succ Nat.one_lt_ofNat).mpr bounds
  obtain ⟨m, rfl⟩ : ∃ m, n = m + 2 := ⟨n - 2, by omega⟩
  cases m with
  | zero => exact ⟨90, range (by omega), 91, range (by omega), 99, range (by omega), by decide⟩
  | succ k =>
    have power : 0 < 10 ^ k := Nat.pow_pos (by omega)
    have next : 10 ^ (k + 2) = 100 * 10 ^ k := by ring
    exact ⟨9 + 10 ^ (k + 1) * 81, range (by omega), 9 * 10 ^ (k + 2) + 2, range (by omega),
      9 * 10 ^ (k + 2) + 9, range (by omega), mirrored_half_product k⟩

end Palindrome
