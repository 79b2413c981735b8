import Mathlib.Data.Int.Log
import Mathlib.Data.Rat.Floor
import Mathlib.Tactic.Positivity

namespace Java

/-- The nearest integer, and of two that are equally near the even one. -/
def nearestEven (x : ℚ) : ℤ :=
  let below := ⌊x⌋
  if x - below < 1 / 2 then below
  else if x - below = 1 / 2 ∧ 2 ∣ below then below
  else below + 1

/-- The value of the type `double` that an operation makes of an exact result: the
nearest number with 53 binary digits. The results here lie between `2 ^ -53` and
`2 ^ 53`, far from where the exponents of a `double` end. -/
def toDouble (x : ℚ) : ℚ :=
  let unit : ℚ := 2 ^ (Int.log 2 |x| - 52)
  nearestEven (x / unit) * unit

theorem unit_pos (x : ℚ) : (0 : ℚ) < 2 ^ (Int.log 2 |x| - 52) := zpow_pos two_pos _

theorem nearestEven_intCast (z : ℤ) : nearestEven z = z := by
  simp [nearestEven]

theorem floor_le_nearestEven (x : ℚ) : ⌊x⌋ ≤ nearestEven x := by
  unfold nearestEven
  dsimp only
  split_ifs <;> omega

theorem toDouble_of_multiple {x : ℚ} {z : ℤ} (multiple : x = z * 2 ^ (Int.log 2 |x| - 52)) : toDouble x = x := by
  have quotient : x / 2 ^ (Int.log 2 |x| - 52) = z := (div_eq_iff (unit_pos x).ne').mpr multiple
  rw [toDouble, quotient, nearestEven_intCast, ← multiple]

theorem toDouble_zero : toDouble 0 = 0 := toDouble_of_multiple (z := 0) (by rw [Int.cast_zero, zero_mul])

theorem toDouble_pos {x : ℚ} (positive : 0 < x) : 0 < toDouble x := by
  have leading : (2 : ℚ) ^ Int.log 2 |x| ≤ x := by
    have log := Int.zpow_log_le_self (b := 2) (by decide) (abs_pos.mpr positive.ne')
    rw [abs_of_pos positive] at log ⊢
    exact_mod_cast log
  have large : (1 : ℚ) ≤ x / 2 ^ (Int.log 2 |x| - 52) := by
    rw [le_div_iff₀ (unit_pos x), one_mul]
    exact (zpow_le_zpow_right₀ (by norm_num) (by omega)).trans leading
  have digits : 1 ≤ nearestEven (x / 2 ^ (Int.log 2 |x| - 52)) :=
    (Int.le_floor.mpr (by exact_mod_cast large)).trans (floor_le_nearestEven _)
  have one : (1 : ℚ) ≤ nearestEven (x / 2 ^ (Int.log 2 |x| - 52)) := by exact_mod_cast digits
  exact mul_pos (by linarith) (unit_pos x)

/-- Whole numbers of up to 53 digits are exact. -/
theorem toDouble_natCast {n : ℕ} (small : n ≤ 2 ^ 53) : toDouble n = n := by
  have log : Int.log 2 |(n : ℚ)| = Nat.log 2 n := by rw [Nat.abs_cast, Int.log_natCast]
  obtain rfl | less := small.eq_or_lt
  · refine toDouble_of_multiple (z := 2 ^ 52) ?_
    rw [log, Nat.log_pow (by decide)]
    norm_num
  · have digits : Nat.log 2 n ≤ 52 := Nat.lt_succ_iff.mp (Nat.log_lt_of_lt_pow' (by decide) less)
    refine toDouble_of_multiple (z := n * 2 ^ (52 - Nat.log 2 n)) ?_
    have exponent : (Nat.log 2 n : ℤ) - 52 = -((52 - Nat.log 2 n : ℕ) : ℤ) := by omega
    rw [log, exponent, zpow_neg, zpow_natCast]
    push_cast
    rw [mul_assoc, mul_inv_cancel₀ (by positivity), mul_one]

end Java
