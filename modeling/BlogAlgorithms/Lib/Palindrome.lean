import Mathlib.Data.Nat.Digits.Lemmas
import Mathlib.Data.Set.Function
import Mathlib.Order.Monotone.Defs

namespace Palindrome

variable (b : Nat)

/-- The writing of the number to the base reads the same from both ends. -/
def IsPalindrome (p : Nat) : Prop := (Nat.digits b p).reverse = Nat.digits b p

/-- The numbers written with so many digits. -/
def digitNumbers (n : Nat) : Set Nat := {u | (Nat.digits b u).length = n}

/-- The palindromes with so many digits. -/
def palindromes (n : Nat) : Set Nat := {p | IsPalindrome b p ∧ p ∈ digitNumbers b n}

/-- The number followed by its own digits from the last to the first. -/
def mirrored (u : Nat) : Nat := Nat.ofDigits b ((Nat.digits b u).reverse ++ Nat.digits b u)

variable {b} (base : 1 < b)
include base

theorem mem_digitNumbers_succ {n u : Nat} : u ∈ digitNumbers b (n + 1) ↔ b ^ n ≤ u ∧ u < b ^ (n + 1) := by
  change (Nat.digits b u).length = n + 1 ↔ _
  rw [← Nat.lt_digits_length_iff base, ← Nat.digits_length_le_iff base]
  omega

theorem lt_of_mem_digitNumbers {n u : Nat} (length : u ∈ digitNumbers b n) : u < b ^ n :=
  (Nat.digits_length_le_iff base u).mp (le_of_eq length)

/-- Between numbers with so many digits there are only such numbers. -/
theorem mem_digitNumbers_of_le {n u v : Nat} (length : u ∈ digitNumbers b n) (above : u ≤ v) (bound : v < b ^ n) :
    v ∈ digitNumbers b n := by
  have size : (Nat.digits b u).length = n := length
  have longer := Nat.le_length_digits_le b u v above
  have shorter := (Nat.digits_length_le_iff base v).mpr bound
  exact show (Nat.digits b v).length = n by omega

theorem digits_mirrored {u : Nat} (positive : u ≠ 0) :
    Nat.digits b (mirrored b u) = (Nat.digits b u).reverse ++ Nat.digits b u := by
  have nonempty : Nat.digits b u ≠ [] := Nat.digits_ne_nil_iff_ne_zero.mpr positive
  apply Nat.digits_ofDigits b base
  · intro digit member
    rw [List.mem_append, List.mem_reverse, or_self] at member
    exact Nat.digits_lt_base base member
  · intro _
    rw [List.getLast_append_of_ne_nil _ nonempty]
    exact Nat.getLast_digit_ne_zero b positive

theorem mirrored_isPalindrome {u : Nat} (positive : u ≠ 0) : IsPalindrome b (mirrored b u) := by
  rw [IsPalindrome, digits_mirrored base positive, List.reverse_append, List.reverse_reverse]

omit base in
theorem mirrored_eq {n u : Nat} (length : u ∈ digitNumbers b n) :
    mirrored b u = Nat.ofDigits b (Nat.digits b u).reverse + b ^ n * u := by
  have size : (Nat.digits b u).length = n := length
  rw [mirrored, Nat.ofDigits_append, Nat.ofDigits_digits, List.length_reverse, size]

theorem reversed_lt {n u : Nat} (length : u ∈ digitNumbers b n) :
    Nat.ofDigits b (Nat.digits b u).reverse < b ^ n := by
  have size : (Nat.digits b u).reverse.length = n := (List.length_reverse).trans length
  rw [← size]
  refine Nat.ofDigits_lt_base_pow_length base fun digit member => ?_
  exact Nat.digits_lt_base base (List.mem_reverse.mp member)

theorem mirrored_div {n u : Nat} (length : u ∈ digitNumbers b n) : mirrored b u / b ^ n = u := by
  have power : 0 < b ^ n := Nat.pow_pos (by omega)
  rw [mirrored_eq length, Nat.add_mul_div_left _ _ power, Nat.div_eq_of_lt (reversed_lt base length), Nat.zero_add]

/-- Larger halves give larger palindromes. -/
theorem mirrored_strictMonoOn (n : Nat) : StrictMonoOn (mirrored b) (digitNumbers b n) := by
  intro u lengthU v lengthV less
  have power : 0 < b ^ n := Nat.pow_pos (by omega)
  rw [← mirrored_div base lengthU, ← mirrored_div base lengthV] at less
  by_contra below
  exact absurd (Nat.div_le_div_right (c := b ^ n) (Nat.le_of_not_lt below)) (by omega)

theorem digits_div (p n : Nat) : Nat.digits b (p / b ^ n) = (Nat.digits b p).drop n := by
  rw [Nat.self_div_pow_eq_ofDigits_drop n p base]
  apply Nat.digits_ofDigits b base
  · intro digit member
    exact Nat.digits_lt_base base (List.mem_of_mem_drop member)
  · intro nonempty
    have positive : p ≠ 0 := by
      rintro rfl
      simp at nonempty
    rw [List.getLast_drop]
    exact Nat.getLast_digit_ne_zero b positive

/-- The second half of a palindrome is its first half read backwards. -/
theorem mirrored_half {n p : Nat} (palindrome : p ∈ palindromes b (2 * n)) :
    p / b ^ n ∈ digitNumbers b n ∧ mirrored b (p / b ^ n) = p := by
  obtain ⟨symmetric, length⟩ := palindrome
  have size : (Nat.digits b p).length = 2 * n := length
  have front : ((Nat.digits b p).drop n).length = n := by
    rw [List.length_drop]
    omega
  have back : ((Nat.digits b p).take n).length = n := by
    rw [List.length_take]
    omega
  have halves : ((Nat.digits b p).drop n).reverse ++ ((Nat.digits b p).take n).reverse =
      (Nat.digits b p).take n ++ (Nat.digits b p).drop n := by
    rw [← List.reverse_append, List.take_append_drop]
    exact symmetric
  have mirror : ((Nat.digits b p).drop n).reverse = (Nat.digits b p).take n :=
    (List.append_inj halves (by rw [List.length_reverse, front, back])).1
  constructor
  · change (Nat.digits b (p / b ^ n)).length = n
    rw [digits_div base, front]
  · rw [mirrored, digits_div base, mirror, List.take_append_drop, Nat.ofDigits_digits]

/-- The halves with `n` digits give each palindrome with `2 * n` digits once. -/
theorem mirrored_bijOn {n : Nat} (positive : 0 < n) :
    Set.BijOn (mirrored b) (digitNumbers b n) (palindromes b (2 * n)) := by
  refine ⟨fun u length => ?_, (mirrored_strictMonoOn base n).injOn, fun p palindrome => ?_⟩
  · have size : (Nat.digits b u).length = n := length
    have nonzero : u ≠ 0 := by
      rintro rfl
      rw [Nat.digits_zero, List.length_nil] at size
      omega
    refine ⟨mirrored_isPalindrome base nonzero, ?_⟩
    change (Nat.digits b (mirrored b u)).length = 2 * n
    rw [digits_mirrored base nonzero, List.length_append, List.length_reverse, size, Nat.two_mul]
  · obtain ⟨length, same⟩ := mirrored_half base palindrome
    exact ⟨p / b ^ n, length, same⟩

end Palindrome
