import Mathlib.Data.Nat.Bitwise
import Mathlib.Tactic.Ring

namespace ReverseCounter
variable {w k : Nat}

/-- The place of a word in the order in which the counter, which counts from its highest
bit down, passes: words that agree in their low bits lie in one aligned block. -/
def position (v : BitVec w) : Nat := v.reverse.toNat

/-- The reversed increment of the bits under a mask: the others are set first,
so that the carry runs through them. -/
def next (mask v : BitVec w) : BitVec w := ((v ||| ~~~mask).reverse + 1#w).reverse

theorem position_lt (v : BitVec w) : position v < 2 ^ w := v.reverse.isLt

theorem position_zero : position (0#w) = 0 := by
  apply Nat.eq_of_testBit_eq
  intro i
  rw [position, BitVec.testBit_toNat, BitVec.getLsbD_reverse, BitVec.getMsbD_eq_getLsbD]
  simp

theorem testBit_position (v : BitVec w) (i : Nat) :
    (position v).testBit i = (decide (i < w) && v.getLsbD (w - 1 - i)) := by
  rw [position, BitVec.testBit_toNat, BitVec.getLsbD_reverse, BitVec.getMsbD_eq_getLsbD]

theorem position_injective {x y : BitVec w} (same : position x = position y) : x = y := by
  rw [← BitVec.reverse_reverse_eq (x := x), ← BitVec.reverse_reverse_eq (x := y), BitVec.eq_of_toNat_eq same]

/-- The words with the same low bits are those of one block. -/
theorem mod_eq_iff (low : k ≤ w) (x y : BitVec w) :
    x.toNat % 2 ^ k = y.toNat % 2 ^ k ↔ position x / 2 ^ (w - k) = position y / 2 ^ (w - k) := by
  constructor
  · intro same
    apply Nat.eq_of_testBit_eq
    intro i
    rw [Nat.testBit_div_two_pow, Nat.testBit_div_two_pow, testBit_position, testBit_position]
    by_cases inside : i + (w - k) < w
    · have bits := congrArg (fun n => n.testBit (w - 1 - (i + (w - k)))) same
      have below : w - 1 - (i + (w - k)) < k := by omega
      simp only [Nat.testBit_mod_two_pow, BitVec.testBit_toNat, below, decide_true, Bool.true_and] at bits
      rw [bits]
    · simp [inside]
  · intro same
    apply Nat.eq_of_testBit_eq
    intro i
    rw [Nat.testBit_mod_two_pow, Nat.testBit_mod_two_pow, BitVec.testBit_toNat, BitVec.testBit_toNat]
    by_cases inside : i < k
    · have bits := congrArg (fun n => n.testBit (k - 1 - i)) same
      have below : k - 1 - i + (w - k) < w := by omega
      have back : w - 1 - (k - 1 - i + (w - k)) = i := by omega
      simp only [Nat.testBit_div_two_pow, testBit_position, below, decide_true, Bool.true_and, back] at bits
      rw [bits]
    · simp [inside]

/-- Setting the bits above the mask goes to the last word of the block. -/
theorem position_or_not_mask (low : k ≤ w) (v : BitVec w) :
    position (v ||| ~~~(BitVec.ofNat w (2 ^ k - 1))) =
      2 ^ (w - k) * (position v / 2 ^ (w - k)) + (2 ^ (w - k) - 1) := by
  have positive := Nat.two_pow_pos (w - k)
  apply Nat.eq_of_testBit_eq
  intro i
  rw [Nat.testBit_two_pow_mul_add _ (by omega), testBit_position, Nat.testBit_two_pow_sub_one,
    Nat.testBit_div_two_pow, testBit_position, BitVec.getLsbD_or, BitVec.getLsbD_not, BitVec.getLsbD_ofNat,
    Nat.testBit_two_pow_sub_one]
  by_cases inside : i < w
  · have there : w - 1 - i < w := by omega
    by_cases below : i < w - k
    · have above : ¬ w - 1 - i < k := by omega
      simp [inside, there, below, above]
    · have under : w - 1 - i < k := by omega
      have back : i - (w - k) + (w - k) = i := by omega
      simp [inside, there, below, under, back]
  · have outside : ¬ i < w - k := by omega
    have back : i - (w - k) + (w - k) = i := by omega
    simp [inside, outside, back]

theorem position_next (low : k ≤ w) (v : BitVec w) :
    position (next (BitVec.ofNat w (2 ^ k - 1)) v) = (position v / 2 ^ (w - k) + 1) * 2 ^ (w - k) % 2 ^ w := by
  have positive := Nat.two_pow_pos (w - k)
  have last := position_or_not_mask low v
  have value : position (next (BitVec.ofNat w (2 ^ k - 1)) v) =
      (position (v ||| ~~~(BitVec.ofNat w (2 ^ k - 1))) + 1) % 2 ^ w := by
    rw [position, next, BitVec.reverse_reverse_eq, BitVec.toNat_add, BitVec.toNat_ofNat, Nat.add_mod_mod, position]
  have sum : 2 ^ (w - k) * (position v / 2 ^ (w - k)) + (2 ^ (w - k) - 1) + 1 =
      (position v / 2 ^ (w - k) + 1) * 2 ^ (w - k) := by
    rw [Nat.add_assoc, Nat.sub_add_cancel positive]
    ring
  rw [value, last, sum]

/-- At the start of a small block, the bits between two masks are clear exactly
at the starts of large blocks. -/
theorem and_masks_eq_zero_iff {small large : Nat} (le : small ≤ large) (low : large ≤ w) {v : BitVec w}
    (aligned : 2 ^ (w - large) ∣ position v) :
    v &&& (BitVec.ofNat w (2 ^ small - 1) ^^^ BitVec.ofNat w (2 ^ large - 1)) = 0#w ↔
      2 ^ (w - small) ∣ position v := by
  have bits (i : Nat) (inside : i < w) :
      (v &&& (BitVec.ofNat w (2 ^ small - 1) ^^^ BitVec.ofNat w (2 ^ large - 1))).getLsbD i =
      (v.getLsbD i && decide (small ≤ i ∧ i < large)) := by
    rw [BitVec.getLsbD_and, BitVec.getLsbD_xor, BitVec.getLsbD_ofNat, BitVec.getLsbD_ofNat,
      Nat.testBit_two_pow_sub_one, Nat.testBit_two_pow_sub_one]
    by_cases first : i < small
    · have second : i < large := by omega
      have outside : ¬(small ≤ i ∧ i < large) := by omega
      simp [inside, first, second]
    · by_cases second : i < large
      · have between : small ≤ i ∧ i < large := by omega
        simp [inside, first, second, between]
      · simp [inside, first, second]
  constructor
  · intro clear
    apply Nat.dvd_of_mod_eq_zero
    apply Nat.eq_of_testBit_eq
    intro i
    rw [Nat.testBit_mod_two_pow, Nat.zero_testBit]
    by_cases below : i < w - small
    · by_cases under : i < w - large
      · obtain ⟨q, eq⟩ := aligned
        have outside : ¬ w - large ≤ i := by omega
        simp only [eq, Nat.testBit_two_pow_mul, ge_iff_le, outside, decide_false, Bool.false_and, Bool.and_false]
      · have here := congrArg (fun x => x.getLsbD (w - 1 - i)) clear
        have between : small ≤ w - 1 - i ∧ w - 1 - i < large := by omega
        simp only [bits (w - 1 - i) (by omega), between, and_self, decide_true, Bool.and_true,
          BitVec.getLsbD_zero] at here
        rw [testBit_position, here]
        simp
    · simp [below]
  · intro divides
    obtain ⟨q, eq⟩ := divides
    apply BitVec.eq_of_getLsbD_eq
    intro i inside
    rw [bits i inside, BitVec.getLsbD_zero]
    by_cases between : small ≤ i ∧ i < large
    · have here := testBit_position v (w - 1 - i)
      have back : w - 1 - (w - 1 - i) = i := by omega
      have within : w - 1 - i < w := by omega
      have under : ¬ w - small ≤ w - 1 - i := by omega
      simp only [eq, Nat.testBit_two_pow_mul, under, decide_false, Bool.false_and, within, decide_true,
        Bool.true_and, back] at here
      simp [← here]
    · simp [between]

end ReverseCounter
