import Mathlib.Data.String.Basic
import Mathlib.Data.List.Lex
import Mathlib.Tactic.IntervalCases
import Mathlib.Data.Nat.Find

namespace Decimal

/-- The decimal writing of a positive number; the empty one stands for 0. -/
def digits (m : Nat) : List Char := if m = 0 then [] else Nat.toDigits 10 m

theorem digits_of_pos {m : Nat} (positive : 0 < m) :
    digits m = digits (m / 10) ++ [(m % 10).digitChar] := by
  unfold digits
  rw [if_neg (by omega)]
  by_cases small : m < 10
  · rw [if_pos (by omega), Nat.toDigits_of_lt_base small, Nat.mod_eq_of_lt small, List.nil_append]
  · rw [if_neg (by omega), Nat.toDigits_of_base_le (by decide) (by omega)]

theorem toString_lt_iff {m n : Nat} (left : 0 < m) (right : 0 < n) :
    toString m < toString n ↔ digits m < digits n := by
  unfold digits
  rw [if_neg (by omega), if_neg (by omega), String.lt_iff_toList_lt, Nat.toString_eq_ofList_toDigits,
    Nat.toString_eq_ofList_toDigits, String.toList_ofList, String.toList_ofList]

theorem digitChar_lt {a b : Nat} (less : a < b) (bound : b < 10) : a.digitChar < b.digitChar := by
  interval_cases b <;> interval_cases a <;> decide

/-- The first digits of `m` write `q`; 0 is the empty beginning. -/
def Begins (q m : Nat) : Prop := ∃ k, m / 10 ^ k = q

theorem Begins.refl (m : Nat) : Begins m m := ⟨0, by simp⟩

theorem Begins.zero (m : Nat) : Begins 0 m :=
  ⟨m, Nat.div_eq_of_lt (Nat.lt_pow_self (by decide))⟩

theorem Begins.trans {p q m : Nat} (first : Begins p q) (second : Begins q m) : Begins p m := by
  obtain ⟨j, rfl⟩ := first
  obtain ⟨k, rfl⟩ := second
  exact ⟨k + j, by rw [pow_add, Nat.div_div_eq_div_mul]⟩

theorem Begins.div (m : Nat) : Begins (m / 10) m := ⟨1, by simp⟩

theorem Begins.le {q m : Nat} (begins : Begins q m) : q ≤ m := by
  obtain ⟨k, rfl⟩ := begins
  exact Nat.div_le_self m _

/-- A proper beginning begins the number without its last digit. -/
theorem Begins.of_ne {q m : Nat} (begins : Begins q m) (different : q ≠ m) : Begins q (m / 10) := by
  obtain ⟨k, rfl⟩ := begins
  cases k with
  | zero => simp at different
  | succ k => exact ⟨k, by rw [Nat.div_div_eq_div_mul, pow_succ, Nat.mul_comm]⟩

/-- The next longer beginning after a proper one. -/
theorem Begins.child {q m : Nat} (begins : Begins q m) (different : q ≠ m) :
    ∃ next, next / 10 = q ∧ next ≠ q ∧ Begins next m := by
  classical
  have stop := Nat.find_spec begins
  obtain ⟨k, least⟩ : ∃ k, Nat.find begins = k + 1 := by
    cases size : Nat.find begins with
    | zero =>
      rw [size] at stop
      simp only [pow_zero, Nat.div_one] at stop
      exact absurd stop.symm different
    | succ k => exact ⟨k, rfl⟩
  refine ⟨m / 10 ^ k, ?_, ?_, k, rfl⟩
  · rw [Nat.div_div_eq_div_mul, ← pow_succ, ← least, stop]
  · exact Nat.find_min begins (by omega : k < Nat.find begins)

theorem Begins.digits_append {q m : Nat} (begins : Begins q m) :
    ∃ rest, digits m = digits q ++ rest := by
  obtain ⟨k, same⟩ := begins
  induction k generalizing m with
  | zero => exact ⟨[], by simp_all⟩
  | succ k ih =>
    rw [pow_succ', ← Nat.div_div_eq_div_mul] at same
    obtain ⟨rest, split⟩ := ih same
    by_cases zero : m = 0
    · subst zero
      exact ⟨rest, by simpa using split⟩
    · exact ⟨rest ++ [(m % 10).digitChar], by rw [digits_of_pos (by omega), split, List.append_assoc]⟩

/-- The lexicographic order of the decimal writings. -/
def Before (m n : Nat) : Prop := digits m < digits n

instance (m n : Nat) : Decidable (Before m n) := inferInstanceAs (Decidable (digits m < digits n))

theorem before_irrefl (m : Nat) : ¬ Before m m := lt_irrefl (digits m)

theorem Before.trans {m n o : Nat} (first : Before m n) (second : Before n o) : Before m o :=
  lt_trans (show digits m < digits n from first) second

theorem Before.asymm {m n : Nat} (first : Before m n) : ¬ Before n m :=
  lt_asymm (show digits m < digits n from first)

/-- A number comes before those that it begins. -/
theorem Begins.before {q m : Nat} (begins : Begins q m) (different : q ≠ m) : Before q m := by
  obtain ⟨next, parent, longer, inside⟩ := begins.child different
  obtain ⟨rest, split⟩ := inside.digits_append
  have same : digits m = digits q ++ (next % 10).digitChar :: rest := by
    rw [split, digits_of_pos (by omega : 0 < next), parent, List.append_assoc]
    rfl
  have shorter : digits q ++ [] < digits q ++ (next % 10).digitChar :: rest :=
    List.append_left_lt (List.nil_lt_cons (next % 10).digitChar rest)
  rw [List.append_nil, ← same] at shorter
  exact shorter

/-- Two numbers that first part in one digit are ordered by it. -/
theorem before_of_siblings {p q m n : Nat} (parent : p / 10 = q / 10) (positive : 0 < p) (less : p < q)
    (left : Begins p m) (right : Begins q n) : Before m n := by
  obtain ⟨restLeft, splitLeft⟩ := left.digits_append
  obtain ⟨restRight, splitRight⟩ := right.digits_append
  have digit : (p % 10).digitChar < (q % 10).digitChar := digitChar_lt (by omega) (by omega)
  unfold Before
  rw [splitLeft, splitRight, digits_of_pos positive, digits_of_pos (by omega : 0 < q), parent,
    List.append_assoc, List.append_assoc]
  exact List.append_left_lt (List.cons_lt_cons_iff.mpr (Or.inl digit))

/-- Of two numbers one begins the other, or they part in one digit. -/
theorem begins_or_parts (m n : Nat) :
    Begins m n ∨ Begins n m ∨ ∃ p q, p / 10 = q / 10 ∧ p ≠ q ∧ 0 < p ∧ 0 < q ∧ Begins p m ∧ Begins q n := by
  induction m using Nat.strong_induction_on with
  | _ m ih =>
    by_cases zero : m = 0
    · subst zero
      exact Or.inl (Begins.zero n)
    rcases ih (m / 10) (by omega) with below | above | ⟨p, q, parent, different, hp, hq, left, right⟩
    · by_cases whole : m / 10 = n
      · exact Or.inr (Or.inl (whole ▸ Begins.div m))
      · obtain ⟨next, parent, longer, inside⟩ := below.child whole
        by_cases same : next = m
        · exact Or.inl (same ▸ inside)
        · exact Or.inr (Or.inr ⟨m, next, parent.symm, Ne.symm same, by omega, by omega, Begins.refl m, inside⟩)
    · exact Or.inr (Or.inl (above.trans (Begins.div m)))
    · exact Or.inr (Or.inr ⟨p, q, parent, different, hp, hq, left.trans (Begins.div m), right⟩)

/-- How a later number can differ from an earlier one. -/
theorem Before.cases {m n : Nat} (before : Before m n) :
    (Begins m n ∧ m ≠ n) ∨
      ∃ p q, p / 10 = q / 10 ∧ p < q ∧ 0 < p ∧ Begins p m ∧ Begins q n := by
  have different : m ≠ n := fun same => before_irrefl n (same ▸ before)
  rcases begins_or_parts m n with below | above | ⟨p, q, parent, unequal, hp, hq, left, right⟩
  · exact Or.inl ⟨below, different⟩
  · exact absurd (above.before different.symm) before.asymm
  · rcases Nat.lt_or_gt_of_ne unequal with less | greater
    · exact Or.inr ⟨p, q, parent, less, hp, left, right⟩
    · exact absurd (before_of_siblings parent.symm hq greater right left) before.asymm

theorem before_or_before {m n : Nat} (different : m ≠ n) : Before m n ∨ Before n m := by
  rcases begins_or_parts m n with below | above | ⟨p, q, parent, unequal, hp, hq, left, right⟩
  · exact Or.inl (below.before different)
  · exact Or.inr (above.before different.symm)
  · rcases Nat.lt_or_gt_of_ne unequal with less | greater
    · exact Or.inl (before_of_siblings parent hp less left right)
    · exact Or.inr (before_of_siblings parent.symm hq greater right left)

end Decimal
