import BlogAlgorithms.Lib.DrawTree
import Mathlib.Algebra.Order.BigOperators.Ring.Finset
import Mathlib.Algebra.Order.Field.Basic
import Mathlib.Algebra.BigOperators.Intervals
import Mathlib.Tactic.LinearCombination
import Mathlib.Tactic.Linarith

namespace DrawTree
open Finset

variable {K : Type*} [Field K] [LinearOrder K] [IsStrictOrderedRing K] {q r : K} {m : ℕ}

theorem visits_pos (factor : 0 < q) (draws : 0 < m) (j : ℕ) : 0 < visits q m j := by
  induction j using Nat.strong_induction_on with
  | _ j ih =>
    by_cases root : j = 0
    · rw [root, visits_zero]
      exact one_pos
    · rw [visits_eq (by omega)]
      refine mul_pos factor (sum_pos (fun i member => ih i (mem_Ico.mp member).2) ?_)
      exact nonempty_Ico.mpr (by omega)

theorem treeSum_pos (factor : 0 < q) (draws : 0 < m) {k : ℕ} {value : ℕ → K} (positive : ∀ x, 0 < value x)
    (cur : ℕ) : 0 < treeSum q m k value cur := by
  induction cur using tree_induction (k := k) with
  | leaf cur leaf =>
    rw [treeSum_leaf leaf]
    exact positive cur
  | node cur node ih =>
    rw [treeSum_node node]
    exact mul_pos factor (sum_pos (fun i _ => ih i) (nonempty_range_iff.mpr draws.ne'))

theorem sum_mul_le_sum_mul {s t : Finset ℕ} {c p : ℕ → K} (weights : ∀ i ∈ s, ∀ j ∈ t, c i * p j ≤ c j * p i) :
    (∑ i ∈ s, c i) * ∑ j ∈ t, p j ≤ (∑ j ∈ t, c j) * ∑ i ∈ s, p i := by
  rw [sum_mul_sum, sum_mul_sum, sum_comm]
  exact sum_le_sum fun j inT => sum_le_sum fun i inS => weights i inS j inT

/-- One step of the growth: the window of the next point drops its earliest
point and gains the latest. -/
theorem visits_cross_lt (smaller : 0 < r) (larger : r < q) (draws : 0 < m) {j : ℕ} (positive : 0 < j)
    (rising : ∀ d i, d ≤ i → i < j → visits q m d * visits r m i ≤ visits q m i * visits r m d) :
    visits q m j * visits r m (j + 1) < visits q m (j + 1) * visits r m j := by
  have window (x : K) : visits x m j =
      x * (∑ i ∈ Ico (j - m) (j + 1 - m), visits x m i + ∑ i ∈ Ico (j + 1 - m) j, visits x m i) := by
    rw [visits_eq positive, sum_Ico_consecutive _ (by omega) (by omega)]
  have next (x : K) : visits x m (j + 1) = x * (∑ i ∈ Ico (j + 1 - m) j, visits x m i + visits x m j) := by
    rw [visits_eq j.succ_pos, sum_Ico_succ_top (by omega)]
  have kept := sum_mul_le_sum_mul (s := Ico (j - m) (j + 1 - m)) (t := Ico (j + 1 - m) j) fun d inD i inM => by
    rw [mem_Ico] at inD inM
    exact rising d i (by omega) (by omega)
  have factors : 0 < q * r := mul_pos (smaller.trans larger) smaller
  have grows : 0 < (q - r) * (visits q m j * visits r m j) :=
    mul_pos (sub_pos.mpr larger) (mul_pos (visits_pos (smaller.trans larger) draws j) (visits_pos smaller draws j))
  have moved := mul_le_mul_of_nonneg_left kept factors.le
  rw [next q, next r]
  have windowQ := window q
  have windowR := window r
  set earliestQ := ∑ i ∈ Ico (j - m) (j + 1 - m), visits q m i
  set earliestR := ∑ i ∈ Ico (j - m) (j + 1 - m), visits r m i
  set middleQ := ∑ i ∈ Ico (j + 1 - m) j, visits q m i
  set middleR := ∑ i ∈ Ico (j + 1 - m) j, visits r m i
  have difference : q * (middleQ + visits q m j) * visits r m j - visits q m j * (r * (middleR + visits r m j)) =
      q * r * (middleQ * earliestR) - q * r * (earliestQ * middleR) + (q - r) * (visits q m j * visits r m j) := by
    linear_combination q * middleQ * windowR - r * middleR * windowQ
  linarith

/-- A larger factor favours the points that are further away. -/
theorem visits_ratio_lt (smaller : 0 < r) (larger : r < q) (draws : 0 < m) (j : ℕ) :
    visits q m j / visits r m j < visits q m (j + 1) / visits r m (j + 1) := by
  have posQ := visits_pos (smaller.trans larger) draws
  have posR := visits_pos smaller draws
  induction j using Nat.strong_induction_on with
  | _ j ih =>
    rw [div_lt_div_iff₀ (posR j) (posR (j + 1))]
    by_cases root : j = 0
    · have single (x : K) : visits x m (0 + 1) = x := by
        rw [visits_eq (by omega), sum_Ico_succ_top (by omega), Ico_eq_empty_of_le (by omega), sum_empty, zero_add,
          visits_zero, mul_one]
      rw [root, single, single, visits_zero, visits_zero, one_mul, mul_one]
      exact larger
    · refine visits_cross_lt smaller larger draws (by omega) fun d i before inside => ?_
      rw [← div_le_div_iff₀ (posR d) (posR i)]
      induction i, before using Nat.le_induction with
      | base => exact le_rfl
      | succ i _ rises => exact (rises (by omega)).trans (ih i (by omega)).le

theorem visits_ratio_strictMono (smaller : 0 < r) (larger : r < q) (draws : 0 < m) :
    StrictMono fun j => visits q m j / visits r m j :=
  strictMono_nat_of_lt_succ (visits_ratio_lt smaller larger draws)

/-- Two families of weights compare two sums in the way their ratios do. -/
theorem sum_mul_sum_lt {s : Finset ℕ} {c p f g : ℕ → K}
    (weights : ∀ i ∈ s, ∀ j ∈ s, i < j → c i * p j < c j * p i)
    (ratios : ∀ i ∈ s, ∀ j ∈ s, i < j → f i * g j ≤ f j * g i)
    {a b : ℕ} (first : a ∈ s) (second : b ∈ s) (ordered : a < b) (strict : f a * g b < f b * g a) :
    (∑ i ∈ s, c i * g i) * (∑ i ∈ s, p i * f i) < (∑ i ∈ s, c i * f i) * ∑ i ∈ s, p i * g i := by
  let gain (i j : ℕ) : K := c i * f i * (p j * g j) - c i * g i * (p j * f j)
  have total : ∑ i ∈ s, ∑ j ∈ s, gain i j =
      (∑ i ∈ s, c i * f i) * (∑ i ∈ s, p i * g i) - (∑ i ∈ s, c i * g i) * ∑ i ∈ s, p i * f i := by
    simp only [gain, sum_sub_distrib, sum_mul_sum]
  have paired (i j : ℕ) : gain i j + gain j i = (c j * p i - c i * p j) * (f j * g i - f i * g j) := by
    simp only [gain]
    ring
  have twice : ∑ i ∈ s, ∑ j ∈ s, (gain i j + gain j i) = 2 * ∑ i ∈ s, ∑ j ∈ s, gain i j := by
    simp only [sum_add_distrib]
    rw [sum_comm (s := s) (t := s) (f := fun i j => gain j i), two_mul]
  have nonneg (i : ℕ) (inI : i ∈ s) (j : ℕ) (inJ : j ∈ s) : 0 ≤ gain i j + gain j i := by
    rw [paired]
    rcases lt_trichotomy i j with before | rfl | after
    · exact mul_nonneg (sub_nonneg.mpr (weights i inI j inJ before).le) (sub_nonneg.mpr (ratios i inI j inJ before))
    · rw [sub_self, zero_mul]
    · exact mul_nonneg_of_nonpos_of_nonpos (sub_nonpos.mpr (weights j inJ i inI after).le)
        (sub_nonpos.mpr (ratios j inJ i inI after))
  have positive : 0 < gain a b + gain b a := by
    rw [paired]
    exact mul_pos (sub_pos.mpr (weights a first b second ordered)) (sub_pos.mpr strict)
  have sums : 0 < ∑ i ∈ s, ∑ j ∈ s, (gain i j + gain j i) :=
    sum_pos' (fun i inI => sum_nonneg (nonneg i inI)) ⟨a, first, sum_pos' (nonneg a first) ⟨b, second, positive⟩⟩
  rw [twice, total] at sums
  linarith

theorem beyond_mul {s t i j : ℕ} (nearer : s ≤ t) (ordered : i ≤ j) (reached : t ≤ i + m) :
    (j + m - t) * (i + m - s) = (i + m - t) * (j + m - s) + (j - i) * (t - s) := by
  obtain ⟨later, rfl⟩ := Nat.exists_eq_add_of_le ordered
  obtain ⟨further, rfl⟩ := Nat.exists_eq_add_of_le nearer
  obtain ⟨past, same⟩ := Nat.exists_eq_add_of_le reached
  rw [show i + later + m - (s + further) = past + later by omega, show i + m - s = past + further by omega,
    show i + m - (s + further) = past by omega, show i + later + m - s = past + further + later by omega,
    Nat.add_sub_cancel_left, Nat.add_sub_cancel_left]
  ring

theorem beyond_mul_le {s t i j : ℕ} (nearer : s ≤ t) (ordered : i ≤ j) :
    (i + m - t) * (j + m - s) ≤ (j + m - t) * (i + m - s) := by
  by_cases reached : t ≤ i + m
  · rw [beyond_mul nearer ordered reached]
    exact Nat.le_add_right _ _
  · rw [show i + m - t = 0 by omega, zero_mul]
    exact Nat.zero_le _

/-- With the larger factor, a larger share of the leaves lies far away. -/
theorem treeSum_beyond_lt (smaller : 0 < r) (larger : r < q) {k n : ℕ} (draws : 2 ≤ m) (deep : 2 ≤ k)
    (stops : k ≤ n) (exceeds : n + 1 < k + m) :
    treeSum q m k (fun _ => 1) 0 * treeSum r m k (fun x => if n < x then 1 else 0) 0 <
      treeSum q m k (fun x => if n < x then 1 else 0) 0 * treeSum r m k (fun _ => 1) 0 := by
  have weights (i : ℕ) (_ : i ∈ range k) (j : ℕ) (_ : j ∈ range k) (before : i < j) :
      visits q m i * visits r m j < visits q m j * visits r m i := by
    have positive := visits_pos (m := m) smaller (by omega)
    exact (div_lt_div_iff₀ (positive i) (positive j)).mp (visits_ratio_strictMono smaller larger (by omega) before)
  have ratios (i : ℕ) (_ : i ∈ range k) (j : ℕ) (_ : j ∈ range k) (before : i < j) :
      ((i + m - n : ℕ) : K) * (j + m - (k - 1) : ℕ) ≤ (j + m - n : ℕ) * (i + m - (k - 1) : ℕ) := by
    exact_mod_cast beyond_mul_le (by omega) before.le
  have strict : ((k - 2 + m - n : ℕ) : K) * (k - 1 + m - (k - 1) : ℕ) <
      (k - 1 + m - n : ℕ) * (k - 2 + m - (k - 1) : ℕ) := by
    have gains :=
      beyond_mul (m := m) (s := k - 1) (t := n) (i := k - 2) (j := k - 1) (by omega) (by omega) (by omega)
    have positive : 0 < (k - 1 - (k - 2)) * (n - (k - 1)) := Nat.mul_pos (by omega) (by omega)
    exact_mod_cast (by omega : (k - 2 + m - n) * (k - 1 + m - (k - 1)) < (k - 1 + m - n) * (k - 2 + m - (k - 1)))
  have factors : 0 < q * r := mul_pos (smaller.trans larger) smaller
  rw [treeSum_all (by omega), treeSum_all (by omega), treeSum_beyond (by omega) (by omega),
    treeSum_beyond (by omega) (by omega), mul_mul_mul_comm q _ r, mul_mul_mul_comm q _ r]
  refine mul_lt_mul_of_pos_left ?_ factors
  exact sum_mul_sum_lt weights ratios (mem_range.mpr (by omega)) (mem_range.mpr (by omega)) (by omega) strict

end DrawTree
