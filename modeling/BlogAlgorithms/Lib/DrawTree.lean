import Mathlib.Algebra.BigOperators.Ring.Finset
import Mathlib.Order.Interval.Finset.Nat
import Mathlib.Tactic.Ring

namespace DrawTree
open Finset

variable {R : Type*} [CommSemiring R]

/-- The values at the leaves of the tree of draws from `1..m` below `cur`,
whose leaves are the points from `k` on. Each draw on the way to a leaf
contributes a factor `q`: with `q = 1` the leaves are counted, and with
`q = 1 / m` each one has its probability. -/
def treeSum (q : R) (m k : ℕ) (value : ℕ → R) (cur : ℕ) : R :=
  if k ≤ cur then value cur else q * ∑ i ∈ range m, treeSum q m k value (cur + i + 1)
  termination_by k - cur

/-- The same sum over the ways from the root to a point `j`. -/
def visits (q : R) (m : ℕ) : ℕ → R
  | 0 => 1
  | j + 1 => q * ∑ i ∈ (Ico (j + 1 - m) (j + 1)).attach, visits q m i.1
  decreasing_by exact (mem_Ico.mp i.2).2

variable {q : R} {m k : ℕ} {value : ℕ → R} {cur : ℕ}

theorem treeSum_leaf (leaf : k ≤ cur) : treeSum q m k value cur = value cur := by
  rw [treeSum, if_pos leaf]

theorem treeSum_node (node : cur < k) :
    treeSum q m k value cur = q * ∑ i ∈ range m, treeSum q m k value (cur + i + 1) := by
  rw [treeSum, if_neg (not_le.mpr node)]

theorem visits_zero : visits q m 0 = 1 := by rw [visits]

theorem visits_eq {j : ℕ} (positive : 0 < j) : visits q m j = q * ∑ i ∈ Ico (j - m) j, visits q m i := by
  obtain ⟨j, rfl⟩ := Nat.exists_eq_add_one.mpr positive
  rw [visits, sum_attach _ (visits q m)]

/-- The induction over a tree of draws: towards the leaves, `k - cur` falls. -/
theorem tree_induction {motive : ℕ → Prop} (leaf : ∀ cur, k ≤ cur → motive cur)
    (node : ∀ cur, cur < k → (∀ i, motive (cur + i + 1)) → motive cur) (cur : ℕ) : motive cur := by
  induction size : k - cur using Nat.strong_induction_on generalizing cur with
  | _ bound ih =>
    by_cases inside : cur < k
    · exact node cur inside fun i => ih (k - (cur + i + 1)) (by omega) (cur + i + 1) rfl
    · exact leaf cur (not_lt.mp inside)

theorem treeSum_congr {other : ℕ → R} (same : ∀ x, k ≤ x → value x = other x) (cur : ℕ) :
    treeSum q m k value cur = treeSum q m k other cur := by
  induction cur using tree_induction (k := k) with
  | leaf cur leaf => rw [treeSum_leaf leaf, treeSum_leaf leaf, same cur leaf]
  | node cur node ih => rw [treeSum_node node, treeSum_node node, sum_congr rfl fun i _ => ih i]

theorem treeSum_add (value other : ℕ → R) (cur : ℕ) :
    treeSum q m k (fun x => value x + other x) cur = treeSum q m k value cur + treeSum q m k other cur := by
  induction cur using tree_induction (k := k) with
  | leaf cur leaf => rw [treeSum_leaf leaf, treeSum_leaf leaf, treeSum_leaf leaf]
  | node cur node ih =>
    rw [treeSum_node node, treeSum_node node, treeSum_node node, sum_congr rfl fun i _ => ih i, sum_add_distrib,
      mul_add]

theorem treeSum_zero (cur : ℕ) : treeSum q m k (fun _ => 0) cur = 0 := by
  induction cur using tree_induction (k := k) with
  | leaf cur leaf => rw [treeSum_leaf leaf]
  | node cur node ih => rw [treeSum_node node, sum_eq_zero fun i _ => ih i, mul_zero]

/-- The draws from a point that reach `s` or a point after it. -/
def crossing (m s : ℕ) (value : ℕ → R) (j : ℕ) : R :=
  ∑ i ∈ range m, if s ≤ j + i + 1 then value (j + i + 1) else 0

theorem crossing_next (s : ℕ) : crossing m (s + 1) value s = ∑ i ∈ range m, value (s + i + 1) :=
  sum_congr rfl fun i _ => if_pos (by omega)

/-- What crosses `s` lands on `s` or crosses the next point. -/
theorem crossing_split {s j : ℕ} (before : j < s) :
    crossing m s value j = (if s ≤ j + m then value s else 0) + crossing m (s + 1) value j := by
  have lands : (∑ i ∈ range m, if i = s - 1 - j then value s else 0) = if s ≤ j + m then value s else 0 := by
    rw [sum_ite_eq' (range m) (s - 1 - j) fun _ => value s]
    exact if_congr (by rw [mem_range]; omega) rfl rfl
  rw [← lands, crossing, crossing, ← sum_add_distrib]
  refine sum_congr rfl fun i _ => ?_
  by_cases here : i = s - 1 - j
  · rw [if_pos here, if_pos (by omega), if_neg (by omega), add_zero, show j + i + 1 = s by omega]
  · rw [if_neg here, zero_add]
    exact if_congr (by omega) rfl rfl

theorem sum_visits_landing {s : ℕ} (positive : 0 < s) (x : R) :
    q * ∑ j ∈ range s, visits q m j * (if s ≤ j + m then x else 0) = visits q m s * x := by
  have window : (range s).filter (fun j => s ≤ j + m) = Ico (s - m) s := by
    ext j
    rw [mem_filter, mem_range, mem_Ico]
    omega
  simp only [mul_ite, mul_zero]
  rw [← sum_filter, window, ← sum_mul, ← mul_assoc, ← visits_eq positive]

/-- The tree summed by the last point below `s` on the way to a leaf. -/
theorem treeSum_eq_crossing {s : ℕ} (positive : 0 < s) (bound : s ≤ k) :
    treeSum q m k value 0 = q * ∑ j ∈ range s, visits q m j * crossing m s (treeSum q m k value) j := by
  induction s, Nat.succ_le_of_lt positive using Nat.le_induction with
  | base =>
    rw [treeSum_node (by omega), sum_range_one, visits_zero, one_mul, crossing_next]
  | succ s atLeast ih =>
    have split : ∀ j ∈ range s, visits q m j * crossing m s (treeSum q m k value) j =
        visits q m j * (if s ≤ j + m then treeSum q m k value s else 0) +
          visits q m j * crossing m (s + 1) (treeSum q m k value) j := by
      intro j member
      rw [crossing_split (mem_range.mp member), mul_add]
    have next : visits q m s * treeSum q m k value s =
        q * (visits q m s * crossing m (s + 1) (treeSum q m k value) s) := by
      rw [treeSum_node (by omega), crossing_next, mul_left_comm]
    rw [ih (by omega) (by omega), sum_congr rfl split, sum_add_distrib, mul_add, sum_visits_landing (by omega),
      next, sum_range_succ, mul_add, add_comm]

theorem crossing_congr {s j : ℕ} {other : ℕ → R} (same : ∀ x, s ≤ x → value x = other x) :
    crossing m s value j = crossing m s other j := by
  refine sum_congr rfl fun i _ => ?_
  by_cases crosses : s ≤ j + i + 1
  · rw [if_pos crosses, if_pos crosses, same _ crosses]
  · rw [if_neg crosses, if_neg crosses]

/-- The tree summed by the last point above each leaf. -/
theorem treeSum_eq_visits (positive : 0 < k) :
    treeSum q m k value 0 = q * ∑ j ∈ range k, visits q m j * crossing m k value j := by
  rw [treeSum_eq_crossing positive le_rfl]
  exact congrArg (q * ·) (sum_congr rfl fun j _ => congrArg _ (crossing_congr fun x leaf => treeSum_leaf leaf))

/-- How many draws from `j` go beyond `s`, where every point beyond `s` is a leaf. -/
theorem crossing_beyond {s j : ℕ} (leaves : k ≤ s + 1) (before : j ≤ s) :
    crossing m k (fun x => if s < x then (1 : R) else 0) j = (j + m - s : ℕ) := by
  have window : (range m).filter (fun i => s < j + i + 1) = Ico (s - j) m := by
    ext i
    rw [mem_filter, mem_range, mem_Ico]
    omega
  have far : crossing m k (fun x => if s < x then (1 : R) else 0) j =
      ∑ i ∈ range m, if s < j + i + 1 then 1 else 0 := by
    refine sum_congr rfl fun i _ => ?_
    by_cases beyond : s < j + i + 1
    · rw [if_pos (by omega)]
    · simp only [if_neg beyond, ite_self]
  rw [far, sum_boole, window, Nat.card_Ico]
  congr 1
  omega

theorem treeSum_beyond {s : ℕ} (positive : 0 < k) (leaves : k ≤ s + 1) :
    treeSum q m k (fun x => if s < x then 1 else 0) 0 = q * ∑ j ∈ range k, visits q m j * (j + m - s : ℕ) := by
  rw [treeSum_eq_visits positive]
  refine congrArg (q * ·) (sum_congr rfl fun j member => ?_)
  have below := mem_range.mp member
  rw [crossing_beyond leaves (by omega)]

theorem treeSum_all (positive : 0 < k) :
    treeSum q m k (fun _ => 1) 0 = q * ∑ j ∈ range k, visits q m j * (j + m - (k - 1) : ℕ) := by
  rw [← treeSum_beyond positive (by omega)]
  exact treeSum_congr (fun x leaf => (if_pos (by omega)).symm) 0

theorem treeSum_one (unit : q * m = 1) (cur : ℕ) : treeSum q m k (fun _ => 1) cur = 1 := by
  induction cur using tree_induction (k := k) with
  | leaf cur leaf => rw [treeSum_leaf leaf]
  | node cur node ih =>
    rw [treeSum_node node, sum_congr rfl fun i _ => ih i, sum_const, card_range, nsmul_one, unit]

end DrawTree
