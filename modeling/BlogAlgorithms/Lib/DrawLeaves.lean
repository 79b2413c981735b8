import BlogAlgorithms.Lib.DrawTree
import Mathlib.Algebra.GroupWithZero.Action.Defs
import Mathlib.Algebra.Order.BigOperators.Group.List

namespace DrawTree

/-- The points at the leaves of the tree below `cur`, in the order of a depth-first
search. -/
def leafPoints (m k cur : ℕ) : List ℕ :=
  if k ≤ cur then [cur] else (List.range m).flatMap fun i => leafPoints m k (cur + i + 1)
  termination_by k - cur

variable {m k cur : ℕ}

theorem leafPoints_leaf (leaf : k ≤ cur) : leafPoints m k cur = [cur] := by
  rw [leafPoints, if_pos leaf]

theorem leafPoints_node (node : cur < k) :
    leafPoints m k cur = (List.range m).flatMap fun i => leafPoints m k (cur + i + 1) := by
  rw [leafPoints, if_neg (not_le.mpr node)]

theorem treeSum_eq_sum {R : Type*} [CommSemiring R] (value : ℕ → R) (cur : ℕ) :
    treeSum 1 m k value cur = ((leafPoints m k cur).map value).sum := by
  induction cur using tree_induction (k := k) with
  | leaf cur leaf => rw [treeSum_leaf leaf, leafPoints_leaf leaf, List.map_singleton, List.sum_singleton]
  | node cur node ih =>
    rw [treeSum_node node, one_mul, leafPoints_node node, List.flatMap, List.map_flatten, List.sum_flatten,
      List.map_map, List.map_map]
    simp only [ih]
    rfl

theorem treeSum_eq_length {R : Type*} [CommSemiring R] (cur : ℕ) :
    treeSum (1 : R) m k (fun _ => 1) cur = (leafPoints m k cur).length := by
  rw [treeSum_eq_sum, List.map_const', List.sum_replicate, nsmul_one]

theorem leafPoints_bounds {x : ℕ} (member : x ∈ leafPoints m k cur) : k ≤ x ∧ (x = cur ∨ x < k + m) := by
  induction cur using tree_induction (k := k) with
  | leaf cur leaf =>
    rw [leafPoints_leaf leaf, List.mem_singleton] at member
    exact ⟨member ▸ leaf, Or.inl member⟩
  | node cur node ih =>
    rw [leafPoints_node node, List.mem_flatMap] at member
    obtain ⟨i, inside, below⟩ := member
    obtain ⟨leaf, last | earlier⟩ := ih i below
    · have draw := List.mem_range.mp inside
      exact ⟨leaf, Or.inr (by omega)⟩
    · exact ⟨leaf, Or.inr earlier⟩

theorem leafPoints_ne_nil (draws : 0 < m) (cur : ℕ) : leafPoints m k cur ≠ [] := by
  induction cur using tree_induction (k := k) with
  | leaf cur leaf =>
    rw [leafPoints_leaf leaf]
    exact List.cons_ne_nil _ _
  | node cur node ih =>
    rw [leafPoints_node node]
    intro empty
    exact ih 0 (List.flatMap_eq_nil_iff.mp empty 0 (List.mem_range.mpr draws))

theorem length_leafPoints_le (draws : 0 < m) (cur : ℕ) : (leafPoints m k cur).length ≤ m ^ (k - cur) := by
  induction cur using tree_induction (k := k) with
  | leaf cur leaf =>
    rw [leafPoints_leaf leaf, List.length_singleton]
    exact Nat.one_le_pow _ _ draws
  | node cur node ih =>
    have each (i : ℕ) : (leafPoints m k (cur + i + 1)).length ≤ m ^ (k - (cur + 1)) :=
      (ih i).trans (Nat.pow_le_pow_right draws (by omega))
    have exponent : k - cur = k - (cur + 1) + 1 := by omega
    have sum := List.sum_le_card_nsmul ((List.range m).map fun i => (leafPoints m k (cur + i + 1)).length)
      (m ^ (k - (cur + 1))) fun x member => by
        obtain ⟨i, _, rfl⟩ := List.mem_map.mp member
        exact each i
    rwa [List.length_map, List.length_range, smul_eq_mul, ← pow_succ', ← exponent, ← List.length_flatMap,
      ← leafPoints_node node] at sum

end DrawTree
