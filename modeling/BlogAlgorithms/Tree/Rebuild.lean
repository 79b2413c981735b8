import BlogAlgorithms.Tree.Construct
import BlogAlgorithms.Tree.InsertRuns

namespace BlogAlgorithms
open Java

namespace BSTNode

/-- Values below the root never leave its left subtree. -/
theorem foldl_place_left {here : Int} {left right : BSTNode} {values : List Int}
    (below : ∀ value ∈ values, value < here) :
    values.foldl place (node here left right) = node here (values.foldl place left) right := by
  induction values generalizing left with
  | nil => rfl
  | cons value rest ih =>
    have smaller := below value List.mem_cons_self
    have step : (node here left right).place value = node here (left.place value) right := by
      simp only [place, smaller.ne, smaller, if_true, if_false]
    rw [List.foldl_cons, step, ih fun other member => below other (List.mem_cons_of_mem _ member)]
    rfl

theorem foldl_place_right {here : Int} {left right : BSTNode} {values : List Int}
    (above : ∀ value ∈ values, here < value) :
    values.foldl place (node here left right) = node here left (values.foldl place right) := by
  induction values generalizing right with
  | nil => rfl
  | cons value rest ih =>
    have larger := above value List.mem_cons_self
    have step : (node here left right).place value = node here left (right.place value) := by
      simp only [place, larger.ne', Int.not_lt.mpr larger.le, if_false]
    rw [List.foldl_cons, step, ih fun other member => above other (List.mem_cons_of_mem _ member)]
    rfl

/-- Insertion in pre-order grows the same tree again: the left values all
come before the right ones, and neither side crosses the root. -/
theorem foldl_place_preOrder {tree : BSTNode} (ordered : Ordered tree) :
    tree.preOrder.foldl place null = tree := by
  induction tree with
  | null => rfl
  | node here left right leftIh rightIh =>
    obtain ⟨onLeft, onRight, below, above⟩ := ordered_node.mp ordered
    have leftBelow : ∀ value ∈ left.preOrder, value < here :=
      fun value member => below value (left.perm_preOrder_inOrder.mem_iff.mp member)
    have rightAbove : ∀ value ∈ right.preOrder, here < value :=
      fun value member => above value (right.perm_preOrder_inOrder.mem_iff.mp member)
    simp only [preOrder, List.foldl_cons, List.foldl_append, place]
    rw [foldl_place_left leftBelow, leftIh onLeft, foldl_place_right rightAbove, rightIh onRight]

theorem Ordered.nodup {tree : BSTNode} (ordered : Ordered tree) : tree.inOrder.Nodup :=
  List.Pairwise.imp (fun smaller => smaller.ne) ordered

end BSTNode

namespace BinarySearchTree

theorem insertAll_distinct {values : List Int} (distinct : values.Nodup) :
    insertAll {} values = .ok (List.replicate values.length true, grown values) := by
  induction values using List.reverseRecOn with
  | nil => rfl
  | append_singleton values value ih =>
    obtain ⟨earlier, _, disjoint⟩ := List.nodup_append.mp distinct
    have fresh : value ∉ values := fun member => disjoint value member value (by simp) rfl
    have missed : (grown values).search value = false := by
      rw [← Bool.not_eq_true, (grown_stores values).search_iff]
      exact fresh
    have call := (grown values).insert_eq value
    rw [missed] at call
    have run := insertAll_concat (ih earlier) call
    rw [run, grown_concat, List.length_append, List.length_singleton, List.replicate_succ']
    rfl

/-- The two ways of rebuilding a reachable tree agree with it: inserting its
pre-order into a new tree, and decoding its two traversals. -/
theorem insertAll_preOrder {values : List Int} {answers : List Bool} {tree : BinarySearchTree}
    (run : insertAll {} values = .ok (answers, tree)) :
    insertAll {} tree.Root.preOrder =
        .ok (List.replicate tree.Root.preOrder.length true, tree) ∧
      Returns (fun fuel => BSTNode.constructBST fuel tree.Root.preOrder tree.Root.inOrder) tree.Root := by
  obtain ⟨flags, same⟩ := insertAll_grown values
  obtain ⟨_, rfl⟩ := Prod.mk.inj (Except.ok.inj (run.symm.trans same))
  have ordered := (grown_stores values).ordered
  have distinct := ordered.nodup
  have rebuilt : grown (grown values).Root.preOrder = grown values :=
    congrArg BinarySearchTree.mk (BSTNode.foldl_place_preOrder ordered)
  constructor
  · rw [insertAll_distinct ((BSTNode.perm_preOrder_inOrder _).nodup_iff.mpr distinct), rebuilt]
  · exact BSTNode.constructRange_returns (Segment.whole _) (Segment.whole _) distinct

theorem insertAll_preOrder_after_repeat :
    insertAll {} [2, 1, 3] = .ok ([true, true, true], grown [2, 3, 2, 1]) ∧
      Returns (fun fuel => BSTNode.constructBST fuel [2, 1, 3] [1, 2, 3]) (grown [2, 3, 2, 1]).Root := by
  have run : insertAll {} [2, 3, 2, 1] = .ok ([true, true, false, true], grown [2, 3, 2, 1]) := by decide
  exact insertAll_preOrder run

end BinarySearchTree
end BlogAlgorithms
