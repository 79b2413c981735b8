import BlogAlgorithms.Java.Array
import BlogAlgorithms.Java.Loop
import BlogAlgorithms.Tree.SearchTree
import Mathlib.Data.List.Nodup

namespace BlogAlgorithms.BSTNode
open Java

/-- One pass of the search for the root value in the in-order range. The
loop has no break, so every occurrence would rebuild both children. -/
def constructAt (construct : Int → Int → Int → Int → Exec BSTNode) (inOrder : List Int)
    (value preStart preEnd inStart inEnd i : Int) (root : BSTNode) : Exec BSTNode := do
  let found ← arrayGet inOrder i
  if value = found then do
    let left ← construct (preStart + 1) (preStart + (i - inStart)) inStart (i - 1)
    let right ← construct (preStart + (i - inStart) + 1) preEnd (i + 1) inEnd
    .ok (node value left right)
  else .ok root

/-- The private `constructBST` on `preStart..preEnd` and `inStart..inEnd`. -/
def constructRange (preOrder inOrder : List Int) : Nat → Int → Int → Int → Int → Exec BSTNode
  | 0, _, _, _, _ => .error .outOfFuel
  | fuel + 1, preStart, preEnd, inStart, inEnd =>
    if preEnd < preStart then .ok null
    else do
      let value ← arrayGet preOrder preStart
      forUp inStart inEnd
        (constructAt (constructRange preOrder inOrder fuel) inOrder value preStart preEnd inStart inEnd)
        (node value null null)

def constructBST (fuel : Nat) (preOrder inOrder : List Int) : Exec BSTNode :=
  constructRange preOrder inOrder fuel 0 (preOrder.length - 1) 0 (inOrder.length - 1)

theorem perm_preOrder_inOrder (tree : BSTNode) : tree.preOrder.Perm tree.inOrder := by
  induction tree with
  | null => rfl
  | node here left right leftIh rightIh =>
    simp only [preOrder, inOrder]
    exact ((leftIh.append rightIh).cons here).trans List.perm_middle.symm

section
variable {preOrder inOrder : List Int} {preStart preEnd inStart inEnd : Int}

/-- With both recursive calls known to return, one pass leaves the root alone
except at the position of its value. -/
theorem constructAt_returns {value i position : Int} {left right root : BSTNode}
    {construct : Nat → Int → Int → Int → Int → Exec BSTNode}
    (leftRuns : Returns (fun fuel => construct fuel
      (preStart + 1) (preStart + (position - inStart)) inStart (position - 1)) left)
    (rightRuns : Returns (fun fuel => construct fuel
      (preStart + (position - inStart) + 1) preEnd (position + 1) inEnd) right)
    {found : Int} (atFound : slot inOrder i = some found) (unique : value = found ↔ i = position) :
    Returns (fun fuel =>
        constructAt (construct fuel) inOrder value preStart preEnd inStart inEnd i root)
      (if i = position then node value left right else root) := by
  simp only [constructAt, arrayGet_of_slot atFound, ok_bind]
  by_cases atRoot : i = position
  · subst atRoot
    simp only [unique.mpr rfl, if_true]
    exact leftRuns.bind (rightRuns.bind (.ok _))
  · simp only [mt unique.mp atRoot, atRoot, if_false]
    exact .ok _

/-- Where the in-order range is cut at the root: only the root's own position
holds its value. -/
theorem root_position {value i found : Int} {left right : List Int}
    (range : Segment inOrder inStart inEnd (left ++ value :: right))
    (distinct : (left ++ value :: right).Nodup) (lower : inStart ≤ i) (upper : i ≤ inEnd)
    (atFound : slot inOrder i = some found) : value = found ↔ i = inStart + left.length := by
  have fresh := (List.nodup_middle.mp distinct).notMem
  have absent : ∀ {other}, other ∈ left ++ right → slot inOrder i = some other → value ≠ found := by
    intro other member atOther same
    have equal : found = other := Option.some.inj (atFound.symm.trans atOther)
    exact fresh (by rwa [same, equal])
  constructor
  · intro same
    by_contra elsewhere
    rcases Int.lt_or_lt_of_ne elsewhere with before | after
    · obtain ⟨other, member, atOther⟩ := range.append_left.mem lower (by omega : i ≤ _)
      exact absent (List.mem_append_left _ member) atOther same
    · obtain ⟨other, member, atOther⟩ := range.append_right.tail.mem (by omega : _ ≤ i) upper
      exact absent (List.mem_append_right _ member) atOther same
  · rintro rfl
    have atRoot := range.append_right.head
    exact Option.some.inj (atRoot.symm.trans atFound)

/-- The whole search loop, given what its two recursive calls return at the
position of the root. -/
theorem constructRange_node {value position : Int} {left right : BSTNode} {inLeft inRight : List Int}
    (nonempty : preStart ≤ preEnd) (atRoot : slot preOrder preStart = some value)
    (range : Segment inOrder inStart inEnd (inLeft ++ value :: inRight))
    (distinct : (inLeft ++ value :: inRight).Nodup) (cut : position = inStart + inLeft.length)
    (leftRuns : Returns (fun fuel => constructRange preOrder inOrder fuel
      (preStart + 1) (preStart + (position - inStart)) inStart (position - 1)) left)
    (rightRuns : Returns (fun fuel => constructRange preOrder inOrder fuel
      (preStart + (position - inStart) + 1) preEnd (position + 1) inEnd) right) :
    Returns (fun fuel => constructRange preOrder inOrder fuel preStart preEnd inStart inEnd)
      (node value left right) := by
  have stop := range.stop
  simp only [List.length_append, List.length_cons] at stop
  have loop : Ensures (fun fuel => forUp inStart inEnd
      (constructAt (constructRange preOrder inOrder fuel) inOrder value preStart preEnd inStart inEnd)
      (node value null null))
      (fun root => root = if inEnd + 1 ≤ position then node value null null else node value left right) := by
    refine forUp_ensures (fun i root =>
      root = if i ≤ position then node value null null else node value left right) ?_ (by omega) ?_
    · rintro i root lower upper rfl
      obtain ⟨found, _, atFound⟩ := range.mem lower upper
      have unique := root_position range distinct lower upper atFound
      rw [← cut] at unique
      refine ⟨_, constructAt_returns leftRuns rightRuns atFound unique, ?_⟩
      split_ifs <;> first | rfl | omega
    · rw [if_pos (by omega)]
  obtain ⟨root, returns, same⟩ := loop
  rw [if_neg (by omega)] at same
  subst same
  refine Returns.call (fun fuel => ?_) returns
  simp only [constructRange, Int.not_lt.mpr nonempty, if_false, arrayGet_of_slot atRoot, ok_bind]

/-- On the ranges that hold the two traversals of a tree without repeated
values the decoder returns that tree. -/
theorem constructRange_returns {tree : BSTNode}
    (pre : Segment preOrder preStart preEnd tree.preOrder)
    (ino : Segment inOrder inStart inEnd tree.inOrder) (distinct : tree.inOrder.Nodup) :
    Returns (fun fuel => constructRange preOrder inOrder fuel preStart preEnd inStart inEnd) tree := by
  induction tree generalizing preStart preEnd inStart inEnd with
  | null =>
    have empty : preEnd < preStart := by
      have last := pre.stop
      simp only [BSTNode.preOrder, List.length_nil] at last
      omega
    exact Returns.call (fun fuel => by simp only [constructRange, empty, if_true])
      (.ok _)
  | node here left right leftIh rightIh =>
    simp only [BSTNode.preOrder] at pre
    simp only [BSTNode.inOrder] at ino distinct
    obtain ⟨leftDistinct, rightDistinct, _⟩ := List.nodup_append.mp distinct
    have sameLength := left.perm_preOrder_inOrder.length_eq
    have stop := pre.stop
    simp only [List.length_cons, List.length_append] at stop
    refine constructRange_node (by omega) pre.head ino distinct rfl (leftIh ?_ ?_ leftDistinct)
      (rightIh ?_ ?_ (List.nodup_cons.mp rightDistinct).2)
    · have range := pre.tail.append_left
      rwa [show preStart + 1 + (left.preOrder.length : Int) - 1 =
        preStart + (inStart + (left.inOrder.length : Int) - inStart) by omega] at range
    · exact ino.append_left
    · have range := pre.tail.append_right
      rwa [show preStart + 1 + (left.preOrder.length : Int) =
        preStart + (inStart + (left.inOrder.length : Int) - inStart) + 1 by omega] at range
    · exact ino.append_right.tail

end

/-- Decoding the traversals of a tree of distinct values ends without an
index error and gives the tree back, whatever its shape. -/
theorem constructBST_traversals (tree : BSTNode) (distinct : tree.inOrder.Nodup) :
    Returns (fun fuel => constructBST fuel tree.preOrder tree.inOrder) tree :=
  constructRange_returns (Segment.whole _) (Segment.whole _) distinct

theorem constructBST_traversals_chain :
    Returns (fun fuel => constructBST fuel [3, 1, 2] [1, 2, 3])
      (node 3 (node 1 null (node 2 null null)) null) :=
  constructBST_traversals (node 3 (node 1 null (node 2 null null)) null) (by decide)

end BlogAlgorithms.BSTNode
