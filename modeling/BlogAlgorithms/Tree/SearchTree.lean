import BlogAlgorithms.Java.Exec

namespace BlogAlgorithms
open Java

/-- A reference to a `BSTNode`, with `null` for the missing child. -/
inductive BSTNode
  | null
  | node (value : Int) (left right : BSTNode)
  deriving DecidableEq, Repr

namespace BSTNode

def search : BSTNode → Int → Bool
  | null, _ => false
  | node here left right, value =>
    if value = here then true
    else if value < here then left.search value
    else right.search value

/-- The private `insert(node, value)`: its answer, and the subtree after the
link it may have set. -/
def insert : BSTNode → Int → Exec (Bool × BSTNode)
  | null, _ => throwing .nullPointer
  | node here left right, value =>
    if value = here then .ok (false, node here left right)
    else if value < here then
      if left = null then .ok (true, node here (node value null null) right)
      else do
        let (inserted, grown) ← left.insert value
        .ok (inserted, node here grown right)
    else
      if right = null then .ok (true, node here left (node value null null))
      else do
        let (inserted, grown) ← right.insert value
        .ok (inserted, node here left grown)

/-- The values in the order in which the recursive traversals print them. -/
def preOrder : BSTNode → List Int
  | null => []
  | node here left right => here :: (left.preOrder ++ right.preOrder)

def inOrder : BSTNode → List Int
  | null => []
  | node here left right => left.inOrder ++ here :: right.inOrder

end BSTNode

structure BinarySearchTree where
  Root : BSTNode := .null
  deriving DecidableEq, Repr

namespace BinarySearchTree

def search (tree : BinarySearchTree) (value : Int) : Bool := tree.Root.search value

def insert (tree : BinarySearchTree) (value : Int) : Exec (Bool × BinarySearchTree) :=
  if tree.Root = .null then .ok (true, { Root := .node value .null .null })
  else do
    let (inserted, root) ← tree.Root.insert value
    .ok (inserted, { Root := root })

/-- A sequence of calls, with the answers in the order of the calls. -/
def insertAll (tree : BinarySearchTree) : List Int → Exec (List Bool × BinarySearchTree)
  | [] => .ok ([], tree)
  | value :: rest => do
    let (inserted, next) ← tree.insert value
    let (answers, last) ← next.insertAll rest
    .ok (inserted :: answers, last)

end BinarySearchTree

namespace BSTNode

/-- What an insertion is for, on the missing subtree as well. -/
def place : BSTNode → Int → BSTNode
  | null, value => node value null null
  | node here left right, value =>
    if value = here then node here left right
    else if value < here then node here (left.place value) right
    else node here left (right.place value)

theorem insert_eq_place {tree : BSTNode} (present : tree ≠ null) (value : Int) :
    tree.insert value = .ok (!tree.search value, tree.place value) := by
  induction tree with
  | null => exact absurd rfl present
  | node here left right leftIh rightIh =>
    by_cases same : value = here
    · simp [insert, search, place, same]
    by_cases below : value < here
    · by_cases missing : left = null
      · simp [insert, search, place, same, below, missing]
      · simp [insert, search, place, same, below, missing, leftIh missing]
    · by_cases missing : right = null
      · simp [insert, search, place, same, below, missing]
      · simp [insert, search, place, same, below, missing, rightIh missing]

/-- The order of the whole tree: each value lies above everything to its
left and below everything to its right. -/
def Ordered (tree : BSTNode) : Prop := tree.inOrder.Pairwise (· < ·)

theorem ordered_null : Ordered null := List.Pairwise.nil

theorem ordered_node {here : Int} {left right : BSTNode} :
    Ordered (node here left right) ↔ Ordered left ∧ Ordered right ∧
      (∀ value ∈ left.inOrder, value < here) ∧ (∀ value ∈ right.inOrder, here < value) := by
  simp only [Ordered, inOrder, List.pairwise_append, List.pairwise_cons, List.mem_cons]
  constructor
  · rintro ⟨onLeft, ⟨above, onRight⟩, across⟩
    exact ⟨onLeft, onRight, fun value member => across value member here (Or.inl rfl), above⟩
  · rintro ⟨onLeft, onRight, below, above⟩
    refine ⟨onLeft, ⟨above, onRight⟩, ?_⟩
    rintro low inLeft high (rfl | inRight)
    · exact below low inLeft
    · exact (below low inLeft).trans (above high inRight)

theorem mem_inOrder_node {here value : Int} {left right : BSTNode} :
    value ∈ (node here left right).inOrder ↔
      value ∈ left.inOrder ∨ value = here ∨ value ∈ right.inOrder := by
  simp only [inOrder, List.mem_append, List.mem_cons]

theorem search_iff_mem {tree : BSTNode} (ordered : Ordered tree) (value : Int) :
    tree.search value = true ↔ value ∈ tree.inOrder := by
  induction tree with
  | null => simp [search, inOrder]
  | node here left right leftIh rightIh =>
    obtain ⟨onLeft, onRight, below, above⟩ := ordered_node.mp ordered
    rw [mem_inOrder_node, ← leftIh onLeft, ← rightIh onRight]
    have leftBelow : left.search value = true → value < here :=
      fun found => below value ((leftIh onLeft).mp found)
    have rightAbove : right.search value = true → here < value :=
      fun found => above value ((rightIh onRight).mp found)
    change (if value = here then true else if value < here then left.search value
      else right.search value) = true ↔ _
    split
    · rename_i same
      simp [same]
    · rename_i different
      split
      · rename_i smaller
        constructor
        · exact Or.inl
        · rintro (found | same | found)
          · exact found
          · exact absurd same different
          · exact absurd (rightAbove found) (by omega)
      · rename_i larger
        constructor
        · exact fun found => Or.inr (Or.inr found)
        · rintro (found | same | found)
          · exact absurd (leftBelow found) larger
          · exact absurd same different
          · exact found

theorem mem_place {tree : BSTNode} {value other : Int} :
    other ∈ (tree.place value).inOrder ↔ other = value ∨ other ∈ tree.inOrder := by
  induction tree with
  | null => simp [place, inOrder]
  | node here left right leftIh rightIh =>
    unfold place
    split
    · rename_i same
      simp only [mem_inOrder_node, same]
      refine ⟨Or.inr, fun member => ?_⟩
      rcases member with atHere | old
      · exact Or.inr (Or.inl atHere)
      · exact old
    · split
      · simp only [mem_inOrder_node, leftIh, or_assoc]
      · simp only [mem_inOrder_node, rightIh, or_left_comm]

theorem Ordered.place {tree : BSTNode} (ordered : Ordered tree) (value : Int) :
    Ordered (tree.place value) := by
  induction tree with
  | null => simp [Ordered, BSTNode.place, inOrder]
  | node here left right leftIh rightIh =>
    obtain ⟨onLeft, onRight, below, above⟩ := ordered_node.mp ordered
    unfold BSTNode.place
    split
    · exact ordered
    · rename_i different
      split
      · rename_i smaller
        refine ordered_node.mpr ⟨leftIh onLeft, onRight, fun other member => ?_, above⟩
        rcases mem_place.mp member with rfl | old
        · exact smaller
        · exact below other old
      · rename_i larger
        refine ordered_node.mpr ⟨onLeft, rightIh onRight, below, fun other member => ?_⟩
        rcases mem_place.mp member with rfl | old
        · omega
        · exact above other old

theorem place_of_search {tree : BSTNode} {value : Int} (found : tree.search value = true) :
    tree.place value = tree := by
  induction tree with
  | null => simp [search] at found
  | node here left right leftIh rightIh =>
    unfold search at found
    unfold place
    split
    · rfl
    · rename_i different
      simp only [different, if_false] at found
      split
      · rename_i smaller
        simp only [smaller, if_true] at found
        rw [leftIh found]
      · rename_i larger
        simp only [larger, if_false] at found
        rw [rightIh found]

end BSTNode
end BlogAlgorithms
