import BlogAlgorithms.Tree.Traversals

namespace BlogAlgorithms.BinaryTree
open Java Traversal

theorem preOrder_loop {tree : BinaryTree} (present : tree.root ≠ .null) :
    Ensures (fun fuel => whileLoop stacked (fun _ => preOrderPass) fuel { stack := [tree.getRoot] })
      (fun final => PreOrdering tree.root final ∧ stacked final = .ok false) := by
  apply whileLoop_ensures (PreOrdering tree.root) stackSize
  · intro state ordering
    exact ⟨⟨_, rfl⟩, fun running => ensures_const.mpr (ordering.pass running)⟩
  · exact preOrdering_start present

theorem preOrderNoRecursion_returns (tree : BinaryTree) (present : tree.root ≠ .null) :
    Returns (fun fuel => preOrderNoRecursion fuel tree) tree.root.preOrder := by
  obtain ⟨final, returns, ⟨_, prints⟩, ended⟩ := preOrder_loop present
  have empty : final.stack = [] := by simpa [stacked] using ended
  rw [empty, List.flatMap_nil, List.append_nil] at prints
  rw [← prints]
  exact returns.bind (.ok final.printed)

theorem preOrderNoRecursion_returns_three :
    Returns (fun fuel => preOrderNoRecursion fuel
      { root := .node (some "B") (.node (some "D") .null .null) (.node (some "E") .null .null) })
      [some "B", some "D", some "E"] :=
  preOrderNoRecursion_returns _ (by simp)

theorem inorder_loop (tree : BinaryTree) :
    Ensures (fun fuel => whileLoop pending inorderPass fuel { current := tree.getRoot })
      (fun final => InOrdering tree.root final ∧ pending final = .ok false) := by
  apply whileLoop_ensures (InOrdering tree.root) weight
  · exact fun state ordering => ⟨⟨_, rfl⟩, ordering.pass⟩
  · exact inOrdering_start tree.root

theorem inorderNoRecursion_returns (tree : BinaryTree) :
    Returns (fun fuel => inorderNoRecursion fuel tree) tree.root.inOrder := by
  obtain ⟨final, returns, ⟨_, prints⟩, ended⟩ := inorder_loop tree
  have done : final.current = .null ∧ final.stack = [] := by simpa [pending] using ended
  rw [remaining, done.1, done.2, BinaryNode.inOrder, List.flatMap_nil, List.append_nil, List.append_nil] at prints
  rw [← prints]
  exact returns.bind (.ok final.printed)

/-- The node that an iteration takes from the stack is the one that the next
iteration puts back. -/
theorem postorderNoRecursion_diverges {tree : BinaryTree} (present : tree.root ≠ .null) :
    Diverges (fun fuel => postorderNoRecursion fuel tree) := by
  have loop : Diverges (fun fuel => whileLoop pending postorderPass fuel { current := tree.getRoot }) := by
    apply whileLoop_diverges (fun state => state.Solid ∧ state.current ≠ .null)
    · exact fun state kept => pending_iff.mpr (Or.inl kept.2)
    · rintro state ⟨solid, here⟩
      apply (popLeftmost_confined solid (Or.inl here)).mono
      rintro next ⟨data, right, ⟨left, current⟩, others, -⟩
      exact ⟨others, by simp [current]⟩
    · exact ⟨by simp [Solid], present⟩
  exact loop.bind _

theorem postorderNoRecursion_returns_iff (tree : BinaryTree) :
    Returns (fun fuel => postorderNoRecursion fuel tree) tree.root.postOrder ↔ tree.root = .null := by
  constructor
  · intro returns
    by_contra present
    exact (postorderNoRecursion_diverges present).not_returns returns
  · intro none
    have idle : pending { current := tree.getRoot } = .ok false := by simp [pending, getRoot, none]
    rw [none]
    exact (whileLoop_ends idle).bind (.ok [])

theorem postorderNoRecursion_leaf :
    Diverges (fun fuel => postorderNoRecursion fuel { root := .node (some "G") .null .null }) ∧
      (BinaryNode.node (some "G") .null .null).postOrder = [some "G"] :=
  ⟨postorderNoRecursion_diverges (by simp), rfl⟩

theorem preOrderNoRecursion_null {tree : BinaryTree} (none : tree.root = .null) :
    Throws (fun fuel => preOrderNoRecursion fuel tree) .nullPointer := by
  have loop : Throws (fun fuel => whileLoop stacked (fun _ => preOrderPass) fuel { stack := [tree.getRoot] })
      .nullPointer := by
    refine ⟨1, fun fuel bound => ?_⟩
    obtain ⟨below, rfl⟩ : ∃ below, fuel = below + 1 := ⟨fuel - 1, by omega⟩
    simp only [getRoot, none]
    rfl
  exact loop.bind fun _ final => .ok final.printed

/-- Every iteration of either loop takes a node from the stack that is not
null, and neither traversal ends with a `NullPointerException`. -/
structure NullFree (tree : BinaryTree) : Prop where
  preOrder : ∀ state, Reached stacked (fun _ => preOrderPass) { stack := [tree.getRoot] } state →
    stacked state = .ok true → Ensures (fun _ => state.pop) (fun next => next.current ≠ .null)
  inorder : ∀ state, Reached pending inorderPass { current := tree.getRoot } state →
    pending state = .ok true → Ensures (fun fuel => popLeftmost fuel state) (fun next => next.current ≠ .null)
  preOrder_ends : ¬ Throws (fun fuel => preOrderNoRecursion fuel tree) .nullPointer
  inorder_ends : ¬ Throws (fun fuel => inorderNoRecursion fuel tree) .nullPointer

theorem reached_preOrdering {tree : BinaryTree} (present : tree.root ≠ .null) {state : Traversal}
    (reached : Reached stacked (fun _ => preOrderPass) { stack := [tree.getRoot] } state) :
    PreOrdering tree.root state := by
  apply reached.keeps (PreOrdering tree.root) (preOrdering_start present)
  intro state later ordering running returns
  obtain ⟨next, pass, kept, _⟩ := ordering.pass running
  rwa [returns.unique (returns_const.mpr pass)]

theorem reached_inOrdering {tree : BinaryTree} {state : Traversal}
    (reached : Reached pending inorderPass { current := tree.getRoot } state) : InOrdering tree.root state := by
  apply reached.keeps (InOrdering tree.root) (inOrdering_start tree.root)
  intro state later ordering running returns
  obtain ⟨next, pass, kept, _⟩ := ordering.pass running
  rwa [returns.unique pass]

theorem nullFree_iff (tree : BinaryTree) : NullFree tree ↔ tree.root ≠ .null := by
  constructor
  · intro free none
    exact free.preOrder_ends (preOrderNoRecursion_null none)
  · intro present
    refine ⟨?_, ?_, ?_, ?_⟩
    · intro state reached running
      have solid := (reached_preOrdering present reached).solid
      cases stack : state.stack with
      | nil => simp [stacked, stack] at running
      | cons top rest =>
        refine ensures_const.mpr ⟨{ state with stack := rest, current := top }, ?_, (solid.tail stack).1⟩
        simp only [pop, stack]
    · intro state reached running
      apply (popLeftmost_ensures (reached_inOrdering reached).solid (pending_iff.mp running)).mono
      rintro next ⟨data, right, ⟨left, current⟩, -⟩
      simp [current]
    · intro throws
      obtain ⟨final, returns, _⟩ := preOrder_loop present
      exact throws.not_returns (returns.bind (.ok final.printed))
    · intro throws
      obtain ⟨final, returns, _⟩ := inorder_loop tree
      exact throws.not_returns (returns.bind (.ok final.printed))

theorem preOrderNoRecursion_new :
    Throws (fun fuel => preOrderNoRecursion fuel {}) .nullPointer :=
  preOrderNoRecursion_null rfl

end BlogAlgorithms.BinaryTree
