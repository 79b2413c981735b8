import BlogAlgorithms.Tree.BinaryTree
import Mathlib.Algebra.Ring.Nat

namespace BlogAlgorithms
open Java

/-- What a stacked node still has to print in symmetric order. -/
def BinaryNode.upcoming : BinaryNode → List (Option String)
  | null => []
  | node data _ right => data :: right.inOrder

def BinaryNode.weight : BinaryNode → Nat
  | null => 0
  | node _ _ right => right.size + 1

namespace Traversal

/-- There is no null reference on the stack. -/
def Solid (state : Traversal) : Prop := ∀ node ∈ state.stack, node ≠ .null

theorem Solid.tail {state : Traversal} {top : BinaryNode} {rest : List BinaryNode} (solid : state.Solid)
    (stack : state.stack = top :: rest) : top ≠ .null ∧ ∀ node ∈ rest, node ≠ .null := by
  unfold Solid at solid
  rw [stack] at solid
  exact List.forall_mem_cons.mp solid

theorem preOrderPass_node {state : Traversal} {data : Option String} {left right : BinaryNode}
    {rest : List BinaryNode} (stack : state.stack = .node data left right :: rest) :
    preOrderPass state = .ok
      { stack := [left, right].filter (· ≠ .null) ++ rest
        current := .node data left right
        printed := state.printed ++ [data] } := by
  simp only [preOrderPass, pop, stack, ok_bind, BinaryNode.getData, BinaryNode.getLeft, BinaryNode.getRight,
    println, push]
  by_cases noLeft : left = .null <;> by_cases noRight : right = .null <;> simp [noLeft, noRight]

/-- The stack holds the subtrees that are still to be printed, the next one
on top. -/
structure PreOrdering (root : BinaryNode) (state : Traversal) : Prop where
  solid : state.Solid
  prints : state.printed ++ state.stack.flatMap BinaryNode.preOrder = root.preOrder

def stackSize (state : Traversal) : Nat := (state.stack.map BinaryNode.size).sum

theorem flatMap_preOrder_present (left right : BinaryNode) :
    ([left, right].filter (· ≠ .null)).flatMap BinaryNode.preOrder = left.preOrder ++ right.preOrder := by
  cases left <;> cases right <;> simp [BinaryNode.preOrder]

theorem sum_size_present (left right : BinaryNode) :
    (([left, right].filter (· ≠ .null)).map BinaryNode.size).sum = left.size + right.size := by
  cases left <;> cases right <;> simp [BinaryNode.size]

theorem PreOrdering.pass {root : BinaryNode} {state : Traversal} (ordering : PreOrdering root state)
    (running : stacked state = .ok true) :
    ∃ next, preOrderPass state = .ok next ∧ PreOrdering root next ∧ next.stackSize < state.stackSize := by
  obtain ⟨solid, prints⟩ := ordering
  cases stack : state.stack with
  | nil => simp [stacked, stack] at running
  | cons top rest =>
    obtain ⟨present, others⟩ := solid.tail stack
    obtain ⟨data, left, right, rfl⟩ := BinaryNode.ne_null_iff.mp present
    refine ⟨_, preOrderPass_node stack, ⟨?_, ?_⟩, ?_⟩
    · intro node member
      rcases List.mem_append.mp member with child | old
      · simpa using (List.mem_filter.mp child).2
      · exact others node old
    · rw [stack, List.flatMap_cons, BinaryNode.preOrder] at prints
      rw [List.flatMap_append, flatMap_preOrder_present, ← prints]
      simp
    · simp only [stackSize, stack, List.map_append, List.sum_append, sum_size_present, List.map_cons,
        List.sum_cons, BinaryNode.size]
      omega

theorem preOrdering_start {root : BinaryNode} (present : root ≠ .null) :
    PreOrdering root { stack := [root] } where
  solid := by
    intro node member
    rw [List.mem_singleton.mp member]
    exact present
  prints := by simp

/-- The lines that the loop over `current` and the stack still has to print. -/
def remaining (state : Traversal) : List (Option String) :=
  state.current.inOrder ++ state.stack.flatMap BinaryNode.upcoming

def weight (state : Traversal) : Nat :=
  state.current.size + (state.stack.map BinaryNode.weight).sum

/-- What the inner loop keeps while it goes down to the left. -/
structure Descends (first state : Traversal) : Prop where
  solid : state.Solid
  busy : state.current ≠ .null ∨ state.stack ≠ []
  printed : state.printed = first.printed
  remaining : state.remaining = first.remaining
  weight : state.weight = first.weight

/-- The node taken from the stack is the next one to be printed. -/
structure Pops (first next : Traversal) (data : Option String) (right : BinaryNode) : Prop where
  current : ∃ left, next.current = .node data left right
  solid : next.Solid
  printed : next.printed = first.printed
  remaining : first.remaining = data :: (right.inOrder ++ next.stack.flatMap BinaryNode.upcoming)
  weight : first.weight = right.size + (next.stack.map BinaryNode.weight).sum + 1

theorem Descends.pushLeft {first state : Traversal} (descends : Descends first state)
    (running : present state = .ok true) :
    ∃ next, state.pushLeft = .ok next ∧ Descends first next ∧ next.current.size < state.current.size := by
  obtain ⟨stack, current, printed⟩ := state
  obtain ⟨solid, busy, output, remains, weighs⟩ := descends
  have here : current ≠ .null := by simpa [present] using running
  obtain ⟨data, left, right, rfl⟩ := BinaryNode.ne_null_iff.mp here
  refine ⟨_, rfl, ⟨?_, Or.inr (by simp [push]), output, ?_, ?_⟩, ?_⟩
  · exact List.forall_mem_cons.mpr ⟨here, solid⟩
  · rw [← remains]
    simp [Traversal.remaining, push, BinaryNode.upcoming, BinaryNode.inOrder]
  · rw [← weighs]
    simp only [Traversal.weight, push, List.map_cons, List.sum_cons, BinaryNode.weight, BinaryNode.size]
    omega
  · simp only [BinaryNode.size]
    omega

theorem Descends.pop {first state : Traversal} (descends : Descends first state)
    (ended : present state = .ok false) :
    ∃ next, state.pop = .ok next ∧ ∃ data right, Pops first next data right := by
  obtain ⟨stack, current, printed⟩ := state
  obtain ⟨solid, busy, output, remains, weighs⟩ := descends
  have none : current = .null := by simpa [present] using ended
  subst none
  cases stack with
  | nil => simp at busy
  | cons top rest =>
    obtain ⟨present, others⟩ := solid.tail rfl
    obtain ⟨data, left, right, rfl⟩ := BinaryNode.ne_null_iff.mp present
    refine ⟨_, rfl, data, right, ⟨left, rfl⟩, others, output, ?_, ?_⟩
    · rw [← remains]
      simp [Traversal.remaining, BinaryNode.upcoming, BinaryNode.inOrder]
    · rw [← weighs]
      simp only [Traversal.weight, List.map_cons, List.sum_cons, BinaryNode.weight, BinaryNode.size]
      omega

theorem popLeftmost_ensures {state : Traversal} (solid : state.Solid)
    (busy : state.current ≠ .null ∨ state.stack ≠ []) :
    Ensures (fun fuel => popLeftmost fuel state) (fun next => ∃ data right, Pops state next data right) := by
  have loop : Ensures (fun fuel => whileLoop present (fun _ => Traversal.pushLeft) fuel state)
      (fun inner => Descends state inner ∧ present inner = .ok false) := by
    refine whileLoop_ensures (Descends state) (fun inner => inner.current.size) ?_ ⟨solid, busy, rfl, rfl, rfl⟩
    intro inner descends
    exact ⟨⟨_, rfl⟩, fun running => ensures_const.mpr (descends.pushLeft running)⟩
  exact loop.bind fun inner ⟨descends, ended⟩ => ensures_const.mpr (descends.pop ended)

theorem popLeftmost_confined {state : Traversal} (solid : state.Solid)
    (busy : state.current ≠ .null ∨ state.stack ≠ []) :
    Confined (fun fuel => popLeftmost fuel state) (fun next => ∃ data right, Pops state next data right) := by
  have loop : Confined (fun fuel => whileLoop present (fun _ => Traversal.pushLeft) fuel state)
      (fun inner => Descends state inner ∧ present inner = .ok false) := by
    apply whileLoop_confined (Descends state)
    · exact fun inner _ => ⟨_, rfl⟩
    · intro inner descends running
      obtain ⟨next, pushed, kept, _⟩ := descends.pushLeft running
      exact Confined.of_eq (fun _ => pushed) kept
    · exact ⟨solid, busy, rfl, rfl, rfl⟩
  apply loop.bind
  rintro inner ⟨descends, ended⟩
  obtain ⟨next, popped, pops⟩ := descends.pop ended
  exact Confined.of_eq (fun _ => popped) pops

/-- The invariant of the outer loop of `inorderNoRecursion`. -/
structure InOrdering (root : BinaryNode) (state : Traversal) : Prop where
  solid : state.Solid
  prints : state.printed ++ state.remaining = root.inOrder

theorem pending_iff {state : Traversal} :
    pending state = .ok true ↔ state.current ≠ .null ∨ state.stack ≠ [] := by
  simp only [pending, Except.ok.injEq, decide_eq_true_eq]

theorem InOrdering.pass {root : BinaryNode} {state : Traversal} (ordering : InOrdering root state)
    (running : pending state = .ok true) :
    Ensures (fun fuel => inorderPass fuel state)
      (fun next => InOrdering root next ∧ next.weight < state.weight) := by
  obtain ⟨solid, prints⟩ := ordering
  refine (popLeftmost_ensures solid (pending_iff.mp running)).bind ?_
  rintro next ⟨data, right, ⟨left, current⟩, others, printed, remains, weighs⟩
  refine ensures_const.mpr ⟨{ next with current := right, printed := next.printed ++ [data] }, ?_, ⟨others, ?_⟩, ?_⟩
  · simp only [current, BinaryNode.getData, BinaryNode.getRight, println, ok_bind]
  · rw [← prints, remains, printed]
    simp [remaining]
  · rw [weighs]
    simp only [weight]
    omega

theorem inOrdering_start (root : BinaryNode) : InOrdering root { current := root } where
  solid := by simp [Solid]
  prints := by simp [remaining]

end Traversal

end BlogAlgorithms
