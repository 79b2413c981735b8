import BlogAlgorithms.Java.Reach

namespace BlogAlgorithms
open Java

/-- A reference to a `BinaryNode`, with `null` for the missing child. The
data is a reference too, and prints whether or not it is null. -/
inductive BinaryNode
  | null
  | node (data : Option String) (left right : BinaryNode)
  deriving DecidableEq, Repr

namespace BinaryNode

def getData : BinaryNode → Exec (Option String)
  | null => throwing .nullPointer
  | node data _ _ => .ok data

def getLeft : BinaryNode → Exec BinaryNode
  | null => throwing .nullPointer
  | node _ left _ => .ok left

def getRight : BinaryNode → Exec BinaryNode
  | null => throwing .nullPointer
  | node _ _ right => .ok right

/-- The lines that the recursive traversals print. -/
def preOrder : BinaryNode → List (Option String)
  | null => []
  | node data left right => data :: (left.preOrder ++ right.preOrder)

def inOrder : BinaryNode → List (Option String)
  | null => []
  | node data left right => left.inOrder ++ data :: right.inOrder

def postOrder : BinaryNode → List (Option String)
  | null => []
  | node data left right => left.postOrder ++ right.postOrder ++ [data]

def size : BinaryNode → Nat
  | null => 0
  | node _ left right => left.size + right.size + 1

theorem ne_null_iff {here : BinaryNode} : here ≠ null ↔ ∃ data left right, here = node data left right := by
  cases here with
  | null => simp
  | node data left right => simp

end BinaryNode

structure BinaryTree where
  root : BinaryNode := .null
  deriving DecidableEq, Repr

def BinaryTree.getRoot (tree : BinaryTree) : BinaryNode := tree.root

/-- The variables of the three traversals without recursion, and the lines
printed so far. -/
structure Traversal where
  stack : List BinaryNode := []
  current : BinaryNode := .null
  printed : List (Option String) := []

namespace Traversal

def push (state : Traversal) (node : BinaryNode) : Traversal := { state with stack := node :: state.stack }

/-- The statement `current = stack.pop()`. -/
def pop (state : Traversal) : Exec Traversal :=
  match state.stack with
  | [] => throwing .noSuchElement
  | top :: rest => .ok { state with stack := rest, current := top }

def println (state : Traversal) (data : Option String) : Traversal :=
  { state with printed := state.printed ++ [data] }

def stacked (state : Traversal) : Exec Bool := .ok (decide (state.stack ≠ []))

/-- The body of the loop of `preOrderNoRecursion`. -/
def preOrderPass (state : Traversal) : Exec Traversal := do
  let state ← state.pop
  let state := state.println (← state.current.getData)
  let right ← state.current.getRight
  let state := if right ≠ .null then state.push right else state
  let left ← state.current.getLeft
  .ok (if left ≠ .null then state.push left else state)

def present (state : Traversal) : Exec Bool := .ok (decide (state.current ≠ .null))

def pushLeft (state : Traversal) : Exec Traversal := do
  let left ← state.current.getLeft
  .ok { state.push state.current with current := left }

/-- The inner loop, and the `pop` after it, that the other two share. -/
def popLeftmost (fuel : Nat) (state : Traversal) : Exec Traversal := do
  let state ← whileLoop present (fun _ => pushLeft) fuel state
  state.pop

def pending (state : Traversal) : Exec Bool := .ok (decide (state.current ≠ .null ∨ state.stack ≠ []))

def inorderPass (fuel : Nat) (state : Traversal) : Exec Traversal := do
  let state ← popLeftmost fuel state
  let state := state.println (← state.current.getData)
  let right ← state.current.getRight
  .ok { state with current := right }

def postorderPass (fuel : Nat) (state : Traversal) : Exec Traversal := popLeftmost fuel state

end Traversal

namespace BinaryTree

def preOrderNoRecursion (fuel : Nat) (tree : BinaryTree) : Exec (List (Option String)) := do
  let stack := [tree.getRoot]
  let final ← whileLoop Traversal.stacked (fun _ => Traversal.preOrderPass) fuel { stack := stack }
  .ok final.printed

def inorderNoRecursion (fuel : Nat) (tree : BinaryTree) : Exec (List (Option String)) := do
  let final ← whileLoop Traversal.pending Traversal.inorderPass fuel { current := tree.getRoot }
  .ok final.printed

def postorderNoRecursion (fuel : Nat) (tree : BinaryTree) : Exec (List (Option String)) := do
  let final ← whileLoop Traversal.pending Traversal.postorderPass fuel { current := tree.getRoot }
  .ok final.printed

end BinaryTree

end BlogAlgorithms
