import BlogAlgorithms.Graph.Model
import BlogAlgorithms.Java.Loop

namespace BlogAlgorithms.Graph
open Java

/-- The lines that the searches print: a number alone, and `s to v: ` before the
numbers on a path. -/
inductive Line
  | vertext (s : Int)
  | path (s v : Int) (vertexts : List Int)
  deriving DecidableEq, Repr

/-- The call `vertextNodes[i].getNode()`. The list that starts at the node
does not change during a search. -/
def getNode (g : Graph) (i : Int) : Exec (List Int) := do
  match ← arrayGet g.vertextNodes i with
  | some vertext => .ok vertext.node
  | none => throwing .nullPointer

/-- The arrays and the queue of a running `bfs`. -/
structure BfsState where
  marked : List Bool
  edgeTo : List Int
  queue : List Int

/-- One pass of the inner loop of `bfs`. -/
def visit (temp : Int) (state : BfsState) (adjvex : Int) : Exec BfsState := do
  if ← arrayGet state.marked adjvex then .ok state
  else do
    let marked ← arraySet state.marked adjvex true
    let edgeTo ← arraySet state.edgeTo adjvex temp
    .ok { marked := marked, edgeTo := edgeTo, queue := state.queue ++ [adjvex] }

/-- One pass of the outer loop of `bfs`. -/
def bfsStep (g : Graph) (state : BfsState) : Exec BfsState :=
  match state.queue with
  | [] => throwing .noSuchElement
  | temp :: queue => do
    let node ← g.getNode temp
    node.foldlM (visit temp) { state with queue := queue }

def bfs (fuel : Nat) (g : Graph) (s : Int) : Exec Graph := do
  let marked ← newArray g.vertextSize false
  let edgeTo ← newArray g.vertextSize 0
  let marked ← arraySet marked s true
  let state ← whileLoop (fun state => .ok (!state.queue.isEmpty)) (fun _ => g.bfsStep) fuel
    { marked := marked, edgeTo := edgeTo, queue := [s] }
  .ok { g with marked := some state.marked, edgeTo := some state.edgeTo }

/-- The arrays of a running `depthFirstSearch` and the lines printed so far. -/
structure DfsState where
  marked : List Bool
  edgeTo : List Int
  printed : List Line

/-- One pass of the loop of `dfs`, where `call` is the recursive call. -/
def descend (call : Int → DfsState → Exec DfsState) (s : Int) (state : DfsState)
    (adjvex : Int) : Exec DfsState := do
  if ← arrayGet state.marked adjvex then .ok state
  else do
    let edgeTo ← arraySet state.edgeTo adjvex s
    call adjvex { state with edgeTo := edgeTo }

/-- The private `dfs(s)`. -/
def dfs (g : Graph) : Nat → Int → DfsState → Exec DfsState
  | 0, _, _ => .error .outOfFuel
  | fuel + 1, s, state => do
    let marked ← arraySet state.marked s true
    let node ← g.getNode s
    node.foldlM (descend (g.dfs fuel) s) { state with marked := marked, printed := state.printed ++ [.vertext s] }

def depthFirstSearch (fuel : Nat) (g : Graph) (s : Int) : Exec (Graph × List Line) := do
  let marked ← newArray g.vertextSize false
  let edgeTo ← newArray g.vertextSize 0
  let state ← g.dfs fuel s { marked := marked, edgeTo := edgeTo, printed := [] }
  .ok ({ g with marked := some state.marked, edgeTo := some state.edgeTo }, state.printed)

/-- Read a field that is null before the first search. -/
def nonNull {α : Type} (field : Option α) : Exec α :=
  match field with
  | some value => .ok value
  | none => throwing .nullPointer

def hasPathTo (g : Graph) (v : Int) : Exec Bool := do
  arrayGet (← nonNull g.marked) v

/-- One pass of the loop of `pathTo`: `path.push(i)` and `i = edgeTo[i]`. -/
def pathStep (g : Graph) (state : List Int × Int) : Exec (List Int × Int) := do
  let (path, i) := state
  let edgeTo ← nonNull g.edgeTo
  .ok (i :: path, ← arrayGet edgeTo i)

/-- The lines that `pathTo` prints. -/
def pathTo (fuel : Nat) (g : Graph) (s v : Int) : Exec (List Line) := do
  if ← g.hasPathTo v then do
    let (path, _) ← whileLoop (fun state => .ok (state.2 != s)) (fun _ => g.pathStep) fuel ([], v)
    .ok [.path s v path]
  else .ok []

end BlogAlgorithms.Graph
