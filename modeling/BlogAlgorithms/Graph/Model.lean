import BlogAlgorithms.Java.Array
import BlogAlgorithms.Java.Comparator

namespace BlogAlgorithms
open Java

/-- A vertex with the vertex numbers along its chain of adjacency nodes. The
weights of these nodes are never read. -/
structure VertextNode where
  data : Int
  node : List Int
  deriving DecidableEq, Repr

/-- The fields of the class. A null slot or a null array is `none`. -/
structure Graph where
  vertextNodes : List (Option VertextNode)
  vertextSize : Int
  marked : Option (List Bool)
  edgeTo : Option (List Int)
  deriving DecidableEq, Repr

namespace Graph

/-- The constructor `Graph(numOfVertext)`. -/
def new (numOfVertext : Int) : Exec Graph := do
  let vertextNodes ← newArray numOfVertext none
  .ok { vertextNodes := vertextNodes, vertextSize := 0, marked := none, edgeTo := none }

/-- The statement `vertextNodes[vertextSize++] = node`: the size has grown
when the bounds of the index are checked, and the caller of a call that
throws is left with it. -/
def insertVertext (g : Graph) (data : Int) : Graph × Exec Unit :=
  let grown := { g with vertextSize := wrap (g.vertextSize + 1) }
  match arraySet g.vertextNodes g.vertextSize (some { data := data, node := [] }) with
  | .ok vertextNodes => ({ grown with vertextNodes := vertextNodes }, .ok ())
  | .error halt => (grown, .error halt)

/-- Put a new adjacency node in front of the chain of a vertex. -/
def link (vertextNodes : List (Option VertextNode)) (vertext adjvex : Int) :
    Exec (List (Option VertextNode)) := do
  match ← arrayGet vertextNodes vertext with
  | some found => arraySet vertextNodes vertext (some { found with node := adjvex :: found.node })
  | none => throwing .nullPointer

def insertEdge (g : Graph) (vertext1 vertext2 : Int) : Graph × Exec Bool :=
  if vertext1 < 0 ∨ vertext2 < 0 ∨ vertext1 ≥ g.vertextSize ∨ vertext2 ≥ g.vertextSize then
    (g, .ok false)
  else
    match link g.vertextNodes vertext2 vertext1 with
    | .error halt => (g, .error halt)
    | .ok half =>
      match link half vertext1 vertext2 with
      | .error halt => ({ g with vertextNodes := half }, .error halt)
      | .ok whole => ({ g with vertextNodes := whole }, .ok true)

/-- The calls that build a graph. -/
inductive Call
  | insertVertext (data : Int)
  | insertEdge (vertext1 vertext2 : Int)
  deriving DecidableEq, Repr

/-- What a caller sees of a call that does not throw. -/
inductive Reply
  | void
  | answer (value : Bool)
  deriving DecidableEq, Repr

def perform (g : Graph) : Call → Graph × Exec Reply
  | .insertVertext data =>
    let (next, outcome) := g.insertVertext data
    (next, outcome.map fun _ => .void)
  | .insertEdge vertext1 vertext2 =>
    let (next, outcome) := g.insertEdge vertext1 vertext2
    (next, outcome.map .answer)

/-- The graph after the calls, where the caller catches what they throw. -/
def run (g : Graph) (calls : List Call) : Graph :=
  calls.foldl (fun g call => (g.perform call).1) g

/-- The argument pairs of the `insertEdge` calls that return true. -/
def accepted (g : Graph) : List Call → List (Int × Int)
  | [] => []
  | call :: calls =>
    let later := (g.perform call).1.accepted calls
    match call, (g.perform call).2 with
    | .insertEdge vertext1 vertext2, .ok (.answer true) => (vertext1, vertext2) :: later
    | _, _ => later

/-- How many of the calls are `insertVertext` calls. -/
def insertions (calls : List Call) : Nat :=
  calls.countP fun
    | .insertVertext _ => true
    | .insertEdge _ _ => false

theorem run_cons (g : Graph) (call : Call) (calls : List Call) :
    g.run (call :: calls) = (g.perform call).1.run calls := rfl

end Graph

end BlogAlgorithms
