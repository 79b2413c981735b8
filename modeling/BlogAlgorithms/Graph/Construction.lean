import BlogAlgorithms.Graph.Calls
import Mathlib.Logic.Relation

namespace BlogAlgorithms.Graph
open Java

theorem count_entry (vertext adjvex u v : Int) :
    (entry vertext adjvex u).count v = [(vertext, adjvex)].count (u, v) := by
  unfold entry
  by_cases row : u = vertext
  · simp [row, List.count_singleton]
  · simp [row, Ne.symm row]

/-- An accepted edge adds one entry for each of its two directions. -/
theorem Grows.count_edge {old new : List (Option VertextNode)} {vertext1 vertext2 : Int}
    (grows : Grows old new (fun _ => False) (fun i => entry vertext1 vertext2 i ++ entry vertext2 vertext1 i))
    (u v : Int) :
    (adjacency new u).count v = [(vertext1, vertext2)].count (u, v) + [(vertext1, vertext2)].count (v, u) +
      (adjacency old u).count v := by
  have swapped : [(vertext2, vertext1)].count (u, v) = [(vertext1, vertext2)].count (v, u) := by
    simp only [List.count_singleton, beq_iff_eq, Prod.mk.injEq, and_comm]
  rw [grows.lists, List.count_append, List.count_append, count_entry, count_entry, swapped]

/-- The entries of an adjacency list are the accepted edges of the run, each
counted in both directions. -/
theorem WellFormed.count_run {g : Graph} (formed : g.WellFormed) (calls : List Call)
    (within : g.vertextSize + insertions calls ≤ g.vertextNodes.length) (u v : Int) :
    (adjacency (g.run calls).vertextNodes u).count v =
      (g.accepted calls).count (u, v) + (g.accepted calls).count (v, u) + (adjacency g.vertextNodes u).count v := by
  induction calls generalizing g with
  | nil => simp [Graph.run, accepted]
  | cons call calls ih =>
    rw [insertions_cons, Int.natCast_add] at within
    have room : g.vertextSize + insertions [call] ≤ g.vertextNodes.length := by omega
    have outcome := formed.perform room
    obtain ⟨size, length⟩ := outcome.size
    have later := ih (formed.run [call] room).1 (by simp only [Graph.run, List.foldl]; omega)
    simp only [Graph.run, List.foldl, accepted] at later ⊢
    generalize g.perform call = result at outcome later ⊢
    cases outcome with
    | vertext grows => simpa [grows.lists] using later
    | rejected => exact later
    | @edge vertext1 vertext2 nodes _ _ grows =>
      simp only at later ⊢
      rw [later, grows.count_edge]
      simp only [List.count_cons, List.count_nil]
      omega

/-- A graph built from the constructor on by calls that insert no more
vertices than it has room for. -/
structure Construction where
  numOfVertext : Int
  calls : List Call
  empty : Graph
  isInt : IsInt numOfVertext
  created : new numOfVertext = .ok empty
  within : insertions calls ≤ numOfVertext

namespace Construction

def graph (c : Construction) : Graph := c.empty.run c.calls

/-- The edges that the calls of `insertEdge` reported as inserted. -/
def edges (c : Construction) : List (Int × Int) := c.empty.accepted c.calls

/-- The undirected graph of these edges. -/
def Joined (c : Construction) (u v : Int) : Prop := (u, v) ∈ c.edges ∨ (v, u) ∈ c.edges

instance (c : Construction) (u v : Int) : Decidable (c.Joined u v) := inferInstanceAs (Decidable (_ ∨ _))

/-- The vertex numbers. -/
def Vertext (c : Construction) (v : Int) : Prop := 0 ≤ v ∧ v < c.graph.vertextSize

instance (c : Construction) (v : Int) : Decidable (c.Vertext v) := inferInstanceAs (Decidable (_ ∧ _))

def adj (c : Construction) : Int → List Int := adjacency c.graph.vertextNodes

variable (c : Construction)

theorem room : c.empty.WellFormed ∧ c.empty.vertextSize + insertions c.calls ≤ c.empty.vertextNodes.length := by
  obtain ⟨formed, size, length, _⟩ := new_wellFormed c.isInt c.created
  have within := c.within
  exact ⟨formed, by omega⟩

theorem wellFormed : c.graph.WellFormed := (c.room.1.run c.calls c.room.2).1

theorem count_adj (u v : Int) : (c.adj u).count v = c.edges.count (u, v) + c.edges.count (v, u) := by
  obtain ⟨_, _, _, empty⟩ := new_wellFormed c.isInt c.created
  have counts := c.room.1.count_run c.calls c.room.2 u v
  rwa [empty, List.count_nil, Nat.add_zero] at counts

/-- The lists of the graph hold the neighbours in the undirected graph. -/
theorem mem_adj {u v : Int} : v ∈ c.adj u ↔ c.Joined u v := by
  have counts := c.count_adj u v
  rw [← List.count_pos_iff, counts, Joined, ← List.count_pos_iff, ← List.count_pos_iff]
  omega

theorem adj_inside {u w : Int} (entry : w ∈ c.adj u) : c.Vertext w := c.wellFormed.inside u w entry

theorem mem_adj_eq_joined : (fun u w => w ∈ c.adj u) = c.Joined := by
  funext u w
  exact propext c.mem_adj

/-- The graph that `main` builds: ten slots, six vertices and eight edges. -/
def main : Construction where
  numOfVertext := 10
  calls := [.insertVertext 1, .insertVertext 2, .insertVertext 3, .insertVertext 4, .insertVertext 5,
    .insertVertext 6, .insertEdge 0 1, .insertEdge 0 2, .insertEdge 1 3, .insertEdge 2 3, .insertEdge 2 4,
    .insertEdge 3 4, .insertEdge 3 5, .insertEdge 4 5]
  empty := { vertextNodes := List.replicate 10 none, vertextSize := 0, marked := none, edgeTo := none }
  isInt := by decide
  created := rfl
  within := by decide

/-- The accepted calls on two vertices, in either order of the arguments. -/
theorem countP_joining {u v : Int} (distinct : u ≠ v) :
    c.edges.countP (fun edge => edge = (u, v) ∨ edge = (v, u)) = c.edges.count (u, v) + c.edges.count (v, u) := by
  induction c.edges with
  | nil => rfl
  | cons edge edges ih =>
    simp only [List.countP_cons, List.count_cons, ih, beq_iff_eq, decide_eq_true_eq]
    by_cases forward : edge = (u, v)
    · simp only [forward, Prod.mk.injEq, distinct, distinct.symm, and_false, or_false, if_true, if_false]
      omega
    · by_cases back : edge = (v, u)
      · simp only [back, Prod.mk.injEq, distinct, distinct.symm, and_false, false_or, if_true, if_false]
        omega
      · simp only [forward, back, or_self, if_false]
        omega

/-- A failed call leaves the graph of the calls before it. -/
theorem failed_unchanged {before after : List Call} {call : Call} (split : c.calls = before ++ call :: after)
    (failed : Failed ((c.empty.run before).perform call).2) :
    ((c.empty.run before).perform call).1 = c.empty.run before := by
  obtain ⟨formed, within⟩ := c.room
  rw [split, insertions_append, insertions_cons, Int.natCast_add, Int.natCast_add] at within
  obtain ⟨reached, size, length⟩ := formed.run before (by omega)
  exact (reached.perform (by omega)).frame failed

/-- Both lists of an edge count the accepted calls on its vertices, a loop
stands twice in its list, and a failed call changes nothing. -/
theorem lists_count_accepted :
    (∀ u v, u ≠ v → (c.adj u).count v = (c.adj v).count u ∧
      (c.adj u).count v = c.edges.countP fun edge => edge = (u, v) ∨ edge = (v, u)) ∧
    (∀ u, (c.adj u).count u = 2 * c.edges.count (u, u)) ∧
    ∀ before call after, c.calls = before ++ call :: after →
      Failed ((c.empty.run before).perform call).2 →
      ((c.empty.run before).perform call).1 = c.empty.run before := by
  refine ⟨fun u v distinct => ⟨?_, ?_⟩, fun u => ?_, fun before call after split failed => ?_⟩
  · rw [c.count_adj, c.count_adj, Nat.add_comm]
  · rw [c.count_adj, c.countP_joining distinct]
  · rw [c.count_adj, Nat.two_mul]
  · exact c.failed_unchanged split failed

/-- Two vertices with a repeated edge, a loop and an edge to no vertex. -/
def repeated : Construction where
  numOfVertext := 4
  calls := [.insertVertext 1, .insertVertext 2, .insertEdge 0 1, .insertEdge 1 0, .insertEdge 1 1, .insertEdge 0 2]
  empty := { vertextNodes := List.replicate 4 none, vertextSize := 0, marked := none, edgeTo := none }
  isInt := by decide
  created := rfl
  within := by decide

theorem lists_count_accepted_repeated :
    (repeated.adj 0).count 1 = (repeated.adj 1).count 0 ∧ (repeated.adj 0).count 1 = 2 ∧
      (repeated.adj 1).count 1 = 2 ∧
      ((repeated.empty.run repeated.calls.dropLast).perform (.insertEdge 0 2)).1 =
        repeated.empty.run repeated.calls.dropLast := by
  obtain ⟨joining, loops, unchanged⟩ := repeated.lists_count_accepted
  obtain ⟨symmetric, accepted⟩ := joining 0 1 (by decide)
  exact ⟨symmetric, accepted.trans (by decide), (loops 1).trans (by decide),
    unchanged _ (.insertEdge 0 2) [] rfl (Or.inr rfl)⟩

end Construction

end BlogAlgorithms.Graph
