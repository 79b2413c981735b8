import BlogAlgorithms.Graph.Bfs

namespace BlogAlgorithms.Graph
open Java Walk BreadthFirst

variable {c : Construction} {edgeTo : List Int} {s v : Int}

/-- Where `n` reads of `edgeTo` lead from `v`. -/
def follow (edgeTo : List Int) (v : Int) : Nat → Option Int
  | 0 => some v
  | n + 1 => (follow edgeTo v n).bind (slot edgeTo)

theorem follow_succ (inside : InBounds edgeTo v) (n : Nat) :
    follow edgeTo v (n + 1) = follow edgeTo (parentIn edgeTo v) n := by
  induction n with
  | zero => simp only [follow, Option.bind_some, slot_parentIn inside]
  | succ n ih => rw [follow, ih, follow]

theorem follow_trail {path : List Int} (trail : Trail (parentIn edgeTo) s v path)
    (inside : ∀ w ∈ path, InBounds edgeTo w) :
    follow edgeTo v path.length = some s ∧ ∀ m, m < path.length → follow edgeTo v m ≠ some s := by
  induction trail with
  | stop => exact ⟨rfl, fun m none => absurd none (Nat.not_lt_zero m)⟩
  | @step v path other _ ih =>
    obtain ⟨reaches, notBefore⟩ := ih fun w member => inside w (List.mem_append_left _ member)
    have atV := inside v (List.mem_append_right _ List.mem_cons_self)
    rw [List.length_append, List.length_singleton]
    refine ⟨by rw [follow_succ atV, reaches], fun m before => ?_⟩
    cases m with
    | zero =>
      intro same
      exact other (Option.some.inj same)
    | succ m =>
      rw [follow_succ atV]
      exact notBefore m (by omega)

/-- The loop of `pathTo` on the deque and `i`: the trail from `i` and what has
been pushed make up the whole path. -/
def Collecting (edgeTo : List Int) (s : Int) (path : List Int) (state : List Int × Int) : Prop :=
  ∃ left, Trail (parentIn edgeTo) s state.2 left ∧ left ++ state.1 = path

theorem Collecting.step {g : Graph} {path : List Int} {state : List Int × Int}
    (edges : g.edgeTo = some edgeTo) (inside : ∀ w ∈ path, InBounds edgeTo w)
    (collecting : Collecting edgeTo s path state) :
    LoopStep (fun state => .ok (state.2 != s)) (fun _ => g.pathStep) (Collecting edgeTo s path)
      (fun state => path.length - state.1.length) state := by
  refine ⟨⟨_, rfl⟩, fun more => ensures_const.mpr ?_⟩
  obtain ⟨pushed, i⟩ := state
  obtain ⟨left, trail, whole⟩ := collecting
  cases trail with
  | stop => simp at more
  | @step _ left other rest =>
    have atI : InBounds edgeTo i := inside i (by simp [← whole])
    refine ⟨(i :: pushed, parentIn edgeTo i), ?_, ⟨left, rest, by simpa using whole⟩, ?_⟩
    · simp only [pathStep, edges, nonNull, ok_bind, arrayGet_of_slot (slot_parentIn atI)]
    · have length := congrArg List.length whole
      simp only [List.length_append, List.length_cons] at length ⊢
      omega

/-- `pathTo` prints the trail from `v` back to `s`, in walking order. -/
theorem pathTo_returns {g : Graph} {path : List Int} (hasPath : g.hasPathTo v = .ok true)
    (edges : g.edgeTo = some edgeTo) (trail : Trail (parentIn edgeTo) s v path)
    (inside : ∀ w ∈ path, InBounds edgeTo w) :
    Returns (fun fuel => pathTo fuel g s v) [.path s v path] := by
  have start : Collecting edgeTo s path ([], v) := ⟨path, trail, List.append_nil path⟩
  obtain ⟨⟨pushed, i⟩, runs, ⟨left, rest, whole⟩, stopped⟩ :=
    whileLoop_ensures (Collecting edgeTo s path) _ (fun _ kept => kept.step edges inside) start
  have atSource : i = s := by simpa using stopped
  subst atSource
  have none : left = [] := by
    cases rest with
    | stop => rfl
    | step other => exact absurd rfl other
  subst none
  have same : pushed = path := whole
  subst same
  simp only [pathTo, hasPath, ok_bind, if_true]
  exact runs.bind (.ok _)

theorem Searched.hasPathTo {g : Graph} {done : List Int} {level : Int → Nat}
    (searched : Searched c s g edgeTo done level) (vertext : c.Vertext v) :
    g.hasPathTo v = .ok (decide (v ∈ done)) := by
  obtain ⟨marked, atMarked, marks⟩ := searched.marks
  simp only [Graph.hasPathTo, atMarked, nonNull, ok_bind, arrayGet_of_slot (marks.slots v vertext)]

/-- After `bfs(s)` the marks are on the vertices that can be reached from `s`,
`edgeTo` leads back from them in the least number of steps, and `pathTo`
prints a shortest path. -/
theorem bfs_shortest_paths (c : Construction) {s : Int} (start : c.Vertext s) :
    ∃ g edgeTo, Returns (fun fuel => bfs fuel c.graph s) g ∧ g.edgeTo = some edgeTo ∧ ∀ v, c.Vertext v →
      (∃ answer, g.hasPathTo v = .ok answer ∧ (answer = true ↔ Relation.ReflTransGen c.Joined s v)) ∧
      (Relation.ReflTransGen c.Joined s v → ∃ d path, Distance c.Joined s v d ∧
        follow edgeTo v d = some s ∧ (∀ m, m < d → follow edgeTo v m ≠ some s) ∧
        Returns (fun fuel => pathTo fuel g s v) [.path s v path] ∧
        IsWalk c.Joined s path v ∧ path.length = d) := by
  obtain ⟨g, returns, edgeTo, done, level, searched⟩ := bfs_ensures start
  have search := searched.search
  obtain ⟨_, _, marks⟩ := searched.marks
  refine ⟨g, edgeTo, returns, searched.edges, fun v vertext => ⟨⟨_, searched.hasPathTo vertext, ?_⟩, ?_⟩⟩
  · rw [decide_eq_true_iff, search.found_iff, c.mem_adj_eq_joined]
  · intro reachable
    rw [← c.mem_adj_eq_joined] at reachable
    have member := search.found_iff.mpr reachable
    obtain ⟨path, trail, length, edges⟩ := search.trail member
    have inside : ∀ w ∈ path, InBounds edgeTo w :=
      fun w inPath => marks.edgeInside (c.adj_inside (edges w inPath).2)
    obtain ⟨reaches, notBefore⟩ := follow_trail trail inside
    have hasPath : g.hasPathTo v = .ok true := by rw [searched.hasPathTo vertext, decide_eq_true member]
    have walk : IsWalk c.Joined s path v := trail.isWalk fun w inPath => c.mem_adj.mp (edges w inPath).2
    have distance := search.distance member
    rw [c.mem_adj_eq_joined] at distance
    exact ⟨level v, path, distance, length ▸ reaches, length ▸ notBefore,
      pathTo_returns hasPath searched.edges trail inside, walk, length⟩

theorem bfs_shortest_paths_main :
    Construction.main.Vertext 0 ∧ ∃ g d path, Returns (fun fuel => bfs fuel Construction.main.graph 0) g ∧
      Distance Construction.main.Joined 0 5 d ∧ Returns (fun fuel => pathTo fuel g 0 5) [.path 0 5 path] ∧
      IsWalk Construction.main.Joined 0 path 5 ∧ path.length = d := by
  have start : Construction.main.Vertext 0 := by decide +kernel
  have reachable : Relation.ReflTransGen Construction.main.Joined 0 5 := by
    have first : Construction.main.Joined 0 1 := by decide
    have second : Construction.main.Joined 1 3 := by decide
    have third : Construction.main.Joined 3 5 := by decide
    exact .head first (.head second (.single third))
  obtain ⟨g, _, returns, _, paths⟩ := bfs_shortest_paths Construction.main start
  obtain ⟨d, path, distance, _, _, prints, walk, length⟩ := (paths 5 (by decide)).2 reachable
  exact ⟨start, g, d, path, returns, distance, prints, walk, length⟩

end BlogAlgorithms.Graph
