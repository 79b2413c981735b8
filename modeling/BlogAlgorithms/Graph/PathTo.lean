import BlogAlgorithms.Graph.Dfs
import BlogAlgorithms.Graph.ShortestPath
import BlogAlgorithms.Java.Reach
import BlogAlgorithms.Lib.Trails

namespace BlogAlgorithms.Graph
open Java Walk DepthFirst

variable {c : Construction} {g : Graph} {edgeTo : List Int} {r s v : Int}

/-- The root of a search is marked, and its slot of `edgeTo` is the default. -/
structure Rooted (r : Int) (state : BfsState) : Prop where
  marked : slot state.marked r = some true
  edge : parentIn state.edgeTo r = 0

theorem Rooted.visit {state next : BfsState} {u w : Int} (rooted : Rooted r state)
    (visits : Graph.visit u state w = .ok next) : Rooted r next := by
  obtain ⟨known, read, rest⟩ := bind_eq_ok.mp visits
  cases known with
  | true =>
    cases rest
    exact rooted
  | false =>
    obtain ⟨marked, mark, rest⟩ := bind_eq_ok.mp rest
    obtain ⟨edgeTo, link, rest⟩ := bind_eq_ok.mp rest
    obtain ⟨inside, rfl⟩ := arraySet_eq_ok mark
    obtain ⟨edgeInside, rfl⟩ := arraySet_eq_ok link
    cases rest
    have apart : r ≠ w := by
      rintro rfl
      have clash := (arrayGet_eq_ok read).symm.trans rooted.marked
      cases clash
    refine ⟨?_, ?_⟩
    · rw [slot_store inside, if_neg apart]
      exact rooted.marked
    · rw [parentIn_store edgeInside, Function.update_of_ne apart]
      exact rooted.edge

theorem Rooted.pass {state next : BfsState} (rooted : Rooted r state) (passes : g.bfsStep state = .ok next) :
    Rooted r next := by
  unfold bfsStep at passes
  split at passes
  · cases passes
  · rename_i temp queue _
    obtain ⟨node, _, scan⟩ := bind_eq_ok.mp passes
    exact foldlM_kept (Rooted r) (fun _ _ _ kept visits => kept.visit visits) scan ⟨rooted.marked, rooted.edge⟩

theorem bfs_root (start : c.Vertext r) (returns : Returns (fun fuel => bfs fuel c.graph r) g)
    (edges : g.edgeTo = some edgeTo) : parentIn edgeTo r = 0 := by
  obtain ⟨enough, ends⟩ := returns
  have run := ends enough le_rfl
  obtain ⟨marked, blank, newMarked, newEdgeTo, marks⟩ := marks_new c
  simp only [bfs, newMarked, newEdgeTo, ok_bind, arraySet_of_inBounds (marks.inside start)] at run
  obtain ⟨state, loop, same⟩ := bind_eq_ok.mp run
  cases same
  cases edges
  have rooted : Rooted r { marked := store marked r true, edgeTo := blank, queue := [r] } := by
    refine ⟨?_, ?_⟩
    · rw [slot_store (marks.inside start), if_pos rfl]
    · simp only [parentIn_new newEdgeTo]
  exact (whileLoop_kept (Rooted r) (fun _ _ _ kept passes => kept.pass passes) loop rooted).edge

/-- What a search from `r` leaves: marks on what can be reached from `r`, and
parents that lead back from there along edges. -/
structure Rooting (c : Construction) (r : Int) (g : Graph) (edgeTo : List Int) : Prop where
  edges : g.edgeTo = some edgeTo
  root : parentIn edgeTo r = 0
  answers : ∀ v, c.Vertext v → ∃ answer, g.hasPathTo v = .ok answer ∧
    (answer = true ↔ Relation.ReflTransGen c.Joined r v)
  trails : ∀ v, Relation.ReflTransGen c.Joined r v → WalkedTrail c.Joined (parentIn edgeTo) r v
  size : (edgeTo.length : Int) = c.graph.vertextSize

theorem bfs_rooting (start : c.Vertext r) :
    ∃ g edgeTo, Returns (fun fuel => bfs fuel c.graph r) g ∧ Rooting c r g edgeTo := by
  obtain ⟨g, returns, edgeTo, done, level, searched⟩ := bfs_ensures start
  have search := searched.search
  have found : ∀ v, v ∈ done ↔ Relation.ReflTransGen c.Joined r v := by
    intro v
    rw [search.found_iff, c.mem_adj_eq_joined]
  obtain ⟨_, _, marks⟩ := searched.marks
  refine ⟨g, edgeTo, returns, searched.edges, bfs_root start returns searched.edges, fun v vertext => ?_,
    fun v reachable => ?_, marks.edgeSize⟩
  · refine ⟨_, searched.hasPathTo vertext, ?_⟩
    rw [decide_eq_true_iff, found]
  · obtain ⟨path, trail, _, edges⟩ := search.trail ((found v).mpr reachable)
    exact ⟨path, trail, fun w member => c.mem_adj.mp (edges w member).2⟩

theorem depthFirstSearch_rooting (start : c.Vertext r) :
    ∃ g lines edgeTo, Returns (fun fuel => depthFirstSearch fuel c.graph r) (g, lines) ∧ Rooting c r g edgeTo := by
  obtain ⟨⟨g, lines⟩, returns, marked, edgeTo, printed, atMarked, atEdgeTo, _, marks, scan⟩ :=
    depthFirstSearch_ensures start
  simp only at atMarked atEdgeTo
  obtain ⟨_, reached, new, whole, chosen⟩ := scan.order
  have hanging : ∀ v ∈ [r] ++ new, WalkedTrail (fun u w => w ∈ c.adj u) (parentIn edgeTo) r v := by
    refine chosen.trails List.mem_cons_self fun v member => ?_
    rw [List.mem_singleton.mp member]
    exact ⟨[], .stop, by simp⟩
  rw [c.mem_adj_eq_joined] at hanging
  simp only [c.mem_adj_eq_joined] at reached
  refine ⟨g, lines, edgeTo, returns, atEdgeTo, scan.parent_source, fun v vertext => ?_, fun v reachable => ?_,
    marks.edgeSize⟩
  · refine ⟨decide (v ∈ printed), ?_, by rw [decide_eq_true_iff, reached]⟩
    simp only [hasPathTo, atMarked, nonNull, ok_bind, arrayGet_of_slot (marks.slots v vertext)]
  · have member := (reached v).mpr reachable
    rw [whole] at member
    exact hanging v member

/-- A run of the loop of `pathTo` that ends has gone along a trail. -/
theorem pathLoop_trail (edges : g.edgeTo = some edgeTo) {fuel : Nat} {state final : List Int × Int}
    (ends : whileLoop (fun state => .ok (state.2 != s)) (fun _ => g.pathStep) fuel state = .ok final) :
    ∃ path, Trail (parentIn edgeTo) s state.2 path ∧ final.1 = path ++ state.1 := by
  induction fuel generalizing state with
  | zero => cases ends
  | succ fuel ih =>
    obtain ⟨pushed, i⟩ := state
    by_cases atSource : i = s
    · subst atSource
      simp only [whileLoop, bne_self_eq_false] at ends
      cases ends
      exact ⟨[], .stop, rfl⟩
    · simp only [whileLoop, bne_iff_ne.mpr atSource] at ends
      obtain ⟨later, pass, rest⟩ := bind_eq_ok.mp ends
      simp only [pathStep, edges, nonNull, ok_bind] at pass
      obtain ⟨parent, read, same⟩ := bind_eq_ok.mp pass
      cases same
      obtain ⟨path, trail, whole⟩ := ih rest
      have here : parentIn edgeTo i = parent := by rw [parentIn, arrayGet_eq_ok read, Option.getD_some]
      refine ⟨path ++ [i], .step atSource (here ▸ trail), ?_⟩
      rw [whole, List.append_assoc, List.singleton_append]

theorem pathTo_trail (edges : g.edgeTo = some edgeTo) (hasPath : g.hasPathTo v = .ok true) {lines : List Line}
    (returns : Returns (fun fuel => pathTo fuel g s v) lines) :
    ∃ path, Trail (parentIn edgeTo) s v path ∧ lines = [.path s v path] := by
  obtain ⟨enough, ends⟩ := returns
  have run := ends enough le_rfl
  simp only [pathTo, hasPath, ok_bind, if_true] at run
  obtain ⟨final, loop, same⟩ := bind_eq_ok.mp run
  obtain ⟨path, trail, whole⟩ := pathLoop_trail edges loop
  rw [List.append_nil] at whole
  subst whole
  cases same
  exact ⟨_, trail, rfl⟩

/-- `pathTo(s, v)` ends, and what it prints is a walk from `s` to `v`. -/
def PrintsWalk (c : Construction) (g : Graph) (s v : Int) : Prop :=
  ∃ lines, Returns (fun fuel => pathTo fuel g s v) lines ∧
    ∀ line ∈ lines, ∃ path, line = .path s v path ∧ IsWalk c.Joined s path v

/-- Nothing leads from `r` to `v`, or `s` is on the path of the search tree
from `r` to `v`, or 0 and `r` are joined and `s` is on the path to 0. -/
def OnSearchPath (c : Construction) (edgeTo : List Int) (r s v : Int) : Prop :=
  ¬ Relation.ReflTransGen c.Joined r v ∨ OnTrail (parentIn edgeTo) r v s ∨
    (c.Joined 0 r ∧ OnTrail (parentIn edgeTo) r 0 s)

theorem Rooting.printsWalk_iff (rooting : Rooting c r g edgeTo) (vertext : c.Vertext v) :
    PrintsWalk c g s v ↔ OnSearchPath c edgeTo r s v := by
  obtain ⟨answer, hasPath, marks⟩ := rooting.answers v vertext
  by_cases reachable : Relation.ReflTransGen c.Joined r v
  · rw [marks.mpr reachable] at hasPath
    have symm : ∀ u w, c.Joined u w → c.Joined w u := fun u w => Or.symm
    have tree := walkedTrail_iff (s := s) symm rooting.trails reachable
    rw [rooting.root] at tree
    rw [OnSearchPath, ← tree, or_iff_right (not_not_intro reachable)]
    constructor
    · rintro ⟨lines, returns, walks⟩
      obtain ⟨path, trail, rfl⟩ := pathTo_trail rooting.edges hasPath returns
      obtain ⟨_, same, walk⟩ := walks _ List.mem_cons_self
      cases same
      exact ⟨path, trail, trail.isWalk_iff.mp walk⟩
    · rintro ⟨path, trail, edges⟩
      refine ⟨_, pathTo_returns hasPath rooting.edges trail ?_, ?_⟩
      · intro w member
        obtain ⟨lower, upper⟩ := c.adj_inside (c.mem_adj.mpr (edges w member))
        exact ⟨lower, rooting.size ▸ upper⟩
      · intro line member
        rw [List.mem_singleton.mp member]
        exact ⟨path, rfl, trail.isWalk edges⟩
  · have unmarked : answer = false := by simpa [reachable] using marks
    subst unmarked
    have silent : Returns (fun fuel => pathTo fuel g s v) [] :=
      Returns.of_eq fun fuel => by simp only [pathTo, hasPath, ok_bind, Bool.false_eq_true, if_false]
    exact iff_of_true ⟨[], silent, by simp⟩ (Or.inl reachable)

theorem pathTo_walk_iff (c : Construction) {r : Int} (start : c.Vertext r) :
    (∃ g edgeTo, Returns (fun fuel => bfs fuel c.graph r) g ∧ g.edgeTo = some edgeTo ∧
      ∀ s v, c.Vertext s → c.Vertext v → (PrintsWalk c g s v ↔ OnSearchPath c edgeTo r s v)) ∧
    ∃ g lines edgeTo, Returns (fun fuel => depthFirstSearch fuel c.graph r) (g, lines) ∧ g.edgeTo = some edgeTo ∧
      ∀ s v, c.Vertext s → c.Vertext v → (PrintsWalk c g s v ↔ OnSearchPath c edgeTo r s v) := by
  obtain ⟨g, edgeTo, returns, rooting⟩ := bfs_rooting start
  obtain ⟨g', lines, edgeTo', returns', rooting'⟩ := depthFirstSearch_rooting start
  exact ⟨⟨g, edgeTo, returns, rooting.edges, fun s v _ vertext => rooting.printsWalk_iff vertext⟩,
    g', lines, edgeTo', returns', rooting'.edges, fun s v _ vertext => rooting'.printsWalk_iff vertext⟩

theorem pathTo_walk_iff_main :
    Construction.main.Vertext 0 ∧ ∃ g edgeTo, Returns (fun fuel => bfs fuel Construction.main.graph 0) g ∧
      (PrintsWalk Construction.main g 0 5 ↔ OnSearchPath Construction.main edgeTo 0 0 5) := by
  have start : Construction.main.Vertext 0 := by decide +kernel
  obtain ⟨⟨g, edgeTo, returns, _, paths⟩, _⟩ := pathTo_walk_iff Construction.main start
  exact ⟨start, g, edgeTo, returns, paths 0 5 start (by decide +kernel)⟩

theorem Rooting.edge_root (rooting : Rooting c r g edgeTo) (start : c.Vertext r) : slot edgeTo r = some 0 := by
  have inside : InBounds edgeTo r := ⟨start.1, rooting.size ▸ start.2⟩
  rw [slot_parentIn inside, rooting.root]

theorem Rooting.hasPathTo_root (rooting : Rooting c r g edgeTo) (start : c.Vertext r) :
    g.hasPathTo r = .ok true := by
  obtain ⟨answer, hasPath, marks⟩ := rooting.answers r start
  rwa [marks.mpr .refl] at hasPath

/-- The default in the slot of the root 0 leads back to 0. -/
theorem Rooting.pathTo_diverges (rooting : Rooting c 0 g edgeTo) (start : c.Vertext 0) (other : s ≠ 0) :
    Diverges (fun fuel => pathTo fuel g s 0) := by
  have loop : Diverges (fun fuel =>
      whileLoop (fun state => .ok (state.2 != s)) (fun _ => g.pathStep) fuel ([], (0 : Int))) := by
    apply whileLoop_diverges (fun state => state.2 = 0)
    · rintro ⟨path, i⟩ rfl
      simp only [bne_iff_ne.mpr other.symm]
    · rintro ⟨path, i⟩ rfl
      have pass : g.pathStep (path, 0) = .ok (0 :: path, 0) := by
        simp only [pathStep, rooting.edges, nonNull, ok_bind, arrayGet_of_slot (rooting.edge_root start)]
      exact Confined.of_eq (fun _ => pass) rfl
    · rfl
  intro fuel
  simp only [pathTo, rooting.hasPathTo_root start, ok_bind, if_true, loop fuel, error_bind]

/-- The default in the slot of another root makes 0 its predecessor. -/
theorem Rooting.pathTo_zero (rooting : Rooting c r g edgeTo) (start : c.Vertext r) (other : r ≠ 0) :
    Returns (fun fuel => pathTo fuel g 0 r) [.path 0 r [r]] := by
  have trail : Trail (parentIn edgeTo) 0 r ([] ++ [r]) := .step other (rooting.root ▸ .stop)
  refine pathTo_returns (rooting.hasPathTo_root start) rooting.edges trail fun w member => ?_
  rw [List.mem_singleton.mp member]
  exact .of_slot (rooting.edge_root start)

/-- Two vertices and the edge between them. -/
def Construction.pair : Construction where
  numOfVertext := 2
  calls := [.insertVertext 1, .insertVertext 2, .insertEdge 0 1]
  empty := { vertextNodes := List.replicate 2 none, vertextSize := 0, marked := none, edgeTo := none }
  isInt := by decide
  created := rfl
  within := by decide

/-- Two vertices and no edge. -/
def Construction.apart : Construction where
  numOfVertext := 2
  calls := [.insertVertext 1, .insertVertext 2]
  empty := { vertextNodes := List.replicate 2 none, vertextSize := 0, marked := none, edgeTo := none }
  isInt := by decide
  created := rfl
  within := by decide

theorem pathTo_not_walk :
    (∃ g, Returns (fun fuel => bfs fuel Construction.pair.graph 0) g ∧ Diverges (fun fuel => pathTo fuel g 1 0)) ∧
    ∃ g, Returns (fun fuel => bfs fuel Construction.apart.graph 1) g ∧
      Returns (fun fuel => pathTo fuel g 0 1) [.path 0 1 [1]] ∧ ¬ IsWalk Construction.apart.Joined 0 [1] 1 := by
  have first : Construction.pair.Vertext 0 := by decide
  have second : Construction.apart.Vertext 1 := by decide
  obtain ⟨g, _, returns, rooting⟩ := bfs_rooting first
  obtain ⟨g', _, returns', rooting'⟩ := bfs_rooting second
  refine ⟨⟨g, returns, rooting.pathTo_diverges first (by decide)⟩, g', returns',
    rooting'.pathTo_zero second (by decide), fun walk => ?_⟩
  have edge : Construction.apart.Joined 0 1 := (isWalk_cons.mp walk).1
  exact absurd edge (by decide)

end BlogAlgorithms.Graph
