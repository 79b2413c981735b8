import BlogAlgorithms.Graph.Bfs
import BlogAlgorithms.Lib.DepthFirst

namespace BlogAlgorithms.Graph
open Java DepthFirst

variable {c : Construction} {s w : Int} {rest visited : List Int} {state : DfsState}

/-- The state of a depth-first search that has visited these vertices. -/
structure Visited (c : Construction) (visited : List Int) (state : DfsState) : Prop where
  marks : Marks c state.marked state.edgeTo visited
  lines : state.printed = visited.map .vertext

/-- From the first state the entries `rest` of the list of `s` are worked
through as in a scan, which ends in the second state. -/
def Scans (c : Construction) (s : Int) (rest visited : List Int) (state next : DfsState) : Prop :=
  ∃ final, Visited c final next ∧ next.marked.count false ≤ state.marked.count false ∧
    Scan c.adj s rest visited (parentIn state.edgeTo) final (parentIn next.edgeTo)

theorem descend_visited {call : Int → DfsState → Exec DfsState} (found : w ∈ visited) (vertext : c.Vertext w)
    (has : Visited c visited state) : descend call s state w = .ok state := by
  have read := has.marks.slots w vertext
  rw [decide_eq_true found] at read
  simp only [descend, arrayGet_of_slot read, ok_bind, if_true]

theorem descend_fresh {call : Int → DfsState → Exec DfsState} (fresh : w ∉ visited) (vertext : c.Vertext w)
    (has : Visited c visited state) :
    descend call s state w = call w { state with edgeTo := store state.edgeTo w s } := by
  have read := has.marks.slots w vertext
  rw [decide_eq_false fresh] at read
  simp only [descend, arrayGet_of_slot read, ok_bind, Bool.false_eq_true, if_false,
    arraySet_of_inBounds (has.marks.edgeInside vertext)]

/-- The loop of `dfs`, given what the recursive calls do while fewer than
`bound` vertices are unmarked. -/
theorem scans_of_calls {bound : Nat} (entries : ∀ w ∈ rest, c.Vertext w)
    (calls : ∀ w visited state, c.Vertext w → w ∉ visited → Visited c visited state →
      state.marked.count false < bound →
      Ensures (fun fuel => c.graph.dfs fuel w state) (Scans c w (c.adj w) (visited ++ [w]) state))
    (has : Visited c visited state) (few : state.marked.count false < bound) :
    Ensures (fun fuel => rest.foldlM (descend (c.graph.dfs fuel) s) state) (Scans c s rest visited state) := by
  induction rest generalizing visited state with
  | nil => exact ⟨state, .ok state, visited, has, le_rfl, .done⟩
  | cons w rest ih =>
    have vertext := entries w List.mem_cons_self
    have later := fun x member => entries x (List.mem_cons_of_mem w member)
    simp only [List.foldlM_cons]
    by_cases found : w ∈ visited
    · simp only [descend_visited found vertext has, ok_bind]
      refine (ih later has few).mono fun next ⟨final, ends, fewer, scan⟩ => ?_
      exact ⟨final, ends, fewer, .skip found scan⟩
    · simp only [descend_fresh found vertext has]
      have linked : Visited c visited { state with edgeTo := store state.edgeTo w s } :=
        ⟨has.marks.storeEdge s, has.lines⟩
      refine (calls w visited _ vertext found linked few).bind fun middle ⟨seen, atMiddle, fewer, visit⟩ => ?_
      refine (ih later atMiddle (lt_of_le_of_lt fewer few)).mono fun next ⟨final, ends, fewest, scan⟩ => ?_
      rw [parentIn_store (has.marks.edgeInside vertext)] at visit
      exact ⟨final, ends, fewest.trans fewer, .enter found visit scan⟩

/-- The recursion ends because each call marks a vertex before it calls on. -/
theorem dfs_ensures (vertext : c.Vertext s) (fresh : s ∉ visited) (has : Visited c visited state) :
    Ensures (fun fuel => c.graph.dfs fuel s state) (Scans c s (c.adj s) (visited ++ [s]) state) := by
  induction size : state.marked.count false using Nat.strong_induction_on generalizing s visited state with
  | _ bound ih =>
    have read := has.marks.slots s vertext
    rw [decide_eq_false fresh] at read
    have count := count_store read
    have entered : Visited c (visited ++ [s])
        { state with marked := store state.marked s true, printed := state.printed ++ [.vertext s] } :=
      ⟨has.marks.store vertext, by simp [has.lines]⟩
    have loop := scans_of_calls (s := s) (fun w (entry : w ∈ c.adj s) => c.adj_inside entry)
      (fun w seen inner inside unseen before few => ih _ few inside unseen before rfl) entered
      (show (store state.marked s true).count false < bound by omega)
    refine Ensures.call (fun fuel => ?_) (loop.mono fun next ⟨final, ends, fewer, scan⟩ => ?_)
    · simp only [dfs, arraySet_of_inBounds (has.marks.inside vertext), getNode_eq vertext, ok_bind]
    · simp only at fewer
      exact ⟨final, ends, by omega, scan⟩

theorem Marks.slot_true {marked : List Bool} {edgeTo found : List Int} (marks : Marks c marked edgeTo found)
    (vertexts : ∀ v ∈ found, c.Vertext v) (v : Int) : slot marked v = some true ↔ v ∈ found := by
  by_cases vertext : c.Vertext v
  · rw [marks.slots v vertext, Option.some_inj, decide_eq_true_iff]
  · refine iff_of_false (fun marked => ?_) (fun member => vertext (vertexts v member))
    obtain ⟨lower, upper⟩ := InBounds.of_slot marked
    exact vertext ⟨lower, marks.size ▸ upper⟩

theorem depthFirstSearch_ensures (start : c.Vertext s) :
    Ensures (fun fuel => depthFirstSearch fuel c.graph s) (fun result => ∃ marked edgeTo printed,
      result.1.marked = some marked ∧ result.1.edgeTo = some edgeTo ∧ result.2 = printed.map .vertext ∧
        Marks c marked edgeTo printed ∧ Scan c.adj s (c.adj s) [s] (fun _ => 0) printed (parentIn edgeTo)) := by
  obtain ⟨marked, edgeTo, newMarked, newEdgeTo, marks⟩ := marks_new c
  have blank : Visited c [] { marked := marked, edgeTo := edgeTo, printed := [] } := ⟨marks, rfl⟩
  obtain ⟨state, runs, final, ends, _, scan⟩ := dfs_ensures start List.not_mem_nil blank
  rw [parentIn_new newEdgeTo] at scan
  refine ⟨({ c.graph with marked := some state.marked, edgeTo := some state.edgeTo }, state.printed), ?_,
    state.marked, state.edgeTo, final, rfl, rfl, ends.lines, ends.marks, scan⟩
  simp only [depthFirstSearch, newMarked, newEdgeTo, ok_bind]
  exact runs.bind (.ok _)

theorem reachable_vertext {v : Int} (start : c.Vertext s) (reachable : Relation.ReflTransGen c.Joined s v) :
    c.Vertext v := by
  cases reachable with
  | refl => exact start
  | tail _ edge => exact c.adj_inside (c.mem_adj.mpr edge)

/-- `depthFirstSearch(s)` prints what can be reached from `s`, and marks just
that. Each vertex printed after `s` is the first unprinted entry in the list
of the latest printed vertex that has one left, its parent in `edgeTo`. -/
theorem depthFirstSearch_order (c : Construction) {s : Int} (start : c.Vertext s) :
    ∃ g marked edgeTo printed, Returns (fun fuel => depthFirstSearch fuel c.graph s) (g, printed.map .vertext) ∧
      g.marked = some marked ∧ g.edgeTo = some edgeTo ∧ printed.Nodup ∧
      (∀ v, v ∈ printed ↔ Relation.ReflTransGen c.Joined s v) ∧
      (∀ v, slot marked v = some true ↔ v ∈ printed) ∧
      ∀ before w after, printed = before ++ w :: after → before ≠ [] →
        ∃ u, LastOpen c.adj before u ∧ FirstLeft c.adj before u w ∧ slot edgeTo w = some u := by
  obtain ⟨⟨g, lines⟩, returns, marked, edgeTo, printed, atMarked, atEdgeTo, same, marks, scan⟩ :=
    depthFirstSearch_ensures start
  obtain ⟨nodup, reached, new, whole, chosen⟩ := scan.order
  simp only [c.mem_adj_eq_joined] at reached
  simp only at atMarked atEdgeTo same
  subst same
  have vertexts : ∀ v ∈ printed, c.Vertext v := fun v member => reachable_vertext start ((reached v).mp member)
  refine ⟨g, marked, edgeTo, printed, returns, atMarked, atEdgeTo, nodup, reached, marks.slot_true vertexts, ?_⟩
  intro before w after split nonempty
  have edge : slot edgeTo w = some (parentIn edgeTo w) :=
    slot_parentIn (marks.edgeInside (vertexts w (split ▸ List.mem_append_right _ List.mem_cons_self)))
  cases before with
  | nil => exact absurd rfl nonempty
  | cons first before =>
    rw [whole, List.cons_append, List.cons.injEq] at split
    obtain ⟨sameFirst, tail⟩ := split
    subst sameFirst tail
    obtain ⟨last, left⟩ := chosen.split
    exact ⟨_, last, left, edge⟩

theorem depthFirstSearch_order_main :
    Construction.main.Vertext 0 ∧ ∃ (g : Graph) (printed : List Int),
      Returns (fun fuel => depthFirstSearch fuel Construction.main.graph 0) (g, printed.map .vertext) ∧
      printed.Nodup ∧ ∀ v, v ∈ printed ↔ Relation.ReflTransGen Construction.main.Joined 0 v := by
  have start : Construction.main.Vertext 0 := by decide +kernel
  obtain ⟨g, _, _, printed, returns, _, _, nodup, reached, _⟩ := depthFirstSearch_order Construction.main start
  exact ⟨start, g, printed, returns, nodup, reached⟩

end BlogAlgorithms.Graph
