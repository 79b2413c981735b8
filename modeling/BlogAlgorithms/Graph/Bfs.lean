import BlogAlgorithms.Graph.Construction
import BlogAlgorithms.Graph.Search
import BlogAlgorithms.Lib.BreadthFirst

namespace BlogAlgorithms.Graph
open Java Walk BreadthFirst

/-- The parent that the array records for a vertex. -/
def parentIn (edgeTo : List Int) (v : Int) : Int := (slot edgeTo v).getD 0

theorem parentIn_store {edgeTo : List Int} {w : Int} (inside : InBounds edgeTo w) (u : Int) :
    parentIn (store edgeTo w u) = Function.update (parentIn edgeTo) w u := by
  funext v
  unfold parentIn
  rw [slot_store inside]
  by_cases same : v = w
  · rw [if_pos same, same, Function.update_self, Option.getD_some]
  · rw [if_neg same, Function.update_of_ne same]

theorem slot_parentIn {edgeTo : List Int} {v : Int} (inside : InBounds edgeTo v) :
    slot edgeTo v = some (parentIn edgeTo v) := by
  obtain ⟨value, found⟩ := inBounds_iff_slot.mp inside
  rw [parentIn, found, Option.getD_some]

theorem parentIn_new {length : Int} {edgeTo : List Int} (created : newArray length (0 : Int) = .ok edgeTo) :
    parentIn edgeTo = fun _ => 0 := by
  funext v
  unfold newArray at created
  split at created
  · cases created
  · cases created
    unfold parentIn
    cases found : slot (List.replicate length.toNat (0 : Int)) v with
    | none => rfl
    | some value =>
      have member : value ∈ List.replicate length.toNat (0 : Int) := mem_iff_slot.mpr ⟨v, found⟩
      rw [Option.getD_some, List.eq_of_mem_replicate member]

/-- The two arrays of a search have a slot for each vertex, and the marks are
on the vertices found so far. -/
structure Marks (c : Construction) (marked : List Bool) (edgeTo : List Int) (found : List Int) : Prop where
  size : (marked.length : Int) = c.graph.vertextSize
  edgeSize : (edgeTo.length : Int) = c.graph.vertextSize
  slots : ∀ v, c.Vertext v → slot marked v = some (decide (v ∈ found))

variable {c : Construction} {marked : List Bool} {edgeTo found : List Int} {s u v w : Int}

theorem Marks.inside (marks : Marks c marked edgeTo found) (vertext : c.Vertext v) : InBounds marked v :=
  .of_slot (marks.slots v vertext)

theorem Marks.edgeInside (marks : Marks c marked edgeTo found) (vertext : c.Vertext v) : InBounds edgeTo v :=
  ⟨vertext.1, marks.edgeSize ▸ vertext.2⟩

theorem Marks.store (marks : Marks c marked edgeTo found) (vertext : c.Vertext w) :
    Marks c (Java.store marked w true) edgeTo (found ++ [w]) := by
  refine ⟨by rw [length_store, marks.size], marks.edgeSize, fun v inside => ?_⟩
  rw [slot_store (marks.inside vertext)]
  by_cases same : v = w
  · simp [same]
  · rw [if_neg same, marks.slots v inside]
    simp [same]

theorem Marks.storeEdge (marks : Marks c marked edgeTo found) (value : Int) :
    Marks c marked (Java.store edgeTo w value) found :=
  { marks with edgeSize := by rw [length_store, marks.edgeSize] }

/-- The arrays that every search starts from. -/
theorem marks_new (c : Construction) :
    ∃ marked edgeTo, newArray c.graph.vertextSize false = .ok marked ∧
      newArray c.graph.vertextSize (0 : Int) = .ok edgeTo ∧ Marks c marked edgeTo [] := by
  have lower := c.wellFormed.lower
  refine ⟨_, _, newArray_of_nonneg lower _, newArray_of_nonneg lower _, ?_, ?_, fun v vertext => ?_⟩
  · rw [List.length_replicate, Int.toNat_of_nonneg lower]
  · rw [List.length_replicate, Int.toNat_of_nonneg lower]
  · rw [slot_replicate false vertext.1 vertext.2]
    simp

theorem getNode_eq (vertext : c.Vertext v) : c.graph.getNode v = .ok (c.adj v) := by
  obtain ⟨found, atFound⟩ := (c.wellFormed.occupied v).mpr vertext
  simp only [getNode, arrayGet_of_slot atFound, ok_bind, Construction.adj, adjacency_of_slot atFound]

/-- The array `marked` loses one false slot with each new mark. -/
theorem count_store {w : Int} (unmarked : slot marked w = some false) :
    (store marked w true).count false + 1 = marked.count false := by
  obtain ⟨lower, atW⟩ := slot_eq_some.mp unmarked
  obtain ⟨inside, value⟩ := List.getElem?_eq_some_iff.mp atW
  have positive : 0 < marked.count false := List.count_pos_iff.mpr (List.mem_of_getElem? atW)
  rw [store, List.count_set inside, value]
  simp
  omega

/-- The inner loop of `bfs` while the entries `rest` of the list of `u` are
left: each vertex found is in the queue or done, and the passes still to
come are counted by `total`. -/
def Scanning (c : Construction) (s u : Int) (done rest : List Int) (total : Nat) (state : BfsState) : Prop :=
  Marks c state.marked state.edgeTo (done ++ [u] ++ state.queue) ∧
    state.marked.count false + state.queue.length = total ∧
    ∃ level, Searching c.adj s (done ++ [u]) state.queue rest (parentIn state.edgeTo) level

theorem Scanning.step {done rest : List Int} {total : Nat} {state : BfsState} (entry : w ∈ c.adj u)
    (scanning : Scanning c s u done (w :: rest) total state) :
    ∃ next, visit u state w = .ok next ∧ Scanning c s u done rest total next := by
  obtain ⟨marks, sum, level, search⟩ := scanning
  have vertext := c.adj_inside entry
  have read := marks.slots w vertext
  unfold visit
  by_cases found : w ∈ done ++ [u] ++ state.queue
  · rw [decide_eq_true found] at read
    rw [arrayGet_of_slot read]
    exact ⟨state, rfl, marks, sum, level, search.skip found⟩
  · rw [decide_eq_false found] at read
    have count := count_store read
    have edgeInside := marks.edgeInside vertext
    refine ⟨⟨store state.marked w true, store state.edgeTo w u, state.queue ++ [w]⟩, ?_, ?_, ?_,
      Function.update level w (level u + 1), ?_⟩
    · simp only [arrayGet_of_slot read, ok_bind, arraySet_of_inBounds (marks.inside vertext),
        arraySet_of_inBounds edgeInside, Bool.false_eq_true, if_false]
    · have longer := (marks.store vertext).storeEdge (w := w) u
      simpa using longer
    · simp only [List.length_append, List.length_singleton]
      omega
    · rw [parentIn_store edgeInside]
      exact search.discover entry found

theorem Scanning.run {done rest : List Int} {total : Nat} {state : BfsState} (entries : ∀ w ∈ rest, w ∈ c.adj u)
    (scanning : Scanning c s u done rest total state) :
    ∃ next, rest.foldlM (visit u) state = .ok next ∧ Scanning c s u done [] total next := by
  induction rest generalizing state with
  | nil => exact ⟨state, rfl, scanning⟩
  | cons w rest ih =>
    obtain ⟨middle, visits, kept⟩ := scanning.step (entries w List.mem_cons_self)
    obtain ⟨next, runs, final⟩ := ih (fun x later => entries x (List.mem_cons_of_mem _ later)) kept
    refine ⟨next, ?_, final⟩
    rw [List.foldlM_cons, visits, ok_bind, runs]

/-- The outer loop of `bfs` between two passes. -/
def Running (c : Construction) (s : Int) (state : BfsState) : Prop :=
  ∃ done level, Marks c state.marked state.edgeTo (done ++ state.queue) ∧
    Searching c.adj s done state.queue [] (parentIn state.edgeTo) level

theorem found_vertext {done queue rest : List Int} {parent : Int → Int} {level : Int → Nat}
    (start : c.Vertext s) (search : Searching c.adj s done queue rest parent level)
    (member : v ∈ done ++ queue) : c.Vertext v := by
  by_cases atSource : v = s
  · exact atSource ▸ start
  · exact c.adj_inside (search.parents v member atSource).2.1

/-- Each pass takes one vertex out of the queue. Marking a vertex and putting
it in the queue leave the measure as it is. -/
theorem Running.step (start : c.Vertext s) {state : BfsState} (running : Running c s state) :
    LoopStep (fun state => .ok (!state.queue.isEmpty)) (fun _ => c.graph.bfsStep) (Running c s)
      (fun state => state.marked.count false + state.queue.length) state := by
  refine ⟨⟨_, rfl⟩, fun more => ensures_const.mpr ?_⟩
  obtain ⟨done, level, marks, search⟩ := running
  obtain ⟨marked, edgeTo, queue⟩ := state
  cases queue with
  | nil => cases more
  | cons temp queue =>
    have vertext : c.Vertext temp :=
      found_vertext start search (List.mem_append_right _ List.mem_cons_self)
    have scanning : Scanning c s temp done (c.adj temp) (marked.count false + queue.length)
        { marked := marked, edgeTo := edgeTo, queue := queue } :=
      ⟨by simpa using marks, rfl, level, search.pop⟩
    obtain ⟨next, runs, nextMarks, sum, nextLevel, nextSearch⟩ := scanning.run fun _ entry => entry
    refine ⟨next, ?_, ⟨done ++ [temp], nextLevel, nextMarks, nextSearch⟩, ?_⟩
    · simp only [bfsStep, getNode_eq vertext, ok_bind, runs]
    · simp only [List.length_cons]
      omega

/-- The graph after a finished breadth-first search. -/
structure Searched (c : Construction) (s : Int) (g : Graph) (edgeTo done : List Int)
    (level : Int → Nat) : Prop where
  marks : ∃ marked, g.marked = some marked ∧ Marks c marked edgeTo done
  edges : g.edgeTo = some edgeTo
  search : Searching c.adj s done [] [] (parentIn edgeTo) level

theorem bfs_ensures (start : c.Vertext s) :
    Ensures (fun fuel => bfs fuel c.graph s) (fun g => ∃ edgeTo done level, Searched c s g edgeTo done level) := by
  obtain ⟨marked, edgeTo, newMarked, newEdgeTo, marks⟩ := marks_new c
  have running : Running c s { marked := store marked s true, edgeTo := edgeTo, queue := [s] } :=
    ⟨[], fun _ => 0, marks.store start, .start c.adj s _⟩
  obtain ⟨state, runs, ⟨done, level, finalMarks, search⟩, stopped⟩ :=
    whileLoop_ensures (Running c s) _ (fun _ kept => kept.step start) running
  have empty : state.queue = [] := by simpa using stopped
  rw [empty] at search finalMarks
  rw [List.append_nil] at finalMarks
  refine ⟨{ c.graph with marked := some state.marked, edgeTo := some state.edgeTo }, ?_,
    state.edgeTo, done, level, ⟨state.marked, rfl, finalMarks⟩, rfl, search⟩
  simp only [bfs, newMarked, newEdgeTo, ok_bind, arraySet_of_inBounds (marks.inside start)]
  exact runs.bind (.ok _)

end BlogAlgorithms.Graph
