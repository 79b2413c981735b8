import BlogAlgorithms.Graph.Model

namespace BlogAlgorithms.Graph
open Java

/-- The slot holds a vertex. -/
def Occupied (vertextNodes : List (Option VertextNode)) (i : Int) : Prop :=
  ∃ vertext, slot vertextNodes i = some (some vertext)

/-- The adjacency list of a vertex. A slot without a vertex has none. -/
def adjacency (vertextNodes : List (Option VertextNode)) (i : Int) : List Int :=
  match slot vertextNodes i with
  | some (some vertext) => vertext.node
  | _ => []

theorem adjacency_of_slot {vertextNodes : List (Option VertextNode)} {i : Int} {vertext : VertextNode}
    (found : slot vertextNodes i = some (some vertext)) : adjacency vertextNodes i = vertext.node := by
  simp only [adjacency, found]

theorem adjacency_of_free {vertextNodes : List (Option VertextNode)} {i : Int}
    (free : ¬ Occupied vertextNodes i) : adjacency vertextNodes i = [] := by
  unfold adjacency
  split
  · rename_i vertext found
    exact absurd ⟨vertext, found⟩ free
  · rfl

/-- How a call changes the vertex array: the slots that get a vertex, and
what comes in front of each adjacency list. -/
structure Grows (old new : List (Option VertextNode)) (fresh : Int → Prop) (front : Int → List Int) :
    Prop where
  length : new.length = old.length
  occupied : ∀ i, Occupied new i ↔ Occupied old i ∨ fresh i
  lists : ∀ i, adjacency new i = front i ++ adjacency old i

/-- The entry that one half of an edge puts in front of the lists. -/
def entry (vertext adjvex i : Int) : List Int := if i = vertext then [adjvex] else []

theorem Grows.store {nodes : List (Option VertextNode)} {vertext : Int} {value : VertextNode} {front : List Int}
    (inside : InBounds nodes vertext) (lists : value.node = front ++ adjacency nodes vertext) :
    Grows nodes (store nodes vertext (some value)) (· = vertext) (fun i => if i = vertext then front else []) := by
  refine ⟨length_store _ _ _, fun i => ?_, fun i => ?_⟩
  · unfold Occupied
    rw [slot_store inside]
    by_cases same : i = vertext
    · simp [same]
    · simp [same]
  · by_cases same : i = vertext
    · subst same
      rw [if_pos rfl, ← lists]
      exact adjacency_of_slot (by rw [slot_store inside, if_pos rfl])
    · simp only [adjacency, slot_store inside, if_neg same, List.nil_append]

/-- Both halves of `insertEdge` do the same to the slot they name. -/
theorem link_grows {nodes : List (Option VertextNode)} {vertext : Int} (occupied : Occupied nodes vertext)
    (adjvex : Int) :
    ∃ linked, link nodes vertext adjvex = .ok linked ∧
      Grows nodes linked (fun _ => False) (entry vertext adjvex) := by
  obtain ⟨found, atFound⟩ := occupied
  have inside : InBounds nodes vertext := .of_slot atFound
  have stores : Grows nodes (store nodes vertext (some { found with node := adjvex :: found.node }))
      (· = vertext) (fun i => if i = vertext then [adjvex] else []) := by
    refine Grows.store inside ?_
    rw [adjacency_of_slot atFound, List.singleton_append]
  refine ⟨_, ?_, stores.length, fun i => ?_, stores.lists⟩
  · simp only [link, arrayGet_of_slot atFound, ok_bind, arraySet_of_inBounds inside]
  · rw [stores.occupied, or_false, or_iff_left_iff_imp]
    intro same
    exact same ▸ ⟨found, atFound⟩

/-- What every graph built within its capacity satisfies. -/
structure WellFormed (g : Graph) : Prop where
  lower : 0 ≤ g.vertextSize
  upper : g.vertextSize ≤ g.vertextNodes.length
  isInt : IsInt g.vertextNodes.length
  occupied : ∀ i, Occupied g.vertextNodes i ↔ 0 ≤ i ∧ i < g.vertextSize
  inside : ∀ i, ∀ w ∈ adjacency g.vertextNodes i, 0 ≤ w ∧ w < g.vertextSize

/-- Everything a call can do to a well-formed graph, the call of
`insertVertext` on a full array apart. -/
inductive Outcome (g : Graph) : Call → Graph × Exec Reply → Prop
  | vertext {data : Int} {nodes : List (Option VertextNode)} :
      Grows g.vertextNodes nodes (· = g.vertextSize) (fun _ => []) →
      Outcome g (.insertVertext data)
        ({ g with vertextSize := g.vertextSize + 1, vertextNodes := nodes }, .ok .void)
  | rejected {vertext1 vertext2 : Int} : Outcome g (.insertEdge vertext1 vertext2) (g, .ok (.answer false))
  | edge {vertext1 vertext2 : Int} {nodes : List (Option VertextNode)} :
      0 ≤ vertext1 ∧ vertext1 < g.vertextSize → 0 ≤ vertext2 ∧ vertext2 < g.vertextSize →
      Grows g.vertextNodes nodes (fun _ => False)
        (fun i => entry vertext1 vertext2 i ++ entry vertext2 vertext1 i) →
      Outcome g (.insertEdge vertext1 vertext2) ({ g with vertextNodes := nodes }, .ok (.answer true))

theorem WellFormed.insertVertext {g : Graph} (formed : g.WellFormed)
    (room : g.vertextSize < g.vertextNodes.length) (data : Int) :
    Outcome g (.insertVertext data) (g.perform (.insertVertext data)) := by
  have inside : InBounds g.vertextNodes g.vertextSize := ⟨formed.lower, room⟩
  have free : ¬ Occupied g.vertextNodes g.vertextSize := by
    rw [formed.occupied]
    omega
  have grows : Grows g.vertextNodes (Java.store g.vertextNodes g.vertextSize (some { data := data, node := [] }))
      (· = g.vertextSize) (fun i => if i = g.vertextSize then [] else []) :=
    Grows.store inside (by rw [adjacency_of_free free, List.append_nil])
  simp only [ite_self] at grows
  have range := formed.isInt
  have lower := formed.lower
  have unwrapped : wrap (g.vertextSize + 1) = g.vertextSize + 1 := by
    refine wrap_of_isInt ⟨?_, ?_⟩
    · omega
    · exact lt_of_le_of_lt (by omega) range.2
  simp only [perform, Graph.insertVertext, arraySet_of_inBounds inside, unwrapped]
  exact .vertext grows

theorem WellFormed.insertEdge {g : Graph} (formed : g.WellFormed) (vertext1 vertext2 : Int) :
    Outcome g (.insertEdge vertext1 vertext2) (g.perform (.insertEdge vertext1 vertext2)) := by
  unfold perform Graph.insertEdge
  dsimp only
  split
  · exact .rejected
  · rename_i accepted
    have first : 0 ≤ vertext1 ∧ vertext1 < g.vertextSize := by omega
    have second : 0 ≤ vertext2 ∧ vertext2 < g.vertextSize := by omega
    obtain ⟨half, links, halfGrows⟩ := link_grows ((formed.occupied vertext2).mpr second) vertext1
    have still : Occupied half vertext1 :=
      (halfGrows.occupied vertext1).mpr (Or.inl ((formed.occupied vertext1).mpr first))
    obtain ⟨whole, linksBack, wholeGrows⟩ := link_grows still vertext2
    simp only [links, linksBack]
    refine .edge first second ⟨wholeGrows.length.trans halfGrows.length, fun i => ?_, fun i => ?_⟩
    · rw [wholeGrows.occupied, halfGrows.occupied, or_false]
    · rw [wholeGrows.lists, halfGrows.lists, List.append_assoc]

/-- One call keeps the graph well formed. -/
theorem Outcome.wellFormed {g : Graph} {call : Call} {result : Graph × Exec Reply}
    (outcome : Outcome g call result) (formed : g.WellFormed)
    (room : ∀ data, call = .insertVertext data → g.vertextSize < g.vertextNodes.length) :
    result.1.WellFormed := by
  have lower := formed.lower
  cases outcome with
  | @vertext data nodes grows =>
    have space := room data rfl
    refine ⟨by simp only; omega, by simp only [grows.length]; omega,
      by simpa only [grows.length] using formed.isInt, fun i => ?_, fun i w member => ?_⟩
    · rw [grows.occupied, formed.occupied]
      simp only
      omega
    · rw [grows.lists, List.nil_append] at member
      have bounds := formed.inside i w member
      exact ⟨bounds.1, by simp only; omega⟩
  | rejected => exact formed
  | @edge vertext1 vertext2 nodes first second grows =>
    refine ⟨lower, by simpa only [grows.length] using formed.upper,
      by simpa only [grows.length] using formed.isInt, fun i => ?_, fun i w member => ?_⟩
    · rw [grows.occupied, formed.occupied, or_false]
    · rw [grows.lists, List.mem_append, List.mem_append] at member
      rcases member with (atFirst | atSecond) | old
      · simp only [entry, List.mem_ite_nil_right, List.mem_singleton] at atFirst
        exact atFirst.2 ▸ second
      · simp only [entry, List.mem_ite_nil_right, List.mem_singleton] at atSecond
        exact atSecond.2 ▸ first
      · exact formed.inside i w old

end BlogAlgorithms.Graph
