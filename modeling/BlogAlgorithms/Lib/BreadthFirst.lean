import BlogAlgorithms.Lib.Walk
import Mathlib.Data.List.Nodup
import Mathlib.Logic.Function.Basic

namespace BreadthFirst
open Walk

variable {V : Type} {adj : V → List V} {s u w : V} {done queue rest : List V}
  {parent : V → V} {level : V → Nat}

/-- A breadth-first search from `s` in the middle of its work. The vertices
in `done` have left the queue, and only the last of them may have entries of
its list left to look at, those in `rest`. -/
structure Searching (adj : V → List V) (s : V) (done queue rest : List V) (parent : V → V)
    (level : V → Nat) : Prop where
  nodup : (done ++ queue).Nodup
  source : s ∈ done ++ queue
  sourceLevel : level s = 0
  sorted : (done ++ queue).Pairwise (fun v w => level v ≤ level w)
  parents : ∀ v ∈ done ++ queue, v ≠ s →
    parent v ∈ done ∧ v ∈ adj (parent v) ∧ level v = level (parent v) + 1
  closed : ∀ v ∈ done, ∀ w ∈ adj v,
    (w ∈ done ++ queue ∧ level w ≤ level v + 1) ∨ (done.getLast? = some v ∧ w ∈ rest)

theorem Searching.start (adj : V → List V) (s : V) (parent : V → V) :
    Searching adj s [] [s] [] parent (fun _ => 0) where
  nodup := List.nodup_singleton s
  source := List.mem_singleton.mpr rfl
  sourceLevel := rfl
  sorted := List.pairwise_singleton _ s
  parents v member other := absurd (List.mem_singleton.mp member) other
  closed v member := by cases member

/-- The next vertex leaves the queue, with its whole list still to do. -/
theorem Searching.pop (search : Searching adj s done (u :: queue) [] parent level) :
    Searching adj s (done ++ [u]) queue (adj u) parent level := by
  have same : done ++ [u] ++ queue = done ++ u :: queue := by simp
  refine ⟨same ▸ search.nodup, same ▸ search.source, search.sourceLevel, same ▸ search.sorted, ?_, ?_⟩
  · intro v member other
    obtain ⟨inside, edge, next⟩ := search.parents v (same ▸ member) other
    exact ⟨List.mem_append_left _ inside, edge, next⟩
  · intro v member w entry
    rcases List.mem_append.mp member with old | new
    · rcases search.closed v old w entry with found | ⟨_, none⟩
      · exact Or.inl (same ▸ found)
      · cases none
    · rw [List.mem_singleton.mp new] at entry ⊢
      exact Or.inr ⟨by simp, entry⟩

/-- Whatever has been found is at most one level above the last vertex that
left the queue. -/
theorem Searching.level_le (search : Searching adj s (done ++ [u]) queue rest parent level)
    (member : w ∈ done ++ [u] ++ queue) : level w ≤ level u + 1 := by
  by_cases atSource : w = s
  · rw [atSource, search.sourceLevel]
    omega
  · obtain ⟨inside, _, next⟩ := search.parents w member atSource
    have before : level (parent w) ≤ level u := by
      obtain ⟨sorted, _, _⟩ := List.pairwise_append.mp search.sorted
      rcases List.mem_append.mp inside with old | last
      · exact (List.pairwise_append.mp sorted).2.2 _ old u (List.mem_singleton.mpr rfl)
      · rw [List.mem_singleton.mp last]
    omega

/-- An entry that has been found before is passed over. -/
theorem Searching.skip (search : Searching adj s (done ++ [u]) queue (w :: rest) parent level)
    (found : w ∈ done ++ [u] ++ queue) : Searching adj s (done ++ [u]) queue rest parent level := by
  refine { search with closed := fun v member x entry => ?_ }
  rcases search.closed v member x entry with inside | ⟨last, pending⟩
  · exact Or.inl inside
  · rcases List.mem_cons.mp pending with same | later
    · subst same
      have atLast : u = v := by simpa using last
      subst atLast
      exact Or.inl ⟨found, search.level_le found⟩
    · exact Or.inr ⟨last, later⟩

/-- A new entry joins the queue, one level above the vertex that lists it. -/
theorem Searching.discover [DecidableEq V] (search : Searching adj s (done ++ [u]) queue (w :: rest) parent level)
    (entry : w ∈ adj u) (fresh : w ∉ done ++ [u] ++ queue) :
    Searching adj s (done ++ [u]) (queue ++ [w]) rest (Function.update parent w u)
      (Function.update level w (level u + 1)) := by
  have other : ∀ v ∈ done ++ [u] ++ queue, v ≠ w := fun v member same => fresh (same ▸ member)
  have kept : ∀ v ∈ done ++ [u] ++ queue, Function.update level w (level u + 1) v = level v :=
    fun v member => Function.update_of_ne (other v member) _ _
  have keptDone : ∀ v ∈ done ++ [u], Function.update level w (level u + 1) v = level v :=
    fun v member => kept v (List.mem_append_left _ member)
  have last : u ∈ done ++ [u] := List.mem_append_right _ (List.mem_singleton.mpr rfl)
  have longer : done ++ [u] ++ (queue ++ [w]) = done ++ [u] ++ queue ++ [w] := by simp
  refine ⟨?_, ?_, ?_, ?_, ?_, ?_⟩
  · rw [longer]
    exact List.nodup_append.mpr ⟨search.nodup, List.nodup_singleton w,
      fun v member x single same => other v member (same.trans (List.mem_singleton.mp single))⟩
  · rw [longer]
    exact List.mem_append_left _ search.source
  · rw [kept s search.source, search.sourceLevel]
  · rw [longer]
    refine List.pairwise_append.mpr ⟨?_, List.pairwise_singleton _ w, ?_⟩
    · refine search.sorted.imp_of_mem fun inV inX below => ?_
      rw [kept _ inV, kept _ inX]
      exact below
    · intro v member x single
      rw [List.mem_singleton.mp single, kept v member, Function.update_self]
      exact search.level_le member
  · intro v member atSource
    rw [longer] at member
    rcases List.mem_append.mp member with old | new
    · obtain ⟨inside, edge, next⟩ := search.parents v old atSource
      rw [Function.update_of_ne (other v old), kept v old, keptDone _ inside]
      exact ⟨inside, edge, next⟩
    · rw [List.mem_singleton.mp new, Function.update_self, Function.update_self, keptDone u last]
      exact ⟨last, entry, rfl⟩
  · intro v member x listed
    rw [keptDone v member]
    rcases search.closed v member x listed with ⟨inside, below⟩ | ⟨atLast, pending⟩
    · rw [kept x inside, longer]
      exact Or.inl ⟨List.mem_append_left _ inside, below⟩
    · rcases List.mem_cons.mp pending with same | later
      · have lastIs : u = v := by simpa using atLast
        rw [same, ← lastIs, longer, Function.update_self]
        exact Or.inl ⟨List.mem_append_right _ (List.mem_singleton.mpr rfl), le_rfl⟩
      · exact Or.inr ⟨atLast, later⟩

section
variable (search : Searching adj s done [] [] parent level)
include search

theorem Searching.step {v x : V} (member : v ∈ done) (edge : x ∈ adj v) : x ∈ done ∧ level x ≤ level v + 1 := by
  rcases search.closed v member x edge with found | ⟨_, none⟩
  · rwa [List.append_nil] at found
  · cases none

/-- Following the parents of a found vertex leads to the source along a walk
whose length is the level. -/
theorem Searching.trail {v : V} (member : v ∈ done) :
    ∃ path, Trail parent s v path ∧ path.length = level v ∧ ∀ w ∈ path, w ∈ done ∧ w ∈ adj (parent w) := by
  induction height : level v generalizing v with
  | zero =>
    by_cases atSource : v = s
    · subst atSource
      exact ⟨[], .stop, rfl, by simp⟩
    · obtain ⟨_, _, next⟩ := search.parents v (List.mem_append_left _ member) atSource
      omega
  | succ n ih =>
    have other : v ≠ s := by
      intro atSource
      rw [atSource, search.sourceLevel] at height
      omega
    obtain ⟨inside, edge, next⟩ := search.parents v (List.mem_append_left _ member) other
    obtain ⟨path, trail, length, edges⟩ := ih inside (by omega)
    refine ⟨path ++ [v], .step other trail, by simp [length], fun w inPath => ?_⟩
    rcases List.mem_append.mp inPath with old | new
    · exact edges w old
    · rw [List.mem_singleton.mp new]
      exact ⟨member, edge⟩

theorem Searching.within {v : V} {path : List V} (walk : IsWalk (fun v w => w ∈ adj v) s path v) :
    v ∈ done ∧ level v ≤ path.length := by
  have start : s ∈ done := by simpa using search.source
  have bound := walk.level_le (· ∈ done) (fun v x inside edge => search.step inside edge) start
  rwa [search.sourceLevel, Nat.zero_add] at bound

theorem Searching.distance {v : V} (member : v ∈ done) : Distance (fun v w => w ∈ adj v) s v (level v) := by
  obtain ⟨path, trail, length, edges⟩ := search.trail member
  refine ⟨⟨path, trail.isWalk fun w inPath => (edges w inPath).2, length⟩, ?_⟩
  intro n ⟨other, walk, same⟩
  exact same ▸ (search.within walk).2

/-- The search has found exactly what can be reached. -/
theorem Searching.found_iff {v : V} : v ∈ done ↔ Relation.ReflTransGen (fun v w => w ∈ adj v) s v := by
  rw [reachable_iff_walk]
  constructor
  · intro member
    obtain ⟨path, trail, _, edges⟩ := search.trail member
    exact ⟨path, trail.isWalk fun w inPath => (edges w inPath).2⟩
  · intro ⟨path, walk⟩
    exact (search.within walk).1

end

end BreadthFirst
