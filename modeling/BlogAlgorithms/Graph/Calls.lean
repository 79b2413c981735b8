import BlogAlgorithms.Graph.Build

namespace BlogAlgorithms.Graph
open Java

@[simp] theorem insertions_nil : insertions [] = 0 := rfl

@[simp] theorem insertions_vertext (data : Int) (calls : List Call) :
    insertions (.insertVertext data :: calls) = insertions calls + 1 := List.countP_cons_of_pos rfl

@[simp] theorem insertions_edge (vertext1 vertext2 : Int) (calls : List Call) :
    insertions (.insertEdge vertext1 vertext2 :: calls) = insertions calls :=
  List.countP_cons_of_neg (by simp)

theorem insertions_append (before after : List Call) :
    insertions (before ++ after) = insertions before + insertions after := List.countP_append

theorem insertions_cons (call : Call) (calls : List Call) :
    insertions (call :: calls) = insertions [call] + insertions calls := insertions_append [call] calls

theorem WellFormed.perform {g : Graph} (formed : g.WellFormed) {call : Call}
    (room : g.vertextSize + insertions [call] ≤ g.vertextNodes.length) : Outcome g call (g.perform call) := by
  cases call with
  | insertVertext data =>
    rw [insertions_vertext, insertions_nil] at room
    exact formed.insertVertext (by omega) data
  | insertEdge vertext1 vertext2 => exact formed.insertEdge vertext1 vertext2

theorem Outcome.size {g : Graph} {call : Call} {result : Graph × Exec Reply}
    (outcome : Outcome g call result) :
    result.1.vertextSize = g.vertextSize + insertions [call] ∧
      result.1.vertextNodes.length = g.vertextNodes.length := by
  cases outcome with
  | vertext grows => exact ⟨by simp, grows.length⟩
  | rejected => exact ⟨by simp, rfl⟩
  | edge _ _ grows => exact ⟨by simp, grows.length⟩

/-- A run of calls within the capacity never meets a full array. -/
theorem WellFormed.run {g : Graph} (formed : g.WellFormed) (calls : List Call)
    (within : g.vertextSize + insertions calls ≤ g.vertextNodes.length) :
    (g.run calls).WellFormed ∧ (g.run calls).vertextSize = g.vertextSize + insertions calls ∧
      (g.run calls).vertextNodes.length = g.vertextNodes.length := by
  induction calls generalizing g with
  | nil => exact ⟨formed, by simp [Graph.run], rfl⟩
  | cons call calls ih =>
    rw [insertions_cons, Int.natCast_add] at within
    have outcome := formed.perform (show g.vertextSize + insertions [call] ≤ g.vertextNodes.length by omega)
    obtain ⟨size, length⟩ := outcome.size
    have next : (g.perform call).1.WellFormed := by
      refine outcome.wellFormed formed fun data same => ?_
      subst same
      rw [insertions_vertext, insertions_nil] at within
      omega
    obtain ⟨final, finalSize, finalLength⟩ := ih next (by omega)
    rw [run_cons, insertions_cons, Int.natCast_add]
    exact ⟨final, by omega, by omega⟩

theorem new_wellFormed {numOfVertext : Int} {g : Graph} (isInt : IsInt numOfVertext)
    (created : new numOfVertext = .ok g) :
    g.WellFormed ∧ g.vertextSize = 0 ∧ (g.vertextNodes.length : Int) = numOfVertext ∧
      ∀ i, adjacency g.vertextNodes i = [] := by
  unfold new newArray at created
  split at created
  · exact absurd created (by simp [throwing])
  · rename_i nonneg
    have same := Except.ok.inj created
    subst same
    have free : ∀ i, ¬ Occupied (List.replicate numOfVertext.toNat none) i := by
      intro i occupied
      obtain ⟨vertext, found⟩ := occupied
      have member := List.mem_of_getElem? (slot_eq_some.mp found).2
      exact absurd (List.eq_of_mem_replicate member) (by simp)
    have length : ((List.replicate numOfVertext.toNat (none : Option VertextNode)).length : Int) =
        numOfVertext := by
      rw [List.length_replicate]
      omega
    refine ⟨⟨le_rfl, by simp, by rwa [length], fun i => ?_, fun i w member => ?_⟩, rfl, length,
      fun i => adjacency_of_free (free i)⟩
    · refine iff_of_false (free i) ?_
      simp only
      omega
    · rw [adjacency_of_free (free i)] at member
      cases member

/-- The call threw, or refused an edge. -/
def Failed (reply : Exec Reply) : Prop := (∃ halt, reply = .error halt) ∨ reply = .ok (.answer false)

/-- What the fields promise after a call: `vertextSize` counts vertices that
are in the array, the lists name slots of the array, and a call that fails
has changed neither. -/
structure CallSafe (g : Graph) (call : Call) : Prop where
  size : 0 ≤ (g.perform call).1.vertextSize ∧
    (g.perform call).1.vertextSize ≤ (g.perform call).1.vertextNodes.length
  filled : ∀ i, 0 ≤ i → i < (g.perform call).1.vertextSize → Occupied (g.perform call).1.vertextNodes i
  below : ∀ i, ∀ w ∈ adjacency (g.perform call).1.vertextNodes i, w < (g.perform call).1.vertextNodes.length
  frame : Failed (g.perform call).2 → (g.perform call).1.vertextSize = g.vertextSize ∧
    ∀ i, adjacency (g.perform call).1.vertextNodes i = adjacency g.vertextNodes i

theorem Outcome.frame {g : Graph} {call : Call} {result : Graph × Exec Reply}
    (outcome : Outcome g call result) (failed : Failed result.2) : result.1 = g := by
  cases outcome with
  | vertext => simp [Failed] at failed
  | rejected => rfl
  | edge => simp [Failed] at failed

theorem WellFormed.callSafe {g : Graph} (formed : g.WellFormed) {call : Call}
    (room : g.vertextSize + insertions [call] ≤ g.vertextNodes.length) : CallSafe g call := by
  have outcome := formed.perform room
  have next : (g.perform call).1.WellFormed := (formed.run [call] room).1
  refine ⟨⟨next.lower, next.upper⟩, fun i lower upper => (next.occupied i).mpr ⟨lower, upper⟩,
    fun i w member => lt_of_lt_of_le (next.inside i w member).2 next.upper, fun failed => ?_⟩
  rw [outcome.frame failed]
  exact ⟨rfl, fun _ => rfl⟩

/-- The increment comes before the bounds check, so that on a full array the
size is wrong afterwards, also where it overflows. -/
theorem WellFormed.not_callSafe {g : Graph} (formed : g.WellFormed)
    (full : g.vertextSize = g.vertextNodes.length) (data : Int) : ¬ CallSafe g (.insertVertext data) := by
  intro safe
  have outside : ¬ InBounds g.vertextNodes g.vertextSize := fun inside => by
    have upper := inside.2
    omega
  have size := safe.size
  simp only [Graph.perform, Graph.insertVertext, arraySet_of_outside outside, throwing] at size
  have upper := formed.isInt.2
  have lower := formed.lower
  unfold wrap at size
  rw [Int.bmod_def] at size
  split at size
  · omega
  · omega

theorem split_at_insertion {calls : List Call} {count : Nat} (more : count < insertions calls) :
    ∃ before data after, calls = before ++ .insertVertext data :: after ∧ insertions before = count := by
  induction calls generalizing count with
  | nil => simp at more
  | cons call calls ih =>
    cases call with
    | insertEdge vertext1 vertext2 =>
      rw [insertions_edge] at more
      obtain ⟨before, data, after, split, size⟩ := ih more
      exact ⟨.insertEdge vertext1 vertext2 :: before, data, after, by rw [split]; rfl, by simpa using size⟩
    | insertVertext value =>
      rw [insertions_vertext] at more
      cases count with
      | zero => exact ⟨[], value, calls, rfl, rfl⟩
      | succ count =>
        obtain ⟨before, data, after, split, size⟩ := ih (Nat.lt_of_succ_lt_succ more)
        exact ⟨.insertVertext value :: before, data, after, by rw [split]; rfl, by simpa using size⟩

/-- A run of calls keeps what the fields promise exactly if it inserts no
more vertices than the array has slots. -/
theorem calls_safe_iff {numOfVertext : Int} {g : Graph} (isInt : IsInt numOfVertext)
    (created : new numOfVertext = .ok g) (calls : List Call) :
    (∀ before call after, calls = before ++ call :: after → CallSafe (g.run before) call) ↔
      insertions calls ≤ numOfVertext := by
  obtain ⟨formed, size, length, _⟩ := new_wellFormed isInt created
  constructor
  · intro safe
    by_contra overfull
    have nonneg : 0 ≤ numOfVertext := by omega
    obtain ⟨before, data, after, split, count⟩ :=
      split_at_insertion (show numOfVertext.toNat < insertions calls by omega)
    obtain ⟨reached, reachedSize, reachedLength⟩ := formed.run before (by omega)
    exact reached.not_callSafe (by omega) data (safe before _ after split)
  · intro within before call after split
    subst split
    rw [insertions_append, insertions_cons, Int.natCast_add, Int.natCast_add] at within
    obtain ⟨reached, reachedSize, reachedLength⟩ := formed.run before (by omega)
    exact reached.callSafe (by omega)

theorem calls_safe_iff_one_vertext :
    (∀ before call after, [Call.insertVertext 1, .insertEdge 0 0, .insertEdge 0 1] = before ++ call :: after →
      CallSafe (run { vertextNodes := [none], vertextSize := 0, marked := none, edgeTo := none } before) call) ↔
      (insertions [Call.insertVertext 1, .insertEdge 0 0, .insertEdge 0 1] : Int) ≤ 1 :=
  calls_safe_iff (by decide) rfl _

/-- A vertex inserted into a graph without slots is refused by an exception
and counted all the same. -/
theorem insertVertext_counts_refused :
    ∃ g, new 0 = .ok g ∧ g.vertextNodes.length = 0 ∧
      (g.perform (.insertVertext 1)).2 = throwing .arrayIndexOutOfBounds ∧
      (g.perform (.insertVertext 1)).1.vertextSize = 1 ∧ ¬ CallSafe (g.run []) (.insertVertext 1) := by
  refine ⟨_, rfl, rfl, rfl, by decide, fun safe => ?_⟩
  exact absurd safe.size (by decide)

end BlogAlgorithms.Graph
