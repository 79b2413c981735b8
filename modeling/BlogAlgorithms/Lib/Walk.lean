import Mathlib.Data.List.Chain
import Mathlib.Logic.Relation
import Mathlib.Order.Bounds.Defs

namespace Walk

variable {V : Type} {next : V → V → Prop}

/-- The vertices of a walk after its start `s`, the last of which is `v`. -/
def IsWalk (next : V → V → Prop) (s : V) (path : List V) (v : V) : Prop :=
  (s :: path).IsChain next ∧ (s :: path).getLast? = some v

/-- The least number of edges over all walks. -/
def Distance (next : V → V → Prop) (s v : V) (d : Nat) : Prop :=
  IsLeast {n | ∃ path, IsWalk next s path v ∧ path.length = n} d

theorem IsWalk.nil (s : V) : IsWalk next s [] s := ⟨List.isChain_singleton s, rfl⟩

theorem isWalk_nil {s v : V} : IsWalk next s [] v ↔ s = v := by simp [IsWalk]

theorem isWalk_cons {s w v : V} {path : List V} :
    IsWalk next s (w :: path) v ↔ next s w ∧ IsWalk next w path v := by
  simp only [IsWalk, List.isChain_cons_cons, List.getLast?_cons_cons, and_assoc]

theorem IsWalk.snoc {s u v : V} {path : List V} (walk : IsWalk next s path u) (edge : next u v) :
    IsWalk next s (path ++ [v]) v := by
  induction path generalizing s with
  | nil =>
    rw [isWalk_nil] at walk
    subst walk
    exact isWalk_cons.mpr ⟨edge, .nil v⟩
  | cons w path ih =>
    obtain ⟨first, rest⟩ := isWalk_cons.mp walk
    exact isWalk_cons.mpr ⟨first, ih rest⟩

/-- A walk stays in a set that is closed under edges, and a level that grows
by at most one along the edges of the set bounds its length from below. -/
theorem IsWalk.level_le (closed : V → Prop) {level : V → Nat}
    (step : ∀ u w, closed u → next u w → closed w ∧ level w ≤ level u + 1)
    {s v : V} {path : List V} (walk : IsWalk next s path v) (start : closed s) :
    closed v ∧ level v ≤ level s + path.length := by
  induction path generalizing s with
  | nil =>
    rw [isWalk_nil] at walk
    subst walk
    exact ⟨start, le_rfl⟩
  | cons w path ih =>
    obtain ⟨first, rest⟩ := isWalk_cons.mp walk
    obtain ⟨inside, grows⟩ := step s w start first
    obtain ⟨atEnd, bound⟩ := ih rest inside
    refine ⟨atEnd, ?_⟩
    rw [List.length_cons]
    omega

theorem reachable_iff_walk {s v : V} : Relation.ReflTransGen next s v ↔ ∃ path, IsWalk next s path v := by
  constructor
  · intro reachable
    induction reachable with
    | refl => exact ⟨[], .nil s⟩
    | tail _ edge ih =>
      obtain ⟨path, walk⟩ := ih
      exact ⟨_, walk.snoc edge⟩
  · intro ⟨path, walk⟩
    induction path generalizing s with
    | nil => exact isWalk_nil.mp walk ▸ .refl
    | cons w path ih =>
      obtain ⟨first, rest⟩ := isWalk_cons.mp walk
      exact .head first (ih rest)

/-- The path that following `parent` from `v` back to `s` collects, where `s`
itself is left out. -/
inductive Trail (parent : V → V) (s : V) : V → List V → Prop
  | stop : Trail parent s s []
  | step {v : V} {path : List V} : v ≠ s → Trail parent s (parent v) path → Trail parent s v (path ++ [v])

theorem Trail.isWalk {parent : V → V} {s v : V} {path : List V} (trail : Trail parent s v path)
    (edges : ∀ w ∈ path, next (parent w) w) : IsWalk next s path v := by
  induction trail with
  | stop => exact .nil s
  | step _ _ ih =>
    refine (ih fun w member => edges w (List.mem_append_left _ member)).snoc (edges _ ?_)
    exact List.mem_append_right _ List.mem_cons_self

end Walk
