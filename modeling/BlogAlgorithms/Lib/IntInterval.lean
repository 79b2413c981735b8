import Mathlib.Data.Real.Basic
import Mathlib.Tactic.Linarith

/-- A closed interval with integer ends. -/
structure IntInterval where
  left : Int
  right : Int
  deriving DecidableEq, Repr

namespace IntInterval

def Contains (x : IntInterval) (point : ℝ) : Prop := x.left ≤ point ∧ point ≤ x.right

/-- The union of the intervals of a list contains the point. -/
def Covers (xs : List IntInterval) (point : ℝ) : Prop := ∃ x ∈ xs, x.Contains point

/-- Nonempty intervals in order, each strictly before the next. -/
structure Canonical (xs : List IntInterval) : Prop where
  nonempty : ∀ x ∈ xs, x.left ≤ x.right
  separated : xs.Pairwise (fun x y => x.right < y.left)

theorem covers_append {xs ys : List IntInterval} {point : ℝ} :
    Covers (xs ++ ys) point ↔ Covers xs point ∨ Covers ys point := by
  unfold Covers
  simp only [List.mem_append, or_and_right, exists_or]

theorem covers_singleton {x : IntInterval} {point : ℝ} : Covers [x] point ↔ x.Contains point := by
  simp [Covers]

theorem covers_cons {x : IntInterval} {xs : List IntInterval} {point : ℝ} :
    Covers (x :: xs) point ↔ x.Contains point ∨ Covers xs point := by
  simp [Covers]

theorem covers_perm {xs ys : List IntInterval} (perm : xs.Perm ys) (point : ℝ) :
    Covers xs point ↔ Covers ys point := by
  simp only [Covers, perm.mem_iff]

theorem Canonical.tail {x : IntInterval} {xs : List IntInterval} (canonical : Canonical (x :: xs)) : Canonical xs :=
  ⟨fun y member => canonical.nonempty y (List.mem_cons_of_mem x member),
    (List.pairwise_cons.mp canonical.separated).2⟩

/-- All the points of the later intervals are more than the first one away. -/
theorem Canonical.later {x : IntInterval} {xs : List IntInterval} (canonical : Canonical (x :: xs)) {point : ℝ}
    (covered : Covers xs point) : (x.right : ℝ) + 1 ≤ point := by
  obtain ⟨y, member, lower, _⟩ := covered
  have apart := (List.pairwise_cons.mp canonical.separated).1 y member
  have cast : (x.right : ℝ) + 1 ≤ y.left := by exact_mod_cast apart
  linarith

theorem Canonical.left_le {x : IntInterval} {xs : List IntInterval} (canonical : Canonical (x :: xs)) {point : ℝ}
    (covered : Covers (x :: xs) point) : (x.left : ℝ) ≤ point := by
  have ends : (x.left : ℝ) ≤ x.right := by exact_mod_cast canonical.nonempty x List.mem_cons_self
  rcases covers_cons.mp covered with ⟨lower, _⟩ | later
  · exact lower
  · have above := canonical.later later
    linarith

theorem Canonical.left_covered {x : IntInterval} {xs : List IntInterval} (canonical : Canonical (x :: xs)) :
    Covers (x :: xs) x.left :=
  covers_cons.mpr (Or.inl ⟨le_rfl, by exact_mod_cast canonical.nonempty x List.mem_cons_self⟩)

/-- Half a step after its first interval a canonical list has a gap. -/
theorem Canonical.right_le {x y : IntInterval} {xs ys : List IntInterval} (first : Canonical (x :: xs))
    (lefts : x.left = y.left)
    (same : ∀ point, Covers (y :: ys) point → Covers (x :: xs) point) : y.right ≤ x.right := by
  by_contra longer
  have step : (x.right : ℝ) + 1 ≤ y.right := by exact_mod_cast Int.not_le.mp longer
  have ends : (y.left : ℝ) ≤ x.right := by exact_mod_cast lefts ▸ first.nonempty x List.mem_cons_self
  have inside : Covers (y :: ys) ((x.right : ℝ) + 1 / 2) :=
    covers_cons.mpr (Or.inl ⟨by linarith, by linarith⟩)
  rcases covers_cons.mp (same _ inside) with ⟨_, upper⟩ | later
  · linarith
  · have above := first.later later
    linarith

theorem Canonical.covers_tail {x : IntInterval} {xs ys : List IntInterval} (canonical : Canonical (x :: xs))
    (same : ∀ point, Covers (x :: xs) point → Covers (x :: ys) point) {point : ℝ} (covered : Covers xs point) :
    Covers ys point := by
  have above := canonical.later covered
  have whole := covers_cons.mp (same point (covers_cons.mpr (Or.inr covered)))
  exact whole.resolve_left fun ⟨_, upper⟩ => by linarith

/-- The union of a canonical list determines the list. -/
theorem Canonical.unique {xs ys : List IntInterval} (first : Canonical xs) (second : Canonical ys)
    (same : ∀ point, Covers xs point ↔ Covers ys point) : xs = ys := by
  induction xs generalizing ys with
  | nil =>
    cases ys with
    | nil => rfl
    | cons y ys =>
      obtain ⟨x, member, _⟩ := (same y.left).mpr second.left_covered
      cases member
  | cons x xs ih =>
    cases ys with
    | nil =>
      obtain ⟨y, member, _⟩ := (same x.left).mp first.left_covered
      cases member
    | cons y ys =>
      have lefts : x.left = y.left := by
        have forward := first.left_le ((same _).mpr second.left_covered)
        have backward := second.left_le ((same _).mp first.left_covered)
        exact_mod_cast le_antisymm forward backward
      have rights : x.right = y.right :=
        le_antisymm (second.right_le lefts.symm fun point => (same point).mp)
          (first.right_le lefts fun point => (same point).mpr)
      have heads : x = y := by
        cases x
        cases y
        simp_all
      subst heads
      have tails : ∀ point, Covers xs point ↔ Covers ys point := fun point =>
        ⟨first.covers_tail fun point => (same point).mp, second.covers_tail fun point => (same point).mpr⟩
      rw [ih first.tail second.tail tails]

end IntInterval
