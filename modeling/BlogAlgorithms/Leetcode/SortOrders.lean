import BlogAlgorithms.Java.KeyOrder
import BlogAlgorithms.Leetcode.MergeIntervals
import BlogAlgorithms.Leetcode.ReconstructQueue

namespace BlogAlgorithms
open Java

/-- The order of the comment in the source: by the left end, and by the right
end where the left ends agree. -/
def MergeIntervals.Before (interval1 interval2 : IntInterval) : Prop :=
  interval1.left < interval2.left ∨ interval1.left = interval2.left ∧ interval1.right < interval2.right

theorem MergeIntervals.compare_eq_wrap (x y : IntInterval) :
    compare x y = wrap (keyDifference IntInterval.left IntInterval.right x y) := by
  unfold compare keyDifference
  split <;> rfl

/-- The heights go down, so their first key is negative. -/
theorem ReconstructQueue.keyDifference_eq (x y : Person) :
    keyDifference (fun person => -person.h) Person.k x y =
      if x.h ≠ y.h then y.h - x.h else x.k - y.k := by
  simp only [keyDifference, ne_eq, neg_inj, neg_sub_neg]

theorem ReconstructQueue.compare_eq_wrap (x y : Person) :
    compare x y = wrap (keyDifference (fun person => -person.h) Person.k x y) := by
  rw [keyDifference_eq, compare]
  split <;> rfl

theorem ReconstructQueue.before_eq : Before = KeyBefore (fun person => -person.h) Person.k := by
  funext x y
  simp only [Before, KeyBefore, neg_lt_neg_iff, neg_inj, eq_comm]

namespace SortOrders

/-- Each comparator orders a set of int rows as intended exactly where the
differences it returns are ints. -/
theorem comparators_order_iff (intervals : Set IntInterval) (people : Set ReconstructQueue.Person)
    (ends : ∀ x ∈ intervals, IsInt x.left ∧ IsInt x.right) (rows : ∀ x ∈ people, IsInt x.h ∧ IsInt x.k) :
    ((TotalPreorderOn intervals MergeIntervals.compare ∧
        SignsOn intervals MergeIntervals.compare MergeIntervals.Before) ↔
      ∀ x ∈ intervals, ∀ y ∈ intervals, IsInt (if x.left ≠ y.left then x.left - y.left else x.right - y.right)) ∧
    ((TotalPreorderOn people ReconstructQueue.compare ∧
        SignsOn people ReconstructQueue.compare ReconstructQueue.Before) ↔
      ∀ x ∈ people, ∀ y ∈ people, IsInt (if x.h ≠ y.h then y.h - x.h else x.k - y.k)) := by
  constructor
  · refine wrapped_order_iff (fun x _ y _ => MergeIntervals.compare_eq_wrap x y) fun x inX y inY => ?_
    obtain ⟨⟨_, _⟩, _, _⟩ := ends x inX
    obtain ⟨⟨_, _⟩, _, _⟩ := ends y inY
    unfold keyDifference
    split <;> omega
  · simp only [ReconstructQueue.before_eq, ← ReconstructQueue.keyDifference_eq]
    refine wrapped_order_iff (fun x _ y _ => ReconstructQueue.compare_eq_wrap x y) fun x inX y inY => ?_
    obtain ⟨⟨_, _⟩, _, _⟩ := rows x inX
    obtain ⟨⟨_, _⟩, _, _⟩ := rows y inY
    rw [ReconstructQueue.keyDifference_eq]
    split <;> omega

theorem comparators_order_iff_small :
    (TotalPreorderOn {⟨1, 3⟩, ⟨1, 2⟩} MergeIntervals.compare ∧
      SignsOn {⟨1, 3⟩, ⟨1, 2⟩} MergeIntervals.compare MergeIntervals.Before) ∧
    TotalPreorderOn {⟨7, 1⟩, ⟨5, 0⟩} ReconstructQueue.compare ∧
      SignsOn {⟨7, 1⟩, ⟨5, 0⟩} ReconstructQueue.compare ReconstructQueue.Before := by
  obtain ⟨ofIntervals, ofPeople⟩ := comparators_order_iff {⟨1, 3⟩, ⟨1, 2⟩} {⟨7, 1⟩, ⟨5, 0⟩}
    (by simp [IsInt]) (by simp [IsInt])
  exact ⟨ofIntervals.mpr (by simp [IsInt]), ofPeople.mpr (by simp [IsInt])⟩

/-- The difference `2 ^ 31` wraps to a negative number. -/
theorem comparators_wrong_sign :
    MergeIntervals.compare ⟨2147483647, 2147483647⟩ ⟨-1, 0⟩ < 0 ∧
      ¬ MergeIntervals.Before ⟨2147483647, 2147483647⟩ ⟨-1, 0⟩ ∧
      ReconstructQueue.compare ⟨-1, 0⟩ ⟨2147483647, 0⟩ < 0 ∧
      ¬ ReconstructQueue.Before ⟨-1, 0⟩ ⟨2147483647, 0⟩ := by
  unfold MergeIntervals.Before ReconstructQueue.Before
  decide

end SortOrders

end BlogAlgorithms
