import Mathlib.Data.Int.Order.Basic
import Mathlib.Data.Set.Defs
import Mathlib.Data.List.Basic
import Mathlib.Algebra.Group.Nat.Defs
import Mathlib.Algebra.Order.Group.Unbundled.Int

namespace Java

/-- The values of the type `int`. -/
def IsInt (x : Int) : Prop := -2 ^ 31 ≤ x ∧ x < 2 ^ 31

instance (x : Int) : Decidable (IsInt x) := inferInstanceAs (Decidable (_ ∧ _))

/-- The value that 32-bit arithmetic keeps of an exact result. -/
def wrap (x : Int) : Int := x.bmod (2 ^ 32)

theorem wrap_of_isInt {x : Int} (range : IsInt x) : wrap x = x := by
  obtain ⟨lower, upper⟩ := range
  unfold wrap
  rw [Int.bmod_def]
  split <;> omega

theorem wrap_isInt (x : Int) : IsInt (wrap x) := by
  unfold wrap IsInt
  rw [Int.bmod_def]
  split <;> omega

/-- The contract of `compareTo` and `compare` on the elements of a set: it is
a total preorder, whose ties need not be equal. -/
structure TotalPreorderOn {α : Type} (s : Set α) (compare : α → α → Int) : Prop where
  swap : ∀ x ∈ s, ∀ y ∈ s, (compare x y).sign = -(compare y x).sign
  trans : ∀ x ∈ s, ∀ y ∈ s, ∀ z ∈ s, compare x y ≤ 0 → compare y z ≤ 0 → compare x z ≤ 0

theorem TotalPreorderOn.total {α : Type} {s : Set α} {compare : α → α → Int}
    (order : TotalPreorderOn s compare) {x y : α} (hx : x ∈ s) (hy : y ∈ s) :
    compare x y ≤ 0 ∨ compare y x ≤ 0 := by
  have signs := order.swap x hx y hy
  by_contra neither
  obtain ⟨first, second⟩ := not_or.mp neither
  rw [Int.sign_eq_one_of_pos (by omega), Int.sign_eq_one_of_pos (by omega)] at signs
  exact absurd signs (by decide)

theorem TotalPreorderOn.refl {α : Type} {s : Set α} {compare : α → α → Int}
    (order : TotalPreorderOn s compare) {x : α} (hx : x ∈ s) : compare x x ≤ 0 :=
  (order.total hx hx).elim id id

theorem TotalPreorderOn.neg_iff {α : Type} {s : Set α} {compare : α → α → Int}
    (order : TotalPreorderOn s compare) {x y : α} (hx : x ∈ s) (hy : y ∈ s) :
    compare x y < 0 ↔ 0 < compare y x := by
  rw [← Int.sign_eq_neg_one_iff_neg, order.swap x hx y hy, Int.neg_inj, Int.sign_eq_one_iff_pos]

theorem TotalPreorderOn.zero_iff {α : Type} {s : Set α} {compare : α → α → Int}
    (order : TotalPreorderOn s compare) {x y : α} (hx : x ∈ s) (hy : y ∈ s) :
    compare x y = 0 ↔ compare y x = 0 := by
  have first := order.neg_iff hx hy
  have second := order.neg_iff hy hx
  omega

section
variable {α : Type} {compare : α → α → Int} (order : TotalPreorderOn Set.univ compare)
include order

theorem TotalPreorderOn.trans_univ (x y z : α) (below : compare x y ≤ 0) (above : compare y z ≤ 0) :
    compare x z ≤ 0 :=
  order.trans x (Set.mem_univ x) y (Set.mem_univ y) z (Set.mem_univ z) below above

theorem TotalPreorderOn.refl_univ (x : α) : compare x x ≤ 0 := order.refl (Set.mem_univ x)

theorem TotalPreorderOn.neg_iff_univ (x y : α) : compare x y < 0 ↔ 0 < compare y x :=
  order.neg_iff (Set.mem_univ x) (Set.mem_univ y)

theorem TotalPreorderOn.zero_iff_univ (x y : α) : compare x y = 0 ↔ compare y x = 0 :=
  order.zero_iff (Set.mem_univ x) (Set.mem_univ y)

end

/-- Elements compared by an integer key. Ties between distinct elements are
where the contract differs from a linear order. -/
def compareByKey {α : Type} (key : α → Int) (x y : α) : Int := key x - key y

theorem compareByKey_order {α : Type} (key : α → Int) : TotalPreorderOn Set.univ (compareByKey key) := by
  refine ⟨fun x _ y _ => ?_, fun x _ y _ z _ below above => ?_⟩
  · unfold compareByKey
    rw [← Int.sign_neg, Int.neg_sub]
  · unfold compareByKey at *
    omega

/-- A comparator that subtracts first keys, and second keys where the first
agree, keeps the contract where no difference overflows. -/
theorem totalPreorderOn_of_keys {α : Type} {s : Set α} {compare : α → α → Int} (first second : α → Int)
    (subtracts : ∀ x ∈ s, ∀ y ∈ s,
      compare x y = if first x ≠ first y then first x - first y else second x - second y) :
    TotalPreorderOn s compare where
  swap := by
    intro x hx y hy
    rw [subtracts x hx y hy, subtracts y hy x hx]
    by_cases same : first x = first y
    · rw [if_neg (not_not.mpr same), if_neg (not_not.mpr same.symm), ← Int.sign_neg, Int.neg_sub]
    · rw [if_pos same, if_pos (Ne.symm same), ← Int.sign_neg, Int.neg_sub]
  trans := by
    intro x hx y hy z hz below above
    rw [subtracts x hx y hy] at below
    rw [subtracts y hy z hz] at above
    rw [subtracts x hx z hz]
    split_ifs at * <;> omega

/-- What the code relies on in `Arrays.sort(array, comparator)`: under the
contract of the comparator the array ends as a sorted permutation. -/
structure ArraysSort where
  sort : {α : Type} → (α → α → Int) → List α → List α
  perm : ∀ {α : Type} {compare : α → α → Int} {a : List α},
    TotalPreorderOn {x | x ∈ a} compare → (sort compare a).Perm a
  sorted : ∀ {α : Type} {compare : α → α → Int} {a : List α},
    TotalPreorderOn {x | x ∈ a} compare → (sort compare a).Pairwise (fun x y => compare x y ≤ 0)

/-- A merge sort of the elements is such a sort. -/
def ArraysSort.merging : ArraysSort where
  sort compare a := (a.attach.mergeSort fun x y => compare x.1 y.1 ≤ 0).map Subtype.val
  perm := by
    intro α compare a _
    have attached := (List.mergeSort_perm a.attach fun x y => compare x.1 y.1 ≤ 0).map Subtype.val
    rwa [List.attach_map_subtype_val] at attached
  sorted := by
    intro α compare a order
    rw [List.pairwise_map]
    refine (List.pairwise_mergeSort ?_ ?_ a.attach).imp fun related => of_decide_eq_true related
    · intro x y z first second
      exact decide_eq_true (order.trans x.1 x.2 y.1 y.2 z.1 z.2
        (of_decide_eq_true first) (of_decide_eq_true second))
    · intro x y
      rcases order.total x.2 y.2 with below | above
      · simp [below]
      · simp [above]

end Java
