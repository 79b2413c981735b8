import BlogAlgorithms.Java.Comparator
import Mathlib.Data.List.Nodup
import Mathlib.Data.List.Perm.Basic

namespace StableSort
open Java

variable {α : Type} {compare : α → α → Int}

/-- The order of elements tagged with their old positions: by the elements,
and by the positions where these compare equal. -/
def Precedes (compare : α → α → Int) (x y : α × Nat) : Prop :=
  compare x.1 y.1 < 0 ∨ compare x.1 y.1 = 0 ∧ x.2 < y.2

/-- The list `b` is a sorted permutation of `a` in which elements that compare
equal keep their relative order. Positions are counted from `start`. -/
def StablySorts (compare : α → α → Int) (start : Nat) (a b : List α) : Prop :=
  ∃ tagged : List (α × Nat), tagged.Perm (a.zipIdx start) ∧ tagged.map Prod.fst = b ∧
    tagged.Pairwise (Precedes compare)

section
variable (order : TotalPreorderOn Set.univ compare)
include order

theorem precedes_trans {x y z : α × Nat} (first : Precedes compare x y) (second : Precedes compare y z) :
    Precedes compare x z := by
  have le := order.trans_univ x.1 y.1 z.1
  have back := order.trans_univ z.1 x.1 y.1
  have onward := order.trans_univ y.1 z.1 x.1
  have signXY := order.neg_iff_univ x.1 y.1
  have signYZ := order.neg_iff_univ y.1 z.1
  have signXZ := order.neg_iff_univ x.1 z.1
  have zeroXZ := order.zero_iff_univ x.1 z.1
  unfold Precedes at *
  omega

theorem precedes_asymm {x y : α × Nat} (first : Precedes compare x y) : ¬ Precedes compare y x := by
  have sign := order.neg_iff_univ x.1 y.1
  have zero := order.zero_iff_univ x.1 y.1
  unfold Precedes at *
  omega

/-- There is at most one stably sorted permutation. -/
theorem StablySorts.unique {start : Nat} {a b c : List α} (first : StablySorts compare start a b)
    (second : StablySorts compare start a c) : b = c := by
  obtain ⟨left, leftPerm, rfl, leftSorted⟩ := first
  obtain ⟨right, rightPerm, rfl, rightSorted⟩ := second
  have same : left = right := by
    refine List.Perm.eq_of_pairwise ?_ leftSorted rightSorted (leftPerm.trans rightPerm.symm)
    intro x y _ _ forward backward
    exact absurd backward (precedes_asymm order forward)
  rw [same]

end

theorem stablySorts_nil (start : Nat) : StablySorts compare start [] [] :=
  ⟨[], by simp, rfl, List.Pairwise.nil⟩

theorem stablySorts_singleton (start : Nat) (x : α) : StablySorts compare start [x] [x] :=
  ⟨[(x, start)], by simp, rfl, List.pairwise_singleton _ _⟩

theorem zipIdx_bounds {start : Nat} {a : List α} {x : α × Nat} (member : x ∈ a.zipIdx start) :
    start ≤ x.2 ∧ x.2 < start + a.length := by
  obtain ⟨value, index⟩ := x
  obtain ⟨lower, upper, _⟩ := List.mem_zipIdx member
  exact ⟨lower, upper⟩

/-- A merge is sorted by any transitive relation that its test decides
between the two lists. -/
theorem pairwise_merge_of {β : Type} (R : β → β → Prop) {test : β → β → Bool}
    (trans : ∀ x y z, R x y → R y z → R x z) {left right : List β}
    (takeLeft : ∀ x ∈ left, ∀ y ∈ right, test x y = true → R x y)
    (takeRight : ∀ x ∈ left, ∀ y ∈ right, test x y = false → R y x)
    (leftSorted : left.Pairwise R) (rightSorted : right.Pairwise R) :
    (left.merge right test).Pairwise R := by
  fun_induction List.merge left right test with
  | case1 right => exact rightSorted
  | case2 left => exact leftSorted
  | case3 x left y right yes ih =>
    obtain ⟨aboveX, leftRest⟩ := List.pairwise_cons.mp leftSorted
    obtain ⟨aboveY, _⟩ := List.pairwise_cons.mp rightSorted
    have first : R x y := takeLeft x List.mem_cons_self y List.mem_cons_self yes
    refine List.pairwise_cons.mpr ⟨fun z member => ?_, ih ?_ ?_ leftRest rightSorted⟩
    · rcases List.mem_merge.mp member with inLeft | inRight
      · exact aboveX z inLeft
      · rcases List.mem_cons.mp inRight with same | inRight
        · exact same ▸ first
        · exact trans x y z first (aboveY z inRight)
    · exact fun z member => takeLeft z (List.mem_cons_of_mem _ member)
    · exact fun z member => takeRight z (List.mem_cons_of_mem _ member)
  | case4 x left y right no ih =>
    obtain ⟨aboveX, _⟩ := List.pairwise_cons.mp leftSorted
    obtain ⟨aboveY, rightRest⟩ := List.pairwise_cons.mp rightSorted
    have first : R y x := takeRight x List.mem_cons_self y List.mem_cons_self (Bool.eq_false_iff.mpr no)
    refine List.pairwise_cons.mpr ⟨fun z member => ?_, ih ?_ ?_ leftSorted rightRest⟩
    · rcases List.mem_merge.mp member with inLeft | inRight
      · rcases List.mem_cons.mp inLeft with same | inLeft
        · exact same ▸ first
        · exact trans y x z first (aboveX z inLeft)
      · exact aboveY z inRight
    · exact fun z member w other => takeLeft z member w (List.mem_cons_of_mem _ other)
    · exact fun z member w other => takeRight z member w (List.mem_cons_of_mem _ other)

/-- The test by which a merge takes the left element first on a tie. -/
def leftFirst (compare : α → α → Int) (x y : α) : Bool := compare x y ≤ 0

/-- Merging the stable sorts of two neighbouring pieces sorts both stably. -/
theorem StablySorts.merge (order : TotalPreorderOn Set.univ compare) {start : Nat}
    {left right leftSorted rightSorted : List α}
    (onLeft : StablySorts compare start left leftSorted)
    (onRight : StablySorts compare (start + left.length) right rightSorted) :
    StablySorts compare start (left ++ right) (leftSorted.merge rightSorted (leftFirst compare)) := by
  obtain ⟨leftTags, leftPerm, rfl, leftOrder⟩ := onLeft
  obtain ⟨rightTags, rightPerm, rfl, rightOrder⟩ := onRight
  have earlier : ∀ x ∈ leftTags, ∀ y ∈ rightTags, x.2 < y.2 := by
    intro x inLeft y inRight
    have upper := (zipIdx_bounds (leftPerm.mem_iff.mp inLeft)).2
    have lower := (zipIdx_bounds (rightPerm.mem_iff.mp inRight)).1
    omega
  refine ⟨leftTags.merge rightTags (fun x y => leftFirst compare x.1 y.1), ?_, ?_, ?_⟩
  · rw [List.zipIdx_append]
    exact (List.merge_perm_append _).trans (leftPerm.append rightPerm)
  · exact List.map_merge fun x _ y _ => rfl
  · refine pairwise_merge_of (Precedes compare) (fun _ _ _ => precedes_trans order)
      (fun x inLeft y inRight yes => ?_) (fun x _ y _ no => ?_) leftOrder rightOrder
    · have below : compare x.1 y.1 ≤ 0 := of_decide_eq_true yes
      have tags := earlier x inLeft y inRight
      unfold Precedes
      omega
    · have above : ¬ compare x.1 y.1 ≤ 0 := of_decide_eq_false no
      exact Or.inl ((order.neg_iff_univ _ _).mpr (by omega))

/-- In a sorted list everything compares at most like the last element. -/
theorem notLarger (order : TotalPreorderOn Set.univ compare) {tags : List (α × Nat)} {x : α}
    (sorted : tags.Pairwise (Precedes compare))
    (stop : ∀ last, tags.getLast? = some last → ¬ compare x last.1 < 0) :
    ∀ y ∈ tags, compare y.1 x ≤ 0 := by
  intro y member
  obtain ⟨front, last, rfl⟩ := (List.eq_nil_or_concat' tags).resolve_left (List.ne_nil_of_mem member)
  have atLast : compare last.1 x ≤ 0 := by
    have notBelow := stop last (by simp)
    have sign := order.neg_iff_univ x last.1
    omega
  rcases List.mem_append.mp member with inFront | atEnd
  · have before := (List.pairwise_append.mp sorted).2.2 y inFront last List.mem_cons_self
    have below : compare y.1 last.1 ≤ 0 := by
      unfold Precedes at before
      omega
    exact order.trans_univ y.1 last.1 x below atLast
  · rw [List.mem_singleton.mp atEnd]
    exact atLast

/-- Putting a last element before a block of larger ones, right after one
that is not larger, keeps the sort stable. -/
theorem StablySorts.insert (order : TotalPreorderOn Set.univ compare) {start : Nat}
    {a left right : List α} {x : α} (sorts : StablySorts compare start a (left ++ right))
    (larger : ∀ y ∈ right, compare x y < 0)
    (stop : ∀ y, left.getLast? = some y → ¬ compare x y < 0) :
    StablySorts compare start (a ++ [x]) (left ++ x :: right) := by
  obtain ⟨tags, perm, split, sorted⟩ := sorts
  obtain ⟨leftTags, rightTags, rfl, rfl, rfl⟩ := List.map_eq_append_iff.mp split
  obtain ⟨leftOrder, rightOrder, across⟩ := List.pairwise_append.mp sorted
  refine ⟨leftTags ++ (x, start + a.length) :: rightTags, ?_, by simp, ?_⟩
  · have tagged : [x].zipIdx (start + a.length) = [(x, start + a.length)] := rfl
    rw [List.zipIdx_append, tagged]
    exact (List.perm_middle.trans (perm.cons _)).trans (List.perm_append_singleton _ _).symm
  · refine List.pairwise_append.mpr ⟨leftOrder, List.pairwise_cons.mpr ⟨?_, rightOrder⟩, ?_⟩
    · exact fun y member => Or.inl (larger y.1 (List.mem_map_of_mem member))
    · intro y inLeft z member
      rcases List.mem_cons.mp member with same | inRight
      · have tag := (zipIdx_bounds (perm.mem_iff.mp (List.mem_append_left _ inLeft))).2
        have below := notLarger order leftOrder (fun last atEnd => stop last.1 (by simp [atEnd])) y inLeft
        rw [same]
        unfold Precedes
        simp only
        omega
      · exact across y inLeft z inRight

end StableSort
