import BlogAlgorithms.Sort.PartitionLoop

namespace BlogAlgorithms.QuickSort
open Java

variable {α : Type} (compareTo : α → α → Int)

/-- The overload `quickSort(a, lo, hi)`. -/
def quickSortRange : Nat → List α → Int → Int → Exec (List α)
  | 0, _, _, _ => .error .outOfFuel
  | fuel + 1, a, lo, hi =>
    if hi ≤ lo then .ok a
    else do
      let (a, j) ← partition compareTo fuel a lo hi
      let a ← quickSortRange fuel a lo (j - 1)
      quickSortRange fuel a (j + 1) hi

def quickSort (fuel : Nat) (a : List α) : Exec (List α) :=
  quickSortRange compareTo fuel a 0 (a.length - 1)

section
variable {compareTo} {a : List α} {lo hi j : Int}

/-- Sorting the two sides of the pivot sorts the range. -/
theorem Split.sorted (order : TotalPreorderOn Set.univ compareTo) {original b c : List α}
    (split : Split compareTo original lo hi a j)
    (movedLeft : Rearranges lo (j - 1) a b) (left : SortedOn compareTo b lo (j - 1))
    (movedRight : Rearranges (j + 1) hi b c) (right : SortedOn compareTo c (j + 1) hi) :
    SortedOn compareTo c lo hi := by
  obtain ⟨_, inside, pivot, atJ, below, above⟩ := split
  have keptLeft (k : Int) (before : k ≤ j) : slot c k = slot b k := movedRight.outside k (by omega)
  have keptRight (k : Int) (after : j ≤ k) : slot b k = slot a k := movedLeft.outside k (by omega)
  have middle : slot c j = some pivot := by rw [keptLeft j le_rfl, keptRight j le_rfl, atJ]
  refine .join order ?_ right middle ?_ ?_
  · exact left.congr fun k _ last => keptLeft k (by omega)
  · exact (below.rearranged movedLeft).congr fun k _ last => keptLeft k (by omega)
  · exact (above.congr fun k first _ => keptRight k (by omega)).rearranged movedRight

theorem quickSortRange_ensures (lower : 0 ≤ lo) (bound : hi < a.length) (calm : ¬ Clashing compareTo a) :
    Ensures (fun fuel => quickSortRange compareTo fuel a lo hi) (fun b => Rearranges lo hi a b ∧
      (TotalPreorderOn Set.univ compareTo → SortedOn compareTo b lo hi)) := by
  induction size : (hi - lo).toNat using Nat.strong_induction_on generalizing a lo hi with
  | _ length ih =>
    by_cases short : hi ≤ lo
    · exact ⟨a, Returns.call (fun fuel => by rw [quickSortRange, if_pos short]) (.ok a), .refl lo hi a,
        fun _ => SortedOn.of_short short⟩
    · refine Ensures.call (fun fuel => by rw [quickSortRange, if_neg short]) ?_
      refine (partition_ensures lower (by omega) bound calm).bind fun result ⟨moved, inside, split⟩ => ?_
      obtain ⟨b, j⟩ := result
      simp only at moved inside split
      have lengthB := moved.perm.length_eq
      have calmB : ¬ Clashing compareTo b := fun clashing => calm (clashing.of_perm moved.perm)
      have onLeft : Ensures (fun fuel => quickSortRange compareTo fuel b lo (j - 1)) (fun c =>
          Rearranges lo (j - 1) b c ∧ (TotalPreorderOn Set.univ compareTo → SortedOn compareTo c lo (j - 1))) :=
        ih (j - 1 - lo).toNat (by omega) lower (by omega) calmB rfl
      refine onLeft.bind fun c ⟨movedLeft, left⟩ => ?_
      have lengthC := movedLeft.perm.length_eq
      have calmC : ¬ Clashing compareTo c := fun clashing => calmB (clashing.of_perm movedLeft.perm)
      have onRight : Ensures (fun fuel => quickSortRange compareTo fuel c (j + 1) hi) (fun d =>
          Rearranges (j + 1) hi c d ∧ (TotalPreorderOn Set.univ compareTo → SortedOn compareTo d (j + 1) hi)) :=
        ih (hi - (j + 1)).toNat (by omega) (by omega) (by omega) calmC rfl
      refine onRight.mono fun d ⟨movedRight, right⟩ => ⟨?_, fun order => ?_⟩
      · exact moved.trans ((movedLeft.widen le_rfl (by omega)).trans (movedRight.widen (by omega) le_rfl))
      · exact (split order).sorted order movedLeft (left order) movedRight (right order)

end

/-- On every range of every array the sort terminates and sorts exactly that
range, and on the whole array it sorts the array. -/
theorem quickSort_sorts (order : TotalPreorderOn Set.univ compareTo) (a : List α) :
    (∀ lo hi : Int, 0 ≤ lo → hi < a.length →
      Ensures (fun fuel => quickSortRange compareTo fuel a lo hi) fun b =>
        (slice b lo hi).Pairwise (fun x y => compareTo x y ≤ 0) ∧ (slice b lo hi).Perm (slice a lo hi) ∧
        b.length = a.length ∧ ∀ k, k < lo ∨ hi < k → slot b k = slot a k) ∧
    Ensures (fun fuel => quickSort compareTo fuel a) fun b =>
      b.Pairwise (fun x y => compareTo x y ≤ 0) ∧ b.Perm a := by
  constructor
  · intro lo hi lower bound
    refine (quickSortRange_ensures lower bound (not_clashing order a)).mono fun b ⟨moved, sorted⟩ => ?_
    exact ⟨(sorted order).slice, moved.slice_perm, moved.perm.length_eq, moved.outside⟩
  · refine (quickSortRange_ensures le_rfl (by omega) (not_clashing order a)).mono fun b ⟨moved, sorted⟩ => ?_
    rw [← moved.perm.length_eq] at sorted
    exact ⟨(sorted order).pairwise, moved.perm⟩

theorem quickSort_sorts_ties :
    (∀ lo hi : Int, 0 ≤ lo → hi < 3 →
      Ensures (fun fuel => quickSortRange (compareByKey Prod.fst) fuel [(2, 0), (1, 1), (2, 2)] lo hi) fun b =>
        (slice b lo hi).Pairwise (fun x y => compareByKey Prod.fst x y ≤ 0) ∧
        (slice b lo hi).Perm (slice [(2, 0), (1, 1), (2, 2)] lo hi) ∧
        b.length = 3 ∧ ∀ k, k < lo ∨ hi < k → slot b k = slot [(2, 0), (1, 1), (2, 2)] k) ∧
    Ensures (fun fuel => quickSort (compareByKey Prod.fst) fuel [(2, 0), (1, 1), (2, 2)]) fun b =>
      b.Pairwise (fun x y => compareByKey Prod.fst x y ≤ 0) ∧ b.Perm [((2, 0) : Int × Nat), (1, 1), (2, 2)] :=
  quickSort_sorts (compareByKey Prod.fst) (compareByKey_order Prod.fst) [((2, 0) : Int × Nat), (1, 1), (2, 2)]

end BlogAlgorithms.QuickSort
