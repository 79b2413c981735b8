import BlogAlgorithms.Sort.HeapIndices
import BlogAlgorithms.Sort.QuickSort
import BlogAlgorithms.Sort.SelectSort
import BlogAlgorithms.Sort.ShellSort
import BlogAlgorithms.Sort.StableSorts

namespace BlogAlgorithms.IsSorted
open Java

variable {α : Type} (compareTo : α → α → Int)

/-- The pass of the loop at `i`, which leaves it where `a[i]` is less than the
element before it. -/
def unordered (a : List α) (i : Int) : Exec (Option Unit) := do
  let current ← arrayGet a i
  let previous ← arrayGet a (i - 1)
  if compareTo current previous < 0 then .ok (some ()) else .ok none

def isSorted (a : List α) : Exec Bool := do
  let found ← forSearch 1 (a.length - 1) (unordered compareTo a)
  .ok found.isNone

section
variable {compareTo} {a : List α}

theorem unordered_ok {i : Int} {current previous : α} (atI : slot a i = some current)
    (before : slot a (i - 1) = some previous) :
    unordered compareTo a i = .ok (if compareTo current previous < 0 then some () else none) := by
  simp only [unordered, arrayGet_of_slot atI, arrayGet_of_slot before, ok_bind]
  split
  · rfl
  · rfl

/-- Comparing neighbours is enough under an order. -/
theorem isSorted_iff (order : TotalPreorderOn Set.univ compareTo) (a : List α) :
    ∃ answer, isSorted compareTo a = .ok answer ∧ (answer = true ↔ a.Pairwise fun x y => compareTo x y ≤ 0) := by
  have neighbours (k : Int) (lower : 1 ≤ k) (upper : k ≤ a.length - 1) :
      ∃ current previous, slot a k = some current ∧ slot a (k - 1) = some previous := by
    obtain ⟨current, atK⟩ := inBounds_iff_slot.mp (show InBounds a k from ⟨by omega, by omega⟩)
    obtain ⟨previous, before⟩ := inBounds_iff_slot.mp (show InBounds a (k - 1) from ⟨by omega, by omega⟩)
    exact ⟨current, previous, atK, before⟩
  have runs (k : Int) (lower : 1 ≤ k) (upper : k ≤ a.length - 1) : ∃ exit, unordered compareTo a k = .ok exit := by
    obtain ⟨_, _, atK, before⟩ := neighbours k lower upper
    exact ⟨_, unordered_ok atK before⟩
  rcases forSearch_ok runs with ⟨ends, all⟩ | ⟨k, exit, leaves, lower, upper, found, _⟩
  · refine ⟨true, by rw [isSorted, ends]; rfl,
      iff_of_true rfl (Strand.pairwise_of_adjacent order fun p x y atP next => ?_)⟩
    obtain ⟨inside, _⟩ := List.getElem?_eq_some_iff.mp next
    have passes := all ((p + 1 : Nat) : Int) (by omega) (by omega)
    rw [unordered_ok (by rwa [slot_natCast])
      (by rwa [show ((p + 1 : Nat) : Int) - 1 = p by omega, slot_natCast])] at passes
    by_contra above
    have less := (order.neg_iff_univ y x).mpr (by omega)
    rw [if_pos less] at passes
    cases passes
  · refine ⟨false, by rw [isSorted, leaves]; rfl, iff_of_false Bool.false_ne_true fun sorted => ?_⟩
    obtain ⟨current, previous, atK, before⟩ := neighbours k lower upper
    rw [unordered_ok atK before] at found
    have ordered := slot_rel sorted before atK (by omega)
    have notLess : ¬ compareTo current previous < 0 := fun less => by
      have := (order.neg_iff_univ current previous).mp less
      omega
    rw [if_neg notLess] at found
    cases found

theorem isSorted_of_pairwise (order : TotalPreorderOn Set.univ compareTo) {b : List α}
    (sorted : b.Pairwise fun x y => compareTo x y ≤ 0) : isSorted compareTo b = .ok true := by
  obtain ⟨answer, runs, iff⟩ := isSorted_iff order b
  rw [runs, iff.mpr sorted]

/-- A sort that ends in a sorted array passes the test. -/
theorem passes_of_sorts (order : TotalPreorderOn Set.univ compareTo) {sort : Nat → Exec (List α)}
    {post : List α → Prop} (sorts : Ensures sort post)
    (sorted : ∀ b, post b → b.Pairwise fun x y => compareTo x y ≤ 0) :
    Returns (fun fuel => sort fuel >>= isSorted compareTo) true := by
  obtain ⟨b, returns, holds⟩ := sorts
  exact returns.bind (.of_eq fun _ => isSorted_of_pairwise order (sorted b holds))

theorem pairwise_of_stablySorts {start : Nat} {b : List α} (sorts : StableSort.StablySorts compareTo start a b) :
    b.Pairwise fun x y => compareTo x y ≤ 0 := by
  obtain ⟨tagged, _, rfl, sorted⟩ := sorts
  rw [List.pairwise_map]
  refine sorted.imp fun before => ?_
  unfold StableSort.Precedes at before
  omega

end

/-- The test answers true on an array exactly if it is sorted, and so each sort
class prints true for its own result: the heap sort on arrays of less than
`2 ^ 30` elements, the shell sort on those of less than 17860, the others on
every array. -/
theorem sorts_pass_isSorted (order : TotalPreorderOn Set.univ compareTo) (a : List α) :
    (∃ answer, isSorted compareTo a = .ok answer ∧ (answer = true ↔ a.Pairwise fun x y => compareTo x y ≤ 0)) ∧
    (a.length < 2 ^ 30 →
      Returns (fun fuel => HeapSort.heapSortBy compareTo wrapping fuel a >>= isSorted compareTo) true) ∧
    Returns (fun fuel => QuickSort.quickSort compareTo fuel a >>= isSorted compareTo) true ∧
    Returns (fun fuel => MergeSort.mergeSort compareTo fuel a >>= isSorted compareTo) true ∧
    Returns (fun fuel => InsertSort.insertSort compareTo fuel a >>= isSorted compareTo) true ∧
    (SelectSort.selectSort compareTo a >>= isSorted compareTo) = .ok true ∧
    (a.length < 17860 →
      Returns (fun fuel => ShellSort.shellSort compareTo fuel a >>= isSorted compareTo) true) := by
  refine ⟨isSorted_iff order a, fun small => ?_, ?_, ?_, ?_, ?_, fun short => ?_⟩
  · exact passes_of_sorts order (HeapSort.indicesFit_of_small small).ensures fun b done => done.2 order
  · refine passes_of_sorts order
      (QuickSort.quickSortRange_ensures le_rfl (by omega) (QuickSort.not_clashing order a))
      fun b ⟨moved, sorted⟩ => ?_
    rw [← moved.perm.length_eq] at sorted
    exact (sorted order).pairwise
  · exact passes_of_sorts order ⟨_, MergeSort.mergeSort_returns compareTo a, rfl⟩ fun b same =>
      same ▸ pairwise_of_stablySorts (StableSorts.mergeEach_stablySorts order 0 a)
  · exact passes_of_sorts order (InsertSort.insertSort_ensures compareTo a) fun b built =>
      pairwise_of_stablySorts (built.stablySorts order)
  · have start := (SelectSort.Selecting.of_passed order (Passing.start : SelectSort.Passed compareTo a 0 a)).2
    obtain ⟨b, runs, selecting, _⟩ := start.run order le_rfl (by omega)
    have length := selecting.perm.length_eq
    have sorted : SortedOn compareTo b 0 (b.length - 1) := by
      rw [length]
      exact selecting.sorted
    have selects : SelectSort.selectSort compareTo a = .ok b := runs
    rw [selects, ok_bind, isSorted_of_pairwise order sorted.pairwise]
  · obtain ⟨first, _, inTable, b, runs, reached⟩ := ShellSort.shellSort_ensures compareTo a short
    refine passes_of_sorts order ⟨b, runs, rfl⟩ fun c same => ?_
    subst same
    exact Strand.pairwise_of_adjacent order (reached.sorted order 0 1 le_rfl inTable.1 rfl)

theorem sorts_pass_isSorted_ties :
    Returns (fun fuel => HeapSort.heapSortBy (compareByKey Prod.fst) wrapping fuel
      [((2, 0) : Int × Nat), (1, 1), (2, 2)] >>= isSorted (compareByKey Prod.fst)) true ∧
    Returns (fun fuel => ShellSort.shellSort (compareByKey Prod.fst) fuel [((2, 0) : Int × Nat), (1, 1), (2, 2)] >>=
      isSorted (compareByKey Prod.fst)) true := by
  obtain ⟨_, heap, _, _, _, _, shell⟩ :=
    sorts_pass_isSorted (compareByKey Prod.fst) (compareByKey_order Prod.fst) [((2, 0) : Int × Nat), (1, 1), (2, 2)]
  exact ⟨heap (by decide), shell (by decide)⟩

end BlogAlgorithms.IsSorted
