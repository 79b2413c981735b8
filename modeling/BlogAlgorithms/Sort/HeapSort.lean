import BlogAlgorithms.Sort.Heapify

namespace BlogAlgorithms.HeapSort
open Java

variable {α : Type} (compareTo : α → α → Int)

/-- The body of the loop of `heapSort`, on the array and `n`. -/
def extractStepBy (index : Int → Exec Int) (fuel : Nat) (i : Int) (state : List α × Int) : Exec (List α × Int) := do
  let (a, n) := state
  let a ← swap a 0 i
  let n := n - 1
  let a ← heapifyBy compareTo index fuel a 0 n
  .ok (a, n)

/-- The sort, with the arithmetic of the indices of its sifts as a parameter. -/
def heapSortBy (index : Int → Exec Int) (fuel : Nat) (a : List α) : Exec (List α) := do
  let n : Int := a.length
  let a ← buildMaxHeapBy compareTo index fuel a n
  let (a, _) ← forDown (n - 1) 1 (extractStepBy compareTo index fuel) (a, n)
  .ok a

/-- The sort with unbounded indices. -/
def heapSort (fuel : Nat) (a : List α) : Exec (List α) := heapSortBy compareTo .ok fuel a

/-- The loop of `heapSort` before its pass with the counter `i`: a heap in the
slots up to `i`, and after it the larger elements in order. -/
structure Extracting (compareTo : α → α → Int) (original : List α) (i : Int) (a : List α) (n : Int) :
    Prop where
  perm : a.Perm original
  size : n = i + 1
  heap : HeapFrom compareTo a 0 (i + 1)
  sorted : SortedOn compareTo a (i + 1) (original.length - 1)
  larger : ∀ m y, i < m → slot a m = some y → AllOn (fun x => compareTo x y ≤ 0) a 0 i

/-- After the exchange of the root with the last node only the root is out of place. -/
theorem HeapFrom.sifting {compareTo : α → α → Int} {a b : List α} {i : Int} {x z : α}
    (heap : HeapFrom compareTo a 0 (i + 1))
    (slots : ∀ p, slot b p = if p = i then some x else if p = 0 then some z else slot a p) :
    Sifting compareTo (0 ≤ ·) b i 0 := by
  refine ⟨fun p nonneg notRoot c u v below inside atP atC => ?_, fun p c u v nonneg parent => ?_⟩
  · have deeper : p < c := below.lt nonneg
    rw [slots, if_neg (by omega), if_neg notRoot] at atP
    rw [slots, if_neg (by omega), if_neg (by omega)] at atC
    exact heap p nonneg c u v below (by omega) atP atC
  · exact absurd (parent.lt nonneg) (by omega)

/-- The root, moved to the end of the heap, goes before the elements already
in order, and the rest of the heap stays below them all. -/
theorem Extracting.next {compareTo : α → α → Int} (order : TotalPreorderOn Set.univ compareTo)
    {original a b c : List α} {i n : Int} {x : α} (lower : 1 ≤ i) (upper : i ≤ original.length - 1)
    (state : Extracting compareTo original i a n) (atRoot : slot a 0 = some x) (movedB : Rearranges 0 i a b)
    (atLast : slot b i = some x) (movedC : Rearranges 0 (i - 1) b c) (heap : HeapFrom compareTo c 0 i) :
    Extracting compareTo original (i - 1) c i := by
  have length := state.perm.length_eq
  have tail (k : Int) (after : i < k) : slot c k = slot a k := by
    rw [movedC.outside k (by omega), movedB.outside k (by omega)]
  have lastC : slot c i = some x := (movedC.outside i (by omega)).trans atLast
  have belowAll (y : α) (all : AllOn (fun w => compareTo w y ≤ 0) a 0 i) :
      AllOn (fun w => compareTo w y ≤ 0) c 0 (i - 1) := by
    have onB := all.rearranged movedB
    exact AllOn.rearranged (fun k w first last => onB k w first (by omega)) movedC
  refine ⟨movedC.perm.trans (movedB.perm.trans state.perm), by omega, ?_, ?_, fun m y after atM => ?_⟩
  · rwa [Int.sub_add_cancel]
  · rw [Int.sub_add_cancel]
    refine .join order (.of_short (by omega)) ?_ lastC (fun k w first last _ => by omega) ?_
    · exact state.sorted.congr fun k first _ => tail k (by omega)
    · intro k w first last atK
      rw [tail k (by omega)] at atK
      exact state.larger k w (by omega) atK 0 x le_rfl (by omega) atRoot
  · by_cases atI : m = i
    · subst atI
      cases Option.some.inj (lastC.symm.trans atM)
      have root := state.heap.root order (by omega) atRoot
      rw [Int.add_sub_cancel] at root
      exact belowAll x root
    · rw [tail m (by omega)] at atM
      exact belowAll y (state.larger m y (by omega) atM)

/-- One pass of the loop, whatever the comparison. -/
theorem extractStepBy_ensures {compareTo : α → α → Int} {original a : List α} {i : Int} (lower : 1 ≤ i)
    (upper : i ≤ original.length - 1) (perm : a.Perm original) :
    Ensures (fun fuel => extractStepBy compareTo .ok fuel i (a, i + 1)) (fun state => state.1.Perm original ∧
      state.2 = i ∧ (TotalPreorderOn Set.univ compareTo → Extracting compareTo original i a (i + 1) →
        Extracting compareTo original (i - 1) state.1 state.2)) := by
  have length := perm.length_eq
  obtain ⟨x, atRoot⟩ := inBounds_iff_slot.mp (⟨le_rfl, by omega⟩ : InBounds a 0)
  obtain ⟨z, atI⟩ := inBounds_iff_slot.mp (⟨by omega, by omega⟩ : InBounds a i)
  obtain ⟨b, swapped, permB, slots⟩ := swapSlots_ok atRoot atI
  have lengthB := permB.length_eq
  have movedB : Rearranges 0 i a b := .of_swap permB slots ⟨le_rfl, by omega⟩ ⟨by omega, le_rfl⟩
  have atLast : slot b i = some x := by rw [slots, if_pos rfl]
  simp only [extractStepBy, swap, swapped, ok_bind, Int.add_sub_cancel]
  refine (heapify_ensures le_rfl le_rfl (by omega) (by omega)).bind fun c sifted => ?_
  obtain ⟨movedC, heap⟩ := sifted
  refine ⟨(c, i), .ok _, movedC.perm.trans (permB.trans perm), rfl, fun order state => ?_⟩
  exact state.next order lower upper atRoot movedB atLast movedC (heap order (state.heap.sifting slots))

theorem Extracting.sorted_all {compareTo : α → α → Int} (order : TotalPreorderOn Set.univ compareTo)
    {original a : List α} {n : Int} (done : Extracting compareTo original 0 a n) (nonempty : original ≠ []) :
    a.Pairwise (fun x y => compareTo x y ≤ 0) := by
  have length := done.perm.length_eq
  have positive := List.length_pos_iff.mpr nonempty
  obtain ⟨x, atRoot⟩ := inBounds_iff_slot.mp (⟨le_rfl, by omega⟩ : InBounds a 0)
  refine (SortedOn.join order (.of_short (by omega)) ?_ atRoot (fun k w first last _ => by omega) ?_).pairwise
  · rw [length]
    exact done.sorted
  · intro k w first last atK
    exact done.larger k w (by omega) atK 0 x le_rfl (by omega) atRoot

/-- The sort permutes every array, and under an order it sorts it. -/
theorem heapSort_ensures {compareTo : α → α → Int} (a : List α) :
    Ensures (fun fuel => heapSort compareTo fuel a) (fun b => b.Perm a ∧
      (TotalPreorderOn Set.univ compareTo → b.Pairwise (fun x y => compareTo x y ≤ 0))) := by
  refine (buildMaxHeap_ensures le_rfl).bind fun b ⟨moved, heap⟩ => ?_
  have permB := moved.perm
  by_cases empty : a = []
  · subst empty
    have none : b = [] := permB.eq_nil
    subst none
    exact ⟨[], .ok _, .refl [], fun _ => .nil⟩
  · have lengthB := permB.length_eq
    have positive := List.length_pos_iff.mpr empty
    have start (order : TotalPreorderOn Set.univ compareTo) : Extracting compareTo a (a.length - 1) b a.length := by
      refine ⟨permB, by omega, ?_, .of_short (by omega), fun m y after atM => ?_⟩
      · rw [Int.sub_add_cancel]
        exact heap order
      · have inside := (InBounds.of_slot atM).2
        omega
    have loop :
        Ensures (fun fuel => forDown (a.length - 1) 1 (extractStepBy compareTo .ok fuel) (b, (a.length : Int)))
        (fun state => state.1.Perm a ∧ state.2 = 1 - 1 + 1 ∧
          (TotalPreorderOn Set.univ compareTo → Extracting compareTo a (1 - 1) state.1 state.2)) := by
      refine forDown_ensures (fun i (state : List α × Int) => state.1.Perm a ∧ state.2 = i + 1 ∧
        (TotalPreorderOn Set.univ compareTo → Extracting compareTo a i state.1 state.2)) ?_ (by omega)
        ⟨permB, by omega, start⟩
      rintro i ⟨c, n⟩ lower upper ⟨permC, size, sorting⟩
      simp only at permC size sorting
      subst size
      refine (extractStepBy_ensures lower upper permC).mono fun state ⟨permD, size, next⟩ => ?_
      exact ⟨permD, by omega, fun order => next order (sorting order)⟩
    refine loop.bind fun state ⟨permC, _, sorting⟩ => ensures_const.mpr ⟨state.1, rfl, permC, fun order => ?_⟩
    exact (sorting order).sorted_all order empty

/-- The sort ends, on every array, in a sorted permutation of it. -/
theorem heapSort_sorts (order : TotalPreorderOn Set.univ compareTo) (a : List α) :
    Ensures (fun fuel => heapSort compareTo fuel a)
      (fun b => b.Pairwise (fun x y => compareTo x y ≤ 0) ∧ b.Perm a) :=
  (heapSort_ensures a).mono fun _ ⟨perm, sorted⟩ => ⟨sorted order, perm⟩

theorem heapSort_sorts_ties :
    Ensures (fun fuel => heapSort (compareByKey Prod.fst) fuel [(2, 0), (1, 1), (2, 2)])
      (fun b => b.Pairwise (fun x y => compareByKey Prod.fst x y ≤ 0) ∧
        b.Perm [((2, 0) : Int × Nat), (1, 1), (2, 2)]) :=
  heapSort_sorts (compareByKey Prod.fst) (compareByKey_order Prod.fst) _

end BlogAlgorithms.HeapSort
