import BlogAlgorithms.Sort.InsertSort
import BlogAlgorithms.Sort.MergeSort

namespace BlogAlgorithms.StableSorts
open Java StableSort

variable {α : Type} {compareTo : α → α → Int}

theorem mergeEach_stablySorts (order : TotalPreorderOn Set.univ compareTo) (start : Nat) (a : List α) :
    StablySorts compareTo start a (MergeSort.mergeEach compareTo a) := by
  induction a generalizing start with
  | nil => exact stablySorts_nil start
  | cons x rest ih =>
    have single : StablySorts compareTo start [x] [x] := stablySorts_singleton start x
    exact single.merge order (ih (start + 1))

/-- Both sorts end, on every array, in the one stably sorted permutation of
it, although neither splits the work as the other does. -/
theorem mergeSort_insertSort_agree (order : TotalPreorderOn Set.univ compareTo) (a : List α) :
    ∃ b, Returns (fun fuel => MergeSort.mergeSort compareTo fuel a) b ∧
      Returns (fun fuel => InsertSort.insertSort compareTo fuel a) b ∧
      StablySorts compareTo 0 a b ∧ ∀ other, StablySorts compareTo 0 a other → other = b := by
  have merged := mergeEach_stablySorts order 0 a
  obtain ⟨b, inserts, built⟩ := InsertSort.insertSort_ensures compareTo a
  have same : b = MergeSort.mergeEach compareTo a := (built.stablySorts order).unique order merged
  subst same
  exact ⟨_, MergeSort.mergeSort_returns compareTo a, inserts, merged,
    fun other sorts => sorts.unique order merged⟩

theorem mergeSort_insertSort_agree_on_ties :
    ∃ b, Returns (fun fuel => MergeSort.mergeSort (compareByKey Prod.fst) fuel [(2, 0), (1, 1), (2, 2), (1, 3)]) b ∧
      Returns (fun fuel => InsertSort.insertSort (compareByKey Prod.fst) fuel [(2, 0), (1, 1), (2, 2), (1, 3)]) b ∧
      StablySorts (compareByKey Prod.fst) 0 [(2, 0), (1, 1), (2, 2), (1, 3)] b ∧
      ∀ other : List (Int × Int),
        StablySorts (compareByKey Prod.fst) 0 [(2, 0), (1, 1), (2, 2), (1, 3)] other → other = b :=
  mergeSort_insertSort_agree (compareByKey_order Prod.fst) _

end BlogAlgorithms.StableSorts
