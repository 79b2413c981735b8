import BlogAlgorithms.Sort.Heapify

namespace BlogAlgorithms.HeapSort
open Java

variable {α : Type} {compareTo : α → α → Int}

/-- A subtree whose nodes below the root are in order is a region that is
ready for the sift: its root has no parent in it. -/
theorem sifting_under {a : List α} {len i : Int} (nonneg : 0 ≤ i)
    (below : ∀ p, Relation.TransGen Child i p → HeapAt compareTo a len p) :
    Sifting compareTo (Under i) a len i := by
  refine ⟨fun p under away => ?_, fun p c x y under parent => ?_⟩
  · rcases Relation.reflTransGen_iff_eq_or_transGen.mp under with same | strictly
    · exact absurd same away
    · exact below p strictly
  · have above := under.le nonneg
    exact absurd (parent.lt (by omega)) (by omega)

/-- `heapify` makes a heap of the subtree and touches nothing else, so that
`buildMaxHeap` makes one of the first `len` slots. -/
theorem heapify_subtree (order : TotalPreorderOn Set.univ compareTo) {a : List α} {len : Int}
    (bound : len ≤ a.length) :
    (∀ i, 0 ≤ i → i < len → (∀ p, Relation.TransGen Child i p → HeapAt compareTo a len p) →
      Ensures (fun fuel => heapify compareTo fuel a i len)
        (fun b => (∀ p, Under i p → HeapAt compareTo b len p) ∧ RearrangesUnder i len a b)) ∧
    Ensures (fun fuel => buildMaxHeap compareTo fuel a len)
      (fun b => HeapFrom compareTo b 0 len ∧ Rearranges 0 (len - 1) a b) := by
  constructor
  · intro i nonneg inside below
    have sifts : Ensures (fun fuel => heapify compareTo fuel a i len) (fun b => RearrangesUnder i len a b ∧
        (TotalPreorderOn Set.univ compareTo → Sifting compareTo (Under i) a len i →
          ∀ p, Under i p → HeapAt compareTo b len p)) :=
      heapify_region (fun _ _ under child => under.tail child) .refl nonneg inside bound
    exact sifts.mono fun b ⟨moved, heap⟩ => ⟨heap order (sifting_under nonneg below), moved⟩
  · exact (buildMaxHeap_ensures bound).mono fun b ⟨moved, heap⟩ => ⟨heap order, moved⟩

theorem heapify_subtree_root :
    Ensures (fun fuel => heapify (compareByKey id) fuel [3, 5, 4, 1] 0 4)
      (fun b => (∀ p, Under 0 p → HeapAt (compareByKey id) b 4 p) ∧ RearrangesUnder 0 4 [3, 5, 4, 1] b) := by
  have sifts :=
    (heapify_subtree (compareByKey_order id) (show (4 : Int) ≤ ([3, 5, 4, 1] : List Int).length by decide)).1
  refine sifts 0 le_rfl (by decide) fun p below c x y child inside atP atC => ?_
  obtain ⟨q, first, under⟩ := Relation.TransGen.head'_iff.mp below
  have deep : 0 < q := first.lt le_rfl
  have deeper : q ≤ p := Under.le under deep.le
  obtain ⟨rfl, rfl⟩ : p = 1 ∧ c = 3 := by
    unfold Child at child
    omega
  cases atP
  cases atC
  decide

end BlogAlgorithms.HeapSort
