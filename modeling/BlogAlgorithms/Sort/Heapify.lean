import BlogAlgorithms.Java.Loop
import BlogAlgorithms.Java.Range
import Mathlib.Logic.Relation

namespace BlogAlgorithms.HeapSort
open Java

variable {α : Type} (compareTo : α → α → Int)

def swap (a : List α) (i j : Int) : Exec (List α) := swapSlots a i j

/-- The statement `if (child < len && a[largest].compareTo(a[child]) < 0) largest = child;`. -/
def larger (a : List α) (len child largest : Int) : Exec Int :=
  if child < len then do
    let value ← arrayGet a largest
    let other ← arrayGet a child
    .ok (if compareTo value other < 0 then child else largest)
  else .ok largest

/-- The sift, with the arithmetic of its indices as a parameter. -/
def heapifyBy (index : Int → Exec Int) : Nat → List α → Int → Int → Exec (List α)
  | 0, _, _, _ => .error .outOfFuel
  | fuel + 1, a, i, len => do
    let left ← index (2 * i + 1)
    let right ← index (2 * i + 2)
    let largest ← larger compareTo a len left i
    let largest ← larger compareTo a len right largest
    if largest ≠ i then do
      let a ← swap a i largest
      heapifyBy index fuel a largest len
    else .ok a

def buildMaxHeapBy (index : Int → Exec Int) (fuel : Nat) (a : List α) (len : Int) : Exec (List α) :=
  forDown (len / 2 - 1) 0 (fun i a => heapifyBy compareTo index fuel a i len) a

/-- The sift with unbounded indices. -/
def heapify (fuel : Nat) (a : List α) (i len : Int) : Exec (List α) := heapifyBy compareTo .ok fuel a i len

def buildMaxHeap (fuel : Nat) (a : List α) (len : Int) : Exec (List α) := buildMaxHeapBy compareTo .ok fuel a len

theorem heapify_succ (fuel : Nat) (a : List α) (i len : Int) :
    heapify compareTo (fuel + 1) a i len = (do
      let largest ← larger compareTo a len (2 * i + 1) i
      let largest ← larger compareTo a len (2 * i + 2) largest
      if largest ≠ i then do
        let a ← swap a i largest
        heapify compareTo fuel a largest len
      else .ok a) := rfl

/-- The node `c` is a child of the node `p`. -/
def Child (p c : Int) : Prop := c = 2 * p + 1 ∨ c = 2 * p + 2

theorem Child.lt {p c : Int} (child : Child p c) (nonneg : 0 ≤ p) : p < c := by
  unfold Child at child
  omega

theorem Child.parent_eq {p p' c : Int} (child : Child p c) (other : Child p' c) : p = p' := by
  unfold Child at *
  omega

/-- The nodes of the subtree with the root `i`. -/
def Under (i k : Int) : Prop := Relation.ReflTransGen Child i k

theorem Under.le {i k : Int} (under : Under i k) (nonneg : 0 ≤ i) : i ≤ k := by
  induction under with
  | refl => exact le_rfl
  | tail _ child ih => exact le_trans ih (child.lt (by omega)).le

/-- No child of the node among the first `len` slots is larger than it. -/
def HeapAt (a : List α) (len p : Int) : Prop :=
  ∀ c x y, Child p c → c < len → slot a p = some x → slot a c = some y → compareTo y x ≤ 0

/-- The heap order of the nodes from `first` on. -/
def HeapFrom (a : List α) (first len : Int) : Prop := ∀ p, first ≤ p → HeapAt compareTo a len p

/-- The heap order of the nodes of a region apart from `i`, which `heapify` is
about to move down. Its children are already in order with its parent. -/
structure Sifting (region : Int → Prop) (a : List α) (len i : Int) : Prop where
  others : ∀ p, region p → p ≠ i → HeapAt compareTo a len p
  grand : ∀ p c x y, region p → Child p i → Child i c → c < len →
    slot a p = some x → slot a c = some y → compareTo y x ≤ 0

/-- A permutation that moves elements of the subtree of `i` only. -/
structure RearrangesUnder (i len : Int) (a b : List α) : Prop where
  perm : b.Perm a
  outside : ∀ k, ¬ (Under i k ∧ k < len) → slot b k = slot a k

section
variable {a : List α} {len i : Int}

theorem RearrangesUnder.range {b : List α} (moved : RearrangesUnder i len a b) (nonneg : 0 ≤ i) :
    Rearranges 0 (len - 1) a b := by
  refine ⟨moved.perm, fun k out => moved.outside k fun inside => ?_⟩
  have above := inside.1.le nonneg
  omega

theorem larger_ok {child largest : Int} {x : α} (found : slot a largest = some x)
    (bound : len ≤ a.length) (nonneg : 0 ≤ child) :
    ∃ k y, larger compareTo a len child largest = .ok k ∧ slot a k = some y ∧
      (k = largest ∨ k = child ∧ child < len) ∧
      (TotalPreorderOn Set.univ compareTo → compareTo x y ≤ 0 ∧
        (child < len → ∀ z, slot a child = some z → compareTo z y ≤ 0)) := by
  unfold larger
  by_cases inside : child < len
  · obtain ⟨z, atChild⟩ := inBounds_iff_slot.mp (⟨nonneg, by omega⟩ : InBounds a child)
    simp only [if_pos inside, arrayGet_of_slot found, arrayGet_of_slot atChild, ok_bind]
    by_cases less : compareTo x z < 0
    · refine ⟨child, z, by rw [if_pos less], atChild, Or.inr ⟨rfl, inside⟩, fun order => ?_⟩
      refine ⟨less.le, fun _ w atW => ?_⟩
      cases Option.some.inj (atChild.symm.trans atW)
      exact order.refl_univ z
    · refine ⟨largest, x, by rw [if_neg less], found, Or.inl rfl, fun order => ?_⟩
      refine ⟨order.refl_univ x, fun _ w atW => ?_⟩
      cases Option.some.inj (atChild.symm.trans atW)
      have sign := order.neg_iff_univ x z
      omega
  · exact ⟨largest, x, by rw [if_neg inside], found, Or.inl rfl,
      fun order => ⟨order.refl_univ x, fun below => absurd below inside⟩⟩

/-- The two comparisons of `heapify` choose the node or one of its children,
and under an order the largest of them. -/
theorem largest_ok {x : α} (found : slot a i = some x) (bound : len ≤ a.length) (nonneg : 0 ≤ i) :
    ∃ m k y, larger compareTo a len (2 * i + 1) i = .ok m ∧
      larger compareTo a len (2 * i + 2) m = .ok k ∧ slot a k = some y ∧
      (k = i ∨ Child i k ∧ k < len) ∧
      (TotalPreorderOn Set.univ compareTo → compareTo x y ≤ 0 ∧
        ∀ c z, Child i c → c < len → slot a c = some z → compareTo z y ≤ 0) := by
  obtain ⟨m, v, runsLeft, atM, fromLeft, aboveLeft⟩ :=
    larger_ok compareTo found bound (show 0 ≤ 2 * i + 1 by omega)
  obtain ⟨k, y, runsRight, atK, fromRight, aboveRight⟩ :=
    larger_ok compareTo atM bound (show 0 ≤ 2 * i + 2 by omega)
  refine ⟨m, k, y, runsLeft, runsRight, atK, ?_, fun order => ?_⟩
  · unfold Child
    omega
  · have upTo {w : α} (below : compareTo w v ≤ 0) : compareTo w y ≤ 0 :=
      order.trans_univ w v y below (aboveRight order).1
    refine ⟨upTo (aboveLeft order).1, fun c z child inside atC => ?_⟩
    rcases child with rfl | rfl
    · exact upTo ((aboveLeft order).2 inside z atC)
    · exact (aboveRight order).2 inside z atC

end

section
variable {compareTo} {a : List α} {len i : Int} {region : Int → Prop}

/-- Exchanging the node with its largest child moves the hole down to it. -/
theorem Sifting.swap {b : List α} {k : Int} {x y : α} (sifting : Sifting compareTo region a len i)
    (nonneg : 0 ≤ i) (child : Child i k) (start : region k) (inside : k < len) (atK : slot a k = some y)
    (slots : ∀ p, slot b p = if p = k then some x else if p = i then some y else slot a p)
    (aboveX : compareTo x y ≤ 0)
    (above : ∀ c z, Child i c → c < len → slot a c = some z → compareTo z y ≤ 0) :
    Sifting compareTo region b len k := by
  have down : i < k := child.lt nonneg
  constructor
  · intro p lower notK c u v below last atP atC
    rw [slots, if_neg notK] at atP
    rw [slots] at atC
    by_cases atI : p = i
    · subst atI
      rw [if_pos rfl] at atP
      cases atP
      split at atC
      · cases atC
        exact aboveX
      · rw [if_neg (below.lt nonneg).ne'] at atC
        exact above c v below last atC
    · rw [if_neg atI] at atP
      have notChild : c ≠ k := fun same => atI (below.parent_eq (same ▸ child))
      rw [if_neg notChild] at atC
      split at atC
      · rename_i same
        cases atC
        exact sifting.grand p k u _ lower (same ▸ below) child inside atP atK
      · exact sifting.others p lower atI c u v below last atP atC
  · intro p c u v lower parent below last atP atC
    have same : p = i := parent.parent_eq child
    have deeper : k < c := below.lt (by omega)
    rw [slots, if_neg (by omega), if_pos same] at atP
    rw [slots, if_neg (by omega), if_neg (by omega)] at atC
    cases atP
    exact sifting.others k start (by omega) c _ v below last atK atC

theorem RearrangesUnder.sift {b c : List α} {k : Int} {x y : α} (child : Child i k) (insideI : i < len)
    (inside : k < len) (perm : b.Perm a)
    (slots : ∀ p, slot b p = if p = k then some x else if p = i then some y else slot a p)
    (further : RearrangesUnder k len b c) : RearrangesUnder i len a c := by
  refine ⟨further.perm.trans perm, fun p out => ?_⟩
  have outK : ¬ (Under k p ∧ p < len) := fun deeper => out ⟨.head child deeper.1, deeper.2⟩
  have notK : p ≠ k := fun same => out ⟨same ▸ .single child, same ▸ inside⟩
  have notI : p ≠ i := fun same => out ⟨same ▸ .refl, same ▸ insideI⟩
  rw [further.outside p outK, slots, if_neg notK, if_neg notI]

/-- Whatever the comparison, `heapify` only rearranges the subtree; under an
order it restores the heap order of every region closed downwards. -/
theorem heapify_region (closed : ∀ p c, region p → Child p c → region c) (start : region i) (nonneg : 0 ≤ i)
    (inside : i < len) (bound : len ≤ a.length) :
    Ensures (fun fuel => heapify compareTo fuel a i len) (fun b => RearrangesUnder i len a b ∧
      (TotalPreorderOn Set.univ compareTo → Sifting compareTo region a len i →
        ∀ p, region p → HeapAt compareTo b len p)) := by
  -- the node moves down at each exchange, so its distance to the end gets smaller
  induction size : (len - i).toNat using Nat.strong_induction_on generalizing a i with
  | _ depth ih =>
    obtain ⟨x, atI⟩ := inBounds_iff_slot.mp (⟨nonneg, by omega⟩ : InBounds a i)
    obtain ⟨m, k, y, runsLeft, runsRight, atK, source, largest⟩ := largest_ok compareTo atI bound nonneg
    refine Ensures.call (fun fuel => heapify_succ compareTo fuel a i len) ?_
    simp only [runsLeft, runsRight, ok_bind]
    rcases source with same | ⟨child, last⟩
    · subst same
      cases Option.some.inj (atI.symm.trans atK)
      simp only [ne_eq, not_true_eq_false, if_false]
      refine ⟨a, .ok a, ⟨.refl a, fun _ _ => rfl⟩, fun order sifting p lower => ?_⟩
      by_cases atP : p = k
      · subst atP
        intro c u v below inside atU atV
        cases Option.some.inj (atK.symm.trans atU)
        exact (largest order).2 c v below inside atV
      · exact sifting.others p lower atP
    · have down : i < k := child.lt nonneg
      obtain ⟨b, swapped, perm, slots⟩ := swapSlots_ok atI atK
      have length := perm.length_eq
      have next := closed i k start child
      have rest : Ensures (fun fuel => heapify compareTo fuel b k len) (fun c => RearrangesUnder k len b c ∧
          (TotalPreorderOn Set.univ compareTo → Sifting compareTo region b len k →
            ∀ p, region p → HeapAt compareTo c len p)) :=
        ih (len - k).toNat (by omega) next (by omega) last (by omega) rfl
      simp only [ne_eq, (show k ≠ i by omega), not_false_eq_true, if_true, HeapSort.swap, swapped, ok_bind]
      refine rest.mono fun c ⟨further, heap⟩ => ⟨further.sift child inside last perm slots, fun order sifting => ?_⟩
      obtain ⟨aboveX, above⟩ := largest order
      exact heap order (sifting.swap nonneg child next last atK slots aboveX above)

end

section
variable {compareTo} {a : List α} {first len i : Int}

theorem heapify_ensures (nonneg : 0 ≤ first) (start : first ≤ i) (inside : i < len) (bound : len ≤ a.length) :
    Ensures (fun fuel => heapify compareTo fuel a i len) (fun b => Rearranges 0 (len - 1) a b ∧
      (TotalPreorderOn Set.univ compareTo → Sifting compareTo (first ≤ ·) a len i →
        HeapFrom compareTo b first len)) := by
  have closed (p c : Int) (lower : first ≤ p) (child : Child p c) : first ≤ c :=
    le_trans lower (child.lt (by omega)).le
  refine (heapify_region closed start (by omega) inside bound).mono fun b ⟨moved, heap⟩ => ?_
  exact ⟨moved.range (by omega), heap⟩

theorem buildMaxHeap_ensures (bound : len ≤ a.length) :
    Ensures (fun fuel => buildMaxHeap compareTo fuel a len) (fun b => Rearranges 0 (len - 1) a b ∧
      (TotalPreorderOn Set.univ compareTo → HeapFrom compareTo b 0 len)) := by
  have leaves (k : Int) (half : len / 2 ≤ k) : HeapFrom compareTo a k len := by
    intro p lower c x y below inside
    unfold Child at below
    omega
  by_cases negative : len < 0
  · exact ⟨a, Returns.of_eq fun fuel => forUp_empty (by omega), .refl _ _ a, fun _ => leaves 0 (by omega)⟩
  have loop : Ensures (fun fuel => forDown (len / 2 - 1) 0 (fun i b => heapify compareTo fuel b i len) a)
      (fun b => Rearranges 0 (len - 1) a b ∧
        (TotalPreorderOn Set.univ compareTo → HeapFrom compareTo b (0 - 1 + 1) len)) := by
    refine forDown_ensures (fun i b => Rearranges 0 (len - 1) a b ∧
      (TotalPreorderOn Set.univ compareTo → HeapFrom compareTo b (i + 1) len))
      (fun i b lower upper built => ?_) (by omega) ⟨.refl _ _ a, fun _ => leaves _ (by omega)⟩
    obtain ⟨moved, heap⟩ := built
    have length := moved.perm.length_eq
    have sifting (order : TotalPreorderOn Set.univ compareTo) : Sifting compareTo (i ≤ ·) b len i :=
      ⟨fun p lower away => heap order p (by omega), fun p c x y lower parent => by unfold Child at parent; omega⟩
    rw [Int.sub_add_cancel]
    refine (heapify_ensures lower le_rfl (by omega) (by omega)).mono fun c ⟨further, restored⟩ => ?_
    exact ⟨moved.trans further, fun order => restored order (sifting order)⟩
  exact loop

/-- The first slot of a heap holds its largest element. -/
theorem HeapFrom.root (order : TotalPreorderOn Set.univ compareTo) {x : α}
    (heap : HeapFrom compareTo a 0 len) (bound : len ≤ a.length)
    (atRoot : slot a 0 = some x) : AllOn (fun y => compareTo y x ≤ 0) a 0 (len - 1) := by
  intro k y lower upper atK
  induction size : k.toNat using Nat.strong_induction_on generalizing k y with
  | _ n ih =>
    by_cases isRoot : k = 0
    · subst isRoot
      cases Option.some.inj (atRoot.symm.trans atK)
      exact order.refl_univ x
    · obtain ⟨z, atParent⟩ := inBounds_iff_slot.mp (⟨by omega, by omega⟩ : InBounds a ((k - 1) / 2))
      have below : Child ((k - 1) / 2) k := by
        unfold Child
        omega
      have upParent := ih ((k - 1) / 2).toNat (by omega) ((k - 1) / 2) z (by omega) (by omega) atParent rfl
      exact order.trans_univ y z x
        (heap _ (by omega) k z y below (by omega) atParent atK) upParent

end

end BlogAlgorithms.HeapSort
