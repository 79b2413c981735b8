import BlogAlgorithms.Java.Arithmetic
import BlogAlgorithms.Java.Reach
import BlogAlgorithms.Sort.HeapSort

namespace BlogAlgorithms.HeapSort
open Java

section
variable {α : Type} (compareTo : α → α → Int)

/-- The calls of `heapify` in a sort on ints, as the array, the node and the
length of the heap: those of `buildMaxHeap`, those of the loop of `heapSort`,
and the nested ones. -/
inductive Called (a : List α) : List α → Int → Int → Prop
  | build {b : List α} {i : Int} :
      PassingDown (a.length / 2 - 1) 0 (fun fuel i b => heapifyBy compareTo wrapping fuel b i a.length) a i b →
      0 ≤ i → Called a b i a.length
  | extract {heap b c : List α} {i n : Int} :
      Returns (fun fuel => buildMaxHeapBy compareTo wrapping fuel a a.length) heap →
      PassingDown (a.length - 1) 1 (extractStepBy compareTo wrapping) (heap, (a.length : Int)) i (b, n) → 1 ≤ i →
      swap b 0 i = .ok c → Called a c 0 (n - 1)
  | nested {b c : List α} {i len m k : Int} : Called a b i len →
      larger compareTo b len (wrap (2 * i + 1)) i = .ok m → larger compareTo b len (wrap (2 * i + 2)) m = .ok k →
      k ≠ i → swap b i k = .ok c → Called a c k len

/-- No index that a call computes wraps around. -/
def IndicesFit (a : List α) : Prop :=
  ∀ b i len, Called compareTo a b i len → IsInt (2 * i + 1) ∧ IsInt (2 * i + 2)

end

section
variable {α : Type} {index : Int → Exec Int} {compareTo : α → α → Int} {a b c : List α} {i len : Int} {fuel : Nat}

theorem larger_range {child largest k : Int} (runs : larger compareTo a len child largest = .ok k) :
    k = largest ∨ k = child ∧ child < len ∧ InBounds a child := by
  unfold larger at runs
  split at runs
  · rename_i inside
    obtain ⟨value, _, runs⟩ := bind_eq_ok.mp runs
    obtain ⟨other, atChild, runs⟩ := bind_eq_ok.mp runs
    cases runs
    split
    · exact Or.inr ⟨rfl, inside, .of_slot (arrayGet_eq_ok atChild)⟩
    · exact Or.inl rfl
  · cases runs
    exact Or.inl rfl

theorem swap_perm {j : Int} (swapped : swap a i j = .ok b) : b.Perm a := by
  obtain ⟨x, atI, rest⟩ := bind_eq_ok.mp swapped
  obtain ⟨y, atJ, _⟩ := bind_eq_ok.mp rest
  obtain ⟨c, same, perm, _⟩ := swapSlots_ok (arrayGet_eq_ok atI) (arrayGet_eq_ok atJ)
  cases same.symm.trans swapped
  exact perm

/-- What a sift that has ended did, whatever the arithmetic of its indices. -/
theorem heapifyBy_ended (runs : heapifyBy compareTo index fuel a i len = .ok b) :
    b.Perm a ∧ Returns (fun fuel => heapifyBy compareTo index fuel a i len) b := by
  induction fuel generalizing a i with
  | zero => cases runs
  | succ fuel ih =>
    obtain ⟨left, atLeft, runs⟩ := bind_eq_ok.mp runs
    obtain ⟨right, atRight, runs⟩ := bind_eq_ok.mp runs
    obtain ⟨m, first, runs⟩ := bind_eq_ok.mp runs
    obtain ⟨k, second, runs⟩ := bind_eq_ok.mp runs
    split at runs
    · rename_i moves
      obtain ⟨c, swapped, deeper⟩ := bind_eq_ok.mp runs
      obtain ⟨moved, returns⟩ := ih deeper
      refine ⟨moved.trans (swap_perm swapped), Returns.call (fun fuel => ?_) returns⟩
      simp only [heapifyBy, atLeft, atRight, first, second, ok_bind, if_pos moves, swapped]
    · rename_i stays
      cases runs
      refine ⟨.refl _, Returns.call (fun fuel => ?_) (.ok _)⟩
      simp only [heapifyBy, atLeft, atRight, first, second, ok_bind, if_neg stays]

theorem extractStepBy_ended {n k : Int} (runs : extractStepBy compareTo index fuel i (a, n) = .ok (b, k)) :
    b.Perm a ∧ k = n - 1 ∧ Returns (fun fuel => extractStepBy compareTo index fuel i (a, n)) (b, k) := by
  obtain ⟨c, swapped, runs⟩ := bind_eq_ok.mp runs
  obtain ⟨d, sifts, runs⟩ := bind_eq_ok.mp runs
  cases runs
  obtain ⟨moved, returns⟩ := heapifyBy_ended sifts
  refine ⟨moved.trans (swap_perm swapped), rfl, ?_⟩
  simp only [extractStepBy, swapped, ok_bind]
  exact returns.bind (.ok _)

theorem passing_build (passing : PassingDown (a.length / 2 - 1) 0
    (fun fuel i b => heapifyBy compareTo index fuel b i a.length) a i b) : i ≤ a.length / 2 - 1 ∧ b.Perm a := by
  have kept := Passing.keeps passing (fun _ c => c.Perm a) (.refl a) fun k c d _ _ perm returns => by
    obtain ⟨fuel, ends⟩ := returns
    exact (heapifyBy_ended (ends fuel le_rfl)).1.trans perm
  exact ⟨by omega, kept.2⟩

theorem passing_extract {n size : Int}
    (passing : PassingDown (size - 1) 1 (extractStepBy compareTo index) (a, size) i (b, n)) :
    i ≤ size - 1 ∧ b.Perm a ∧ n = i + 1 := by
  have kept := Passing.keeps passing (fun k state => state.1.Perm a ∧ state.2 = -k + 1)
    ⟨.refl a, by omega⟩ fun k state later _ _ ⟨perm, before⟩ returns => by
      obtain ⟨fuel, ends⟩ := returns
      obtain ⟨moved, less, _⟩ := extractStepBy_ended (ends fuel le_rfl)
      exact ⟨moved.trans perm, by omega⟩
  obtain ⟨first, perm, left⟩ := kept
  simp only at perm left
  exact ⟨by omega, perm, by omega⟩

theorem buildMaxHeapBy_ended (runs : buildMaxHeapBy compareTo index fuel a len = .ok b) :
    b.Perm a ∧ Returns (fun fuel => buildMaxHeapBy compareTo index fuel a len) b := by
  constructor
  · exact forUp_kept (fun c => c.Perm a) (fun k c d perm sifts => (heapifyBy_ended sifts).1.trans perm) runs
      (.refl a)
  · have loop : forUp (-(len / 2 - 1)) (-0) (fun k c => heapifyBy compareTo index fuel c (-k) len) a = .ok b := runs
    exact returns_forUp (fun k c d sifts => (heapifyBy_ended sifts).2) loop

/-- A call is made at a node of its heap, on a permutation of the array. -/
theorem Called.inside (called : Called compareTo a b i len) : 0 ≤ i ∧ i < len ∧ len ≤ a.length ∧ b.Perm a := by
  induction called with
  | build passing nonneg =>
    obtain ⟨upper, perm⟩ := passing_build passing
    exact ⟨nonneg, by omega, le_rfl, perm⟩
  | extract built passing positive swapped =>
    obtain ⟨upper, moved, size⟩ := passing_extract passing
    obtain ⟨fuel, ends⟩ := built
    have perm := (buildMaxHeapBy_ended (ends fuel le_rfl)).1
    exact ⟨le_rfl, by omega, by omega, (swap_perm swapped).trans (moved.trans perm)⟩
  | nested _ first second moves swapped ih =>
    obtain ⟨nonneg, inside, bound, perm⟩ := ih
    have fromLeft := larger_range first
    have fromRight := larger_range second
    unfold InBounds at fromLeft fromRight
    exact ⟨by omega, by omega, bound, (swap_perm swapped).trans perm⟩

end

namespace IndicesFit

section
variable {α : Type} {index : Int → Exec Int} {compareTo : α → α → Int} {a b : List α} {i len : Int}
variable (fit : IndicesFit compareTo a) (exact : ExactOnInts index)
include fit exact

/-- Where the indices fit, every arithmetic that is exact on ints runs the
calls alike. -/
theorem heapifyBy_eq (called : Called compareTo a b i len) (fuel : Nat) :
    heapifyBy compareTo index fuel b i len = heapifyBy compareTo wrapping fuel b i len := by
  induction fuel generalizing b i with
  | zero => rfl
  | succ fuel ih =>
    obtain ⟨left, right⟩ := fit b i len called
    simp only [heapifyBy, exact _ left, exact _ right, wrapping_exact _ left, wrapping_exact _ right, ok_bind]
    refine bind_congr_ok fun m first => bind_congr_ok fun k second => ?_
    split
    · rename_i moves
      rw [← wrap_of_isInt left] at first
      rw [← wrap_of_isInt right] at second
      exact bind_congr_ok fun c swapped => ih (.nested called first second moves swapped)
    · rfl

theorem buildMaxHeapBy_eq (fuel : Nat) :
    buildMaxHeapBy compareTo index fuel a a.length = buildMaxHeapBy compareTo wrapping fuel a a.length := by
  refine forUp_congr (Passing (-(a.length / 2 - 1)) (-0)
    (fun fuel k b => heapifyBy compareTo wrapping fuel b (-k) a.length) a) ?_ ?_ .start
  · intro k b lower upper passing
    exact heapifyBy_eq fit exact (.build passing.down (by omega)) fuel
  · intro k b c lower upper passing runs
    exact .next passing upper (heapifyBy_ended runs).2

theorem heapSortBy_eq (fuel : Nat) : heapSortBy compareTo index fuel a = heapSortBy compareTo wrapping fuel a := by
  simp only [heapSortBy, buildMaxHeapBy_eq fit exact]
  refine bind_congr_ok fun heap built => ?_
  have loop : forDown (a.length - 1) 1 (extractStepBy compareTo index fuel) (heap, (a.length : Int)) =
      forDown (a.length - 1) 1 (extractStepBy compareTo wrapping fuel) (heap, (a.length : Int)) := by
    refine forUp_congr (Passing (-(a.length - 1)) (-1)
      (fun fuel k => extractStepBy compareTo wrapping fuel (-k)) (heap, (a.length : Int))) ?_ ?_ .start
    · intro k state lower upper passing
      refine bind_congr_ok fun c swapped => ?_
      have called : Called compareTo a c 0 (state.2 - 1) :=
        .extract (buildMaxHeapBy_ended built).2 passing.down (by omega) swapped
      simp only [heapifyBy_eq fit exact called]
    · intro k state later lower upper passing runs
      exact .next passing upper (extractStepBy_ended runs).2.2
  rw [loop]

end

/-- So the sort on ints ends as the one with unbounded indices. -/
theorem ensures {α : Type} {compareTo : α → α → Int} {a : List α} (fit : IndicesFit compareTo a) :
    Ensures (fun fuel => heapSortBy compareTo wrapping fuel a) (fun b => b.Perm a ∧
      (TotalPreorderOn Set.univ compareTo → b.Pairwise (fun x y => compareTo x y ≤ 0))) := by
  obtain ⟨b, returns, sorted⟩ := heapSort_ensures a
  exact ⟨b, returns.congr fun fuel => (fit.heapSortBy_eq (fun _ _ => rfl) fuel).symm, sorted⟩

end IndicesFit

section
variable {α : Type} {compareTo : α → α → Int} {a b : List α} {i len : Int}

theorem indicesFit_of_small (small : a.length < 2 ^ 30) : IndicesFit compareTo a := by
  intro b i len called
  obtain ⟨nonneg, inside, bound, _⟩ := called.inside
  unfold IsInt
  omega

/-- A node in order with its children is not exchanged. -/
theorem HeapAt.larger_eq (order : TotalPreorderOn Set.univ compareTo) (heap : HeapAt compareTo b len i) {c k : Int}
    (child : Child i c) (runs : larger compareTo b len c i = .ok k) : k = i := by
  unfold larger at runs
  split at runs
  · rename_i inside
    obtain ⟨x, atI, runs⟩ := bind_eq_ok.mp runs
    obtain ⟨y, atC, runs⟩ := bind_eq_ok.mp runs
    have above := heap c x y child inside (arrayGet_eq_ok atI) (arrayGet_eq_ok atC)
    have sign := order.neg_iff_univ x y
    rw [if_neg (by omega)] at runs
    cases runs
    rfl
  · cases runs
    rfl

/-- If the nodes of the last two levels are not exchanged with their children,
no call is made at a node whose children have no int index. -/
theorem Called.shallow (order : TotalPreorderOn Set.univ compareTo) (range : (a.length : Int) ≤ 2 ^ 31 - 1)
    (calm : ∀ b i len, Called compareTo a b i len → 2 ^ 29 - 1 ≤ i → HeapAt compareTo b len i)
    (called : Called compareTo a b i len) : i ≤ 2 ^ 30 - 2 := by
  induction called with
  | build passing nonneg =>
    have upper := (passing_build passing).1
    omega
  | extract => decide
  | @nested b c i len m k parent first second moves swapped ih =>
    have nonneg := parent.inside.1
    rw [wrap_of_isInt ⟨by omega, by omega⟩] at first second
    by_cases deep : 2 ^ 29 - 1 ≤ i
    · have heap := calm b i len parent deep
      have same : m = i := heap.larger_eq order (.inl rfl) first
      rw [same] at second
      exact absurd (heap.larger_eq order (.inr rfl) second) moves
    · have fromLeft := larger_range first
      have fromRight := larger_range second
      omega

/-- A node of those levels that is not in order is exchanged with a child, and
the nested call computes an index that is no int. -/
theorem IndicesFit.heapAt (order : TotalPreorderOn Set.univ compareTo) (fit : IndicesFit compareTo a)
    (called : Called compareTo a b i len) (deep : 2 ^ 29 - 1 ≤ i) : HeapAt compareTo b len i := by
  intro c x y child inside atI atC
  by_contra larger
  obtain ⟨nonneg, _, bound, perm⟩ := called.inside
  have length := perm.length_eq
  obtain ⟨left, right⟩ := fit b i len called
  obtain ⟨m, k, z, first, second, atK, source, largest⟩ :=
    largest_ok compareTo atI (show len ≤ b.length by omega) nonneg
  have above := (largest order).2 c y child inside atC
  have moves : k ≠ i := by
    rintro rfl
    cases Option.some.inj (atI.symm.trans atK)
    omega
  obtain ⟨d, swapped, _⟩ := swapSlots_ok atI atK
  rw [← wrap_of_isInt left] at first
  rw [← wrap_of_isInt right] at second
  have deeper := fit d k len (.nested called first second moves swapped)
  unfold IsInt at deeper
  unfold Child at source
  omega

/-- No index wraps around, and the sort on ints ends sorted, exactly if no call
finds at a node from `2 ^ 29 - 1` on a child that is larger. -/
theorem indicesFit_iff (order : TotalPreorderOn Set.univ compareTo) (a : List α)
    (range : (a.length : Int) ≤ 2 ^ 31 - 1) :
    (IndicesFit compareTo a ∧ Ensures (fun fuel => heapSortBy compareTo wrapping fuel a)
      (fun b => b.Pairwise (fun x y => compareTo x y ≤ 0) ∧ b.Perm a)) ↔
      ∀ b i len, Called compareTo a b i len → 2 ^ 29 - 1 ≤ i → HeapAt compareTo b len i := by
  constructor
  · rintro ⟨fit, _⟩ b i len called deep
    exact fit.heapAt order called deep
  · intro calm
    have fit : IndicesFit compareTo a := by
      intro b i len called
      have nonneg := called.inside.1
      have shallow := called.shallow order range calm
      unfold IsInt
      omega
    exact ⟨fit, fit.ensures.mono fun b ⟨perm, sorted⟩ => ⟨sorted order, perm⟩⟩

end

/-- So it does on arrays of any length whose elements are equal. -/
theorem indicesFit_iff_equal :
    IndicesFit (compareByKey id) (List.replicate (2 ^ 30) 7) ∧
      Ensures (fun fuel => heapSortBy (compareByKey id) wrapping fuel (List.replicate (2 ^ 30) 7))
        (fun b => b.Pairwise (fun x y => compareByKey id x y ≤ 0) ∧ b.Perm (List.replicate (2 ^ 30) 7)) := by
  refine (indicesFit_iff (compareByKey_order id) _ (by rw [List.length_replicate]; decide)).mpr ?_
  intro b i len called _ c x y _ _ atI atC
  have perm := called.inside.2.2.2
  have sevens (z : Int) (k : Int) (found : slot b k = some z) : z = 7 :=
    List.eq_of_mem_replicate (perm.mem_iff.mp (mem_iff_slot.mpr ⟨k, found⟩))
  rw [sevens x i atI, sevens y c atC]
  decide

/-- An array of zeros with a single one. -/
def spike (before after : Nat) : List Int := List.replicate before 0 ++ 1 :: List.replicate after 0

section
variable {before after : Nat}

theorem length_spike : (spike before after).length = before + 1 + after := by
  rw [spike, List.length_append, List.length_cons, List.length_replicate, List.length_replicate]
  omega

theorem slot_spike : slot (spike before after) before = some 1 :=
  slot_append_cons (by rw [List.length_replicate])

theorem slot_spike_of_ne {k : Int} (lower : 0 ≤ k) (upper : k < before + 1 + after) (away : k ≠ before) :
    slot (spike before after) k = some 0 := by
  obtain ⟨n, rfl⟩ : ∃ n : Nat, k = n := ⟨k.toNat, by omega⟩
  rw [slot_natCast, spike, List.getElem?_append]
  by_cases early : n < before
  · rw [if_pos (by rwa [List.length_replicate]), List.getElem?_replicate, if_pos early]
  · rw [if_neg (by rwa [List.length_replicate]), List.length_replicate]
    obtain ⟨m, past⟩ : ∃ m, n - before = m + 1 := ⟨n - before - 1, by omega⟩
    rw [past, List.getElem?_cons_succ, List.getElem?_replicate, if_pos (by omega)]

/-- Two zeros are not exchanged. -/
theorem larger_spike {child i len : Int} (nonneg : 0 ≤ i) (down : i < child) (inside : len ≤ before + 1 + after)
    (start : i < len) (awayI : i ≠ before) (away : child ≠ before) :
    larger (compareByKey id) (spike before after) len child i = .ok i := by
  have zero : slot (spike before after) i = some 0 := slot_spike_of_ne nonneg (by omega) awayI
  unfold larger
  split
  · have other : slot (spike before after) child = some 0 := slot_spike_of_ne (by omega) (by omega) away
    simp only [arrayGet_of_slot zero, arrayGet_of_slot other, ok_bind]
    rfl
  · rfl

theorem heapifyBy_idle {i len : Int} (nonneg : 0 ≤ i) (inside : len ≤ before + 1 + after) (start : i < len)
    (awayI : i ≠ before) (away : ∀ c, Child i c → c ≠ before) (fits : IsInt (2 * i + 2)) :
    Returns (fun fuel => heapifyBy (compareByKey id) wrapping fuel (spike before after) i len)
      (spike before after) := by
  have left : wrapping (2 * i + 1) = .ok (2 * i + 1) := wrapping_exact _ ⟨by omega, by have := fits.2; omega⟩
  have right : wrapping (2 * i + 2) = .ok (2 * i + 2) := wrapping_exact _ fits
  have first : larger (compareByKey id) (spike before after) len (2 * i + 1) i = .ok i :=
    larger_spike nonneg (by omega) inside start awayI (away _ (Or.inl rfl))
  have second : larger (compareByKey id) (spike before after) len (2 * i + 2) i = .ok i :=
    larger_spike nonneg (by omega) inside start awayI (away _ (Or.inr rfl))
  refine Returns.call (fun fuel => ?_) (.ok (spike before after))
  simp only [heapifyBy, left, right, first, second, ok_bind, ne_eq, not_true_eq_false, if_false]

end

/-- The right child of the first node without one among the ints is negative,
and so less than every length. -/
theorem heapifyBy_overflows {α : Type} {compareTo : α → α → Int} {a : List α} {i len : Int}
    (position : i = 2 ^ 30 - 1) (inside : InBounds a i) (lower : 0 ≤ len) (upper : len ≤ 2 ^ 31 - 1) :
    Throws (fun fuel => heapifyBy compareTo wrapping fuel a i len) .arrayIndexOutOfBounds := by
  subst position
  obtain ⟨value, found⟩ := inBounds_iff_slot.mp inside
  have left : wrapping (2 * (2 ^ 30 - 1) + 1) = .ok (2 ^ 31 - 1) := rfl
  have right : wrapping (2 * (2 ^ 30 - 1) + 2) = .ok (-2 ^ 31) := rfl
  have first : larger compareTo a len (2 ^ 31 - 1) (2 ^ 30 - 1) = .ok (2 ^ 30 - 1) := if_neg (by omega)
  have second : larger compareTo a len (-2 ^ 31) (2 ^ 30 - 1) = throwing .arrayIndexOutOfBounds := by
    rw [larger, if_pos (by omega)]
    simp only [arrayGet_of_slot found, ok_bind]
    rw [arrayGet_of_neg (by decide)]
    rfl
  refine Throws.call (fun fuel => ?_) ⟨0, fun _ _ => rfl⟩
  simp only [heapifyBy, left, right, first, second, ok_bind]
  rfl

section
variable {before after : Nat} (peak : (before : Int) = 2 ^ 30 - 1)
include peak

/-- At the parent of the one the sift moves it up and goes on from its place. -/
theorem heapifyBy_spike (bound : (before : Int) + 1 + after ≤ 2 ^ 31 - 1) :
    Throws (fun fuel => heapifyBy (compareByKey id) wrapping fuel (spike before after) (2 ^ 29 - 1)
      (before + 1 + after)) .arrayIndexOutOfBounds := by
  have zero : slot (spike before after) (2 ^ 29 - 1) = some 0 := slot_spike_of_ne (by omega) (by omega) (by omega)
  have one : slot (spike before after) before = some 1 := slot_spike
  have left : wrapping (2 * (2 ^ 29 - 1) + 1) = .ok (before : Int) := by
    rw [peak]
    rfl
  have right : wrapping (2 * (2 ^ 29 - 1) + 2) = .ok ((before : Int) + 1) := by
    rw [peak]
    rfl
  have first : larger (compareByKey id) (spike before after) (before + 1 + after) before (2 ^ 29 - 1) =
      .ok (before : Int) := by
    rw [larger, if_pos (by omega)]
    simp only [arrayGet_of_slot zero, arrayGet_of_slot one, ok_bind]
    rfl
  have second : larger (compareByKey id) (spike before after) (before + 1 + after) (before + 1) before =
      .ok (before : Int) := by
    unfold larger
    split
    · have next : slot (spike before after) (before + 1) = some 0 :=
        slot_spike_of_ne (by omega) (by omega) (by omega)
      simp only [arrayGet_of_slot one, arrayGet_of_slot next, ok_bind]
      rfl
    · rfl
  obtain ⟨c, swapped, perm, _⟩ := swapSlots_ok zero one
  have length := perm.length_eq
  rw [length_spike] at length
  have deeper : Throws (fun fuel => heapifyBy (compareByKey id) wrapping fuel c before (before + 1 + after))
      .arrayIndexOutOfBounds :=
    heapifyBy_overflows peak ⟨by omega, by omega⟩ (by omega) bound
  refine Throws.call (fun fuel => ?_) deeper
  simp only [heapifyBy, left, right, first, second, ok_bind, swap, swapped]
  rw [if_pos (by omega)]

/-- The build loop changes nothing before it comes to that node. -/
theorem heapSortBy_spike (bound : (before : Int) + 1 + after ≤ 2 ^ 31 - 1) :
    Throws (fun fuel => heapSortBy (compareByKey id) wrapping fuel (spike before after))
      .arrayIndexOutOfBounds := by
  have length : ((spike before after).length : Int) = before + 1 + after := by
    rw [length_spike]
    omega
  have build : Throws (fun fuel => buildMaxHeapBy (compareByKey id) wrapping fuel (spike before after)
      (before + 1 + after)) .arrayIndexOutOfBounds := by
    refine forUp_throws (-(2 ^ 29 - 1)) (by omega) (by omega) (fun k lower upper => ?_) ?_
    · refine heapifyBy_idle (by omega) le_rfl (by omega) (by omega) (fun c child => ?_) ⟨by omega, by omega⟩
      unfold Child at child
      omega
    · rw [Int.neg_neg]
      exact heapifyBy_spike peak bound
  simp only [heapSortBy, length]
  exact build.bind _

end

/-- With `2 ^ 30` elements, the last of them the largest, the sort reads the
array at the index `-2 ^ 31`. -/
theorem heapSort_reads_negative :
    ¬ IndicesFit (compareByKey id) (spike (2 ^ 30 - 1) 0) ∧
      Throws (fun fuel => heapSortBy (compareByKey id) wrapping fuel (spike (2 ^ 30 - 1) 0))
        .arrayIndexOutOfBounds := by
  have throws : Throws (fun fuel => heapSortBy (compareByKey id) wrapping fuel (spike (2 ^ 30 - 1) 0))
      .arrayIndexOutOfBounds := heapSortBy_spike (by decide) (by decide)
  refine ⟨fun fit => ?_, throws⟩
  obtain ⟨b, returns, _⟩ := fit.ensures
  exact throws.not_returns returns

end BlogAlgorithms.HeapSort
