import BlogAlgorithms.Java.Range
import BlogAlgorithms.Java.Reach

namespace BlogAlgorithms.SelectSort
open Java

variable {α : Type} (compareTo : α → α → Int)

def exch (a : List α) (i j : Int) : Exec (List α) := swapSlots a i j

/-- The statement `if (a[j].compareTo(a[min]) < 0) min = j;`. -/
def smaller (a : List α) (j min : Int) : Exec Int := do
  let value ← arrayGet a j
  let least ← arrayGet a min
  .ok (if compareTo value least < 0 then j else min)

/-- One pass of the outer loop. -/
def selectStep (N i : Int) (a : List α) : Exec (List α) := do
  let min ← forUp (i + 1) (N - 1) (smaller compareTo a) i
  exch a i min

def selectSort (a : List α) : Exec (List α) :=
  let N : Int := a.length
  forUp 0 (N - 1) (selectStep compareTo N) a

/-- The arrays before the passes of the outer loop, with the counter of the
pass that comes next. -/
abbrev Passed (original : List α) (i : Int) (a : List α) : Prop :=
  Passing 0 (original.length - 1) (fun _ => selectStep compareTo original.length) original i a

/-- The array before the pass with the counter `i`: the slots before it are in
order, and no element of the rest comes before one of theirs. -/
structure Selecting (original : List α) (i : Int) (a : List α) : Prop where
  perm : a.Perm original
  sorted : SortedOn compareTo a 0 (i - 1)
  below : ∀ k x, k < i → slot a k = some x → AllOn (fun y => compareTo x y ≤ 0) a i (original.length - 1)

section
variable {compareTo} (order : TotalPreorderOn Set.univ compareTo) {a : List α}
include order

theorem smaller_ok {i j min : Int} {least : α} (found : slot a min = some least) (bounds : i ≤ min ∧ min < j)
    (inside : InBounds a j) (all : AllOn (fun y => compareTo least y ≤ 0) a i (j - 1)) :
    ∃ next value, smaller compareTo a j min = .ok next ∧ slot a next = some value ∧
      (i ≤ next ∧ next < j + 1) ∧ AllOn (fun y => compareTo value y ≤ 0) a i j := by
  obtain ⟨value, atJ⟩ := inBounds_iff_slot.mp inside
  have sign := order.neg_iff_univ value least
  simp only [smaller, arrayGet_of_slot atJ, arrayGet_of_slot found, ok_bind]
  by_cases less : compareTo value least < 0
  · have before : AllOn (fun y => compareTo value y ≤ 0) a i (j - 1) := fun k y lower upper atK =>
      order.trans_univ value least y less.le (all k y lower upper atK)
    rw [if_pos less]
    exact ⟨j, value, rfl, atJ, ⟨by omega, by omega⟩, before.extend atJ (order.refl_univ value)⟩
  · rw [if_neg less]
    exact ⟨min, least, rfl, found, ⟨by omega, by omega⟩, all.extend atJ (by omega)⟩

/-- The inner loop finds a least element of the slots from `i` on. -/
theorem least_ok {i : Int} (inside : InBounds a i) :
    ∃ min least, forUp (i + 1) (a.length - 1) (smaller compareTo a) i = .ok min ∧ slot a min = some least ∧
      i ≤ min ∧ min < a.length ∧ AllOn (fun y => compareTo least y ≤ 0) a i (a.length - 1) := by
  obtain ⟨first, atI⟩ := inBounds_iff_slot.mp inside
  obtain ⟨lower, upper⟩ := inside
  have start : AllOn (fun y => compareTo first y ≤ 0) a i i :=
    AllOn.extend (fun k y after before => by omega) atI (order.refl_univ first)
  have loop : ∃ min, forUp (i + 1) (a.length - 1) (smaller compareTo a) i = .ok min ∧
      ∃ least, slot a min = some least ∧ (i ≤ min ∧ min < (a.length : Int) - 1 + 1) ∧
        AllOn (fun y => compareTo least y ≤ 0) a i ((a.length : Int) - 1 + 1 - 1) := by
    apply forUp_ok (fun j min => ∃ least, slot a min = some least ∧ (i ≤ min ∧ min < j) ∧
      AllOn (fun y => compareTo least y ≤ 0) a i (j - 1))
    · intro j min after before kept
      obtain ⟨least, found, bounds, all⟩ := kept
      obtain ⟨next, value, runs, atNext, inside, below⟩ :=
        smaller_ok order found bounds ⟨by omega, by omega⟩ all
      exact ⟨next, runs, value, atNext, inside, by rwa [Int.add_sub_cancel]⟩
    · omega
    · exact ⟨first, atI, ⟨le_rfl, by omega⟩, by rwa [Int.add_sub_cancel]⟩
  obtain ⟨min, runs, least, found, bounds, all⟩ := loop
  rw [Int.sub_add_cancel] at bounds all
  exact ⟨min, least, runs, found, bounds.1, bounds.2, all⟩

/-- A pass fixes its own slot and does not touch the ones before it. -/
theorem Selecting.step {original : List α} {i : Int} (state : Selecting compareTo original i a)
    (lower : 0 ≤ i) (upper : i ≤ original.length - 1) :
    ∃ b, selectStep compareTo original.length i a = .ok b ∧ Selecting compareTo original (i + 1) b ∧
      ∀ k < i, slot b k = slot a k := by
  have length := state.perm.length_eq
  have inside : InBounds a i := ⟨lower, by omega⟩
  obtain ⟨min, least, runs, atMin, after, before, all⟩ := least_ok order inside
  obtain ⟨x, atI⟩ := inBounds_iff_slot.mp inside
  obtain ⟨b, swapped, perm, slots⟩ := swapSlots_ok atI atMin
  rw [length] at runs before all
  have moved : Rearranges i (original.length - 1) a b :=
    .of_swap perm slots ⟨le_rfl, upper⟩ ⟨after, by omega⟩
  have same (k : Int) (early : k < i) : slot b k = slot a k := moved.outside k (Or.inl early)
  have atB : slot b i = some least := by
    rw [slots]
    by_cases stays : i = min
    · rw [if_pos stays, ← atI, stays, atMin]
    · rw [if_neg stays, if_pos rfl]
  have rest {y : α} (bounded : AllOn (fun z => compareTo y z ≤ 0) a i (original.length - 1)) :
      AllOn (fun z => compareTo y z ≤ 0) b (i + 1) (original.length - 1) :=
    fun k z first last => bounded.rearranged moved k z (by omega) last
  refine ⟨b, ?_, ⟨perm.trans state.perm, ?_, fun k y early atK => ?_⟩, same⟩
  · simp only [selectStep, runs, ok_bind, exch, swapped]
  · rw [Int.add_sub_cancel]
    refine .join order (state.sorted.congr fun k _ last => same k (by omega)) (.of_short (by omega)) atB
      (fun k y first last atK => ?_) (fun k y first last _ => by omega)
    rw [same k (by omega)] at atK
    exact state.below k y (by omega) atK min least after (by omega) atMin
  · by_cases here : k = i
    · subst here
      cases Option.some.inj (atB.symm.trans atK)
      exact rest all
    · rw [same k (by omega)] at atK
      exact rest (state.below k y (by omega) atK)

/-- The passes from `i` on sort the array and leave the slots before `i`. -/
theorem Selecting.run {original : List α} {i : Int} (state : Selecting compareTo original i a)
    (lower : 0 ≤ i) (upper : i ≤ original.length) :
    ∃ b, forUp i (original.length - 1) (selectStep compareTo original.length) a = .ok b ∧
      Selecting compareTo original original.length b ∧ ∀ k < i, slot b k = slot a k := by
  have loop : ∃ b, forUp i (original.length - 1) (selectStep compareTo original.length) a = .ok b ∧
      Selecting compareTo original (original.length - 1 + 1) b ∧ ∀ k < i, slot b k = slot a k := by
    apply forUp_ok (fun j b => Selecting compareTo original j b ∧ ∀ k < i, slot b k = slot a k)
    · intro j b after before kept
      obtain ⟨selecting, same⟩ := kept
      obtain ⟨c, runs, next, unchanged⟩ := selecting.step order (by omega) before
      exact ⟨c, runs, next, fun k early => (unchanged k (by omega)).trans (same k early)⟩
    · omega
    · exact ⟨state, fun _ _ => rfl⟩
  rwa [Int.sub_add_cancel] at loop

theorem Selecting.of_passed {original : List α} {i : Int} (passed : Passed compareTo original i a) :
    (0 ≤ i ∧ i ≤ original.length) ∧ Selecting compareTo original i a := by
  have start : Selecting compareTo original 0 original :=
    ⟨.refl original, .of_short (by omega), fun k x early atK => absurd (InBounds.of_slot atK).1 (by omega)⟩
  have kept : 0 ≤ i ∧ i ≤ original.length ∧ Selecting compareTo original i a := by
    apply passed.keeps (fun i a => i ≤ original.length ∧ Selecting compareTo original i a) ⟨by omega, start⟩
    intro k state later lower upper kept returns
    obtain ⟨next, runs, selecting, _⟩ := kept.2.step order lower upper
    cases returns.unique (returns_const.mpr runs)
    exact ⟨by omega, selecting⟩
  exact ⟨⟨kept.1, kept.2.1⟩, kept.2.2⟩

theorem passed_exists (original : List α) {n : Nat} (inside : n ≤ original.length) :
    ∃ c, Passed compareTo original n c := by
  induction n with
  | zero => exact ⟨original, .start⟩
  | succ n ih =>
    obtain ⟨c, passed⟩ := ih (by omega)
    obtain ⟨bounds, selecting⟩ := Selecting.of_passed order passed
    obtain ⟨next, runs, _⟩ := selecting.step order bounds.1 (by omega)
    exact ⟨next, passed.next (by omega) (returns_const.mpr runs)⟩

/-- The slots before a pass have the elements that the sort ends with. -/
theorem Passed.final {original b : List α} {i : Int} (passed : Passed compareTo original i a)
    (returns : selectSort compareTo original = .ok b) {k : Int} (early : k < i) : slot a k = slot b k := by
  obtain ⟨bounds, selecting⟩ := Selecting.of_passed order passed
  obtain ⟨final, runs, _, same⟩ := selecting.run order bounds.1 bounds.2
  have whole := returns_const.mp (passed.rest (returns_const.mpr runs))
  cases Except.ok.inj (whole.symm.trans returns)
  exact (same k early).symm

end

/-- The sort ends in a sorted permutation of the array. After the pass with
the counter `i` the slots up to `i` have their final elements, and keep them. -/
theorem selectSort_sorts (order : TotalPreorderOn Set.univ compareTo) (a : List α) :
    ∃ b, selectSort compareTo a = .ok b ∧ b.Pairwise (fun x y => compareTo x y ≤ 0) ∧ b.Perm a ∧
      ∀ i : Int, 0 ≤ i → i < a.length → ∃ c, Passed compareTo a (i + 1) c ∧ ∀ k ≤ i, slot c k = slot b k ∧
        ∀ j d, i ≤ j → Passed compareTo a (j + 1) d → slot d k = slot c k := by
  have start := (Selecting.of_passed order (Passing.start : Passed compareTo a 0 a)).2
  obtain ⟨b, runs, sorted, _⟩ := start.run order le_rfl (by omega)
  have length := sorted.perm.length_eq
  refine ⟨b, runs, SortedOn.pairwise (by rw [length]; exact sorted.sorted), sorted.perm, fun i lower upper => ?_⟩
  obtain ⟨n, rfl⟩ : ∃ n : Nat, i = n := ⟨i.toNat, by omega⟩
  obtain ⟨c, passed⟩ := passed_exists order a (show n + 1 ≤ a.length by omega)
  have final (k : Int) (early : k ≤ n) := passed.final order runs (show k < n + 1 by omega)
  refine ⟨c, passed, fun k early => ⟨final k early, fun j d after later => ?_⟩⟩
  rw [final k early]
  exact later.final order runs (by omega)

theorem selectSort_sorts_ties :
    ∃ b, selectSort (compareByKey Prod.fst) [((2, 0) : Int × Nat), (1, 1), (2, 2)] = .ok b ∧
      b.Pairwise (fun x y => compareByKey Prod.fst x y ≤ 0) ∧ b.Perm [(2, 0), (1, 1), (2, 2)] := by
  obtain ⟨b, runs, sorted, perm, _⟩ :=
    selectSort_sorts (compareByKey Prod.fst) (compareByKey_order Prod.fst) [((2, 0) : Int × Nat), (1, 1), (2, 2)]
  exact ⟨b, runs, sorted, perm⟩

end BlogAlgorithms.SelectSort
