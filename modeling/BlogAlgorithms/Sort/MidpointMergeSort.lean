import BlogAlgorithms.Sort.StableSorts

namespace BlogAlgorithms.MidpointMergeSort
open Java

/-- The array and the buffer `temp`, a field of the class. -/
structure Arrays where
  nums : List Int
  temp : List Int

def copyStep (nums : List Int) (i : Int) (temp : List Int) : Exec (List Int) := do
  let value ← arrayGet nums i
  arraySet temp i value

/-- One pass of the second loop, on the array and the cursors `i` and `j`. -/
def mergeStep (temp : List Int) (mid r k : Int) (state : List Int × Int × Int) : Exec (List Int × Int × Int) := do
  let (nums, i, j) := state
  if i > mid then do
    let nums ← arraySet nums k (← arrayGet temp j)
    .ok (nums, i, j + 1)
  else if j > r then do
    let nums ← arraySet nums k (← arrayGet temp i)
    .ok (nums, i + 1, j)
  else if (← arrayGet temp i) ≤ (← arrayGet nums j) then do
    let nums ← arraySet nums k (← arrayGet temp i)
    .ok (nums, i + 1, j)
  else do
    let nums ← arraySet nums k (← arrayGet temp j)
    .ok (nums, i, j + 1)

def merge (l mid r : Int) (arrays : Arrays) : Exec Arrays := do
  let temp ← forUp l r (copyStep arrays.nums) arrays.temp
  let (nums, _, _) ← forUp l r (mergeStep temp mid r) (arrays.nums, l, mid + 1)
  .ok ⟨nums, temp⟩

/-- The overload `mergeSort(nums, l, r)`. -/
def mergeSortRange : Nat → Int → Int → Arrays → Exec Arrays
  | 0, _, _, _ => .error .outOfFuel
  | fuel + 1, l, r, arrays =>
    if r ≤ l then .ok arrays
    else do
      let mid := l + Int.tdiv (r - l) 2
      let arrays ← mergeSortRange fuel l mid arrays
      let arrays ← mergeSortRange fuel (mid + 1) r arrays
      merge l mid r arrays

def mergeSort (fuel : Nat) (nums : List Int) : Exec (List Int) := do
  let temp ← newArray nums.length 0
  let arrays ← mergeSortRange fuel 0 (nums.length - 1) ⟨nums, temp⟩
  .ok arrays.nums

section Merge
variable {nums temp piece front back left right out hole restLeft restRight : List Int} {l mid r k i j : Int}

theorem copyStep_ok (found : slot nums k = some i) (inside : InBounds temp k) :
    copyStep nums k temp = .ok (store temp k i) := by
  simp only [copyStep, arrayGet_of_slot found, ok_bind, arraySet_of_inBounds inside]

/-- The first loop leaves the range of the array in the buffer. -/
theorem copy_spec (range : Segment nums l r piece) (size : temp.length = nums.length) :
    ∃ copied, forUp l r (copyStep nums) temp = .ok copied ∧ copied.length = nums.length ∧
      Segment copied l r piece := by
  have bounds := range.inside
  have stop := range.stop
  obtain ⟨copied, runs, length, done, rest, split, copiedRange⟩ :
      ∃ copied, forUp l r (copyStep nums) temp = .ok copied ∧ copied.length = nums.length ∧
        ∃ done rest, piece = done ++ rest ∧ Segment copied l (r + 1 - 1) done := by
    refine forUp_ok (fun k copied => copied.length = nums.length ∧
      ∃ done rest, piece = done ++ rest ∧ Segment copied l (k - 1) done) ?_ (by omega)
      ⟨size, [], piece, rfl, Segment.nil (by omega) (by omega)⟩
    intro k copied lower upper ⟨length, done, rest, split, copiedRange⟩
    subst split
    have reached := copiedRange.stop
    obtain ⟨value, tail, rfl, found⟩ := range.next (by omega : k = _) upper
    have inside : InBounds copied k := ⟨by omega, by omega⟩
    refine ⟨_, copyStep_ok found inside, by rw [length_store, length], done ++ [value], tail, by simp, ?_⟩
    rw [Int.add_sub_cancel]
    exact copiedRange.extend inside value
  have full := copiedRange.stop
  have lengths := congrArg List.length split
  rw [List.length_append] at lengths
  have none : rest = [] := List.eq_nil_of_length_eq_zero (by omega)
  rw [none, List.append_nil] at split
  rw [← split, Int.add_sub_cancel] at copiedRange
  exact ⟨copied, runs, length, copiedRange⟩

/-- The second loop before its pass with the counter `k`. The elements left on
the right are still in their places of the array: what has been emitted leaves
a gap in front of them as long as what is left on the left. -/
def Merging (temp front back left right : List Int) (mid r k : Int) (state : List Int × Int × Int) : Prop :=
  ∃ out hole restLeft restRight : List Int,
    state.1 = front ++ (out ++ (hole ++ (restRight ++ back))) ∧ k = front.length + out.length ∧
      hole.length = restLeft.length ∧
      out ++ restLeft.merge restRight (StableSort.leftFirst (compareByKey id)) =
        left.merge right (StableSort.leftFirst (compareByKey id)) ∧
      Segment temp state.2.1 mid restLeft ∧ Segment temp state.2.2 r restRight ∧
      state.2.2 = front.length + out.length + hole.length

theorem emit {old value : Int} {rest : List Int} (position : k = front.length + out.length) :
    arraySet (front ++ (out ++ (old :: rest))) k value = .ok (front ++ ((out ++ [value]) ++ rest)) := by
  have place : k = (front ++ out).length := by
    rw [List.length_append]
    omega
  rw [← List.append_assoc, arraySet_of_inBounds (inBounds_append_cons place), store_append_cons place]
  simp

theorem slot_right {other : Int} {rest : List Int} (place : j = front.length + out.length + hole.length) :
    slot (front ++ (out ++ (hole ++ (other :: rest)))) j = some other := by
  rw [← List.append_assoc, ← List.append_assoc]
  apply slot_append_cons
  simp only [List.length_append]
  omega

/-- A pass takes the left element where no smaller one is left on the right. -/
theorem Merging.takeLeft {value : Int} (position : k = front.length + out.length)
    (gap : hole.length = (value :: restLeft).length)
    (merges : out ++ value :: restLeft.merge restRight (StableSort.leftFirst (compareByKey id)) =
      left.merge right (StableSort.leftFirst (compareByKey id)))
    (onLeft : Segment temp i mid (value :: restLeft)) (onRight : Segment temp j r restRight)
    (place : j = front.length + out.length + hole.length)
    (first : ∀ other tail, restRight = other :: tail → value ≤ other) :
    ∃ next, mergeStep temp mid r k (front ++ (out ++ (hole ++ (restRight ++ back))), i, j) = .ok next ∧
      Merging temp front back left right mid r (k + 1) next := by
  have leftStop := onLeft.stop
  have rightStop := onRight.stop
  rw [List.length_cons] at leftStop gap
  have more : ¬ i > mid := by omega
  obtain ⟨old, hole, rfl⟩ := List.exists_cons_of_length_eq_add_one gap
  rw [List.length_cons] at gap place
  have stores : arraySet (front ++ (out ++ (old :: (hole ++ (restRight ++ back))))) k value = .ok _ := emit position
  refine ⟨(front ++ ((out ++ [value]) ++ (hole ++ (restRight ++ back))), i + 1, j), ?_, out ++ [value], hole,
    restLeft, restRight, rfl, ?_, by omega, by simpa using merges, onLeft.tail, onRight, ?_⟩
  · cases restRight with
    | nil =>
      have passed : j > r := by
        rw [List.length_nil] at rightStop
        omega
      simp only [mergeStep, more, if_false, passed, if_true, arrayGet_of_slot onLeft.head, ok_bind,
        List.cons_append, stores]
    | cons other tail =>
      have remains : ¬ j > r := by
        rw [List.length_cons] at rightStop
        omega
      have read : slot (front ++ (out ++ ((old :: hole) ++ (other :: (tail ++ back))))) j = some other :=
        slot_right (by simpa using place)
      simp only [List.cons_append] at read stores ⊢
      simp only [mergeStep, more, remains, if_false, arrayGet_of_slot onLeft.head, arrayGet_of_slot read, ok_bind,
        first other tail rfl, if_true, stores]
  · simp only [List.length_append, List.length_singleton]
    omega
  · simp only [List.length_append, List.length_singleton]
    omega

/-- A pass takes the right element where it is smaller than all on the left. The
gap moves on by one place, over the copy of the element that the array still holds. -/
theorem Merging.takeRight {value : Int} (position : k = front.length + out.length)
    (gap : hole.length = restLeft.length)
    (merges : out ++ value :: restLeft.merge restRight (StableSort.leftFirst (compareByKey id)) =
      left.merge right (StableSort.leftFirst (compareByKey id)))
    (onLeft : Segment temp i mid restLeft) (onRight : Segment temp j r (value :: restRight))
    (place : j = front.length + out.length + hole.length)
    (first : ∀ other tail, restLeft = other :: tail → ¬ other ≤ value) :
    ∃ next, mergeStep temp mid r k (front ++ (out ++ (hole ++ (value :: restRight ++ back))), i, j) = .ok next ∧
      Merging temp front back left right mid r (k + 1) next := by
  have leftStop := onLeft.stop
  have rightStop := onRight.stop
  rw [List.length_cons] at rightStop
  cases restLeft with
  | nil =>
    rw [List.length_nil] at leftStop gap
    have passed : i > mid := by omega
    obtain rfl := List.eq_nil_of_length_eq_zero gap
    have stores : arraySet (front ++ (out ++ (value :: (restRight ++ back)))) k value = .ok _ := emit position
    refine ⟨(front ++ ((out ++ [value]) ++ (restRight ++ back)), i, j + 1), ?_, out ++ [value], [], [], restRight,
      rfl, ?_, rfl, by simpa using merges, onLeft, onRight.tail, ?_⟩
    · simp only [mergeStep, passed, if_true, arrayGet_of_slot onRight.head, ok_bind, List.nil_append,
        List.cons_append, stores]
    · simp only [List.length_append, List.length_singleton]
      omega
    · simp only [List.length_append, List.length_singleton, List.length_nil] at place ⊢
      omega
  | cons other tail =>
    rw [List.length_cons] at leftStop gap
    have more : ¬ i > mid := by omega
    have remains : ¬ j > r := by omega
    have read : slot (front ++ (out ++ (hole ++ (value :: (restRight ++ back))))) j = some value := slot_right place
    obtain ⟨old, hole, rfl⟩ := List.exists_cons_of_length_eq_add_one gap
    rw [List.length_cons] at gap place
    have stores : arraySet (front ++ (out ++ (old :: (hole ++ (value :: (restRight ++ back)))))) k value = .ok _ :=
      emit position
    refine ⟨(front ++ ((out ++ [value]) ++ (hole ++ (value :: (restRight ++ back)))), i, j + 1), ?_, out ++ [value],
      hole ++ [value], other :: tail, restRight, by simp, ?_, by simpa using gap, by simpa using merges, onLeft,
      onRight.tail, ?_⟩
    · simp only [List.cons_append] at read stores ⊢
      simp only [mergeStep, more, remains, if_false, arrayGet_of_slot onLeft.head, arrayGet_of_slot onRight.head,
        arrayGet_of_slot read, ok_bind, first other tail rfl, stores]
    · simp only [List.length_append, List.length_singleton]
      omega
    · simp only [List.length_append, List.length_singleton]
      omega

theorem Merging.step {state : List Int × Int × Int} (merging : Merging temp front back left right mid r k state)
    (more : k ≤ r) (total : (front.length : Int) + (left.length + right.length) = r + 1) :
    ∃ next, mergeStep temp mid r k state = .ok next ∧ Merging temp front back left right mid r (k + 1) next := by
  obtain ⟨out, hole, restLeft, restRight, whole, position, gap, merges, onLeft, onRight, place⟩ := merging
  obtain ⟨nums, i, j⟩ := state
  simp only at whole onLeft onRight place
  subst whole
  have lengths := congrArg List.length merges
  simp only [List.length_append, List.length_merge] at lengths
  rcases MergeSort.merge_cases (compareByKey id) (show 0 < restLeft.length + restRight.length by omega) with
    ⟨value, tail, rfl, next, first⟩ | ⟨value, tail, rfl, next, first⟩
  · rw [next] at merges
    refine Merging.takeLeft position gap merges onLeft onRight place fun other others same => ?_
    have below := first other others same
    simp only [compareByKey, id] at below
    omega
  · rw [next] at merges
    refine Merging.takeRight position gap merges onLeft onRight place fun other others same => ?_
    have above := first other others same
    simp only [compareByKey, id] at above
    omega

/-- `merge` puts the merge of the two neighbouring pieces in their place. -/
theorem merge_spec {arrays : Arrays} (whole : arrays.nums = front ++ (left ++ (right ++ back)))
    (first : l = front.length) (middle : mid = l + left.length - 1) (last : r = mid + right.length)
    (size : arrays.temp.length = arrays.nums.length) :
    ∃ merged, merge l mid r arrays = .ok merged ∧
      merged.nums = front ++ (left.merge right (StableSort.leftFirst (compareByKey id)) ++ back) ∧
      merged.temp.length = merged.nums.length := by
  have range : Segment arrays.nums l r (left ++ right) := by
    refine ⟨front, back, by rw [whole, List.append_assoc], first, ?_⟩
    rw [List.length_append]
    omega
  obtain ⟨temp, copies, length, onTemp⟩ := copy_spec range size
  have onLeft : Segment temp l mid left := middle ▸ onTemp.append_left
  have onRight : Segment temp (mid + 1) r right := by
    have shifted := onTemp.append_right
    rwa [show l + (left.length : Int) = mid + 1 by omega] at shifted
  have start : Merging temp front back left right mid r l (arrays.nums, l, mid + 1) :=
    ⟨[], left, left, right, by simpa using whole, by simpa using first, rfl, rfl, onLeft, onRight, by simp; omega⟩
  obtain ⟨⟨nums, i, j⟩, merges, out, hole, restLeft, restRight, same, stop, gap, equal, _, _, _⟩ :
      ∃ final, forUp l r (mergeStep temp mid r) (arrays.nums, l, mid + 1) = .ok final ∧
        Merging temp front back left right mid r (r + 1) final :=
    forUp_ok (Merging temp front back left right mid r)
      (fun k state _ upper merging => merging.step upper (by omega)) (by omega) start
  have lengths := congrArg List.length equal
  simp only [List.length_append, List.length_merge] at lengths
  obtain rfl : restLeft = [] := List.eq_nil_of_length_eq_zero (by omega)
  obtain rfl : restRight = [] := List.eq_nil_of_length_eq_zero (by omega)
  obtain rfl : hole = [] := List.eq_nil_of_length_eq_zero (by simpa using gap)
  have emitted : out = left.merge right (StableSort.leftFirst (compareByKey id)) := by simpa using equal
  simp only at same
  refine ⟨⟨nums, temp⟩, by simp only [merge, copies, ok_bind, merges], by simpa [emitted] using same, ?_⟩
  simp only
  rw [length, same, whole, emitted]
  simp only [List.length_append, List.length_merge, List.length_nil]
  omega

end Merge

/-- Merging what the one-by-one recursion of `sort.MergeSort` makes of two pieces
gives what it makes of both. -/
theorem mergeEach_append (left right : List Int) :
    (MergeSort.mergeEach (compareByKey id) left).merge (MergeSort.mergeEach (compareByKey id) right)
      (StableSort.leftFirst (compareByKey id)) = MergeSort.mergeEach (compareByKey id) (left ++ right) :=
  ((StableSorts.mergeEach_stablySorts (compareByKey_order id) 0 left).merge (compareByKey_order id)
    (StableSorts.mergeEach_stablySorts (compareByKey_order id) (0 + left.length) right)).unique
      (compareByKey_order id) (StableSorts.mergeEach_stablySorts (compareByKey_order id) 0 (left ++ right))

theorem mergeEach_short {piece : List Int} (short : piece.length ≤ 1) :
    MergeSort.mergeEach (compareByKey id) piece = piece := by
  match piece, short with
  | [], _ => rfl
  | [x], _ => simp [MergeSort.mergeEach]

/-- A range is split in the middle, the longer half first. -/
theorem halves_of_range {front back piece nums : List Int} {l r : Int} (whole : nums = front ++ (piece ++ back))
    (last : r = l + piece.length - 1) (long : l < r) :
    ∃ left right, piece = left ++ right ∧ nums = front ++ (left ++ (right ++ back)) ∧
      left.length = (piece.length + 1) / 2 ∧ right.length = piece.length / 2 ∧
      l + Int.tdiv (r - l) 2 = l + left.length - 1 := by
  refine ⟨piece.take ((piece.length + 1) / 2), piece.drop ((piece.length + 1) / 2), by simp, ?_, ?_, ?_, ?_⟩
  · rw [whole, ← List.append_assoc (piece.take _), List.take_append_drop]
  · rw [List.length_take]
    omega
  · rw [List.length_drop]
    omega
  · rw [Int.tdiv_eq_ediv_of_nonneg (by omega), List.length_take]
    omega

/-- The recursion needs one call more each time the range doubles. -/
theorem mergeSortRange_spec (depth : Nat) {front back piece : List Int} {arrays : Arrays} {l r : Int}
    (whole : arrays.nums = front ++ (piece ++ back)) (first : l = front.length) (last : r = l + piece.length - 1)
    (size : arrays.temp.length = arrays.nums.length) :
    if piece.length ≤ 2 ^ depth then
      ∃ sorted, mergeSortRange (depth + 1) l r arrays = .ok sorted ∧
        sorted.nums = front ++ (MergeSort.mergeEach (compareByKey id) piece ++ back) ∧
        sorted.temp.length = sorted.nums.length
    else mergeSortRange (depth + 1) l r arrays = .error .outOfFuel := by
  induction depth generalizing front back piece arrays l r with
  | zero =>
    by_cases short : r ≤ l
    · have single : piece.length ≤ 2 ^ 0 := by omega
      rw [if_pos single, mergeEach_short single, mergeSortRange, if_pos short]
      exact ⟨arrays, rfl, whole, size⟩
    · rw [if_neg (by omega), mergeSortRange, if_neg short]
      rfl
  | succ depth ih =>
    rw [mergeSortRange]
    by_cases short : r ≤ l
    · have single : piece.length ≤ 1 := by omega
      rw [if_pos (single.trans Nat.one_le_two_pow), mergeEach_short single, if_pos short]
      exact ⟨arrays, rfl, whole, size⟩
    have double : 2 ^ (depth + 1) = 2 * 2 ^ depth := Nat.pow_succ'
    obtain ⟨left, right, rfl, halves, leftLength, rightLength, middle⟩ := halves_of_range whole last (by omega)
    have onLeft := ih halves first rfl size
    rw [if_neg short]
    simp only [middle]
    by_cases enough : (left ++ right).length ≤ 2 ^ (depth + 1)
    · rw [if_pos enough]
      rw [if_pos (by omega)] at onLeft
      obtain ⟨afterLeft, runsLeft, wholeLeft, sizeLeft⟩ := onLeft
      have shifted : afterLeft.nums = (front ++ MergeSort.mergeEach (compareByKey id) left) ++ (right ++ back) := by
        rw [wholeLeft, List.append_assoc]
      have start : l + left.length - 1 + 1 = (front ++ MergeSort.mergeEach (compareByKey id) left).length := by
        rw [List.length_append, MergeSort.length_mergeEach]
        omega
      have stop : r = l + left.length - 1 + 1 + right.length - 1 := by
        rw [List.length_append] at last
        omega
      have onRight := ih shifted start stop sizeLeft
      rw [if_pos (by omega)] at onRight
      obtain ⟨afterRight, runsRight, wholeRight, sizeRight⟩ := onRight
      rw [List.append_assoc] at wholeRight
      obtain ⟨merged, merges, result, sizeMerged⟩ := merge_spec wholeRight first
        (show l + left.length - 1 = _ by rw [MergeSort.length_mergeEach])
        (show r = _ by rw [MergeSort.length_mergeEach]; omega) sizeRight
      refine ⟨merged, ?_, by rw [result, mergeEach_append], sizeMerged⟩
      simp only [runsLeft, ok_bind, runsRight, merges]
    · rw [if_neg enough]
      rw [if_neg (by omega)] at onLeft
      rw [onLeft, error_bind]

theorem mergeEach_sorts (nums : List Int) :
    (MergeSort.mergeEach (compareByKey id) nums).Perm nums ∧
      (MergeSort.mergeEach (compareByKey id) nums).Pairwise (· ≤ ·) := by
  obtain ⟨tagged, perm, fst, sorted⟩ := StableSorts.mergeEach_stablySorts (compareByKey_order id) 0 nums
  rw [← fst]
  constructor
  · have elements := perm.map Prod.fst
    rwa [List.zipIdx_map_fst] at elements
  · rw [List.pairwise_map]
    refine sorted.imp fun before => ?_
    simp only [StableSort.Precedes, compareByKey, id] at before
    omega

/-- The array is sorted, and as `sort.MergeSort` sorts it, with one nested call
more than the number of times that its length has to be halved. -/
theorem mergeSort_halving (nums : List Int) :
    ∃ sorted, sorted.Pairwise (· ≤ ·) ∧ sorted.Perm nums ∧
      Returns (fun fuel => MergeSort.mergeSort (compareByKey id) fuel nums) sorted ∧
      ∀ depth, mergeSort (depth + 1) nums = if nums.length ≤ 2 ^ depth then .ok sorted else .error .outOfFuel := by
  obtain ⟨perm, order⟩ := mergeEach_sorts nums
  refine ⟨_, order, perm, MergeSort.mergeSort_returns _ nums, fun depth => ?_⟩
  have allocates : newArray (nums.length : Int) (0 : Int) = .ok (List.replicate nums.length 0) := by
    rw [newArray_of_nonneg (by omega), Int.toNat_natCast]
  have whole : (Arrays.mk nums (List.replicate nums.length 0)).nums = [] ++ (nums ++ []) := by simp
  have range := mergeSortRange_spec depth whole rfl rfl List.length_replicate
  simp only [List.length_nil, Int.natCast_zero, Int.zero_add, List.nil_append, List.append_nil] at range
  simp only [mergeSort, allocates, ok_bind]
  by_cases enough : nums.length ≤ 2 ^ depth
  · rw [if_pos enough] at range ⊢
    obtain ⟨sorted, runs, same, _⟩ := range
    rw [runs, ok_bind, same]
  · rw [if_neg enough] at range ⊢
    rw [range, error_bind]

end BlogAlgorithms.MidpointMergeSort
