import BlogAlgorithms.Sort.QuickSort

namespace BlogAlgorithms.RandomQuickSort
open Java

/-- The array, and how many random numbers have been drawn. -/
structure Sorting where
  nums : List Int
  calls : Nat

def swap (nums : List Int) (i j : Int) : Exec (List Int) := swapSlots nums i j

/-- One pass of the loop, on the array and `temp`, the last of the smaller
elements. The condition `nums[i] < key && ++temp != i` moves `temp` only where
its first half holds. -/
def partitionStep (key i : Int) (state : List Int × Int) : Exec (List Int × Int) := do
  let (nums, temp) := state
  if (← arrayGet nums i) < key then
    if temp + 1 ≠ i then do
      let nums ← swap nums (temp + 1) i
      .ok (nums, temp + 1)
    else .ok (nums, temp + 1)
  else .ok (nums, temp)

def partition (nums : List Int) (l r : Int) : Exec (List Int × Int) := do
  let key ← arrayGet nums r
  let (nums, temp) ← forUp l (r - 1) (partitionStep key) (nums, l - 1)
  let nums ← swap nums (temp + 1) r
  .ok (nums, temp + 1)

section Code
variable (random : Nat → Int → Int)

/-- `new Random().nextInt(bound)`, where the outcome of each call is given. -/
def nextInt (calls : Nat) (bound : Int) : Exec Int :=
  if bound ≤ 0 then throwing .illegalArgument else .ok (random calls bound)

def randomPartition (state : Sorting) (l r : Int) : Exec (Sorting × Int) := do
  let draw ← nextInt random state.calls (r - l + 1)
  let nums ← swap state.nums r (draw + l)
  let (nums, i) ← partition nums l r
  .ok (⟨nums, state.calls + 1⟩, i)

/-- The overload `quickSort(nums, l, r)`. -/
def quickSortRange : Nat → Sorting → Int → Int → Exec Sorting
  | 0, _, _, _ => .error .outOfFuel
  | fuel + 1, state, l, r =>
    if r ≤ l then .ok state
    else do
      let (state, i) ← randomPartition random state l r
      let state ← quickSortRange fuel state l (i - 1)
      quickSortRange fuel state (i + 1) r

def quickSort (fuel : Nat) (nums : List Int) : Exec (List Int) := do
  let state ← quickSortRange random fuel ⟨nums, 0⟩ 0 (nums.length - 1)
  .ok state.nums

end Code

/-- What `nextInt` promises of its outcomes. -/
def Draws (random : Nat → Int → Int) : Prop :=
  ∀ calls bound, 0 < bound → 0 ≤ random calls bound ∧ random calls bound < bound

/-- The loop before its pass with the counter `i`: the smaller elements up to
`temp`, then the others, and the pivot at the end of the range. -/
structure Parted (original : List Int) (key l r i : Int) (state : List Int × Int) : Prop where
  moved : Rearranges l r original state.1
  within : l - 1 ≤ state.2 ∧ state.2 < i
  pivot : slot state.1 r = some key
  low : AllOn (fun x => x < key) state.1 l state.2
  high : AllOn (fun x => key ≤ x) state.1 (state.2 + 1) (i - 1)

section
variable {original nums : List Int} {key l r i temp : Int}

/-- A smaller element changes places with the first of the others. -/
theorem Parted.exchange {x : Int} (parted : Parted original key l r i (nums, temp)) (lower : 0 ≤ l) (upper : i < r)
    (found : slot nums i = some x) (less : x < key) (gap : temp + 1 ≠ i) :
    ∃ next, swap nums (temp + 1) i = .ok next ∧ Parted original key l r (i + 1) (next, temp + 1) := by
  obtain ⟨moved, ⟨first, before⟩, pivot, low, high⟩ := parted
  simp only at moved first before pivot low high
  have inside := (InBounds.of_slot found).2
  obtain ⟨y, other⟩ := inBounds_iff_slot.mp (show InBounds nums (temp + 1) from ⟨by omega, by omega⟩)
  have greater : key ≤ y := high (temp + 1) y le_rfl (by omega) other
  obtain ⟨next, swaps, perm, slots⟩ := swapSlots_ok other found
  have kept (k : Int) (notI : k ≠ i) (notTemp : k ≠ temp + 1) : slot next k = slot nums k := by
    rw [slots, if_neg notI, if_neg notTemp]
  have atTemp : slot next (temp + 1) = some x := by rw [slots, if_neg gap, if_pos rfl]
  have atI : slot next i = some y := by rw [slots, if_pos rfl]
  refine ⟨next, swaps, moved.trans (.of_swap perm slots ⟨by omega, by omega⟩ ⟨by omega, by omega⟩),
    ⟨by simp only; omega, by simp only; omega⟩, (kept r (by omega) (by omega)).trans pivot, ?_, ?_⟩
  · have below : AllOn (fun x => x < key) next l (temp + 1 - 1) := by
      rw [Int.add_sub_cancel]
      exact low.congr fun k _ last => kept k (by omega) (by omega)
    exact below.extend atTemp less
  · have above : AllOn (fun x => key ≤ x) next (temp + 1 + 1) (i - 1) := fun k z start last atK =>
      high k z (by omega) last (kept k (by omega) (by omega) ▸ atK)
    rw [Int.add_sub_cancel]
    exact above.extend atI greater

theorem Parted.step {state : List Int × Int} (parted : Parted original key l r i state) (lower : 0 ≤ l)
    (upper : i < r) : ∃ next, partitionStep key i state = .ok next ∧ Parted original key l r (i + 1) next := by
  obtain ⟨nums, temp⟩ := state
  have inside := (InBounds.of_slot parted.pivot).2
  have within := parted.within
  simp only at inside within
  obtain ⟨x, found⟩ := inBounds_iff_slot.mp (show InBounds nums i from ⟨by omega, by omega⟩)
  have last : i + 1 - 1 = i := by omega
  simp only [partitionStep, arrayGet_of_slot found, ok_bind]
  by_cases less : x < key
  · rw [if_pos less]
    by_cases gap : temp + 1 = i
    · rw [if_neg (not_not.mpr gap)]
      refine ⟨_, rfl, parted.moved, ⟨by simp only; omega, by simp only; omega⟩, parted.pivot, ?_, ?_⟩
      · subst gap
        have low := parted.low
        rw [show temp = temp + 1 - 1 by omega] at low
        exact low.extend found less
      · exact fun k _ start stop _ => by simp only at start; omega
    · rw [if_pos gap]
      obtain ⟨next, swaps, result⟩ := parted.exchange lower upper found less gap
      exact ⟨(next, temp + 1), by rw [swaps, ok_bind], result⟩
  · rw [if_neg less]
    refine ⟨_, rfl, parted.moved, ⟨by simp only; omega, by simp only; omega⟩, parted.pivot, parted.low, ?_⟩
    rw [last]
    exact parted.high.extend found (by omega)

/-- `partition` leaves the last element of the range where it belongs. -/
theorem partition_spec (lower : 0 ≤ l) (ordered : l ≤ r) (bound : r < nums.length) :
    ∃ next i key, partition nums l r = .ok (next, i) ∧ Rearranges l r nums next ∧ (l ≤ i ∧ i ≤ r) ∧
      slot next i = some key ∧ AllOn (fun x => x < key) next l (i - 1) ∧
        AllOn (fun x => key ≤ x) next (i + 1) r := by
  obtain ⟨key, atR⟩ := inBounds_iff_slot.mp (show InBounds nums r from ⟨by omega, bound⟩)
  have start : Parted nums key l r l (nums, l - 1) :=
    ⟨.refl l r nums, ⟨le_rfl, by simp⟩, atR, fun k _ first last _ => by simp only at last; omega,
      fun k _ first last _ => by simp only at first; omega⟩
  obtain ⟨⟨parted, temp⟩, loops, moved, within, pivot, low, high⟩ :
      ∃ final, forUp l (r - 1) (partitionStep key) (nums, l - 1) = .ok final ∧
        Parted nums key l r (r - 1 + 1) final :=
    forUp_ok (Parted nums key l r) (fun i _ _ upper begun => begun.step lower (by omega)) (by omega) start
  simp only at moved within pivot low high
  have inside := (InBounds.of_slot pivot).2
  obtain ⟨y, other⟩ := inBounds_iff_slot.mp (show InBounds parted (temp + 1) from ⟨by omega, by omega⟩)
  obtain ⟨next, swaps, perm, slots⟩ := swapSlots_ok other pivot
  have placed : slot next (temp + 1) = some key := by
    rw [slots, if_pos rfl]
    split
    · rename_i same
      rw [← same, other] at pivot
      exact pivot
    · rfl
  refine ⟨next, temp + 1, key, ?_, moved.trans (.of_swap perm slots ⟨by omega, by omega⟩ ⟨by omega, le_rfl⟩),
    ⟨by omega, by omega⟩, placed, ?_, fun k z first last atK => ?_⟩
  · simp only [partition, arrayGet_of_slot atR, ok_bind, loops, swap, swaps]
  · rw [Int.add_sub_cancel]
    exact low.congr fun k _ last => by rw [slots, if_neg (by omega), if_neg (by omega)]
  · -- the element that the pivot displaced now ends the range
    rw [slots] at atK
    split at atK
    · cases atK
      exact high (temp + 1) _ le_rfl (by omega) other
    · rw [if_neg (by omega)] at atK
      exact high k z (by omega) (by omega) atK

end

section
variable {random : Nat → Int → Int} {l r : Int}

theorem randomPartition_spec (draws : Draws random) (state : Sorting) (lower : 0 ≤ l) (ordered : l < r)
    (bound : r < state.nums.length) :
    ∃ next i key, randomPartition random state l r = .ok (next, i) ∧ Rearranges l r state.nums next.nums ∧
      (l ≤ i ∧ i ≤ r) ∧ slot next.nums i = some key ∧ AllOn (fun x => x < key) next.nums l (i - 1) ∧
      AllOn (fun x => key ≤ x) next.nums (i + 1) r := by
  have positive : ¬ r - l + 1 ≤ 0 := by omega
  obtain ⟨nonneg, below⟩ := draws state.calls (r - l + 1) (by omega)
  obtain ⟨x, atR⟩ := inBounds_iff_slot.mp (show InBounds state.nums r from ⟨by omega, bound⟩)
  obtain ⟨y, drawn⟩ := inBounds_iff_slot.mp
    (show InBounds state.nums (random state.calls (r - l + 1) + l) from ⟨by omega, by omega⟩)
  obtain ⟨swapped, swaps, perm, slots⟩ := swapSlots_ok atR drawn
  have moved : Rearranges l r state.nums swapped := .of_swap perm slots ⟨by omega, le_rfl⟩ ⟨by omega, by omega⟩
  obtain ⟨next, i, key, parts, rearranged, rest⟩ :=
    partition_spec lower ordered.le (show r < swapped.length by rw [perm.length_eq]; exact bound)
  refine ⟨⟨next, state.calls + 1⟩, i, key, ?_, moved.trans rearranged, rest⟩
  simp only [randomPartition, nextInt, if_neg positive, ok_bind, swap, swaps, parts]

/-- A range is sorted by as many nested calls as it has elements. -/
theorem quickSortRange_sorts (draws : Draws random) (fuel : Nat) (state : Sorting) (lower : 0 ≤ l)
    (bound : r < state.nums.length) (enough : r - l < fuel) (called : 0 < fuel) :
    ∃ sorted, quickSortRange random fuel state l r = .ok sorted ∧ Rearranges l r state.nums sorted.nums ∧
      SortedOn (compareByKey id) sorted.nums l r := by
  induction fuel generalizing state l r with
  | zero => omega
  | succ fuel ih =>
    by_cases short : r ≤ l
    · exact ⟨state, by rw [quickSortRange, if_pos short], .refl l r _, .of_short short⟩
    obtain ⟨parted, i, key, parts, moved, ⟨first, last⟩, pivot, low, high⟩ :=
      randomPartition_spec draws state lower (by omega) bound
    have lengthParted := moved.perm.length_eq
    obtain ⟨left, runsLeft, movedLeft, sortedLeft⟩ :=
      ih parted lower (show i - 1 < parted.nums.length by omega) (by omega) (by omega)
    have lengthLeft := movedLeft.perm.length_eq
    obtain ⟨right, runsRight, movedRight, sortedRight⟩ :=
      ih left (show 0 ≤ i + 1 by omega) (show r < left.nums.length by omega) (by omega) (by omega)
    refine ⟨right, ?_, ?_, ?_⟩
    · simp only [quickSortRange, if_neg short, parts, ok_bind, runsLeft, runsRight]
    · exact moved.trans ((movedLeft.widen le_rfl (by omega)).trans (movedRight.widen (by omega) le_rfl))
    · have split : QuickSort.Split (compareByKey id) state.nums l r parted.nums i := by
        refine ⟨moved, ⟨first, last⟩, key, pivot, ?_, ?_⟩
        · exact fun k x start stop atK => by
            have := low k x start stop atK
            simp only [compareByKey, id]
            omega
        · exact fun k x start stop atK => by
            have := high k x start stop atK
            simp only [compareByKey, id]
            omega
      exact split.sorted (compareByKey_order id) movedLeft sortedLeft movedRight sortedRight

/-- The pivot of a range of equal elements is its first one, whatever was drawn. -/
theorem quickSortRange_equal (draws : Draws random) {x : Int} (fuel : Nat) (state : Sorting) (lower : 0 ≤ l)
    (bound : r < state.nums.length) (equal : AllOn (fun y => y = x) state.nums l r) (few : fuel < r - l + 1) :
    quickSortRange random fuel state l r = .error .outOfFuel := by
  induction fuel generalizing state l with
  | zero => rfl
  | succ fuel ih =>
    by_cases single : r ≤ l
    · omega
    obtain ⟨parted, i, key, parts, moved, ⟨first, last⟩, pivot, low, _⟩ :=
      randomPartition_spec draws state lower (by omega) bound
    have length := moved.perm.length_eq
    have still := equal.rearranged moved
    have isFirst : i = l := by
      by_contra later
      obtain ⟨y, atL⟩ := inBounds_iff_slot.mp (show InBounds parted.nums l from ⟨lower, by omega⟩)
      have less := low l y le_rfl (by omega) atL
      have isX := still l y le_rfl (by omega) atL
      have keyIsX := still i key first last pivot
      omega
    subst isFirst
    simp only [quickSortRange, if_neg single, parts, ok_bind]
    cases fuel with
    | zero => rfl
    | succ fuel =>
      have nothing : quickSortRange random (fuel + 1) parted i (i - 1) = .ok parted := by
        rw [quickSortRange, if_pos (by omega)]
      rw [nothing, ok_bind]
      exact ih parted (by omega) (by omega) (fun k y start stop => still k y (by omega) stop) (by omega)

end

theorem quickSort_sorted {random : Nat → Int → Int} (draws : Draws random) (nums : List Int) {fuel : Nat}
    (enough : max 1 nums.length ≤ fuel) :
    ∃ sorted, quickSort random fuel nums = .ok sorted ∧ sorted.Pairwise (· ≤ ·) ∧ sorted.Perm nums := by
  obtain ⟨sorted, runs, moved, order⟩ := quickSortRange_sorts draws fuel ⟨nums, 0⟩ le_rfl
    (show (nums.length : Int) - 1 < nums.length by omega) (by omega) (by omega)
  refine ⟨sorted.nums, by rw [quickSort, runs, ok_bind], ?_, moved.perm⟩
  have length : nums.length = sorted.nums.length := moved.perm.length_eq.symm
  rw [length] at order
  refine order.pairwise.imp fun below => ?_
  simp only [compareByKey, id] at below
  omega

/-- Every sequence of draws gives the same sorted array, with at most as many
nested calls as there are elements. -/
theorem randomQuickSort_sorts (nums : List Int) :
    ∃ sorted, sorted.Pairwise (· ≤ ·) ∧ sorted.Perm nums ∧ ∀ random fuel, Draws random → max 1 nums.length ≤ fuel →
      quickSort random fuel nums = .ok sorted := by
  have least : Draws fun _ _ => 0 := fun _ _ positive => ⟨le_rfl, positive⟩
  obtain ⟨sorted, _, order, perm⟩ := quickSort_sorted least nums le_rfl
  refine ⟨sorted, order, perm, fun random fuel draws enough => ?_⟩
  obtain ⟨other, runs, otherOrder, otherPerm⟩ := quickSort_sorted draws nums enough
  have same : other = sorted := (otherPerm.trans perm.symm).eq_of_pairwise
    (fun _ _ _ _ below above => Int.le_antisymm below above) otherOrder order
  rw [runs, same]

theorem randomQuickSort_sorts_last_drawn :
    quickSort (fun _ bound => bound - 1) 4 [3, 1, 3, 2] = .ok [1, 2, 3, 3] := by
  obtain ⟨sorted, order, perm, runs⟩ := randomQuickSort_sorts [3, 1, 3, 2]
  have draws : Draws fun _ bound => bound - 1 := by
    intro _ bound positive
    simp only
    omega
  rw [runs _ 4 draws (by decide)]
  have same : sorted = [1, 2, 3, 3] := (perm.trans (by decide)).eq_of_pairwise
    (fun _ _ _ _ below above => Int.le_antisymm below above) order (by decide)
  rw [same]

/-- No draw helps on equal elements: the calls then nest as deep as the array is long. -/
theorem randomQuickSort_equal_elements {random : Nat → Int → Int} (draws : Draws random) (n : Nat) (x : Int)
    (fuel : Nat) :
    quickSort random fuel (List.replicate n x) =
      if max 1 n ≤ fuel then .ok (List.replicate n x) else .error .outOfFuel := by
  have length : (List.replicate n x).length = n := List.length_replicate
  by_cases enough : max 1 n ≤ fuel
  · obtain ⟨sorted, runs, _, perm⟩ := quickSort_sorted draws (List.replicate n x)
      (show max 1 (List.replicate n x).length ≤ fuel by rwa [length])
    rw [runs, if_pos enough, List.perm_replicate.mp perm]
  · rw [if_neg enough]
    cases fuel with
    | zero => rfl
    | succ fuel =>
      have equal : AllOn (fun y => y = x) (List.replicate n x) 0 ((List.replicate n x).length - 1) :=
        fun k y _ _ found => List.eq_of_mem_replicate (mem_iff_slot.mpr ⟨k, found⟩)
      rw [quickSort,
        quickSortRange_equal draws (fuel + 1) ⟨List.replicate n x, 0⟩ le_rfl (by simp only; omega) equal (by omega)]
      rfl

theorem randomQuickSort_equal_elements_five :
    quickSort (fun _ bound => bound / 2) 4 (List.replicate 5 7) = .error .outOfFuel := by
  have draws : Draws fun _ bound => bound / 2 := by
    intro _ bound positive
    simp only
    omega
  rw [randomQuickSort_equal_elements draws, if_neg (by decide)]

end BlogAlgorithms.RandomQuickSort
