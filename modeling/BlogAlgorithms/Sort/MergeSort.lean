import BlogAlgorithms.Java.Array
import BlogAlgorithms.Java.Loop
import BlogAlgorithms.Lib.StableSort

namespace BlogAlgorithms.MergeSort
open Java StableSort

variable {α : Type} (compareTo : α → α → Int)

/-- The array under sorting and the static buffer, whose slots are null
until `merge` first copies into them. -/
structure Arrays (α : Type) where
  a : List α
  temp : List (Option α)

/-- Read a slot of the buffer. A null would only fail later, in `compareTo`
or as an element of the result, and counts as a failure here. -/
def tempGet (temp : List (Option α)) (i : Int) : Exec α := do
  match ← arrayGet temp i with
  | some value => .ok value
  | none => throwing .nullPointer

/-- One pass of the first loop of `merge`: `temp[k] = a[k]`. -/
def copyStep (a : List α) (k : Int) (temp : List (Option α)) : Exec (List (Option α)) := do
  let value ← arrayGet a k
  arraySet temp k (some value)

/-- One pass of the second loop, on `a` and the cursors `i` and `j`. -/
def mergeStep (temp : List (Option α)) (mid hi k : Int) (state : List α × Int × Int) :
    Exec (List α × Int × Int) := do
  let (a, i, j) := state
  if i > mid then do
    let a ← arraySet a k (← tempGet temp j)
    .ok (a, i, j + 1)
  else if j > hi then do
    let a ← arraySet a k (← tempGet temp i)
    .ok (a, i + 1, j)
  else do
    let left ← tempGet temp i
    let right ← tempGet temp j
    if compareTo left right ≤ 0 then do
      let a ← arraySet a k left
      .ok (a, i + 1, j)
    else do
      let a ← arraySet a k right
      .ok (a, i, j + 1)

/-- Merge `a[lo..mid]` and `a[mid+1..hi]` through the buffer. -/
def merge (lo mid hi : Int) (arrays : Arrays α) : Exec (Arrays α) := do
  let temp ← forUp lo hi (copyStep arrays.a) arrays.temp
  let (a, _, _) ← forUp lo hi (mergeStep compareTo temp mid hi) (arrays.a, lo, mid + 1)
  .ok { a := a, temp := temp }

/-- The private `mergeSort(a, lo, hi)`. The division `1 / 2` of ints is 0. -/
def mergeSortRange : Nat → Int → Int → Arrays α → Exec (Arrays α)
  | 0, _, _, _ => .error .outOfFuel
  | fuel + 1, lo, hi, arrays =>
    if hi ≤ lo then .ok arrays
    else do
      let mid := lo + Int.tdiv 1 2 * (hi - lo)
      let arrays ← mergeSortRange fuel lo mid arrays
      let arrays ← mergeSortRange fuel (mid + 1) hi arrays
      merge compareTo lo mid hi arrays

def mergeSort (fuel : Nat) (a : List α) : Exec (List α) := do
  let temp ← newArray a.length none
  let arrays ← mergeSortRange compareTo fuel 0 (a.length - 1) { a := a, temp := temp }
  .ok arrays.a

theorem tempGet_of_segment {temp : List (Option α)} {lo hi : Int} {value : α} {rest : List α}
    (range : Segment temp lo hi ((value :: rest).map some)) : tempGet temp lo = .ok value := by
  have found : slot temp lo = some (some value) := range.head
  simp only [tempGet, arrayGet_of_slot found, ok_bind]

/-- The buffer during the first loop, before its pass with the counter `k`. -/
def Copied (size : Nat) (piece : List α) (lo k : Int) (copied : List (Option α)) : Prop :=
  copied.length = size ∧
    ∃ done rest, piece = done ++ rest ∧ Segment copied lo (k - 1) (done.map some)

theorem Copied.step {a piece : List α} {lo hi k : Int} {copied : List (Option α)}
    (range : Segment a lo hi piece) (lower : lo ≤ k) (upper : k ≤ hi)
    (begun : Copied a.length piece lo k copied) :
    ∃ next, copyStep a k copied = .ok next ∧ Copied a.length piece lo (k + 1) next := by
  obtain ⟨length, done, rest, split, copiedRange⟩ := begun
  subst split
  have bounds := range.inside
  have stop := copiedRange.stop
  rw [List.length_map] at stop
  obtain ⟨value, tail, more, found⟩ := range.next (by omega : k = _) upper
  subst more
  have inside : InBounds copied k := ⟨by omega, by omega⟩
  refine ⟨store copied k (some value), ?_, by rw [length_store, length], done ++ [value], tail, by simp, ?_⟩
  · simp only [copyStep, arrayGet_of_slot found, ok_bind, arraySet_of_inBounds inside]
  · have longer := copiedRange.extend inside (some value)
    simpa using longer

/-- The first loop leaves the range of the array in the buffer. -/
theorem copy_range {a piece : List α} {temp : List (Option α)} {lo hi : Int}
    (range : Segment a lo hi piece) (size : temp.length = a.length) :
    ∃ copied, forUp lo hi (copyStep a) temp = .ok copied ∧ copied.length = a.length ∧
      Segment copied lo hi (piece.map some) := by
  have bounds := range.inside
  have stop := range.stop
  obtain ⟨copied, runs, length, done, rest, split, copiedRange⟩ :=
    forUp_ok (Copied a.length piece lo) (fun k copied lower upper begun => begun.step range lower upper)
      (by omega) ⟨size, [], piece, rfl, Segment.nil (by omega) (by omega)⟩
  have full := copiedRange.stop
  have lengths := congrArg List.length split
  rw [List.length_append] at lengths
  rw [List.length_map] at full
  have none : rest = [] := List.eq_nil_of_length_eq_zero (by omega)
  rw [none, List.append_nil] at split
  rw [← split, Int.add_sub_cancel] at copiedRange
  exact ⟨copied, runs, length, copiedRange⟩

/-- The second loop before its pass with the counter `k`: what has been
emitted and the merge of what is left in the buffer make up the merge. -/
def Merging (temp : List (Option α)) (front back left right : List α) (mid hi k : Int)
    (state : List α × Int × Int) : Prop :=
  ∃ out hole restLeft restRight : List α,
    state.1 = front ++ out ++ (hole ++ back) ∧ k = (front ++ out).length ∧
      hole.length = restLeft.length + restRight.length ∧
      out ++ restLeft.merge restRight (leftFirst compareTo) = left.merge right (leftFirst compareTo) ∧
      Segment temp state.2.1 mid (restLeft.map some) ∧ Segment temp state.2.2 hi (restRight.map some)

section
variable {compareTo} {temp : List (Option α)} {front back left right out hole restLeft restRight : List α}
  {mid hi k i j : Int}

/-- The store of one pass: the next hole after the emitted part is filled. -/
theorem emit {old value : α} (position : k = (front ++ out).length) :
    arraySet (front ++ out ++ (old :: hole ++ back)) k value =
      .ok (front ++ (out ++ [value]) ++ (hole ++ back)) := by
  rw [List.cons_append, arraySet_of_inBounds (inBounds_append_cons position), store_append_cons position]
  simp

theorem Merging.takeLeft {value : α}
    (position : k = (front ++ out).length) (size : hole.length = restLeft.length + restRight.length)
    (merges : out ++ value :: restLeft.merge restRight (leftFirst compareTo) =
      left.merge right (leftFirst compareTo))
    (onLeft : Segment temp i mid ((value :: restLeft).map some))
    (onRight : Segment temp j hi (restRight.map some)) :
    Merging compareTo temp front back left right mid hi (k + 1)
      (front ++ (out ++ [value]) ++ (hole ++ back), i + 1, j) := by
  refine ⟨out ++ [value], hole, restLeft, restRight, rfl, ?_, size, by simpa using merges, onLeft.tail, onRight⟩
  simp only [List.length_append, List.length_singleton] at position ⊢
  omega

theorem Merging.takeRight {value : α}
    (position : k = (front ++ out).length) (size : hole.length = restLeft.length + restRight.length)
    (merges : out ++ value :: restLeft.merge restRight (leftFirst compareTo) =
      left.merge right (leftFirst compareTo))
    (onLeft : Segment temp i mid (restLeft.map some))
    (onRight : Segment temp j hi ((value :: restRight).map some)) :
    Merging compareTo temp front back left right mid hi (k + 1)
      (front ++ (out ++ [value]) ++ (hole ++ back), i, j + 1) := by
  refine ⟨out ++ [value], hole, restLeft, restRight, rfl, ?_, size, by simpa using merges, onLeft, onRight.tail⟩
  simp only [List.length_append, List.length_singleton] at position ⊢
  omega

/-- A pass takes the left element where no smaller one is left on the right. -/
theorem mergeStep_left {old value : α} (position : k = (front ++ out).length)
    (onLeft : Segment temp i mid ((value :: restLeft).map some)) (onRight : Segment temp j hi (restRight.map some))
    (first : ∀ other tail, restRight = other :: tail → compareTo value other ≤ 0) :
    mergeStep compareTo temp mid hi k (front ++ out ++ (old :: hole ++ back), i, j) =
      .ok (front ++ (out ++ [value]) ++ (hole ++ back), i + 1, j) := by
  have leftStop := onLeft.stop
  have rightStop := onRight.stop
  simp only [List.length_map, List.length_cons] at leftStop rightStop
  have more : ¬ i > mid := by omega
  cases restRight with
  | nil =>
    have passed : j > hi := by
      simp only [List.length_nil] at rightStop
      omega
    simp only [mergeStep, more, if_false, passed, if_true, tempGet_of_segment onLeft, ok_bind, emit position]
  | cons other tail =>
    have remains : ¬ j > hi := by
      simp only [List.length_cons] at rightStop
      omega
    simp only [mergeStep, more, remains, if_false, tempGet_of_segment onLeft, tempGet_of_segment onRight, ok_bind,
      first other tail rfl, if_true, emit position]

/-- A pass takes the right element where it is smaller than all on the left. -/
theorem mergeStep_right {old value : α} (position : k = (front ++ out).length)
    (onLeft : Segment temp i mid (restLeft.map some)) (onRight : Segment temp j hi ((value :: restRight).map some))
    (first : ∀ other tail, restLeft = other :: tail → ¬ compareTo other value ≤ 0) :
    mergeStep compareTo temp mid hi k (front ++ out ++ (old :: hole ++ back), i, j) =
      .ok (front ++ (out ++ [value]) ++ (hole ++ back), i, j + 1) := by
  have leftStop := onLeft.stop
  have rightStop := onRight.stop
  simp only [List.length_map, List.length_cons] at leftStop rightStop
  cases restLeft with
  | nil =>
    have passed : i > mid := by
      simp only [List.length_nil] at leftStop
      omega
    simp only [mergeStep, passed, if_true, tempGet_of_segment onRight, ok_bind, emit position]
  | cons other tail =>
    have more : ¬ i > mid := by
      simp only [List.length_cons] at leftStop
      omega
    have remains : ¬ j > hi := by omega
    simp only [mergeStep, more, remains, if_false, tempGet_of_segment onLeft, tempGet_of_segment onRight, ok_bind,
      first other tail rfl, emit position]

/-- What the next element of a merge is, and what is left to merge. -/
theorem merge_cases (compareTo : α → α → Int) (nonempty : 0 < restLeft.length + restRight.length) :
    (∃ value tail, restLeft = value :: tail ∧
      restLeft.merge restRight (leftFirst compareTo) = value :: tail.merge restRight (leftFirst compareTo) ∧
      ∀ other others, restRight = other :: others → compareTo value other ≤ 0) ∨
    ∃ value tail, restRight = value :: tail ∧
      restLeft.merge restRight (leftFirst compareTo) = value :: restLeft.merge tail (leftFirst compareTo) ∧
      ∀ other others, restLeft = other :: others → ¬ compareTo other value ≤ 0 := by
  cases restLeft with
  | nil =>
    cases restRight with
    | nil => simp at nonempty
    | cons value tail => exact Or.inr ⟨value, tail, rfl, by simp, by simp⟩
  | cons x left =>
    cases restRight with
    | nil => exact Or.inl ⟨x, left, rfl, by simp, by simp⟩
    | cons y right =>
      rw [List.cons_merge_cons]
      by_cases below : compareTo x y ≤ 0
      · have test : leftFirst compareTo x y = true := decide_eq_true below
        exact Or.inl ⟨x, left, rfl, if_pos test, by simpa using below⟩
      · have test : ¬ leftFirst compareTo x y = true := by simpa [leftFirst] using below
        exact Or.inr ⟨y, right, rfl, if_neg test, by simpa using below⟩

theorem Merging.step {state : List α × Int × Int}
    (merging : Merging compareTo temp front back left right mid hi k state) (more : k ≤ hi)
    (total : (front.length : Int) + (left.length + right.length) = hi + 1) :
    ∃ next, mergeStep compareTo temp mid hi k state = .ok next ∧
      Merging compareTo temp front back left right mid hi (k + 1) next := by
  obtain ⟨out, hole, restLeft, restRight, whole, position, size, merges, onLeft, onRight⟩ := merging
  obtain ⟨a, i, j⟩ := state
  simp only at whole onLeft onRight
  subst whole
  have lengths := congrArg List.length merges
  have place := position
  simp only [List.length_append, List.length_merge] at lengths place
  cases hole with
  | nil =>
    simp only [List.length_nil] at size
    omega
  | cons old hole =>
    simp only [List.length_cons] at size
    rcases merge_cases compareTo (show 0 < restLeft.length + restRight.length by omega) with
      ⟨value, tail, same, next, first⟩ | ⟨value, tail, same, next, first⟩
    · subst same
      rw [next] at merges
      refine ⟨_, mergeStep_left position onLeft onRight first, .takeLeft position ?_ merges onLeft onRight⟩
      simp only [List.length_cons] at size
      omega
    · subst same
      rw [next] at merges
      refine ⟨_, mergeStep_right position onLeft onRight first, .takeRight position ?_ merges onLeft onRight⟩
      simp only [List.length_cons] at size
      omega

/-- `merge` puts the merge of the two neighbouring pieces in their place. -/
theorem merge_eq {arrays : Arrays α} {lo : Int} (whole : arrays.a = front ++ (left ++ right ++ back))
    (first : lo = front.length) (middle : mid = lo + left.length - 1)
    (last : hi = mid + right.length) (size : arrays.temp.length = arrays.a.length) :
    ∃ merged, merge compareTo lo mid hi arrays = .ok merged ∧
      merged.a = front ++ (left.merge right (leftFirst compareTo) ++ back) ∧
      merged.temp.length = merged.a.length := by
  have range : Segment arrays.a lo hi (left ++ right) := by
    refine ⟨front, back, whole, first, ?_⟩
    rw [List.length_append]
    omega
  obtain ⟨temp, copies, length, onTemp⟩ := copy_range range size
  rw [List.map_append] at onTemp
  have onLeft : Segment temp lo mid (left.map some) := by
    have range := onTemp.append_left
    rwa [List.length_map, ← middle] at range
  have onRight : Segment temp (mid + 1) hi (right.map some) := by
    have range := onTemp.append_right
    rwa [List.length_map, show lo + (left.length : Int) = mid + 1 by omega] at range
  have start : Merging compareTo temp front back left right mid hi lo (arrays.a, lo, mid + 1) :=
    ⟨[], left ++ right, left, right, by simpa using whole, by simpa using first, by simp, rfl, onLeft, onRight⟩
  obtain ⟨⟨a, i, j⟩, merges, out, hole, restLeft, restRight, same, stop, filled, equal, _, _⟩ :=
    forUp_ok (Merging compareTo temp front back left right mid hi)
      (fun k state _ upper merging => merging.step upper (by omega)) (by omega) start
  have lengths := congrArg List.length equal
  simp only [List.length_append, List.length_merge] at lengths stop
  have noHole : hole = [] := List.eq_nil_of_length_eq_zero (by omega)
  have noLeft : restLeft = [] := List.eq_nil_of_length_eq_zero (by omega)
  have noRight : restRight = [] := List.eq_nil_of_length_eq_zero (by omega)
  subst noHole noLeft noRight
  have emitted : out = left.merge right (leftFirst compareTo) := by simpa using equal
  subst emitted
  simp only at same
  refine ⟨{ a := a, temp := temp }, ?_, by simpa using same, ?_⟩
  · simp only [merge, copies, ok_bind, merges]
  · rw [length, same, whole]
    simp
    omega

end

/-- What the recursion computes: the split point `lo + 0` takes off one
element at a time. -/
def mergeEach : List α → List α
  | [] => []
  | x :: rest => [x].merge (mergeEach rest) (leftFirst compareTo)

theorem length_mergeEach (piece : List α) : (mergeEach compareTo piece).length = piece.length := by
  induction piece with
  | nil => rfl
  | cons x rest ih =>
    rw [mergeEach, List.length_merge, ih]
    simp [Nat.add_comm]

theorem mid_eq_lo (lo hi : Int) : lo + Int.tdiv 1 2 * (hi - lo) = lo := by
  rw [show Int.tdiv 1 2 = 0 from rfl]
  omega

theorem mergeSortRange_short {arrays : Arrays α} {lo hi : Int} (short : hi ≤ lo) :
    Returns (fun fuel => mergeSortRange compareTo fuel lo hi arrays) arrays :=
  Returns.call (fun fuel => by simp only [mergeSortRange, short, if_true]) (.ok _)

/-- The recursion works on its own range and leaves the rest of the array. -/
theorem mergeSortRange_ensures {front back piece : List α} {arrays : Arrays α} {lo hi : Int}
    (whole : arrays.a = front ++ (piece ++ back)) (first : lo = front.length)
    (last : hi = lo + piece.length - 1) (size : arrays.temp.length = arrays.a.length) :
    Ensures (fun fuel => mergeSortRange compareTo fuel lo hi arrays)
      (fun sorted => sorted.a = front ++ (mergeEach compareTo piece ++ back) ∧
        sorted.temp.length = sorted.a.length) := by
  induction piece generalizing front arrays lo with
  | nil =>
    simp only [List.length_nil] at last
    exact ⟨arrays, mergeSortRange_short compareTo (by omega), whole, size⟩
  | cons x rest ih =>
    cases rest with
    | nil =>
      simp only [List.length_singleton] at last
      exact ⟨arrays, mergeSortRange_short compareTo (by omega), by simpa [mergeEach] using whole, size⟩
    | cons y rest =>
      have sizes := length_mergeEach compareTo (y :: rest)
      simp only [List.length_cons] at last sizes
      have shifted : arrays.a = (front ++ [x]) ++ ((y :: rest) ++ back) := by simpa using whole
      have next : lo + 1 = (front ++ [x]).length := by simp [first]
      have reached : hi = lo + 1 + (y :: rest).length - 1 := by
        simp only [List.length_cons]
        omega
      obtain ⟨sorted, runs, same, length⟩ := ih shifted next reached size
      have halves : sorted.a = front ++ ([x] ++ mergeEach compareTo (y :: rest) ++ back) := by
        simpa using same
      obtain ⟨merged, merges, result, mergedSize⟩ :
          ∃ merged, merge compareTo lo lo hi sorted = .ok merged ∧ _ :=
        merge_eq halves first (by simp) (by omega) length
      refine ⟨merged, ?_, result, mergedSize⟩
      have long : ¬ hi ≤ lo := by omega
      have body : Returns (fun fuel => mergeSortRange compareTo fuel lo lo arrays >>= fun arrays =>
          mergeSortRange compareTo fuel (lo + 1) hi arrays >>= merge compareTo lo lo hi) merged :=
        (mergeSortRange_short compareTo le_rfl).bind (runs.bind (Returns.of_eq fun _ => merges))
      exact Returns.call (fun fuel => by simp only [mergeSortRange, long, if_false, mid_eq_lo]) body

theorem mergeSort_returns (a : List α) :
    Returns (fun fuel => mergeSort compareTo fuel a) (mergeEach compareTo a) := by
  have allocates : newArray (a.length : Int) (none : Option α) = .ok (List.replicate a.length none) := by
    rw [newArray_of_nonneg (by omega), Int.toNat_natCast]
  have whole : (Arrays.mk a (List.replicate a.length none)).a = [] ++ (a ++ []) := by simp
  obtain ⟨sorted, runs, same, _⟩ :=
    mergeSortRange_ensures compareTo whole rfl rfl List.length_replicate
  have result : sorted.a = mergeEach compareTo a := by simpa using same
  simp only [List.length_nil, Int.natCast_zero, Int.zero_add] at runs
  simp only [mergeSort, allocates, ok_bind, ← result]
  exact runs.bind (.ok _)

end BlogAlgorithms.MergeSort
