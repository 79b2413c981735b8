import BlogAlgorithms.Sort.MergeSort
import Mathlib.Data.Nat.Log

namespace BlogAlgorithms.MergeSort
open Java

/-- A call of the private `mergeSort(a, lo, hi)` and the calls nested in it. -/
inductive CallTree
  | leaf (lo hi : Int)
  | split (lo hi : Int) (left right : CallTree)

namespace CallTree

/-- The length of the range of a call. -/
def length : CallTree → Int
  | leaf lo hi => hi - lo + 1
  | split lo hi _ _ => hi - lo + 1

def depth : CallTree → Nat
  | leaf _ _ => 0
  | split _ _ left right => max left.depth right.depth + 1

/-- Every call that recurses does so on ranges that differ in length by at
most one. -/
def Balanced : CallTree → Prop
  | leaf _ _ => True
  | split _ _ left right =>
    (left.length ≤ right.length + 1 ∧ right.length ≤ left.length + 1) ∧ left.Balanced ∧ right.Balanced

/-- The calls that take one element off the range each time. -/
def comb (lo hi : Int) : Nat → CallTree
  | 0 => leaf lo hi
  | count + 1 => split lo hi (leaf lo lo) (comb (lo + 1) hi count)

@[simp] theorem length_comb (lo hi : Int) (count : Nat) : (comb lo hi count).length = hi - lo + 1 := by
  cases count <;> rfl

theorem depth_comb (lo hi : Int) (count : Nat) : (comb lo hi count).depth = count := by
  induction count generalizing lo with
  | zero => rfl
  | succ count ih => simp only [comb, depth, ih, Nat.zero_max]

theorem balanced_comb {lo hi : Int} {count : Nat} (range : count = 0 ∨ hi = lo + count) :
    (comb lo hi count).Balanced ↔ count ≤ 2 := by
  induction count generalizing lo with
  | zero => simp [comb, Balanced]
  | succ count ih =>
    have inner := ih (show count = 0 ∨ hi = lo + 1 + count by omega)
    have single : (leaf lo lo).length = 1 := by simp only [length]; omega
    simp only [comb, Balanced, inner, single, length_comb, true_and]
    omega

end CallTree

section
variable {α : Type} (compareTo : α → α → Int)

/-- The private `mergeSort` that also returns the tree of its calls. -/
def mergeSortCalls : Nat → Int → Int → Arrays α → Exec (Arrays α × CallTree)
  | 0, _, _, _ => .error .outOfFuel
  | fuel + 1, lo, hi, arrays =>
    if hi ≤ lo then .ok (arrays, .leaf lo hi)
    else do
      let mid := lo + Int.tdiv 1 2 * (hi - lo)
      let left ← mergeSortCalls fuel lo mid arrays
      let right ← mergeSortCalls fuel (mid + 1) hi left.1
      let arrays ← merge compareTo lo mid hi right.1
      .ok (arrays, .split lo hi left.2 right.2)

/-- Watching the calls changes nothing, and `1 / 2` makes them a comb. -/
theorem mergeSortCalls_eq (fuel : Nat) (lo hi : Int) (arrays : Arrays α) :
    mergeSortCalls compareTo fuel lo hi arrays = (mergeSortRange compareTo fuel lo hi arrays >>= fun sorted =>
      .ok (sorted, CallTree.comb lo hi (hi - lo).toNat)) := by
  induction fuel generalizing lo hi arrays with
  | zero => rfl
  | succ fuel ih =>
    by_cases short : hi ≤ lo
    · have none : (hi - lo).toNat = 0 := by omega
      simp only [mergeSortCalls, mergeSortRange, short, if_true, ok_bind, none, CallTree.comb]
    · obtain ⟨count, size⟩ : ∃ count, (hi - lo).toNat = count + 1 := ⟨(hi - lo - 1).toNat, by omega⟩
      have rest : (hi - (lo + 1)).toNat = count := by omega
      simp only [mergeSortCalls, mergeSortRange, short, if_false, mid_eq_lo, ih, bind_assoc, ok_bind, Int.sub_self,
        Int.toNat_zero, size, rest, CallTree.comb]

def mergeSortWatched (fuel : Nat) (a : List α) : Exec (List α × CallTree) := do
  let temp ← newArray a.length none
  let sorted ← mergeSortCalls compareTo fuel 0 (a.length - 1) { a := a, temp := temp }
  .ok (sorted.1.a, sorted.2)

theorem mergeSortWatched_eq (fuel : Nat) (a : List α) :
    mergeSortWatched compareTo fuel a = (mergeSort compareTo fuel a >>= fun sorted =>
      .ok (sorted, CallTree.comb 0 (a.length - 1) (a.length - 1))) := by
  have count : ((a.length : Int) - 1 - 0).toNat = a.length - 1 := by omega
  simp only [mergeSortWatched, mergeSort, mergeSortCalls_eq, bind_assoc, ok_bind, count]

theorem mergeSortWatched_returns (a : List α) :
    Returns (fun fuel => mergeSortWatched compareTo fuel a)
      (mergeEach compareTo a, CallTree.comb 0 (a.length - 1) (a.length - 1)) := by
  apply Returns.congr fun fuel => mergeSortWatched_eq compareTo fuel a
  exact (mergeSort_returns compareTo a).bind (.ok _)

end

theorem depth_le_clog_of_short {n : Nat} (short : n ≤ 3) : n - 1 ≤ Nat.clog 2 n := by
  by_cases single : n ≤ 1
  · omega
  · have base : n - 2 < Nat.clog 2 n := by
      rw [Nat.lt_clog_iff_pow_lt (by decide)]
      obtain rfl | rfl : n = 2 ∨ n = 3 := by omega
      · decide
      · decide
    omega

theorem mergeSort_balanced_iff {α : Type} (compareTo : α → α → Int) (a : List α) :
    ∃ sorted calls, Returns (fun fuel => mergeSort compareTo fuel a) sorted ∧
      Returns (fun fuel => mergeSortWatched compareTo fuel a) (sorted, calls) ∧
      ((calls.Balanced ∧ calls.depth ≤ Nat.clog 2 a.length) ↔ a.length ≤ 3) := by
  refine ⟨_, _, mergeSort_returns compareTo a, mergeSortWatched_returns compareTo a, ?_⟩
  rw [CallTree.balanced_comb (by omega), CallTree.depth_comb]
  constructor
  · rintro ⟨balanced, _⟩
    omega
  · intro short
    exact ⟨by omega, depth_le_clog_of_short short⟩

theorem mergeSort_unbalanced_four :
    ∃ sorted calls,
      Returns (fun fuel => mergeSortWatched (fun x y : Int => x - y) fuel [4, 3, 2, 1]) (sorted, calls) ∧
      ¬ calls.Balanced ∧ calls.depth = 3 ∧ Nat.clog 2 4 = 2 := by
  refine ⟨_, _, mergeSortWatched_returns _ _, ?_, CallTree.depth_comb _ _ _, ?_⟩
  · rw [CallTree.balanced_comb (by decide)]
    decide
  · exact Nat.clog_pow 2 2 (by decide)

end BlogAlgorithms.MergeSort
