import BlogAlgorithms.Sort.HeapIndices
import BlogAlgorithms.Sort.InsertSort
import BlogAlgorithms.Sort.MergeSort
import BlogAlgorithms.Sort.QuickSort

namespace BlogAlgorithms
open Java

variable {α : Type} {compareTo : α → α → Int}

namespace QuickSort

section
variable {original a b : List α} {temp : α} {lo hi i j k m : Int}

/-- Whatever the comparison, the recursion stays inside its range. -/
theorem quickSortRange_confined (lower : 0 ≤ lo) (bound : hi < a.length) :
    Confined (fun fuel => quickSortRange compareTo fuel a lo hi) (Rearranges lo hi a) := by
  induction size : (hi - lo).toNat using Nat.strong_induction_on generalizing a lo hi with
  | _ length ih =>
    by_cases short : hi ≤ lo
    · exact Confined.call rfl (fun fuel => by rw [quickSortRange, if_pos short])
        (.of_eq (fun _ => rfl) (.refl lo hi a))
    · refine Confined.call rfl (fun fuel => by rw [quickSortRange, if_neg short]) ?_
      refine (partition_confined lower (by omega) bound).bind fun result split => ?_
      obtain ⟨b, j⟩ := result
      obtain ⟨moved, inside⟩ : Rearranges lo hi a b ∧ lo ≤ j ∧ j ≤ hi := split
      have lengthB := moved.perm.length_eq
      refine (ih (j - 1 - lo).toNat (by omega) lower (by omega) rfl).bind fun c movedLeft => ?_
      have lengthC := movedLeft.perm.length_eq
      refine (ih (hi - (j + 1)).toNat (by omega) (by omega) (by omega) rfl).mono fun d movedRight => ?_
      exact moved.trans ((movedLeft.widen le_rfl (by omega)).trans (movedRight.widen (by omega) le_rfl))

/-- Two elements that clash with the pivot are still to be swept. -/
def Stuck (compareTo : α → α → Int) (temp : α) (a : List α) (i j : Int) : Prop :=
  ∃ p q x y, i ≤ p ∧ p < q ∧ q ≤ j ∧ slot a p = some x ∧ slot a q = some y ∧
    Clash compareTo x temp ∧ Clash compareTo y temp

/-- The scans stop at the two or before them. -/
theorem Stuck.apart (stuck : Stuck compareTo temp a i j) (stopsK : StopsRight compareTo a temp hi i k)
    (stopsM : StopsLeft compareTo a temp lo j m) : Stuck compareTo temp a k m := by
  obtain ⟨p, q, x, y, first, between, last, atP, atQ, clashX, clashY⟩ := stuck
  obtain ⟨_, _, passedK, _⟩ := stopsK
  obtain ⟨_, _, passedM, _⟩ := stopsM
  refine ⟨p, q, x, y, ?_, between, ?_, atP, atQ, clashX, clashY⟩
  · by_contra passed
    have small := passedK p x first (by omega) atP
    exact absurd clashX.1 (by omega)
  · by_contra passed
    have large := passedM q y (by omega) last atQ
    exact absurd clashY.2 (by omega)

theorem Stuck.lt (stuck : Stuck compareTo temp a k m) : k < m := by
  obtain ⟨p, q, x, y, first, between, last, _⟩ := stuck
  omega

/-- An exchange of the ends keeps two such elements between them. -/
theorem Stuck.next (stuck : Stuck compareTo temp a k m) (exchanged : Exchanged a k m b) :
    Stuck compareTo temp b k m := by
  have apart := stuck.lt
  obtain ⟨p, q, x, y, first, between, last, atP, atQ, clashX, clashY⟩ := stuck
  obtain ⟨u, v, atK, atM, _, slots⟩ := exchanged
  have nextK : slot b k = some v := by rw [slots, if_neg (by omega), if_pos rfl]
  have nextM : slot b m = some u := by rw [slots, if_pos rfl]
  have kept (n : Int) (notK : n ≠ k) (notM : n ≠ m) : slot b n = slot a n := by
    rw [slots, if_neg notM, if_neg notK]
  by_cases atStart : p = k
  · subst atStart
    cases Option.some.inj (atK.symm.trans atP)
    by_cases atEnd : q = m
    · subst atEnd
      cases Option.some.inj (atM.symm.trans atQ)
      exact ⟨p, q, y, x, le_rfl, apart, le_rfl, nextK, nextM, clashY, clashX⟩
    · have nextQ := (kept q (by omega) atEnd).trans atQ
      exact ⟨q, m, y, x, first.trans between.le, by omega, le_rfl, nextQ, nextM, clashY, clashX⟩
  · have nextP := (kept p atStart (by omega)).trans atP
    by_cases atEnd : q = m
    · subst atEnd
      cases Option.some.inj (atM.symm.trans atQ)
      exact ⟨k, p, y, x, le_rfl, by omega, between.le, nextK, nextP, clashY, clashX⟩
    · have nextQ := (kept q (by omega) atEnd).trans atQ
      exact ⟨p, q, x, y, first, between, last, nextP, nextQ, clashX, clashY⟩

theorem partitionLoop_diverges (lower : 0 ≤ lo) (bound : hi < original.length)
    (running : Partitioning compareTo original temp lo hi a i j) (stuck : Stuck compareTo temp a i j) :
    Diverges (fun fuel => loopForever (partitionStep compareTo temp lo hi) fuel (a, i, j)) := by
  have loop : Confined (fun fuel => loopForever (partitionStep compareTo temp lo hi) fuel (a, i, j))
      (fun _ => False) := by
    apply loopForever_confined
      (fun state => Partitioning compareTo original temp lo hi state.1 state.2.1 state.2.2 ∧
        Stuck compareTo temp state.1 state.2.1 state.2.2) _ _ ⟨running, stuck⟩
    rintro ⟨a, i, j⟩ ⟨running, stuck⟩
    have length : a.length = original.length := running.moved.perm.length_eq
    apply (partitionStep_confined lower running.left running.right (by omega)).mono
    intro flow turns
    cases flow with
    | next state =>
      obtain ⟨exchanged, apart, stopsK, stopsM⟩ := turns
      exact ⟨running.next exchanged apart stopsK stopsM, (stuck.apart stopsK stopsM).next exchanged⟩
    | stop state =>
      obtain ⟨_, met, stopsK, stopsM⟩ := turns
      exact absurd (stuck.apart stopsK stopsM).lt (by omega)
  exact loop.diverges fun _ => id

theorem partition_diverges (lower : 0 ≤ lo) (ordered : lo < hi) (bound : hi < a.length)
    (atLo : slot a lo = some temp) (stuck : Stuck compareTo temp a (lo + 1) hi) :
    Diverges (fun fuel => partition compareTo fuel a lo hi) := by
  simp only [partition, arrayGet_of_slot atLo, ok_bind]
  exact (partitionLoop_diverges lower bound (partitioning_start ordered atLo) stuck).bind _

end

/-- With the clashing element first, the sort never ends. -/
theorem quickSort_diverges {p x y : α} {rest : List α} (clashX : Clash compareTo x p)
    (clashY : Clash compareTo y p) : Diverges (fun fuel => quickSort compareTo fuel (p :: x :: y :: rest)) := by
  have size : (p :: x :: y :: rest).length = rest.length + 3 := rfl
  have stuck : Stuck compareTo p (p :: x :: y :: rest) (0 + 1) ((p :: x :: y :: rest).length - 1) :=
    ⟨1, 2, x, y, le_rfl, by decide, by omega, rfl, rfl, clashX, clashY⟩
  have forever := partition_diverges le_rfl (by omega) (by omega) (show slot _ 0 = some p from rfl) stuck
  have long : ¬ ((p :: x :: y :: rest).length - 1 : Int) ≤ 0 := by omega
  intro fuel
  cases fuel with
  | zero => rfl
  | succ fuel =>
    have spent : partition compareTo fuel (p :: x :: y :: rest) 0 ((p :: x :: y :: rest).length - 1) =
      .error .outOfFuel := forever fuel
    simp only [quickSort, quickSortRange, if_neg long, spent, error_bind]

theorem quickSort_confined (compareTo : α → α → Int) (a : List α) :
    Confined (fun fuel => quickSort compareTo fuel a) (fun b => b.Perm a) :=
  (quickSortRange_confined le_rfl (by omega)).mono fun _ moved => moved.perm

theorem quickSort_permutes {a : List α} (calm : ¬ Clashing compareTo a) :
    Ensures (fun fuel => quickSort compareTo fuel a) (fun b => b.Perm a) :=
  (quickSortRange_ensures le_rfl (by omega) calm).mono fun _ sorted => sorted.1.perm

/-- The sort ends on every arrangement of the elements exactly where no
element clashes with two others. -/
theorem quickSort_permutes_iff (compareTo : α → α → Int) (a : List α) :
    (∀ b, b.Perm a → Ensures (fun fuel => quickSort compareTo fuel b) (fun c => c.Perm b)) ↔
      ¬ Clashing compareTo a := by
  constructor
  · rintro ends ⟨p, x, y, rest, perm, clashX, clashY⟩
    exact (quickSort_diverges clashX clashY).not_ensures (ends _ perm)
  · intro calm b perm
    exact quickSort_permutes fun clashing => calm (clashing.of_perm perm)

end QuickSort

theorem MergeSort.mergeEach_perm (compareTo : α → α → Int) (a : List α) :
    (MergeSort.mergeEach compareTo a).Perm a := by
  induction a with
  | nil => exact .refl []
  | cons x rest ih => exact (List.merge_perm_append _).trans (ih.cons x)

/-- Without any law of the comparison the merge and insertion sorts end in a
permutation, the heap sort does where its indices fit, and the quick sort never
leaves the array or loses an element, but ends only where no element clashes
with two others. -/
theorem sorts_permute (compareTo : α → α → Int) (a : List α) :
    (a.length < 2 ^ 30 →
      Ensures (fun fuel => HeapSort.heapSortBy compareTo wrapping fuel a) (fun b => b.Perm a)) ∧
      Ensures (fun fuel => MergeSort.mergeSort compareTo fuel a) (fun b => b.Perm a) ∧
      Ensures (fun fuel => InsertSort.insertSort compareTo fuel a) (fun b => b.Perm a) ∧
      Confined (fun fuel => QuickSort.quickSort compareTo fuel a) (fun b => b.Perm a) ∧
      ((∀ b, b.Perm a → Ensures (fun fuel => QuickSort.quickSort compareTo fuel b) (fun c => c.Perm b)) ↔
        ¬ QuickSort.Clashing compareTo a) := by
  refine ⟨fun small => ?_, ?_, ?_, QuickSort.quickSort_confined compareTo a,
    QuickSort.quickSort_permutes_iff compareTo a⟩
  · exact (HeapSort.indicesFit_of_small small).ensures.mono fun _ sorted => sorted.1
  · exact ⟨_, MergeSort.mergeSort_returns compareTo a, MergeSort.mergeEach_perm compareTo a⟩
  · exact (InsertSort.insertSort_ensures compareTo a).mono fun _ built => built.perm compareTo

theorem sorts_permute_three :
    Ensures (fun fuel => HeapSort.heapSortBy (fun _ _ => 1) wrapping fuel ([1, 2, 3] : List Int))
      (fun b => b.Perm [1, 2, 3]) :=
  (sorts_permute (fun _ _ => 1) [1, 2, 3]).1 (by decide)

/-- A comparison that finds every element greater than every other keeps the
partition of three elements exchanging the same two. -/
theorem quickSort_not_permutes :
    ¬ Ensures (fun fuel => QuickSort.quickSort (fun _ _ => 1) fuel ([1, 2, 3] : List Int))
      (fun b => b.Perm [1, 2, 3]) :=
  (QuickSort.quickSort_diverges ⟨Int.one_pos, Int.one_pos⟩ ⟨Int.one_pos, Int.one_pos⟩).not_ensures

end BlogAlgorithms
