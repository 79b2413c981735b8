import BlogAlgorithms.Java.Array
import BlogAlgorithms.Java.Comparator
import BlogAlgorithms.Lib.IntInterval

namespace BlogAlgorithms.MergeIntervals
open Java IntInterval

/-- The comparator of the sort, on the rows `[left, right]` of `intervals`. -/
def compare (interval1 interval2 : IntInterval) : Int :=
  if interval1.left ≠ interval2.left then wrap (interval1.left - interval2.left)
  else wrap (interval1.right - interval2.right)

/-- The body of the loop over the sorted intervals. -/
def mergeStep (merged : List IntInterval) (interval : IntInterval) : Exec (List IntInterval) := do
  let left := interval.left
  let right := interval.right
  if merged.length = 0 then .ok (merged ++ [⟨left, right⟩])
  else do
    let last ← listGet merged (merged.length - 1)
    if last.right < left then .ok (merged ++ [⟨left, right⟩])
    else listSet merged (merged.length - 1) ⟨last.left, max last.right right⟩

def merge (arrays : ArraysSort) (intervals : List IntInterval) : Exec (List IntInterval) :=
  (arrays.sort compare intervals).foldlM mergeStep []

/-- The loop after the intervals `taken`: the list of results is the canonical
form of their union, and its ends are ends of theirs. -/
structure Merged (taken merged : List IntInterval) : Prop where
  canonical : Canonical merged
  covers : ∀ point, Covers merged point ↔ Covers taken point
  lefts : merged.map left ⊆ taken.map left
  rights : merged.map right ⊆ taken.map right

theorem merged_nil : Merged [] [] :=
  ⟨⟨by simp, List.Pairwise.nil⟩, fun _ => Iff.rfl, List.Subset.refl _, List.Subset.refl _⟩

theorem map_concat_subset {taken merged : List IntInterval} {f : IntInterval → Int}
    (old : merged.map f ⊆ taken.map f) (interval : IntInterval) :
    (merged ++ [interval]).map f ⊆ (taken ++ [interval]).map f := by
  rw [List.map_append, List.map_append]
  exact List.append_subset.mpr ⟨List.subset_append_of_subset_left _ old, List.subset_append_right _ _⟩

theorem mergeStep_nil (interval : IntInterval) : mergeStep [] interval = .ok [interval] := rfl

theorem mergeStep_concat (front : List IntInterval) (last interval : IntInterval) :
    mergeStep (front ++ [last]) interval =
      .ok (if last.right < interval.left then front ++ [last] ++ [interval]
        else front ++ [⟨last.left, max last.right interval.right⟩]) := by
  have position : ((front ++ [last]).length : Int) - 1 = front.length := by
    rw [List.length_append, List.length_singleton]
    omega
  have some : ¬ (front ++ [last]).length = 0 := by simp
  simp only [mergeStep, some, if_false, position, listGet, readOr_of_slot (slot_append_cons rfl), ok_bind]
  split
  · rfl
  · simp only [listSet, writeOr, inBounds_append_cons rfl, if_true, store_append_cons rfl]

section
variable {taken merged front : List IntInterval} {last interval : IntInterval}

/-- An interval that starts after the last result becomes a result itself. -/
theorem Merged.add (state : Merged taken merged) (valid : interval.left ≤ interval.right)
    (beyond : ∀ x ∈ merged, x.right < interval.left) : Merged (taken ++ [interval]) (merged ++ [interval]) := by
  obtain ⟨canonical, covers, lefts, rights⟩ := state
  refine ⟨⟨fun x member => ?_, ?_⟩, fun point => ?_, map_concat_subset lefts _, map_concat_subset rights _⟩
  · rcases List.mem_append.mp member with inMerged | new
    · exact canonical.nonempty x inMerged
    · exact List.mem_singleton.mp new ▸ valid
  · refine List.pairwise_append.mpr ⟨canonical.separated, List.pairwise_singleton _ _, fun x inMerged y new => ?_⟩
    exact List.mem_singleton.mp new ▸ beyond x inMerged
  · rw [covers_append, covers_append, covers point]

/-- An interval that starts within the last result makes it longer. -/
theorem contains_extend (starts : last.left ≤ interval.left) (touches : interval.left ≤ last.right) (point : ℝ) :
    Contains ⟨last.left, max last.right interval.right⟩ point ↔ last.Contains point ∨ interval.Contains point := by
  have starts : (last.left : ℝ) ≤ interval.left := by exact_mod_cast starts
  have touches : (interval.left : ℝ) ≤ last.right := by exact_mod_cast touches
  unfold Contains
  rw [Int.cast_max, le_max_iff]
  constructor
  · rintro ⟨lower, upper | upper⟩
    · exact Or.inl ⟨lower, upper⟩
    · rcases le_total point last.right with early | late
      · exact Or.inl ⟨lower, early⟩
      · exact Or.inr ⟨touches.trans late, upper⟩
  · rintro (⟨lower, upper⟩ | ⟨lower, upper⟩)
    · exact ⟨lower, Or.inl upper⟩
    · exact ⟨starts.trans lower, Or.inr upper⟩

theorem Merged.extend (state : Merged taken (front ++ [last])) (starts : last.left ≤ interval.left)
    (touches : interval.left ≤ last.right) :
    Merged (taken ++ [interval]) (front ++ [⟨last.left, max last.right interval.right⟩]) := by
  obtain ⟨canonical, covers, lefts, rights⟩ := state
  have atLast : last ∈ front ++ [last] := List.mem_append_right _ List.mem_cons_self
  obtain ⟨onFront, _, across⟩ := List.pairwise_append.mp canonical.separated
  refine ⟨⟨fun x member => ?_, ?_⟩, fun point => ?_, ?_, ?_⟩
  · rcases List.mem_append.mp member with inFront | new
    · exact canonical.nonempty x (List.mem_append_left _ inFront)
    · cases List.mem_singleton.mp new
      exact (canonical.nonempty last atLast).trans (le_max_left _ _)
  · refine List.pairwise_append.mpr ⟨onFront, List.pairwise_singleton _ _, fun x inFront y new => ?_⟩
    cases List.mem_singleton.mp new
    exact across x inFront last List.mem_cons_self
  · rw [covers_append, covers_singleton, contains_extend starts touches, covers_append, ← covers point,
      covers_append, covers_singleton, covers_singleton, or_assoc]
  · rw [List.map_append] at lefts ⊢
    rw [List.map_append]
    exact List.subset_append_of_subset_left _ lefts
  · rw [List.map_append] at rights ⊢
    rw [List.map_append]
    obtain ⟨inFront, atRight⟩ := List.append_subset.mp rights
    refine List.append_subset.mpr ⟨List.subset_append_of_subset_left _ inFront, ?_⟩
    rcases le_total last.right interval.right with longer | shorter
    · rw [max_eq_right longer]
      exact List.subset_append_right _ _
    · rw [max_eq_left shorter]
      exact List.subset_append_of_subset_left _ atRight

theorem Merged.step (state : Merged taken merged) (valid : interval.left ≤ interval.right)
    (sorted : ∀ y ∈ taken, y.left ≤ interval.left) :
    ∃ next, mergeStep merged interval = .ok next ∧ Merged (taken ++ [interval]) next := by
  rcases List.eq_nil_or_concat' merged with rfl | ⟨front, last, rfl⟩
  · exact ⟨_, mergeStep_nil interval, state.add valid (by simp)⟩
  · have atLast : last ∈ front ++ [last] := List.mem_append_right _ List.mem_cons_self
    obtain ⟨y, inTaken, same⟩ := List.mem_map.mp (state.lefts (List.mem_map_of_mem atLast))
    have starts : last.left ≤ interval.left := same ▸ sorted y inTaken
    refine ⟨_, mergeStep_concat front last interval, ?_⟩
    split
    · rename_i beyond
      refine state.add valid fun x member => ?_
      rcases List.mem_append.mp member with inFront | new
      · have before := (List.pairwise_append.mp state.canonical.separated).2.2 x inFront last List.mem_cons_self
        have ends := state.canonical.nonempty last atLast
        omega
      · exact List.mem_singleton.mp new ▸ beyond
    · rename_i within
      exact state.extend starts (Int.not_lt.mp within)

theorem mergeStep_run {rest : List IntInterval} (state : Merged taken merged)
    (valid : ∀ x ∈ rest, x.left ≤ x.right) (sorted : (taken ++ rest).Pairwise (fun x y => x.left ≤ y.left)) :
    ∃ result, rest.foldlM mergeStep merged = .ok result ∧ Merged (taken ++ rest) result := by
  induction rest generalizing taken merged with
  | nil => exact ⟨merged, rfl, by rwa [List.append_nil]⟩
  | cons interval rest ih =>
    have before := (List.pairwise_append.mp sorted).2.2
    obtain ⟨next, runs, state⟩ := state.step (valid interval List.mem_cons_self)
      fun y inTaken => before y inTaken interval List.mem_cons_self
    rw [← List.singleton_append, ← List.append_assoc] at sorted ⊢
    obtain ⟨result, rest, merged⟩ := ih state (fun x member => valid x (List.mem_cons_of_mem _ member)) sorted
    exact ⟨result, by rw [List.singleton_append, List.foldlM_cons, runs, ok_bind, rest], merged⟩

end

/-- The differences that the comparator takes are ints. -/
def IntEnds (intervals : List IntInterval) : Prop :=
  ∀ x ∈ intervals, ∀ y ∈ intervals, IsInt (x.left - y.left) ∧ IsInt (x.right - y.right)

section
variable {intervals : List IntInterval} (ends : IntEnds intervals)
include ends

theorem compare_eq {x y : IntInterval} (inX : x ∈ intervals) (inY : y ∈ intervals) :
    compare x y = if x.left ≠ y.left then x.left - y.left else x.right - y.right := by
  obtain ⟨lefts, rights⟩ := ends x inX y inY
  rw [compare, wrap_of_isInt lefts, wrap_of_isInt rights]

theorem compare_order : TotalPreorderOn {x | x ∈ intervals} compare :=
  totalPreorderOn_of_keys IntInterval.left IntInterval.right fun _ inX _ inY => compare_eq ends inX inY

theorem merge_ensures (arrays : ArraysSort) (valid : ∀ x ∈ intervals, x.left ≤ x.right) :
    ∃ merged, merge arrays intervals = .ok merged ∧ Merged intervals merged := by
  have perm := arrays.perm (compare_order ends)
  have sorted : (arrays.sort compare intervals).Pairwise (fun x y => x.left ≤ y.left) := by
    refine List.Pairwise.imp_of_mem (fun {x y} inX inY below => ?_) (arrays.sorted (compare_order ends))
    rw [compare_eq ends (perm.mem_iff.mp inX) (perm.mem_iff.mp inY)] at below
    split at below <;> omega
  obtain ⟨merged, runs, canonical, covers, lefts, rights⟩ :=
    mergeStep_run merged_nil (fun x member => valid x (perm.mem_iff.mp member)) sorted
  exact ⟨merged, runs, canonical, fun point => (covers point).trans (covers_perm perm point),
    List.Subset.trans lefts (perm.map left).subset, List.Subset.trans rights (perm.map right).subset⟩

end

theorem intEnds_merged {intervals merged : List IntInterval} (ends : IntEnds intervals)
    (state : Merged intervals merged) : IntEnds merged := by
  intro x inX y inY
  obtain ⟨_, inXLeft, sameXLeft⟩ := List.mem_map.mp (state.lefts (List.mem_map_of_mem inX))
  obtain ⟨_, inYLeft, sameYLeft⟩ := List.mem_map.mp (state.lefts (List.mem_map_of_mem inY))
  obtain ⟨_, inXRight, sameXRight⟩ := List.mem_map.mp (state.rights (List.mem_map_of_mem inX))
  obtain ⟨_, inYRight, sameYRight⟩ := List.mem_map.mp (state.rights (List.mem_map_of_mem inY))
  rw [← sameXLeft, ← sameYLeft, ← sameXRight, ← sameYRight]
  exact ⟨(ends _ inXLeft _ inYLeft).1, (ends _ inXRight _ inYRight).2⟩

/-- The result is the canonical form of the union of the input, which depends
on neither the order of the input nor on how the union is given. -/
theorem merge_canonical (arrays : ArraysSort) (intervals : List IntInterval)
    (valid : ∀ x ∈ intervals, x.left ≤ x.right) (ends : IntEnds intervals) :
    ∃ merged, merge arrays intervals = .ok merged ∧
      (∀ point : ℝ, Covers merged point ↔ Covers intervals point) ∧
      (∀ x ∈ merged, x.left ≤ x.right) ∧ merged.Pairwise (fun x y => x.right < y.left) ∧
      (∀ shuffled : List IntInterval, shuffled.Perm intervals → merge arrays shuffled = .ok merged) ∧
      merge arrays merged = .ok merged := by
  obtain ⟨merged, runs, state⟩ := merge_ensures ends arrays valid
  refine ⟨merged, runs, state.covers, state.canonical.nonempty, state.canonical.separated,
    fun shuffled perm => ?_, ?_⟩
  · have shuffledEnds : IntEnds shuffled :=
      fun x inX y inY => ends x (perm.mem_iff.mp inX) y (perm.mem_iff.mp inY)
    obtain ⟨other, runs, found⟩ :=
      merge_ensures shuffledEnds arrays fun x member => valid x (perm.mem_iff.mp member)
    have same : other = merged := found.canonical.unique state.canonical fun point =>
      (found.covers point).trans ((covers_perm perm point).trans (state.covers point).symm)
    rw [runs, same]
  · obtain ⟨again, runs, found⟩ := merge_ensures (intEnds_merged ends state) arrays state.canonical.nonempty
    rw [runs, found.canonical.unique state.canonical found.covers]

theorem merge_canonical_nested :
    ∃ merged, merge ArraysSort.merging [⟨8, 9⟩, ⟨1, 6⟩, ⟨2, 3⟩] = .ok merged ∧
      (∀ point : ℝ, Covers merged point ↔ Covers [⟨8, 9⟩, ⟨1, 6⟩, ⟨2, 3⟩] point) ∧
      (∀ x ∈ merged, x.left ≤ x.right) ∧ merged.Pairwise (fun x y => x.right < y.left) ∧
      (∀ shuffled : List IntInterval, shuffled.Perm [⟨8, 9⟩, ⟨1, 6⟩, ⟨2, 3⟩] →
        merge ArraysSort.merging shuffled = .ok merged) ∧
      merge ArraysSort.merging merged = .ok merged :=
  merge_canonical ArraysSort.merging [⟨8, 9⟩, ⟨1, 6⟩, ⟨2, 3⟩] (by decide) (by unfold IntEnds; decide)

end BlogAlgorithms.MergeIntervals
