import BlogAlgorithms.Java.Loop
import BlogAlgorithms.Lib.Strand

namespace BlogAlgorithms.ShellSort
open Java Strand

variable {α : Type} (compareTo : α → α → Int)

/-- The test `k >= 0 && t.compareTo(a[k]) < 0` of the inner loop, on the array
and `k`. -/
def shifts (t : α) (state : List α × Int) : Exec Bool := do
  let (a, k) := state
  if k ≥ 0 then do
    let value ← arrayGet a k
    .ok (compareTo t value < 0)
  else .ok false

/-- The body `a[k + temp] = a[k]` of the inner loop, and its `k -= temp`. -/
def shift (temp : Int) (state : List α × Int) : Exec (List α × Int) := do
  let (a, k) := state
  let a ← arraySet a (k + temp) (← arrayGet a k)
  .ok (a, k - temp)

/-- The body of the loop over `j`. -/
def insertStep (temp : Int) (fuel : Nat) (j : Int) (a : List α) : Exec (List α) := do
  let t ← arrayGet a j
  let (a, k) ← whileLoop (shifts compareTo t) (fun _ => shift temp) fuel (a, j - temp)
  arraySet a (k + temp) t

/-- The loop over `j`, which makes the array sorted at the distance `temp`. -/
def pass (N temp : Int) (fuel : Nat) (a : List α) : Exec (List α) :=
  forUp temp (N - 1) (insertStep compareTo temp fuel) a

section
variable {compareTo} {gap : Nat} {j k : Int} {t : α} {a b f : List α}

/-- The array is in order at the distance `gap` up to the slot `j`. -/
def SortedTo (compareTo : α → α → Int) (gap : Nat) (j : Int) (f : List α) : Prop :=
  ∀ p x y, p + gap ≤ j → slot f p = some x → slot f (p + gap) = some y → compareTo x y ≤ 0

/-- The same apart from the slots `k` and `k + gap`, whose other neighbours are
in order with each other. -/
structure SortedBut (compareTo : α → α → Int) (gap : Nat) (j : Int) (f : List α) (k : Int) : Prop where
  others : ∀ p x y, p + gap ≤ j → p ≠ k → slot f p = some x → slot f (p + gap) = some y →
    compareTo x y ≤ 0
  around : ∀ x y, k + gap + gap ≤ j → slot f k = some x → slot f (k + gap + gap) = some y →
    compareTo x y ≤ 0

theorem SortedBut.swap {u : α} (positive : 0 < gap) (sorted : SortedBut compareTo gap j f k)
    (atK : slot f k = some u) (below : compareTo t u ≤ 0) (upper : k + gap ≤ j)
    (slots : ∀ p, slot b p = if p = k then some t else if p = k + gap then some u else slot f p) :
    SortedBut compareTo gap j b (k - gap) := by
  constructor
  · intro p x y last away atP above
    by_cases isK : p = k
    · rw [slots, if_pos isK] at atP
      rw [slots, if_neg (by omega), if_pos (by omega)] at above
      cases atP
      cases above
      exact below
    · rw [slots, if_neg isK] at atP
      rw [slots, if_neg (by omega), if_neg (by omega)] at above
      by_cases isHole : p = k + gap
      · rw [if_pos isHole] at atP
        cases atP
        subst isHole
        exact sorted.around _ y last atK above
      · rw [if_neg isHole] at atP
        exact sorted.others p x y last isK atP above
  · intro x y last atP above
    rw [slots, if_neg (by omega), if_neg (by omega)] at atP
    rw [slots, if_neg (by omega), if_pos (by omega)] at above
    cases above
    exact sorted.others (k - gap) x _ (by omega) (by omega) atP (by rwa [Int.sub_add_cancel])

/-- The inner loop: the array with the saved element put back into the hole at
`k + gap` keeps its strands all along. -/
structure Inserting (compareTo : α → α → Int) (gap : Nat) (a : List α) (t : α) (j : Int)
    (b : List α) (k : Int) : Prop where
  lower : 0 ≤ k + gap
  upper : k + gap ≤ j
  moved : StrandPerm gap a (store b (k + gap) t)
  sorted : TotalPreorderOn Set.univ compareTo → SortedBut compareTo gap j (store b (k + gap) t) k

theorem strandPerm_store {u : α} (positive : 0 < gap) (atK : slot f k = some u)
    (above : slot f (k + gap) = some t) : StrandPerm gap f (store (store f k t) (k + gap) u) := by
  obtain ⟨nonneg, atK⟩ := slot_eq_some.mp atK
  have position : (k + gap).toNat = k.toNat + gap := by omega
  have above := (slot_eq_some.mp above).2
  rw [position] at above
  unfold store
  rw [position]
  exact strandPerm_swap positive atK above

/-- Moving the element at `k` into the hole exchanges it with the saved one. -/
theorem Inserting.shift {u : α} (positive : 0 < gap) (inside : j < a.length)
    (state : Inserting compareTo gap a t j b k) (atK : slot b k = some u) (less : compareTo t u < 0) :
    Inserting compareTo gap a t j (store b (k + gap) u) (k - gap) := by
  obtain ⟨lower, upper, moved, sorted⟩ := state
  have inK := InBounds.of_slot atK
  have nonneg := inK.1
  have length := moved.perm.length_eq
  rw [length_store] at length
  have inHole : InBounds b (k + gap) := ⟨lower, by omega⟩
  have filledK : slot (store b (k + gap) t) k = some u := by rw [slot_store inHole, if_neg (by omega), atK]
  have filledHole : slot (store b (k + gap) t) (k + gap) = some t := by rw [slot_store inHole, if_pos rfl]
  have slots (p : Int) : slot (store (store b (k + gap) u) k t) p =
      if p = k then some t else if p = k + gap then some u else slot (store b (k + gap) t) p := by
    rw [slot_store (inK.store _ _), slot_store inHole, slot_store inHole]
    split_ifs <;> rfl
  have swapped : store (store b (k + gap) u) k t = store (store (store b (k + gap) t) k t) (k + gap) u := by
    refine slot_ext fun p => ?_
    rw [slots, slot_store ((inHole.store _ _).store _ _), slot_store (inK.store _ _)]
    split_ifs
    · omega
    all_goals rfl
  refine ⟨by omega, by omega, ?_, fun order => ?_⟩
  · rw [Int.sub_add_cancel, swapped]
    exact moved.trans (strandPerm_store positive filledK filledHole)
  · rw [Int.sub_add_cancel]
    exact (sorted order).swap positive filledK less.le upper slots

theorem shifts_of_slot {u : α} (atK : slot b k = some u) :
    shifts compareTo t (b, k) = .ok (decide (compareTo t u < 0)) := by
  have go : k ≥ 0 := (InBounds.of_slot atK).1
  simp only [shifts, go, if_true, arrayGet_of_slot atK, ok_bind]

theorem Inserting.step (positive : 0 < gap) (inside : j < a.length)
    (state : Inserting compareTo gap a t j b k) :
    LoopStep (shifts compareTo t) (fun _ => ShellSort.shift gap)
      (fun (b, k) => Inserting compareTo gap a t j b k) (fun state => (state.2 + gap).toNat) (b, k) := by
  have length := state.moved.perm.length_eq
  rw [length_store] at length
  have lower := state.lower
  have upper := state.upper
  by_cases go : k ≥ 0
  · obtain ⟨u, atK⟩ := inBounds_iff_slot.mp (⟨go, by omega⟩ : InBounds b k)
    refine ⟨⟨_, shifts_of_slot atK⟩, fun running => ensures_const.mpr ?_⟩
    rw [shifts_of_slot atK] at running
    have less : compareTo t u < 0 := of_decide_eq_true (Except.ok.inj running)
    have inHole : InBounds b (k + gap) := ⟨lower, by omega⟩
    refine ⟨(store b (k + gap) u, k - gap), ?_, state.shift positive inside atK less, ?_⟩
    · simp only [ShellSort.shift, arrayGet_of_slot atK, ok_bind, arraySet_of_inBounds inHole]
    · simp only
      omega
  · have stops : shifts compareTo t (b, k) = .ok false := by simp only [shifts, go, if_false]
    refine ⟨⟨false, stops⟩, fun running => ?_⟩
    rw [stops] at running
    cases running

/-- A pass before its insertion of the element at `j`. Only the order needs
the contract of `compareTo`. -/
structure Passing (compareTo : α → α → Int) (gap : Nat) (a : List α) (j : Int) (b : List α) : Prop where
  moved : StrandPerm gap a b
  sorted : TotalPreorderOn Set.univ compareTo → SortedTo compareTo gap (j - 1) b

/-- At first the hole is where the saved element was. -/
theorem Passing.insert (positive : 0 < gap) (state : Passing compareTo gap a j b) (atJ : slot b j = some t) :
    Inserting compareTo gap a t j b (j - gap) := by
  have nonneg := (InBounds.of_slot atJ).1
  have same : store b (j - gap + gap) t = b := by rw [Int.sub_add_cancel, store_self atJ]
  refine ⟨by omega, by omega, by rw [same]; exact state.moved, fun order =>
    ⟨fun p x y last away => ?_, fun x y last => by omega⟩⟩
  rw [same]
  exact state.sorted order p x y (by omega)

/-- Where the shifts stop, the saved element is not smaller than the one
before the hole. -/
theorem Inserting.finish (positive : 0 < gap) (inside : j < a.length) (state : Inserting compareTo gap a t j b k)
    (stopped : shifts compareTo t (b, k) = .ok false) :
    ∃ c, arraySet b (k + gap) t = .ok c ∧ Passing compareTo gap a (j + 1) c := by
  obtain ⟨low, high, moved, sorted⟩ := state
  have length := moved.perm.length_eq
  rw [length_store] at length
  have inHole : InBounds b (k + gap) := ⟨low, by omega⟩
  refine ⟨_, arraySet_of_inBounds inHole t, moved, fun order p x y last atP above => ?_⟩
  rw [Int.add_sub_cancel] at last
  by_cases isK : p = k
  · subst isK
    rw [slot_store inHole, if_neg (by omega)] at atP
    rw [slot_store inHole, if_pos rfl] at above
    cases above
    rw [shifts_of_slot atP] at stopped
    have notLess : ¬ compareTo t x < 0 := of_decide_eq_false (Except.ok.inj stopped)
    have sign := order.neg_iff_univ t x
    omega
  · exact (sorted order).others p x y last isK atP above

theorem Passing.step (positive : 0 < gap) (lower : gap ≤ j) (upper : j ≤ a.length - 1)
    (state : Passing compareTo gap a j b) :
    Ensures (fun fuel => insertStep compareTo gap fuel j b) (Passing compareTo gap a (j + 1)) := by
  have length := state.moved.perm.length_eq
  obtain ⟨t, atJ⟩ := inBounds_iff_slot.mp (⟨by omega, by omega⟩ : InBounds b j)
  have loop : Ensures (fun fuel => whileLoop (shifts compareTo t) (fun _ => ShellSort.shift gap) fuel (b, j - gap))
      (fun final => Inserting compareTo gap a t j final.1 final.2 ∧ shifts compareTo t final = .ok false) :=
    whileLoop_ensures _ (fun state : List α × Int => (state.2 + gap).toNat)
      (fun (_, _) state => state.step positive (by omega)) (state.insert positive atJ)
  simp only [insertStep, arrayGet_of_slot atJ, ok_bind]
  exact loop.bind fun (c, k) ⟨state, stopped⟩ =>
    ensures_const.mpr (Inserting.finish positive (by omega) state stopped)

theorem SortedTo.whole (sorted : SortedTo compareTo gap j b) (last : b.length ≤ j + 1) :
    GapSorted compareTo gap b := by
  intro p x y atP above
  obtain ⟨bound, _⟩ := List.getElem?_eq_some_iff.mp above
  refine sorted p x y (by omega) (by rwa [slot_natCast]) ?_
  rwa [← Int.natCast_add, slot_natCast]

/-- A pass moves elements within the strands of its increment and sorts these. -/
theorem pass_ensures (compareTo : α → α → Int) (positive : 0 < gap) (a : List α) :
    Ensures (fun fuel => pass compareTo a.length gap fuel a) (fun b => StrandPerm gap a b ∧
      (TotalPreorderOn Set.univ compareTo → GapSorted compareTo gap b)) := by
  have start : SortedTo compareTo gap (gap - 1) a := by
    intro p x y last atP
    have nonneg := (InBounds.of_slot atP).1
    omega
  by_cases short : (gap : Int) ≤ a.length
  · have loop : Ensures (fun fuel => pass compareTo a.length gap fuel a)
        (Passing compareTo gap a (a.length - 1 + 1)) :=
      forUp_ensures (Passing compareTo gap a) (fun j b lower upper state => state.step positive lower upper)
        (by omega) ⟨.refl gap a, fun _ => start⟩
    refine loop.mono fun b ⟨moved, sorted⟩ => ⟨moved, fun order => (sorted order).whole ?_⟩
    have length := moved.perm.length_eq
    omega
  · refine ⟨a, Returns.of_eq fun fuel => forUp_empty (by omega), .refl gap a, fun _ => ?_⟩
    exact start.whole (by omega)

end

end BlogAlgorithms.ShellSort
