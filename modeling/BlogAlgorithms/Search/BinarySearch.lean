import BlogAlgorithms.Java.Array
import BlogAlgorithms.Java.Comparator
import BlogAlgorithms.Java.Reach

namespace BlogAlgorithms.BinarySearch
open Java

/-- The variables of the loop. A `return` inside it sets `found`. -/
structure Bounds where
  lo : Int
  hi : Int
  found : Option Int := none

def searching (state : Bounds) : Exec Bool := .ok (decide (state.found = none ∧ state.lo ≤ state.hi))

def middle (state : Bounds) : Int := wrap (state.lo + Int.tdiv (wrap (state.hi - state.lo)) 2)

def probe (key : Int) (a : List Int) (state : Bounds) : Exec Bounds := do
  let mid := middle state
  let here ← arrayGet a mid
  if key < here then .ok { state with hi := wrap (mid - 1) }
  else if key > here then .ok { state with lo := wrap (mid + 1) }
  else .ok { state with found := some mid }

def start (a : List Int) : Bounds := { lo := 0, hi := wrap (a.length - 1) }

def rank (fuel : Nat) (key : Int) (a : List Int) : Exec Int := do
  let final ← whileLoop searching (fun _ => probe key a) fuel (start a)
  .ok (final.found.getD (-1))

theorem searching_iff {state : Bounds} :
    searching state = .ok true ↔ state.found = none ∧ state.lo ≤ state.hi := by
  simp only [searching, Except.ok.injEq, decide_eq_true_eq]

/-- The exact values of `lo`, `hi` and `mid`, and of what the loop computes
for them, are all of type `int`. -/
structure NoOverflow (state : Bounds) : Prop where
  lo : IsInt state.lo
  hi : IsInt state.hi
  difference : state.lo ≤ state.hi → IsInt (state.hi - state.lo)
  mid : state.lo ≤ state.hi → IsInt (state.lo + Int.tdiv (state.hi - state.lo) 2)
  below : state.lo ≤ state.hi → IsInt (state.lo + Int.tdiv (state.hi - state.lo) 2 - 1)
  above : state.lo ≤ state.hi → IsInt (state.lo + Int.tdiv (state.hi - state.lo) 2 + 1)

structure Probing (key : Int) (a : List Int) (state : Bounds) : Prop where
  lower : 0 ≤ state.lo
  upper : state.hi < a.length
  ordered : state.lo ≤ state.hi + 1
  sound : ∀ mid ∈ state.found, slot a mid = some key
  between : a.Pairwise (· ≤ ·) → ∀ i, slot a i = some key → state.lo ≤ i ∧ i ≤ state.hi

def width (state : Bounds) : Nat := if state.found = none then (state.hi + 2 - state.lo).toNat else 0

/-- In a sorted array the key is on one side of an element that differs from it. -/
theorem side_of_sorted {a : List Int} (sorted : a.Pairwise (· ≤ ·)) {key here mid i : Int}
    (atMid : slot a mid = some here) (atI : slot a i = some key) :
    (key < here → i < mid) ∧ (here < key → mid < i) := by
  have same : i = mid → key = here := by
    rintro rfl
    exact Option.some.inj (atI.symm.trans atMid)
  have before : mid < i → here ≤ key := slot_rel sorted atMid atI
  have after : i < mid → key ≤ here := slot_rel sorted atI atMid
  omega

theorem halfway {lo hi : Int} (ordered : lo ≤ hi) :
    lo ≤ lo + Int.tdiv (hi - lo) 2 ∧ lo + Int.tdiv (hi - lo) 2 ≤ hi := by
  rw [Int.tdiv_eq_ediv_of_nonneg (by omega)]
  omega

section Probe

variable {key : Int} {a : List Int} {state : Bounds}

theorem Probing.noOverflow (probing : Probing key a state) (fits : a.length ≤ 2 ^ 31 - 1) : NoOverflow state := by
  obtain ⟨lower, upper, ordered, -, -⟩ := probing
  have inside : state.lo ≤ state.hi → _ := halfway
  constructor <;> unfold IsInt <;> omega

theorem NoOverflow.middle_eq (exact : NoOverflow state) (running : state.lo ≤ state.hi) :
    middle state = state.lo + Int.tdiv (state.hi - state.lo) 2 := by
  unfold middle
  rw [wrap_of_isInt (exact.difference running), wrap_of_isInt (exact.mid running)]

theorem Probing.probe (probing : Probing key a state) (fits : a.length ≤ 2 ^ 31 - 1)
    (running : searching state = .ok true) :
    ∃ next, BinarySearch.probe key a state = .ok next ∧ Probing key a next ∧ width next < width state := by
  obtain ⟨unfound, nonempty⟩ := searching_iff.mp running
  have exact := probing.noOverflow fits
  have middle := exact.middle_eq nonempty
  have above := wrap_of_isInt (exact.above nonempty)
  have below := wrap_of_isInt (exact.below nonempty)
  obtain ⟨atLeast, atMost⟩ := halfway nonempty
  obtain ⟨lower, upper, ordered, sound, between⟩ := probing
  rw [← middle] at above below atLeast atMost
  obtain ⟨here, atMid⟩ := inBounds_iff_slot.mp (⟨by omega, by omega⟩ : InBounds a (BinarySearch.middle state))
  simp only [BinarySearch.probe, arrayGet_of_slot atMid, ok_bind, above, below]
  split
  · rename_i smaller
    refine ⟨_, rfl, ⟨lower, by simp only; omega, by simp only; omega, sound, fun sorted i atI => ?_⟩, ?_⟩
    · have side := (side_of_sorted sorted atMid atI).1 smaller
      have old := between sorted i atI
      simp only
      omega
    · simp only [width, unfound, if_true]
      omega
  split
  · rename_i larger
    refine ⟨_, rfl, ⟨by simp only; omega, upper, by simp only; omega, sound, fun sorted i atI => ?_⟩, ?_⟩
    · have side := (side_of_sorted sorted atMid atI).2 larger
      have old := between sorted i atI
      simp only
      omega
    · simp only [width, unfound, if_true]
      omega
  · have equal : key = here := by omega
    subst equal
    refine ⟨_, rfl, ⟨lower, upper, ordered, ?_, between⟩, ?_⟩
    · rintro mid ⟨⟩
      exact atMid
    · simp only [width, unfound, if_true, reduceCtorEq, if_false]
      omega

end Probe

theorem probing_start {key : Int} {a : List Int} (fits : a.length ≤ 2 ^ 31 - 1) : Probing key a (start a) := by
  have exact : wrap (a.length - 1) = a.length - 1 := wrap_of_isInt ⟨by omega, by omega⟩
  refine ⟨le_rfl, by simp only [start, exact]; omega, by simp only [start, exact]; omega, by simp [start], ?_⟩
  intro _ i atI
  have inside := InBounds.of_slot atI
  simp only [start, exact]
  exact ⟨inside.1, by have := inside.2; omega⟩

theorem reached_probing {key : Int} {a : List Int} (fits : a.length ≤ 2 ^ 31 - 1) {state : Bounds}
    (reached : Reached searching (fun _ => probe key a) (start a) state) : Probing key a state := by
  apply reached.keeps (Probing key a) (probing_start fits)
  intro state later probing running returns
  obtain ⟨next, step, kept, _⟩ := probing.probe fits running
  rwa [returns.unique (returns_const.mpr step)]

theorem rank_spec (key : Int) (a : List Int) (fits : a.length ≤ 2 ^ 31 - 1) :
    (∀ state, Reached searching (fun _ => probe key a) (start a) state → NoOverflow state) ∧
      ∃ m, Returns (fun fuel => rank fuel key a) m ∧ (m = -1 ∨ 0 ≤ m) ∧ (0 ≤ m → slot a m = some key) ∧
        (a.Pairwise (· ≤ ·) → (m = -1 ↔ key ∉ a)) := by
  refine ⟨fun state reached => (reached_probing fits reached).noOverflow fits, ?_⟩
  have loop : Ensures (fun fuel => whileLoop searching (fun _ => probe key a) fuel (start a))
      (fun final => Probing key a final ∧ searching final = .ok false) := by
    apply whileLoop_ensures (Probing key a) width
    · intro state probing
      exact ⟨⟨_, rfl⟩, fun running => ensures_const.mpr (probing.probe fits running)⟩
    · exact probing_start fits
  obtain ⟨final, returns, probing, ended⟩ := loop
  refine ⟨_, returns.bind (.ok (final.found.getD (-1))), ?_⟩
  cases result : final.found with
  | some mid =>
    have found := probing.sound mid result
    obtain ⟨lower, _⟩ := InBounds.of_slot found
    have member : key ∈ a := mem_iff_slot.mpr ⟨mid, found⟩
    rw [Option.getD_some]
    exact ⟨Or.inr lower, fun _ => found, fun _ => iff_of_false (by omega) (not_not_intro member)⟩
  | none =>
    have empty : final.hi < final.lo := by simpa [searching, result] using ended
    rw [Option.getD_none]
    refine ⟨Or.inl rfl, fun negative => by omega, fun sorted => iff_of_true rfl ?_⟩
    intro member
    obtain ⟨i, atI⟩ := mem_iff_slot.mp member
    have between := probing.between sorted i atI
    omega

theorem rank_spec_main :
    ∃ m, Returns (fun fuel => rank fuel 456 [123, 147, 258, 369, 456, 789]) m ∧
      slot [123, 147, 258, 369, 456, 789] m = some (456 : Int) := by
  obtain ⟨_, m, returns, sign, sound, complete⟩ :=
    rank_spec 456 [123, 147, 258, 369, 456, 789] (by decide)
  have occurs := complete (by decide)
  refine ⟨m, returns, sound ?_⟩
  rcases sign with missing | found
  · exact absurd (occurs.mp missing) (by decide)
  · exact found

end BlogAlgorithms.BinarySearch
