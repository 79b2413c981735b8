import BlogAlgorithms.Java.Loop
import BlogAlgorithms.Java.Range
import BlogAlgorithms.Java.Reach

namespace BlogAlgorithms.QuickSort
open Java

variable {α : Type} (compareTo : α → α → Int)

def exch (a : List α) (i j : Int) : Exec (List α) := swapSlots a i j

/-- The body of a scan, which moves on while the elements pass its test and
breaks at the last index. -/
def scanStep (passes : α → Prop) [DecidablePred passes] (a : List α) (last step k : Int) :
    Exec (Flow Int) := do
  let value ← arrayGet a k
  if passes value then
    if k = last then .ok (.stop k) else .ok (.next (k + step))
  else .ok (.stop k)

/-- The loop `while (a[i].compareTo(temp) <= 0) { if (i == hi) break; i++; }`. -/
def scanRight (a : List α) (temp : α) (hi : Int) : Nat → Int → Exec Int :=
  loopForever fun _ => scanStep (fun value => compareTo value temp ≤ 0) a hi 1

/-- The loop `while (temp.compareTo(a[j]) <= 0) { if (j == lo) break; j--; }`. -/
def scanLeft (a : List α) (temp : α) (lo : Int) : Nat → Int → Exec Int :=
  loopForever fun _ => scanStep (fun value => compareTo temp value ≤ 0) a lo (-1)

/-- The body of the loop `while (true)`, on the array, `i` and `j`. -/
def partitionStep (temp : α) (lo hi : Int) (fuel : Nat) (state : List α × Int × Int) :
    Exec (Flow (List α × Int × Int)) := do
  let (a, i, j) := state
  let i ← scanRight compareTo a temp hi fuel i
  let j ← scanLeft compareTo a temp lo fuel j
  if i ≥ j then .ok (.stop (a, i, j))
  else do
    let a ← exch a i j
    .ok (.next (a, i, j))

def partition (fuel : Nat) (a : List α) (lo hi : Int) : Exec (List α × Int) := do
  let temp ← arrayGet a lo
  let (a, _, j) ← loopForever (partitionStep compareTo temp lo hi) fuel (a, lo + 1, hi)
  let a ← exch a lo j
  .ok (a, j)

/-- A scan from `start` has passed everything before `k`. -/
structure Scanned (passes : α → Prop) (a : List α) (start last step k : Int) : Prop where
  forward : 0 ≤ (k - start) * step
  bounded : 0 ≤ (last - k) * step
  passed : ∀ p x, 0 ≤ (p - start) * step → 0 < (k - p) * step → slot a p = some x → passes x

/-- A scan has stopped where it did not pass, or at the last index. -/
def ScanEnds (passes : α → Prop) (a : List α) (start last step k : Int) : Prop :=
  Scanned passes a start last step k ∧ ∀ x, slot a k = some x → passes x → k = last

theorem Scanned.step {passes : α → Prop} [DecidablePred passes] {a : List α} {start last step k : Int}
    (direction : step = 1 ∨ step = -1) (inStart : InBounds a start) (inLast : InBounds a last)
    (scanned : Scanned passes a start last step k) :
    ∃ flow, scanStep passes a last step k = .ok flow ∧
      flow.Advances (Scanned passes a start last step) (ScanEnds passes a start last step)
        (fun k => ((last - k) * step).toNat) ((last - k) * step).toNat := by
  obtain ⟨forward, bounded, passed⟩ := scanned
  have inside : InBounds a k := by
    unfold InBounds at *
    rcases direction with rfl | rfl <;> omega
  obtain ⟨value, found⟩ := inBounds_iff_slot.mp inside
  have stopped (leaves : passes value → k = last) : ScanEnds passes a start last step k := by
    refine ⟨⟨forward, bounded, passed⟩, fun x atK small => ?_⟩
    cases Option.some.inj (found.symm.trans atK)
    exact leaves small
  simp only [scanStep, arrayGet_of_slot found, ok_bind]
  by_cases small : passes value
  · by_cases atEnd : k = last
    · rw [if_pos small, if_pos atEnd]
      exact ⟨_, rfl, stopped fun _ => atEnd⟩
    · have smaller : ((last - (k + step)) * step).toNat < ((last - k) * step).toNat := by
        rcases direction with rfl | rfl <;> omega
      rw [if_pos small, if_neg atEnd]
      refine ⟨_, rfl, ⟨?_, ?_, fun p x after before atP => ?_⟩, smaller⟩
      · rcases direction with rfl | rfl <;> omega
      · rcases direction with rfl | rfl <;> omega
      · by_cases new : p = k
        · subst new
          cases Option.some.inj (found.symm.trans atP)
          exact small
        · refine passed p x after ?_ atP
          rcases direction with rfl | rfl <;> omega
  · rw [if_neg small]
    exact ⟨_, rfl, stopped fun keeps => absurd keeps small⟩

section
variable {passes : α → Prop} [DecidablePred passes] {a : List α} {start last step : Int}

theorem scanned_start (direction : step = 1 ∨ step = -1) (ahead : 0 ≤ (last - start) * step) :
    Scanned passes a start last step start := by
  refine ⟨by simp, ahead, fun p x after before _ => ?_⟩
  rcases direction with rfl | rfl <;> omega

theorem scan_ensures (direction : step = 1 ∨ step = -1) (inStart : InBounds a start) (inLast : InBounds a last)
    (ahead : 0 ≤ (last - start) * step) :
    Ensures (fun fuel => loopForever (fun _ => scanStep passes a last step) fuel start)
      (ScanEnds passes a start last step) := by
  refine loopForever_ensures (Scanned passes a start last step) _ (fun k => ((last - k) * step).toNat)
    (fun k scanned => ?_) (scanned_start direction ahead)
  exact ensures_const.mpr (scanned.step direction inStart inLast)

theorem scan_confined (direction : step = 1 ∨ step = -1) (inStart : InBounds a start) (inLast : InBounds a last)
    (ahead : 0 ≤ (last - start) * step) :
    Confined (fun fuel => loopForever (fun _ => scanStep passes a last step) fuel start)
      (ScanEnds passes a start last step) := by
  apply loopForever_confined (Scanned passes a start last step) _ _ (scanned_start direction ahead)
  intro k scanned
  obtain ⟨flow, runs, advances⟩ := scanned.step direction inStart inLast
  exact Confined.of_eq (fun _ => runs) advances.confines

end

section
variable {compareTo} {a : List α} {temp : α} {lo hi i j : Int}

/-- Where `scanRight` from `i` stops. -/
def StopsRight (compareTo : α → α → Int) (a : List α) (temp : α) (hi i k : Int) : Prop :=
  i ≤ k ∧ k ≤ hi ∧ AllOn (fun x => compareTo x temp ≤ 0) a i (k - 1) ∧
    ∀ x, slot a k = some x → compareTo x temp ≤ 0 → k = hi

/-- Where `scanLeft` from `j` stops. -/
def StopsLeft (compareTo : α → α → Int) (a : List α) (temp : α) (lo j k : Int) : Prop :=
  lo ≤ k ∧ k ≤ j ∧ AllOn (fun x => compareTo temp x ≤ 0) a (k + 1) j ∧
    ∀ x, slot a k = some x → compareTo temp x ≤ 0 → k = lo

theorem StopsRight.inBounds {k : Int} (stops : StopsRight compareTo a temp hi i k) (lower : 0 ≤ i)
    (bound : hi < a.length) : InBounds a k := by
  obtain ⟨after, before, _⟩ := stops
  exact ⟨by omega, by omega⟩

theorem StopsLeft.inBounds {k : Int} (stops : StopsLeft compareTo a temp lo j k) (lower : 0 ≤ lo)
    (bound : j < a.length) : InBounds a k := by
  obtain ⟨after, before, _⟩ := stops
  exact ⟨by omega, by omega⟩

theorem ScanEnds.right {k : Int} (ends : ScanEnds (fun x => compareTo x temp ≤ 0) a i hi 1 k) :
    StopsRight compareTo a temp hi i k := by
  obtain ⟨⟨forward, bounded, passed⟩, stopped⟩ := ends
  exact ⟨by omega, by omega, fun p x first last => passed p x (by omega) (by omega), stopped⟩

theorem ScanEnds.left {k : Int} (ends : ScanEnds (fun x => compareTo temp x ≤ 0) a j lo (-1) k) :
    StopsLeft compareTo a temp lo j k := by
  obtain ⟨⟨forward, bounded, passed⟩, stopped⟩ := ends
  exact ⟨by omega, by omega, fun p x first last => passed p x (by omega) (by omega), stopped⟩

theorem scanRight_ensures (lower : 0 ≤ i) (upper : i ≤ hi) (bound : hi < a.length) :
    Ensures (fun fuel => scanRight compareTo a temp hi fuel i) (StopsRight compareTo a temp hi i) :=
  (scan_ensures (Or.inl rfl) ⟨lower, by omega⟩ ⟨by omega, bound⟩ (by omega)).mono fun _ ends => ends.right

theorem scanLeft_ensures (lower : 0 ≤ lo) (upper : lo ≤ j) (bound : j < a.length) :
    Ensures (fun fuel => scanLeft compareTo a temp lo fuel j) (StopsLeft compareTo a temp lo j) :=
  (scan_ensures (Or.inr rfl) ⟨by omega, bound⟩ ⟨lower, by omega⟩ (by omega)).mono fun _ ends => ends.left

theorem scanRight_confined (lower : 0 ≤ i) (upper : i ≤ hi) (bound : hi < a.length) :
    Confined (fun fuel => scanRight compareTo a temp hi fuel i) (StopsRight compareTo a temp hi i) :=
  (scan_confined (Or.inl rfl) ⟨lower, by omega⟩ ⟨by omega, bound⟩ (by omega)).mono fun _ ends => ends.right

theorem scanLeft_confined (lower : 0 ≤ lo) (upper : lo ≤ j) (bound : j < a.length) :
    Confined (fun fuel => scanLeft compareTo a temp lo fuel j) (StopsLeft compareTo a temp lo j) :=
  (scan_confined (Or.inr rfl) ⟨by omega, bound⟩ ⟨lower, by omega⟩ (by omega)).mono fun _ ends => ends.left

end

end BlogAlgorithms.QuickSort
