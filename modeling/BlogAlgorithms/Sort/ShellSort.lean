import BlogAlgorithms.Java.Reach
import BlogAlgorithms.Sort.ShellPass

namespace BlogAlgorithms.ShellSort
open Java Strand

variable {α : Type} (compareTo : α → α → Int)

/-- The increments of Sedgewick, up to the last one that the code stores. -/
def h : List Int := [1, 5, 19, 41, 109, 209, 505, 929, 2161, 3905, 8929]

/-- The test `h[i] < N / 2`. -/
def tooSmall (N i : Int) : Exec Bool := do
  let increment ← arrayGet h i
  .ok (increment < N / 2)

/-- The loop `while (h[i] < N / 2) i++;`. -/
def firstIncrement (fuel : Nat) (N : Int) : Exec Int :=
  whileLoop (tooSmall N) (fun _ i => .ok (i + 1)) fuel 0

/-- The body of the loop over the increments, on the array and `i`. -/
def incrementStep (N : Int) (fuel : Nat) (state : List α × Int) : Exec (List α × Int) := do
  let (a, i) := state
  let temp ← arrayGet h i
  let a ← pass compareTo N temp fuel a
  .ok (a, i - 1)

/-- The test `i >= 0`. -/
def remaining (state : List α × Int) : Exec Bool := .ok (state.2 ≥ 0)

/-- The loop over the increments. -/
def increments (N : Int) : Nat → List α × Int → Exec (List α × Int) :=
  whileLoop remaining (incrementStep compareTo N)

def shellSort (fuel : Nat) (a : List α) : Exec (List α) := do
  let N : Int := a.length
  let i ← firstIncrement fuel N
  let (a, _) ← increments compareTo N fuel (a, i)
  .ok a

theorem tooSmall_of_slot {N i increment : Int} (found : slot h i = some increment) :
    tooSmall N i = .ok (decide (increment < N / 2)) := by
  simp only [tooSmall, arrayGet_of_slot found, ok_bind]

theorem tooSmall_step {N i : Int} (small : N / 2 ≤ 8929) (inside : InBounds h i) :
    LoopStep (tooSmall N) (fun _ i => .ok (i + 1)) (InBounds h) (fun i => (11 - i).toNat) i := by
  have length : (h.length : Int) = 11 := rfl
  obtain ⟨increment, found⟩ := inBounds_iff_slot.mp inside
  obtain ⟨lower, upper⟩ := inside
  refine ⟨⟨_, tooSmall_of_slot found⟩, fun running => ensures_const.mpr ⟨i + 1, rfl, ⟨by omega, ?_⟩, by omega⟩⟩
  rw [tooSmall_of_slot found] at running
  have below : increment < N / 2 := of_decide_eq_true (Except.ok.inj running)
  by_contra last
  have atLast : i = 10 := by omega
  subst atLast
  cases found
  omega

theorem firstIncrement_ensures {N : Int} (small : N / 2 ≤ 8929) :
    Ensures (fun fuel => firstIncrement fuel N) (InBounds h) := by
  have loop : Ensures (fun fuel => firstIncrement fuel N) (fun i => InBounds h i ∧ tooSmall N i = .ok false) :=
    whileLoop_ensures (InBounds h) _ (fun i inside => tooSmall_step small inside) ⟨le_rfl, by decide⟩
  exact loop.mono fun i ⟨inside, _⟩ => inside

/-- When every increment is too small the search runs off the table. -/
theorem firstIncrement_throws {N : Int} (large : 8929 < N / 2) :
    Throws (fun fuel => firstIncrement fuel N) .arrayIndexOutOfBounds := by
  have bounded : ∀ increment ∈ h, increment ≤ 8929 := by decide
  have run (left : Nat) : ∀ (fuel : Nat) (i : Int), left + 1 ≤ fuel → i + left = 11 → 0 ≤ i →
      whileLoop (tooSmall N) (fun _ i => .ok (i + 1)) fuel i = throwing .arrayIndexOutOfBounds := by
    induction left with
    | zero =>
      intro fuel i enough position _
      obtain ⟨fuel, rfl⟩ : ∃ below, fuel = below + 1 := ⟨fuel - 1, by omega⟩
      have atEnd : i = 11 := by omega
      subst atEnd
      rfl
    | succ left ih =>
      intro fuel i enough position nonneg
      obtain ⟨fuel, rfl⟩ : ∃ below, fuel = below + 1 := ⟨fuel - 1, by omega⟩
      have length : (h.length : Int) = 11 := rfl
      obtain ⟨increment, found⟩ := inBounds_iff_slot.mp (⟨nonneg, by omega⟩ : InBounds h i)
      have most := bounded increment (mem_iff_slot.mpr ⟨i, found⟩)
      have goes : tooSmall N i = .ok true := by
        rw [tooSmall_of_slot found, decide_eq_true (by omega)]
      simp only [whileLoop, goes, ok_bind]
      exact ih fuel (i + 1) (by omega) (by omega) (by omega)
  exact ⟨12, fun fuel enough => run 11 fuel 0 enough rfl le_rfl⟩

theorem positive_increment {i temp : Int} (found : slot h i = some temp) : ∃ gap : Nat, temp = gap ∧ 0 < gap := by
  have positive : ∀ increment ∈ h, 0 < increment := by decide
  have above := positive temp (mem_iff_slot.mpr ⟨i, found⟩)
  exact ⟨temp.toNat, by omega, by omega⟩

/-- The arrays of a run: `Reached a first i b` says that `b` is the array after
the pass with `h[i]`, and before the first pass it is the input. -/
def Reached (a : List α) (first i : Int) (b : List α) : Prop :=
  Java.Reached remaining (incrementStep compareTo a.length) (a, first) (b, i - 1)

section
variable {compareTo} {a b : List α} {first i : Int}

theorem incrementStep_ensures (compareTo : α → α → Int) (perm : b.Perm a) (inTable : InBounds h i) :
    ∃ gap : Nat, slot h i = some (gap : Int) ∧ 0 < gap ∧
      Ensures (fun fuel => incrementStep compareTo a.length fuel (b, i)) (fun (c, k) => k = i - 1 ∧
        StrandPerm gap b c ∧ (TotalPreorderOn Set.univ compareTo → GapSorted compareTo gap c)) := by
  obtain ⟨temp, found⟩ := inBounds_iff_slot.mp inTable
  obtain ⟨gap, rfl, positive⟩ := positive_increment found
  refine ⟨gap, found, positive, ?_⟩
  simp only [incrementStep, arrayGet_of_slot found, ok_bind, ← perm.length_eq]
  exact (pass_ensures compareTo positive b).bind fun c sorted => ⟨(c, i - 1), .ok _, rfl, sorted⟩

/-- A pass of the loop read a positive increment and sorted the strands of its
distance. -/
theorem incrementStep_returned {later : List α × Int} (perm : b.Perm a)
    (returns : Returns (fun fuel => incrementStep compareTo a.length fuel (b, i)) later) :
    ∃ gap : Nat, slot h i = some (gap : Int) ∧ 0 < gap ∧ later.2 = i - 1 ∧ StrandPerm gap b later.1 ∧
      (TotalPreorderOn Set.univ compareTo → GapSorted compareTo gap later.1) := by
  obtain ⟨fuel, ends⟩ := returns
  obtain ⟨temp, read, _⟩ := bind_eq_ok.mp (ends fuel le_rfl)
  obtain ⟨gap, found, positive, d, runs, sorted⟩ :=
    incrementStep_ensures compareTo perm (.of_slot (arrayGet_eq_ok read))
  cases runs.unique ⟨fuel, ends⟩
  exact ⟨gap, found, positive, sorted⟩

theorem Reached.perm (reached : Reached compareTo a first i b) : b.Perm a := by
  refine Java.Reached.keeps reached (fun state => state.1.Perm a) (.refl a) fun state later perm _ returns => ?_
  obtain ⟨gap, _, _, _, moved, _⟩ := incrementStep_returned perm returns
  exact moved.perm.trans perm

theorem increments_ensures (compareTo : α → α → Int) (inTable : InBounds h first) :
    Ensures (fun fuel => increments compareTo a.length fuel (a, first))
      (fun (b, _) => Reached compareTo a first 0 b) := by
  have start : -1 ≤ first ∧ first ≤ first ∧ Reached compareTo a first (first + 1) a := by
    refine ⟨by have := inTable.1; omega, le_rfl, ?_⟩
    rw [Reached, Int.add_sub_cancel]
    exact .start
  have loop : Ensures (fun fuel => increments compareTo a.length fuel (a, first))
      (fun state => (-1 ≤ state.2 ∧ state.2 ≤ first ∧ Reached compareTo a first (state.2 + 1) state.1) ∧
        remaining state = .ok false) := by
    refine whileLoop_ensures _ (fun state => (state.2 + 1).toNat) (fun (b, i) state => ?_) start
    refine ⟨⟨_, rfl⟩, fun running => ?_⟩
    have nonneg : i ≥ 0 := of_decide_eq_true (Except.ok.inj running)
    obtain ⟨lower, upper, reached⟩ := state
    have inside : InBounds h i := ⟨nonneg, by have := inTable.2; omega⟩
    obtain ⟨_, _, _, ⟨c, _⟩, returns, rfl, _⟩ := incrementStep_ensures compareTo reached.perm inside
    refine ⟨(c, i - 1), returns, ⟨by simp only; omega, by simp only; omega, ?_⟩, by simp only; omega⟩
    rw [Reached, Int.add_sub_cancel] at reached
    rw [Reached, Int.add_sub_cancel]
    exact .next reached running returns
  refine loop.mono fun (b, i) ⟨⟨lower, _, reached⟩, stopped⟩ => ?_
  have negative : ¬ i ≥ 0 := of_decide_eq_false (Except.ok.inj stopped)
  have done : i = -1 := by
    simp only at lower
    omega
  subst done
  exact reached

/-- After the pass with `h[i]` the array is in order at the distance of every
increment used so far. -/
theorem Reached.sorted (order : TotalPreorderOn Set.univ compareTo) (reached : Reached compareTo a first i b)
    (m : Int) (gap : Nat) (lower : i ≤ m) (upper : m ≤ first) (atM : slot h m = some (gap : Int)) :
    GapSorted compareTo gap b := by
  have kept := Java.Reached.keeps reached (fun state => state.1.Perm a ∧ ∀ (m : Int) (gap : Nat), state.2 < m →
    m ≤ first → slot h m = some (gap : Int) → GapSorted compareTo gap state.1)
    ⟨.refl a, fun m _ after before => absurd after (by simp only; omega)⟩
    fun state later ⟨perm, sorted⟩ _ returns => by
      obtain ⟨used, found, positive, next, moved, sorts⟩ := incrementStep_returned perm returns
      refine ⟨moved.perm.trans perm, fun m gap after before atM => ?_⟩
      by_cases same : m = state.2
      · rw [same] at atM
        cases Int.ofNat.inj (Option.some.inj (found.symm.trans atM))
        exact sorts order
      · exact (sorted m gap (by omega) before atM).keep order positive moved (sorts order)
  exact kept.2 m gap (by simp only; omega) upper atM

end

theorem shellSort_ensures (a : List α) (short : a.length < 17860) :
    ∃ first, Returns (fun fuel => firstIncrement fuel a.length) first ∧ InBounds h first ∧
      Ensures (fun fuel => shellSort compareTo fuel a) (Reached compareTo a first 0) := by
  have half : (a.length : Int) / 2 ≤ 8929 := by omega
  obtain ⟨first, stops, inTable⟩ := firstIncrement_ensures half
  have rest : Ensures (fun fuel => increments compareTo a.length fuel (a, first) >>= fun state => .ok state.1)
      (Reached compareTo a first 0) :=
    (increments_ensures compareTo inTable).bind fun (b, _) reached => ensures_const.mpr ⟨b, rfl, reached⟩
  obtain ⟨b, runs, reached⟩ := rest
  exact ⟨first, stops, inTable, b, stops.bind runs, reached⟩

/-- The search for the first increment stops inside the table, and the sort
returns, exactly on the arrays of fewer than 17860 elements. -/
theorem shellSort_returns_iff (a : List α) :
    ((∃ i, Returns (fun fuel => firstIncrement fuel a.length) i ∧ InBounds h i) ∧
      ∃ b, Returns (fun fuel => shellSort compareTo fuel a) b) ↔ a.length < 17860 := by
  constructor
  · rintro ⟨⟨i, stops, _⟩, _⟩
    by_contra long
    exact (firstIncrement_throws (by omega)).not_returns stops
  · intro short
    obtain ⟨first, stops, inTable, b, runs, _⟩ := shellSort_ensures compareTo a short
    exact ⟨⟨first, stops, inTable⟩, b, runs⟩

theorem shellSort_long_throws :
    Throws (fun fuel => shellSort (compareByKey id) fuel (List.replicate 17860 0)) .arrayIndexOutOfBounds := by
  refine (firstIncrement_throws ?_).bind _
  rw [List.length_replicate]
  decide

/-- Every run of the sort that returns keeps a permutation of the input that is
in order at the distance of each increment it has used, and ends sorted. -/
theorem shellSort_runs (order : TotalPreorderOn Set.univ compareTo) (a b : List α)
    (returns : Returns (fun fuel => shellSort compareTo fuel a) b) :
    ∃ first, Returns (fun fuel => firstIncrement fuel a.length) first ∧ Reached compareTo a first 0 b ∧
      (∀ i c, Reached compareTo a first i c → c.Perm a ∧ ∀ m (gap : Nat), i ≤ m → m ≤ first →
        slot h m = some (gap : Int) → GapSorted compareTo gap c) ∧
      b.Pairwise (fun x y => compareTo x y ≤ 0) := by
  by_cases short : a.length < 17860
  · obtain ⟨first, stops, inTable, c, runs, reached⟩ := shellSort_ensures compareTo a short
    have same : c = b := runs.unique returns
    subst same
    have adjacent : GapSorted compareTo 1 c := reached.sorted order 0 1 le_rfl inTable.1 rfl
    exact ⟨first, stops, reached, fun i d reached => ⟨reached.perm, reached.sorted order⟩,
      pairwise_of_adjacent order adjacent⟩
  · have throws := (firstIncrement_throws (show 8929 < (a.length : Int) / 2 by omega)).bind
      fun fuel i => increments compareTo a.length fuel (a, i) >>= fun state => .ok state.1
    exact (throws.not_returns returns).elim

/-- With six elements the passes are those with `h[1]` and `h[0]`. -/
theorem shellSort_runs_ties :
    ∃ b, Returns (fun fuel =>
        shellSort (compareByKey Prod.fst) fuel [(2, 0), (1, 1), (2, 2), (1, 3), (3, 4), (0, 5)]) b ∧
      ∃ first, Returns (fun fuel => firstIncrement fuel 6) first ∧
        Reached (compareByKey Prod.fst) [(2, 0), (1, 1), (2, 2), (1, 3), (3, 4), (0, 5)] first 0 b ∧
        (∀ i c, Reached (compareByKey Prod.fst) [(2, 0), (1, 1), (2, 2), (1, 3), (3, 4), (0, 5)] first i c →
          c.Perm [(2, 0), (1, 1), (2, 2), (1, 3), (3, 4), (0, 5)] ∧ ∀ m (gap : Nat), i ≤ m → m ≤ first →
            slot h m = some (gap : Int) → GapSorted (compareByKey Prod.fst) gap c) ∧
        b.Pairwise (fun (x y : Int × Nat) => compareByKey Prod.fst x y ≤ 0) := by
  obtain ⟨_, _, _, b, returns, _⟩ := shellSort_ensures (compareByKey Prod.fst)
    [((2, 0) : Int × Nat), (1, 1), (2, 2), (1, 3), (3, 4), (0, 5)] (by decide)
  exact ⟨b, returns, shellSort_runs (compareByKey Prod.fst) (compareByKey_order Prod.fst) _ b returns⟩

end BlogAlgorithms.ShellSort
