import BlogAlgorithms.Sort.Partition

namespace BlogAlgorithms.QuickSort
open Java

section
variable {α : Type} {compareTo : α → α → Int} {a b : List α} {temp : α} {lo hi i j k m : Int}

/-- Each of the two elements compares as greater than the other. -/
def Clash (compareTo : α → α → Int) (x p : α) : Prop := 0 < compareTo x p ∧ 0 < compareTo p x

/-- Some element of the array clashes with two others. -/
def Clashing (compareTo : α → α → Int) (a : List α) : Prop :=
  ∃ p x y rest, (p :: x :: y :: rest).Perm a ∧ Clash compareTo x p ∧ Clash compareTo y p

theorem Clashing.of_perm {b : List α} (clashing : Clashing compareTo a) (perm : a.Perm b) :
    Clashing compareTo b := by
  obtain ⟨p, x, y, rest, whole, first, second⟩ := clashing
  exact ⟨p, x, y, rest, whole.trans perm, first, second⟩

theorem not_clashing (order : TotalPreorderOn Set.univ compareTo) (a : List α) : ¬ Clashing compareTo a := by
  rintro ⟨p, x, _, _, _, ⟨above, below⟩, _⟩
  have signs := order.neg_iff_univ x p
  omega

theorem clashing_of_slots {k m : Int} {p x y : α} (atLo : slot a lo = some p) (atK : slot a k = some x)
    (atM : slot a m = some y) (first : lo < k) (second : k < m) (clashX : Clash compareTo x p)
    (clashY : Clash compareTo y p) : Clashing compareTo a := by
  obtain ⟨others, permP, afterLo⟩ := cons_perm_of_slot atLo
  rw [← afterLo k first] at atK
  rw [← afterLo m (by omega)] at atM
  obtain ⟨fewer, permX, afterK⟩ := cons_perm_of_slot atK
  rw [← afterK (m - 1) (by omega)] at atM
  obtain ⟨rest, permY, _⟩ := cons_perm_of_slot atM
  exact ⟨p, x, y, rest, (((permY.cons x).trans permX).cons p).trans permP, clashX, clashY⟩

/-- The loop of `partition`: before `i` there is nothing larger than the pivot
and after `j` nothing smaller. -/
structure Partitioning (compareTo : α → α → Int) (original : List α) (temp : α) (lo hi : Int)
    (a : List α) (i j : Int) : Prop where
  moved : Rearranges lo hi original a
  pivot : slot a lo = some temp
  left : lo < i ∧ i ≤ hi
  right : lo ≤ j ∧ j ≤ hi
  low : AllOn (fun x => compareTo x temp ≤ 0) a (lo + 1) (i - 1)
  high : AllOn (fun x => compareTo temp x ≤ 0) a (j + 1) hi

/-- What the loop has achieved when it ends. -/
structure Partitioned (compareTo : α → α → Int) (original : List α) (temp : α) (lo hi : Int)
    (a : List α) (j : Int) : Prop where
  moved : Rearranges lo hi original a
  pivot : slot a lo = some temp
  right : lo ≤ j ∧ j ≤ hi
  low : AllOn (fun x => compareTo x temp ≤ 0) a (lo + 1) j
  high : AllOn (fun x => compareTo temp x ≤ 0) a (j + 1) hi

/-- The slots that the scan from the left still has before it. An exchange puts
a small element at `i`, which the next scan passes. -/
def remaining (compareTo : α → α → Int) (temp : α) (hi : Int) (state : List α × Int × Int) : Nat :=
  2 * (hi - state.2.1).toNat + if (slot state.1 state.2.1).all (compareTo · temp ≤ 0) then 0 else 1

/-- The same for the scan from the right. -/
def remainingLeft (compareTo : α → α → Int) (temp : α) (lo : Int) (state : List α × Int × Int) : Nat :=
  2 * (state.2.2 - lo).toNat + if (slot state.1 state.2.2).all (compareTo temp · ≤ 0) then 0 else 1

def unswept (compareTo : α → α → Int) (temp : α) (lo hi : Int) (state : List α × Int × Int) : Nat :=
  remaining compareTo temp hi state + remainingLeft compareTo temp lo state

theorem unswept_eq {x y : α} (atI : slot a i = some x) (atJ : slot a j = some y) :
    unswept compareTo temp lo hi (a, i, j) = 2 * (hi - i).toNat + (if compareTo x temp ≤ 0 then 0 else 1) +
      (2 * (j - lo).toNat + if compareTo temp y ≤ 0 then 0 else 1) := by
  simp [unswept, remaining, remainingLeft, atI, atJ]

theorem le_unswept : 2 * (hi - i).toNat + 2 * (j - lo).toNat ≤ unswept compareTo temp lo hi (a, i, j) := by
  simp only [unswept, remaining, remainingLeft]
  omega

/-- After an exchange one of the two scans moves on. -/
theorem unswept_lt {b : List α} {k m : Int} {x y : α} (ahead : i ≤ k) (behind : m ≤ j) (apart : k < m)
    (inside : lo < k ∧ m ≤ hi) (atK : slot a k = some x) (atM : slot a m = some y) (nextK : slot b k = some y)
    (nextM : slot b m = some x) (stoppedK : 0 < compareTo x temp) (stoppedM : 0 < compareTo temp y)
    (calm : compareTo y temp ≤ 0 ∨ compareTo temp x ≤ 0) :
    unswept compareTo temp lo hi (b, k, m) < unswept compareTo temp lo hi (a, i, j) := by
  have flags : (if compareTo y temp ≤ 0 then 0 else 1) + (if compareTo temp x ≤ 0 then 0 else 1) ≤ 1 := by
    rcases calm with small | large
    · rw [if_pos small]
      split <;> omega
    · rw [if_pos large]
      split <;> omega
  rw [unswept_eq nextK nextM]
  by_cases same : i = k ∧ m = j
  · obtain ⟨rfl, rfl⟩ := same
    rw [unswept_eq atK atM, if_neg (by omega : ¬ compareTo x temp ≤ 0), if_neg (by omega : ¬ compareTo temp y ≤ 0)]
    omega
  · have total : 2 * (hi - i).toNat + 2 * (j - lo).toNat ≤ unswept compareTo temp lo hi (a, i, j) := le_unswept
    omega

/-- The state in which the scans have met. -/
structure Crossed (compareTo : α → α → Int) (original : List α) (temp : α) (lo hi : Int)
    (a : List α) (j : Int) : Prop where
  moved : Rearranges lo hi original a
  pivot : slot a lo = some temp
  right : lo ≤ j ∧ j ≤ hi
  low : AllOn (fun x => compareTo x temp ≤ 0) a (lo + 1) (j - 1)
  high : AllOn (fun x => compareTo temp x ≤ 0) a (j + 1) hi
  stopped : ∀ y, slot a j = some y → compareTo temp y ≤ 0 → j = lo

/-- The arrays differ by an exchange of the slots `k` and `m`. -/
def Exchanged (a : List α) (k m : Int) (b : List α) : Prop :=
  ∃ x y, slot a k = some x ∧ slot a m = some y ∧ b.Perm a ∧
    ∀ p, slot b p = if p = m then some x else if p = k then some y else slot a p

/-- What an iteration of the loop of `partition` does, whatever the comparison. -/
def Turns (compareTo : α → α → Int) (temp : α) (lo hi : Int) (a : List α) (i j : Int) :
    Flow (List α × Int × Int) → Prop
  | .stop state => state.1 = a ∧ state.2.2 ≤ state.2.1 ∧
      StopsRight compareTo a temp hi i state.2.1 ∧ StopsLeft compareTo a temp lo j state.2.2
  | .next state => Exchanged a state.2.1 state.2.2 state.1 ∧ state.2.1 < state.2.2 ∧
      StopsRight compareTo a temp hi i state.2.1 ∧ StopsLeft compareTo a temp lo j state.2.2

theorem turns_ok (inK : InBounds a k) (inM : InBounds a m) (stopsK : StopsRight compareTo a temp hi i k)
    (stopsM : StopsLeft compareTo a temp lo j m) :
    ∃ flow, (if k ≥ m then .ok (.stop (a, k, m)) else exch a k m >>= fun b => .ok (.next (b, k, m))) = .ok flow ∧
      Turns compareTo temp lo hi a i j flow := by
  by_cases crossed : k ≥ m
  · rw [if_pos crossed]
    exact ⟨_, rfl, rfl, crossed, stopsK, stopsM⟩
  · obtain ⟨x, atK⟩ := inBounds_iff_slot.mp inK
    obtain ⟨y, atM⟩ := inBounds_iff_slot.mp inM
    obtain ⟨b, swapped, perm, slots⟩ := swapSlots_ok atK atM
    simp only [if_neg crossed, exch, swapped, ok_bind]
    exact ⟨_, rfl, ⟨x, y, atK, atM, perm, slots⟩, Int.not_le.mp crossed, stopsK, stopsM⟩

theorem partitionStep_ensures (lower : 0 ≤ lo) (left : lo < i ∧ i ≤ hi) (right : lo ≤ j ∧ j ≤ hi)
    (bound : hi < a.length) :
    Ensures (fun fuel => partitionStep compareTo temp lo hi fuel (a, i, j)) (Turns compareTo temp lo hi a i j) := by
  refine (scanRight_ensures (by omega) left.2 bound).bind fun k stopsK => ?_
  refine (scanLeft_ensures lower right.1 (by omega)).bind fun m stopsM => ensures_const.mpr ?_
  exact turns_ok (stopsK.inBounds (by omega) bound) (stopsM.inBounds lower (by omega)) stopsK stopsM

theorem partitionStep_confined (lower : 0 ≤ lo) (left : lo < i ∧ i ≤ hi) (right : lo ≤ j ∧ j ≤ hi)
    (bound : hi < a.length) :
    Confined (fun fuel => partitionStep compareTo temp lo hi fuel (a, i, j))
      (Turns compareTo temp lo hi a i j) := by
  refine (scanRight_confined (by omega) left.2 bound).bind fun k stopsK => ?_
  refine (scanLeft_confined lower right.1 (by omega)).bind fun m stopsM => ?_
  obtain ⟨flow, runs, turns⟩ :=
    turns_ok (stopsK.inBounds (by omega) bound) (stopsM.inBounds lower (by omega)) stopsK stopsM
  exact .of_eq (fun _ => runs) turns

/-- Where the scans have not met, the elements they stopped at are on the
wrong sides. -/
theorem fails_of_stops {x y : α} (stopsK : StopsRight compareTo a temp hi i k)
    (stopsM : StopsLeft compareTo a temp lo j m) (inside : lo ≤ k ∧ m ≤ hi) (apart : k < m)
    (atK : slot a k = some x) (atM : slot a m = some y) : 0 < compareTo x temp ∧ 0 < compareTo temp y := by
  obtain ⟨_, _, _, stoppedK⟩ := stopsK
  obtain ⟨_, _, _, stoppedM⟩ := stopsM
  constructor
  · by_contra small
    exact absurd (stoppedK x atK (by omega)) (by omega)
  · by_contra small
    exact absurd (stoppedM y atM (by omega)) (by omega)

theorem Partitioning.next {original : List α} (running : Partitioning compareTo original temp lo hi a i j)
    (exchanged : Exchanged a k m b) (apart : k < m) (stopsK : StopsRight compareTo a temp hi i k)
    (stopsM : StopsLeft compareTo a temp lo j m) : Partitioning compareTo original temp lo hi b k m := by
  obtain ⟨moved, pivot, left, right, low, high⟩ := running
  obtain ⟨lowerK, upperK, passedK, _⟩ := stopsK
  obtain ⟨lowerM, upperM, passedM, _⟩ := stopsM
  obtain ⟨x, y, _, _, perm, slots⟩ := exchanged
  have swapped : Rearranges lo hi a b := .of_swap perm slots ⟨by omega, by omega⟩ ⟨by omega, by omega⟩
  have kept (p : Int) (notK : p ≠ k) (notM : p ≠ m) : slot b p = slot a p := by
    rw [slots, if_neg notM, if_neg notK]
  have passed : AllOn (fun x => compareTo x temp ≤ 0) a (lo + 1) (k - 1) :=
    low.append (by rwa [Int.sub_add_cancel])
  refine ⟨moved.trans swapped, ?_, ⟨by omega, upperK⟩, ⟨lowerM, by omega⟩, ?_, ?_⟩
  · exact (kept lo (by omega) (by omega)).trans pivot
  · exact passed.congr fun p _ _ => kept p (by omega) (by omega)
  · exact (passedM.append high).congr fun p _ _ => kept p (by omega) (by omega)

theorem Partitioning.crossed {original : List α} (running : Partitioning compareTo original temp lo hi a i j)
    (met : m ≤ k) (stopsK : StopsRight compareTo a temp hi i k) (stopsM : StopsLeft compareTo a temp lo j m) :
    Crossed compareTo original temp lo hi a m := by
  obtain ⟨moved, pivot, left, right, low, high⟩ := running
  obtain ⟨lowerK, upperK, passedK, _⟩ := stopsK
  obtain ⟨lowerM, upperM, passedM, stoppedM⟩ := stopsM
  have passed : AllOn (fun x => compareTo x temp ≤ 0) a (lo + 1) (k - 1) :=
    low.append (by rwa [Int.sub_add_cancel])
  exact ⟨moved, pivot, ⟨lowerM, by omega⟩, fun p x first last => passed p x first (by omega),
    passedM.append high, stoppedM⟩

/-- An exchange makes the sweep shorter, unless the pivot clashes with both elements. -/
theorem Partitioning.next_lt {original : List α} (calm : ¬ Clashing compareTo original)
    (running : Partitioning compareTo original temp lo hi a i j) (exchanged : Exchanged a k m b) (apart : k < m)
    (stopsK : StopsRight compareTo a temp hi i k) (stopsM : StopsLeft compareTo a temp lo j m) :
    unswept compareTo temp lo hi (b, k, m) < unswept compareTo temp lo hi (a, i, j) := by
  obtain ⟨x, y, atK, atM, _, slots⟩ := exchanged
  have left := running.left
  have right := running.right
  have rangeK := stopsK.1
  have rangeM := stopsM.2.1
  obtain ⟨failsK, failsM⟩ := fails_of_stops stopsK stopsM ⟨by omega, by omega⟩ apart atK atM
  have settles : compareTo y temp ≤ 0 ∨ compareTo temp x ≤ 0 := by
    by_contra both
    have clashes : Clashing compareTo a :=
      clashing_of_slots running.pivot atK atM (by omega) apart ⟨failsK, by omega⟩ ⟨by omega, failsM⟩
    exact calm (clashes.of_perm running.moved.perm)
  have nextK : slot b k = some y := by rw [slots, if_neg (by omega), if_pos rfl]
  have nextM : slot b m = some x := by rw [slots, if_pos rfl]
  exact unswept_lt rangeK rangeM apart ⟨by omega, by omega⟩ atK atM nextK nextM failsK failsM settles

theorem partitioning_start (ordered : lo < hi) (atLo : slot a lo = some temp) :
    Partitioning compareTo a temp lo hi a (lo + 1) hi :=
  ⟨.refl lo hi a, atLo, ⟨by omega, by omega⟩, ⟨ordered.le, le_rfl⟩,
    fun p x first last _ => by omega, fun p x first last _ => by omega⟩

/-- One iteration, whatever the comparison. -/
theorem Partitioning.turn {original : List α} (running : Partitioning compareTo original temp lo hi a i j)
    {flow : Flow (List α × Int × Int)} (turns : Turns compareTo temp lo hi a i j flow) :
    flow.Confines (fun state => Partitioning compareTo original temp lo hi state.1 state.2.1 state.2.2)
      (fun state => Crossed compareTo original temp lo hi state.1 state.2.2) := by
  cases flow with
  | next state =>
    obtain ⟨exchanged, apart, stopsK, stopsM⟩ := turns
    exact running.next exchanged apart stopsK stopsM
  | stop state =>
    obtain ⟨b, k, m⟩ := state
    obtain ⟨rfl, met, stopsK, stopsM⟩ := turns
    exact running.crossed met stopsK stopsM

theorem partitionLoop_confined {original : List α} (lower : 0 ≤ lo) (bound : hi < original.length)
    (running : Partitioning compareTo original temp lo hi a i j) :
    Confined (fun fuel => loopForever (partitionStep compareTo temp lo hi) fuel (a, i, j))
      (fun state => Crossed compareTo original temp lo hi state.1 state.2.2) := by
  apply loopForever_confined
    (fun state => Partitioning compareTo original temp lo hi state.1 state.2.1 state.2.2) _ _ running
  rintro ⟨a, i, j⟩ running
  have length : a.length = original.length := running.moved.perm.length_eq
  exact (partitionStep_confined lower running.left running.right (by omega)).mono fun _ => running.turn

theorem partitionLoop_ensures {original : List α} (lower : 0 ≤ lo) (bound : hi < original.length)
    (calm : ¬ Clashing compareTo original) (running : Partitioning compareTo original temp lo hi a i j) :
    Ensures (fun fuel => loopForever (partitionStep compareTo temp lo hi) fuel (a, i, j))
      (fun state => Crossed compareTo original temp lo hi state.1 state.2.2) := by
  refine loopForever_ensures (fun state => Partitioning compareTo original temp lo hi state.1 state.2.1 state.2.2) _
    (unswept compareTo temp lo hi) ?_ running
  rintro ⟨a, i, j⟩ running
  have length : a.length = original.length := running.moved.perm.length_eq
  refine (partitionStep_ensures lower running.left running.right (by omega)).mono fun flow turns => ?_
  have kept := running.turn turns
  cases flow with
  | next state =>
    obtain ⟨exchanged, apart, stopsK, stopsM⟩ := turns
    exact ⟨kept, running.next_lt calm exchanged apart stopsK stopsM⟩
  | stop state => exact kept

/-- With the laws of an order the element where the scans meet is small. -/
theorem Crossed.partitioned (order : TotalPreorderOn Set.univ compareTo) {original : List α}
    (crossed : Crossed compareTo original temp lo hi a j) : Partitioned compareTo original temp lo hi a j := by
  obtain ⟨moved, pivot, right, low, high, stopped⟩ := crossed
  refine ⟨moved, pivot, right, fun p x first last atP => ?_, high⟩
  by_cases atJ : p = j
  · subst atJ
    have sign := order.neg_iff_univ x temp
    by_contra large
    exact absurd (stopped x atP (by omega)) (by omega)
  · exact low p x first (by omega) atP

/-- The array after `partition` has its range rearranged around the pivot at `j`. -/
structure Split (compareTo : α → α → Int) (original : List α) (lo hi : Int) (a : List α) (j : Int) :
    Prop where
  moved : Rearranges lo hi original a
  inside : lo ≤ j ∧ j ≤ hi
  around : ∃ pivot, slot a j = some pivot ∧ AllOn (fun x => compareTo x pivot ≤ 0) a lo (j - 1) ∧
    AllOn (fun x => compareTo pivot x ≤ 0) a (j + 1) hi

theorem Crossed.exchange {original : List α} (bound : hi < original.length)
    (crossed : Crossed compareTo original temp lo hi a j) :
    ∃ b, exch a lo j = .ok b ∧ Rearranges lo hi original b ∧
      (TotalPreorderOn Set.univ compareTo → Split compareTo original lo hi b j) := by
  have pivot := crossed.pivot
  have right := crossed.right
  have length := crossed.moved.perm.length_eq
  have nonneg := (InBounds.of_slot pivot).1
  obtain ⟨y, atJ⟩ := inBounds_iff_slot.mp (⟨by omega, by omega⟩ : InBounds a j)
  obtain ⟨b, swapped, perm, slots⟩ := swapSlots_ok pivot atJ
  have moved := crossed.moved.trans (.of_swap perm slots ⟨le_rfl, by omega⟩ right)
  refine ⟨b, swapped, moved, fun order => ⟨moved, right, temp, ?_, ?_, ?_⟩⟩
  · rw [slots, if_pos rfl]
  · intro p x first last atP
    rw [slots, if_neg (by omega)] at atP
    have low := (crossed.partitioned order).low
    split at atP
    · cases atP
      exact low j y (by omega) le_rfl atJ
    · exact low p x (by omega) (by omega) atP
  · refine crossed.high.congr fun p first last => ?_
    rw [slots, if_neg (by omega), if_neg (by omega)]

/-- The partition ends where no element clashes with two others, and it does
its work where the comparison is an order. -/
theorem partition_ensures (lower : 0 ≤ lo) (ordered : lo < hi) (bound : hi < a.length)
    (calm : ¬ Clashing compareTo a) :
    Ensures (fun fuel => partition compareTo fuel a lo hi) (fun result => Rearranges lo hi a result.1 ∧
      (lo ≤ result.2 ∧ result.2 ≤ hi) ∧
      (TotalPreorderOn Set.univ compareTo → Split compareTo a lo hi result.1 result.2)) := by
  obtain ⟨temp, atLo⟩ := inBounds_iff_slot.mp (⟨lower, by omega⟩ : InBounds a lo)
  have loop := partitionLoop_ensures lower bound calm (partitioning_start ordered atLo)
  simp only [partition, arrayGet_of_slot atLo, ok_bind]
  refine loop.bind fun state crossed => ensures_const.mpr ?_
  obtain ⟨c, exchanged, moved, split⟩ := crossed.exchange bound
  exact ⟨(c, state.2.2), by simp only [exchanged, ok_bind], moved, crossed.right, split⟩

/-- Whatever the comparison, the partition stays inside the array and only
rearranges its range. -/
theorem partition_confined (lower : 0 ≤ lo) (ordered : lo < hi) (bound : hi < a.length) :
    Confined (fun fuel => partition compareTo fuel a lo hi)
      (fun result => Rearranges lo hi a result.1 ∧ lo ≤ result.2 ∧ result.2 ≤ hi) := by
  obtain ⟨temp, atLo⟩ := inBounds_iff_slot.mp (⟨lower, by omega⟩ : InBounds a lo)
  have start : Partitioning compareTo a temp lo hi a (lo + 1) hi := partitioning_start ordered atLo
  simp only [partition, arrayGet_of_slot atLo, ok_bind]
  refine (partitionLoop_confined lower bound start).bind fun state crossed => ?_
  obtain ⟨c, exchanged, moved, _⟩ := crossed.exchange bound
  exact fun _ => Or.inr ⟨(c, state.2.2), by simp only [exchanged, ok_bind], moved, crossed.right⟩

end

end BlogAlgorithms.QuickSort
