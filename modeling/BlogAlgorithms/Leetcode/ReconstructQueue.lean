import BlogAlgorithms.Java.Array
import BlogAlgorithms.Java.Comparator
import Mathlib.Data.List.Induction
import Mathlib.Data.List.Count

namespace BlogAlgorithms.ReconstructQueue
open Java

/-- A row `[h, k]` of the array `people`. -/
structure Person where
  h : Int
  k : Int
  deriving DecidableEq, Repr

/-- The comparator: taller first, and by `k` among equal heights. -/
def compare (people1 people2 : Person) : Int :=
  if people1.h ≠ people2.h then wrap (people2.h - people1.h) else wrap (people1.k - people2.k)

/-- The loop over the sorted people, which inserts each at the index `k`. -/
def enqueue (people : List Person) : Exec (List Person) :=
  people.foldlM (fun res person => listAdd res person.k person) []

def reconstructQueue (arrays : ArraysSort) (people : List Person) : Exec (List Person) :=
  enqueue (arrays.sort compare people)

/-- Each person has exactly `k` people at least as tall in front, of those
already ahead and of those earlier in the queue. -/
def Counts (ahead queue : List Person) : Prop :=
  ∀ front person back, queue = front ++ person :: back →
    ((ahead ++ front).countP (fun other => person.h ≤ other.h) : Int) = person.k

/-- A queue of exactly these people in which everyone's count is right. -/
def Valid (people queue : List Person) : Prop := queue.Perm people ∧ Counts [] queue

theorem counts_nil (ahead : List Person) : Counts ahead [] := by
  intro front person back split
  exact absurd split (by simp)

theorem counts_cons {ahead rest : List Person} {person : Person} :
    Counts ahead (person :: rest) ↔
      (ahead.countP (fun other => person.h ≤ other.h) : Int) = person.k ∧
        Counts (ahead ++ [person]) rest := by
  constructor
  · intro counts
    refine ⟨by simpa using counts [] person rest rfl, fun front other back split => ?_⟩
    have tail := counts (person :: front) other back (by rw [split]; rfl)
    simpa using tail
  · intro ⟨first, tail⟩ front other back split
    cases front with
    | nil =>
      obtain ⟨rfl, rfl⟩ := List.cons.inj split
      simpa using first
    | cons head front =>
      obtain ⟨rfl, rest⟩ := List.cons.inj split
      simpa using tail front other back rest

theorem counts_append {ahead left right : List Person} :
    Counts ahead (left ++ right) ↔ Counts ahead left ∧ Counts (ahead ++ left) right := by
  induction left generalizing ahead with
  | nil => simp [counts_nil]
  | cons person left ih =>
    rw [List.cons_append, counts_cons, counts_cons, ih, and_assoc, List.append_assoc]
    rfl

/-- The order in which the loop takes the people. -/
def Before (first second : Person) : Prop :=
  second.h < first.h ∨ second.h = first.h ∧ first.k < second.k

theorem Before.height {first second : Person} (before : Before first second) :
    second.h ≤ first.h := by
  rcases before with taller | ⟨same, _⟩
  · exact taller.le
  · exact same.le

theorem countP_all_taller {people : List Person} {height : Int}
    (taller : ∀ other ∈ people, height ≤ other.h) :
    people.countP (fun other => height ≤ other.h) = people.length := by
  rw [List.countP_eq_length]
  intro other member
  exact decide_eq_true (taller other member)

/-- Someone shorter in front changes nobody's count. -/
theorem counts_concat_iff {ahead queue : List Person} {person : Person}
    (taller : ∀ other ∈ queue, person.h < other.h) :
    Counts (ahead ++ [person]) queue ↔ Counts ahead queue := by
  refine forall_congr' fun left => forall_congr' fun other => forall_congr' fun right =>
    forall_congr' fun split => ?_
  have shorter : ¬ other.h ≤ person.h := by
    have above := taller other (by rw [split]; simp)
    omega
  simp [List.countP_append, shorter]

section
variable {front back : List Person} {person : Person}
  (ahead : ∀ other ∈ front, Before other person) (behind : ∀ other ∈ back, Before other person)
  (position : (front.length : Int) = person.k)
include ahead behind position

/-- Behind the place of a newcomer stand only strictly taller people: one of
the same height has a smaller count than the people in front of the place. -/
theorem behind_taller (extra : List Person) (counts : Counts (front ++ extra) back) :
    ∀ other ∈ back, person.h < other.h := by
  intro other member
  rcases behind other member with taller | ⟨same, fewer⟩
  · exact taller
  · obtain ⟨left, right, split⟩ := List.append_of_mem member
    have count := counts left other right split
    rw [List.countP_append, List.countP_append, countP_all_taller
      (fun someone inFront => same ▸ (ahead someone inFront).height)] at count
    omega

theorem counts_insert (counts : Counts [] (front ++ back)) : Counts [] (front ++ person :: back) := by
  obtain ⟨onFront, onBack⟩ := counts_append.mp counts
  refine counts_append.mpr ⟨onFront, counts_cons.mpr ⟨?_, ?_⟩⟩
  · rw [List.nil_append, countP_all_taller fun other member => (ahead other member).height]
    exact position
  · have taller := behind_taller ahead behind position [] (by simpa using onBack)
    exact (counts_concat_iff taller).mpr onBack

end

/-- In a queue with right counts a person who comes last in the order of the
loop stands at the index `k`, and leaving keeps the other counts right. -/
theorem counts_delete {front back : List Person} {person : Person}
    (ahead : ∀ other ∈ front, Before other person) (behind : ∀ other ∈ back, Before other person)
    (counts : Counts [] (front ++ person :: back)) :
    (front.length : Int) = person.k ∧ Counts [] (front ++ back) := by
  obtain ⟨onFront, onRest⟩ := counts_append.mp counts
  obtain ⟨here, onBack⟩ := counts_cons.mp onRest
  rw [List.nil_append, countP_all_taller fun other member => (ahead other member).height] at here
  have taller := behind_taller ahead behind here [person] (by simpa using onBack)
  exact ⟨here, counts_append.mpr ⟨onFront, (counts_concat_iff taller).mp onBack⟩⟩

theorem enqueue_concat (people : List Person) (person : Person) :
    enqueue (people ++ [person]) = enqueue people >>= fun res => listAdd res person.k person := by
  simp only [enqueue, List.foldlM_append, List.foldlM_cons, List.foldlM_nil, bind_pure]

/-- A run of the loop that ends normally ends in a valid queue. -/
theorem enqueue_valid {people queue : List Person} (ordered : people.Pairwise Before)
    (run : enqueue people = .ok queue) : Valid people queue := by
  induction people using List.reverseRecOn generalizing queue with
  | nil =>
    cases Except.ok.inj run
    exact ⟨List.Perm.refl _, counts_nil []⟩
  | append_singleton people person ih =>
    obtain ⟨earlier, _, across⟩ := List.pairwise_append.mp ordered
    rw [enqueue_concat] at run
    obtain ⟨before, first, added⟩ := bind_eq_ok.mp run
    obtain ⟨perm, counts⟩ := ih earlier first
    obtain ⟨front, back, rfl, position, rfl⟩ := listAdd_eq_ok.mp added
    have last : ∀ other ∈ front ++ back, Before other person :=
      fun other member => across other (perm.mem_iff.mp member) person (by simp)
    constructor
    · exact (List.perm_middle.trans (perm.cons person)).trans (List.perm_append_singleton person people).symm
    · exact counts_insert (fun other inside => last other (List.mem_append_left _ inside))
        (fun other inside => last other (List.mem_append_right _ inside)) position.symm counts

/-- Any valid queue is the one that the loop builds. -/
theorem enqueue_complete {people queue : List Person} (ordered : people.Pairwise Before)
    (valid : Valid people queue) : enqueue people = .ok queue := by
  induction people using List.reverseRecOn generalizing queue with
  | nil =>
    have empty : queue = [] := valid.1.eq_nil
    subst empty
    rfl
  | append_singleton people person ih =>
    obtain ⟨earlier, _, across⟩ := List.pairwise_append.mp ordered
    obtain ⟨perm, counts⟩ := valid
    have member : person ∈ queue := perm.mem_iff.mpr (by simp)
    obtain ⟨front, back, rfl⟩ := List.append_of_mem member
    have others : (front ++ back).Perm people := by
      have moved := (List.perm_middle.symm.trans perm).trans (List.perm_append_singleton person people)
      exact List.Perm.cons_inv moved
    have last : ∀ other ∈ front ++ back, Before other person :=
      fun other inside => across other (others.mem_iff.mp inside) person (by simp)
    obtain ⟨position, rest⟩ := counts_delete
      (fun other inside => last other (List.mem_append_left _ inside))
      (fun other inside => last other (List.mem_append_right _ inside)) counts
    rw [enqueue_concat, ih earlier ⟨others, rest⟩, ok_bind]
    exact listAdd_eq_ok.mpr ⟨front, back, rfl, position.symm, rfl⟩

/-- The rows are pairs of non-negative ints. -/
def IntRows (people : List Person) : Prop :=
  ∀ person ∈ people, (0 ≤ person.h ∧ IsInt person.h) ∧ 0 ≤ person.k ∧ IsInt person.k

/-- Between non-negative ints no difference leaves the range. -/
theorem compare_eq {people : List Person} (rows : IntRows people) {first second : Person}
    (inFirst : first ∈ people) (inSecond : second ∈ people) :
    compare first second =
      if first.h ≠ second.h then second.h - first.h else first.k - second.k := by
  obtain ⟨⟨h1, _, h1Upper⟩, k1, _, k1Upper⟩ := rows first inFirst
  obtain ⟨⟨h2, _, h2Upper⟩, k2, _, k2Upper⟩ := rows second inSecond
  rw [compare, wrap_of_isInt ⟨by omega, by omega⟩, wrap_of_isInt ⟨by omega, by omega⟩]

theorem compare_order {people : List Person} (rows : IntRows people) :
    TotalPreorderOn {person | person ∈ people} compare := by
  refine totalPreorderOn_of_keys (fun person => -person.h) Person.k fun first inFirst second inSecond => ?_
  rw [compare_eq rows inFirst inSecond]
  split_ifs <;> omega

theorem sort_before (arrays : ArraysSort) {people : List Person} (rows : IntRows people)
    (distinct : people.Nodup) :
    (arrays.sort compare people).Perm people ∧ (arrays.sort compare people).Pairwise Before := by
  have order := compare_order rows
  have perm := arrays.perm order
  refine ⟨perm, ?_⟩
  have different := perm.nodup_iff.mpr distinct
  refine List.Pairwise.imp_of_mem ?_ ((arrays.sorted order).and different)
  intro first second inFirst inSecond ⟨below, unequal⟩
  rw [compare_eq rows (perm.mem_iff.mp inFirst) (perm.mem_iff.mp inSecond)] at below
  unfold Before
  split at below
  · rename_i heights
    exact Or.inl (by omega)
  · rename_i heights
    have sameHeight : second.h = first.h := by omega
    have counts : first.k ≠ second.k := by
      intro same
      apply unequal
      cases first
      cases second
      simp_all
    exact Or.inr ⟨sameHeight, by omega⟩

theorem valid_perm {people others queue : List Person} (perm : people.Perm others) :
    Valid people queue ↔ Valid others queue :=
  and_congr_left fun _ => ⟨fun shuffled => shuffled.trans perm, fun shuffled => shuffled.trans perm.symm⟩

/-- The result of the method is exactly a valid queue. -/
theorem reconstructQueue_eq_ok_iff (arrays : ArraysSort) {people queue : List Person}
    (rows : IntRows people) (distinct : people.Nodup) :
    reconstructQueue arrays people = .ok queue ↔ Valid people queue := by
  obtain ⟨perm, ordered⟩ := sort_before arrays rows distinct
  rw [← valid_perm perm]
  exact ⟨enqueue_valid ordered, enqueue_complete ordered⟩

/-- Each height of a queue with the count of those at least as tall ahead. -/
def labelFrom (ahead : List Int) : List Int → List Person
  | [] => []
  | h :: rest =>
    { h := h, k := ahead.countP (fun other => h ≤ other) } :: labelFrom (ahead ++ [h]) rest

def label (heights : List Int) : List Person := labelFrom [] heights

theorem labelFrom_heights (ahead heights : List Int) :
    (labelFrom ahead heights).map Person.h = heights := by
  induction heights generalizing ahead with
  | nil => rfl
  | cons h rest ih => simp only [labelFrom, List.map_cons, ih]

theorem labelFrom_counts {ahead : List Person} {heights : List Int} :
    Counts ahead (labelFrom (ahead.map Person.h) heights) := by
  induction heights generalizing ahead with
  | nil => exact counts_nil ahead
  | cons h rest ih =>
    refine counts_cons.mpr ⟨?_, ?_⟩
    · simp only [List.countP_map]
      rfl
    · have same (k : Int) : ahead.map Person.h ++ [h] = (ahead ++ [Person.mk h k]).map Person.h := by simp
      rw [same (((ahead.map Person.h).countP fun other => h ≤ other : Nat) : Int)]
      exact ih

/-- In a queue with right counts equal rows do not occur twice. -/
theorem counts_nodup {ahead queue : List Person} (counts : Counts ahead queue) : queue.Nodup := by
  induction queue generalizing ahead with
  | nil => exact List.nodup_nil
  | cons person rest ih =>
    obtain ⟨here, tail⟩ := counts_cons.mp counts
    refine List.nodup_cons.mpr ⟨fun member => ?_, ih tail⟩
    obtain ⟨left, right, split⟩ := List.append_of_mem member
    have again := tail left person right split
    simp only [List.countP_append, List.countP_singleton, le_refl, decide_true, if_true] at again
    omega

theorem counts_bound {ahead queue : List Person} (counts : Counts ahead queue) :
    ∀ person ∈ queue, 0 ≤ person.k ∧ person.k < ahead.length + queue.length := by
  intro person member
  obtain ⟨left, right, split⟩ := List.append_of_mem member
  have count := counts left person right split
  have bound := List.countP_le_length (p := fun other : Person => person.h ≤ other.h) (l := ahead ++ left)
  have length : queue.length = left.length + (right.length + 1) := by simp [split]
  rw [List.length_append] at bound
  omega

theorem label_valid (heights : List Int) : Valid (label heights) (label heights) :=
  ⟨List.Perm.refl _, labelFrom_counts⟩

theorem label_rows {heights : List Int} (ints : ∀ h ∈ heights, 0 ≤ h ∧ IsInt h)
    (short : heights.length < 2 ^ 31) : IntRows (label heights) := by
  intro person member
  have height : person.h ∈ heights := by
    rw [← labelFrom_heights [] heights]
    exact List.mem_map_of_mem member
  obtain ⟨lower, upper⟩ := counts_bound (label_valid heights).2 person member
  have length : (label heights).length = heights.length := by
    rw [← List.length_map (f := Person.h)]
    exact congrArg List.length (labelFrom_heights [] heights)
  rw [length, List.length_nil] at upper
  exact ⟨ints person.h height, lower, by omega, by omega⟩

/-- The method ends normally exactly when a valid queue exists, its result is
then the only one, and so a shuffled queue is restored from its labels. -/
theorem reconstructQueue_correct (arrays : ArraysSort) :
    (∀ people, IntRows people → people.Nodup →
      ((∃ queue, reconstructQueue arrays people = .ok queue) ↔ ∃ queue, Valid people queue) ∧
      (∀ queue, reconstructQueue arrays people = .ok queue →
        Valid people queue ∧ (∀ other, Valid people other → other = queue) ∧
        ∀ shuffled, shuffled.Perm people → reconstructQueue arrays shuffled = .ok queue)) ∧
    ∀ heights shuffled, (∀ h ∈ heights, 0 ≤ h ∧ IsInt h) → heights.length < 2 ^ 31 →
      shuffled.Perm (label heights) → reconstructQueue arrays shuffled = .ok (label heights) := by
  have shuffle : ∀ {people shuffled queue : List Person}, IntRows people → people.Nodup →
      shuffled.Perm people → Valid people queue → reconstructQueue arrays shuffled = .ok queue := by
    intro people shuffled queue rows distinct perm valid
    have shuffledRows : IntRows shuffled := fun person member => rows person (perm.mem_iff.mp member)
    exact (reconstructQueue_eq_ok_iff arrays shuffledRows (perm.nodup_iff.mpr distinct)).mpr
      ((valid_perm perm).mpr valid)
  constructor
  · intro people rows distinct
    have ends : ∀ {queue}, reconstructQueue arrays people = .ok queue ↔ Valid people queue :=
      reconstructQueue_eq_ok_iff arrays rows distinct
    refine ⟨exists_congr fun queue => ends, fun queue run => ?_⟩
    have valid := ends.mp run
    refine ⟨valid, fun other otherValid => ?_, fun shuffled perm => shuffle rows distinct perm valid⟩
    exact Except.ok.inj ((ends.mpr otherValid).symm.trans run)
  · intro heights shuffled ints short perm
    have valid := label_valid heights
    exact shuffle (label_rows ints short) (counts_nodup valid.2) perm valid

theorem reconstructQueue_restores_example :
    reconstructQueue ArraysSort.merging [⟨7, 0⟩, ⟨4, 4⟩, ⟨7, 1⟩, ⟨5, 0⟩, ⟨6, 1⟩, ⟨5, 2⟩] =
      .ok [⟨5, 0⟩, ⟨7, 0⟩, ⟨5, 2⟩, ⟨6, 1⟩, ⟨4, 4⟩, ⟨7, 1⟩] :=
  (reconstructQueue_correct ArraysSort.merging).2 [5, 7, 5, 6, 4, 7] _
    (by decide) (by decide) (by decide)

end BlogAlgorithms.ReconstructQueue
