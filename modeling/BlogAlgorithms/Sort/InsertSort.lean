import BlogAlgorithms.Java.Array
import BlogAlgorithms.Java.Loop
import BlogAlgorithms.Lib.StableSort

namespace BlogAlgorithms.InsertSort
open Java StableSort

variable {α : Type} (compareTo : α → α → Int)

/-- The test `j >= 0 && temp.compareTo(a[j]) < 0` of the inner loop, on the
array and `j`. -/
def shifts (temp : α) (state : List α × Int) : Exec Bool := do
  let (a, j) := state
  if j ≥ 0 then do
    let value ← arrayGet a j
    .ok (compareTo temp value < 0)
  else .ok false

/-- The body `a[j + 1] = a[j]` of the inner loop, and its `j--`. -/
def shift (state : List α × Int) : Exec (List α × Int) := do
  let (a, j) := state
  let a ← arraySet a (j + 1) (← arrayGet a j)
  .ok (a, j - 1)

/-- One pass of the outer loop. -/
def insertStep (fuel : Nat) (i : Int) (a : List α) : Exec (List α) := do
  let temp ← arrayGet a i
  let (a, j) ← whileLoop (shifts compareTo temp) (fun _ => shift) fuel (a, i - 1)
  arraySet a (j + 1) temp

def insertSort (fuel : Nat) (a : List α) : Exec (List α) :=
  forUp 1 (a.length - 1) (insertStep compareTo fuel) a

/-- The second list comes from the first by taking its elements in turn and
putting each one before the larger ones that end the list so far. No law of
`compareTo` is involved. -/
inductive InsertsEach : List α → List α → Prop
  | nil : InsertsEach [] []
  | next {taken left right : List α} {x : α} : InsertsEach taken (left ++ right) →
      (∀ y ∈ right, compareTo x y < 0) → (∀ y, left.getLast? = some y → ¬ compareTo x y < 0) →
      InsertsEach (taken ++ [x]) (left ++ x :: right)

/-- The inner loop has moved the elements of `right` one slot up, which
leaves a hole between `left` and `right`. -/
def Shifted (x : α) (sorted rest : List α) (state : List α × Int) : Prop :=
  ∃ left right hole, sorted = left ++ right ∧ state.1 = left ++ hole :: (right ++ rest) ∧
    state.2 = left.length - 1 ∧ ∀ y ∈ right, compareTo x y < 0

section
variable {compareTo} {x : α} {sorted rest : List α} {state : List α × Int}

theorem shifts_nil {a : List α} {j : Int} (start : j = ([] : List α).length - 1) :
    shifts compareTo x (a, j) = .ok false := by
  have stop : ¬ j ≥ 0 := by
    simp only [List.length_nil] at start
    omega
  simp only [shifts, stop, if_false]

theorem slot_before {left back : List α} {y : α} {j : Int} (atEnd : j = (left ++ [y]).length - 1) :
    slot (left ++ [y] ++ back) j = some y := by
  rw [List.append_assoc, List.singleton_append]
  refine slot_append_cons ?_
  rw [List.length_append, List.length_singleton] at atEnd
  omega

theorem shifts_concat {left back : List α} {y : α} {j : Int} (atEnd : j = (left ++ [y]).length - 1) :
    shifts compareTo x (left ++ [y] ++ back, j) = .ok (decide (compareTo x y < 0)) := by
  have go : j ≥ 0 := by
    rw [List.length_append, List.length_singleton] at atEnd
    omega
  simp only [shifts, go, if_true, arrayGet_of_slot (slot_before atEnd), ok_bind]

theorem shift_concat {left back : List α} {y hole : α} {j : Int}
    (atEnd : j = (left ++ [y]).length - 1) :
    shift (left ++ [y] ++ hole :: back, j) = .ok (left ++ [y] ++ y :: back, j - 1) := by
  have above : j + 1 = (left ++ [y]).length := by omega
  simp only [shift, arrayGet_of_slot (slot_before atEnd), ok_bind,
    arraySet_of_inBounds (inBounds_append_cons above), store_append_cons above]

theorem Shifted.step (shifted : Shifted compareTo x sorted rest state) :
    LoopStep (shifts compareTo x) (fun _ => shift) (Shifted compareTo x sorted rest)
      (fun state => (state.2 + 1).toNat) state := by
  obtain ⟨left, right, hole, split, whole, atEnd, larger⟩ := shifted
  obtain ⟨a, j⟩ := state
  simp only at whole atEnd
  subst whole
  rcases List.eq_nil_or_concat' left with empty | ⟨front, y, concat⟩
  · subst empty
    refine ⟨⟨false, shifts_nil atEnd⟩, fun running => ?_⟩
    rw [shifts_nil atEnd] at running
    cases running
  · subst concat
    refine ⟨⟨_, shifts_concat atEnd⟩, fun running => ?_⟩
    rw [shifts_concat atEnd] at running
    have smaller : compareTo x y < 0 := of_decide_eq_true (Except.ok.inj running)
    refine ensures_const.mpr ⟨_, shift_concat atEnd, ⟨front, y :: right, y, ?_, ?_, ?_, ?_⟩, ?_⟩
    · rw [split, List.append_assoc, List.singleton_append]
    · simp
    · simp only [List.length_append, List.length_singleton] at atEnd ⊢
      omega
    · intro z member
      rcases List.mem_cons.mp member with same | inRight
      · rw [same]
        exact smaller
      · exact larger z inRight
    · simp only [List.length_append, List.length_singleton] at atEnd ⊢
      omega

/-- One pass of the outer loop inserts the next element into the sorted part. -/
theorem insertStep_ensures {taken : List α} {i : Int} (position : i = sorted.length)
    (built : InsertsEach compareTo taken sorted) :
    Ensures (fun fuel => insertStep compareTo fuel i (sorted ++ x :: rest))
      (fun next => ∃ longer, InsertsEach compareTo (taken ++ [x]) longer ∧ next = longer ++ rest) := by
  have start : Shifted compareTo x sorted rest (sorted ++ x :: rest, i - 1) :=
    ⟨sorted, [], x, by simp, by simp, by simp [position], by simp⟩
  obtain ⟨⟨a, j⟩, runs, ⟨left, right, hole, split, whole, atEnd, larger⟩, stopped⟩ :=
    whileLoop_ensures (Shifted compareTo x sorted rest) _ (fun _ shifted => shifted.step) start
  simp only at whole atEnd
  subst whole split
  have stop : ∀ y, left.getLast? = some y → ¬ compareTo x y < 0 := by
    intro y last
    obtain ⟨front, concat⟩ := List.getLast?_eq_some_iff.mp last
    subst concat
    rw [shifts_concat atEnd] at stopped
    exact of_decide_eq_false (Except.ok.inj stopped)
  have above : j + 1 = left.length := by omega
  refine ⟨left ++ x :: (right ++ rest), ?_, left ++ x :: right, .next built larger stop, by simp⟩
  simp only [insertStep, arrayGet_of_slot (slot_append_cons position), ok_bind]
  refine runs.bind (Returns.of_eq fun _ => ?_)
  rw [arraySet_of_inBounds (inBounds_append_cons above), store_append_cons above]

end

theorem InsertsEach.perm {a b : List α} (built : InsertsEach compareTo a b) : b.Perm a := by
  induction built with
  | nil => exact List.Perm.refl []
  | @next taken left right x _ _ _ ih =>
    exact (List.perm_middle.trans (ih.cons x)).trans (List.perm_append_singleton x taken).symm

/-- The outer loop before its pass with the counter `i`. -/
def Inserted (a : List α) (i : Int) (state : List α) : Prop :=
  ∃ taken rest sorted, a = taken ++ rest ∧ i = taken.length ∧ InsertsEach compareTo taken sorted ∧
    state = sorted ++ rest

theorem Inserted.step {a state : List α} {i : Int} (upper : i ≤ a.length - 1)
    (inserted : Inserted compareTo a i state) :
    Ensures (fun fuel => insertStep compareTo fuel i state) (Inserted compareTo a (i + 1)) := by
  obtain ⟨taken, rest, sorted, whole, position, built, same⟩ := inserted
  subst whole same
  cases rest with
  | nil =>
    rw [List.append_nil] at upper
    omega
  | cons x rest =>
    have length := (built.perm compareTo).length_eq
    refine (insertStep_ensures (by omega) built).mono fun next ⟨longer, built, same⟩ => ?_
    exact ⟨taken ++ [x], rest, longer, by simp, by simp [position], built, same⟩

theorem insertSort_ensures (a : List α) :
    Ensures (fun fuel => insertSort compareTo fuel a) (InsertsEach compareTo a) := by
  cases a with
  | nil => exact ⟨[], Returns.of_eq fun _ => forUp_empty (by simp), .nil⟩
  | cons x rest =>
    have first : InsertsEach compareTo ([] ++ [x]) ([] ++ x :: []) := .next .nil (by simp) (by simp)
    have start : Inserted compareTo (x :: rest) 1 (x :: rest) :=
      ⟨[x], rest, [x], rfl, rfl, first, rfl⟩
    have loop := forUp_ensures (Inserted compareTo (x :: rest))
      (fun i state _ upper inserted => inserted.step compareTo upper) (by simp) start
    refine loop.mono fun b ⟨taken, rest, sorted, whole, position, built, same⟩ => ?_
    have lengths := congrArg List.length whole
    rw [List.length_append] at lengths
    have none : rest = [] := List.eq_nil_of_length_eq_zero (by omega)
    subst none same
    rw [List.append_nil] at whole ⊢
    exact whole ▸ built

theorem InsertsEach.stablySorts {compareTo : α → α → Int} (order : TotalPreorderOn Set.univ compareTo)
    {a b : List α} (built : InsertsEach compareTo a b) : StablySorts compareTo 0 a b := by
  induction built with
  | nil => exact stablySorts_nil 0
  | next _ larger stop ih => exact ih.insert order larger stop

end BlogAlgorithms.InsertSort
