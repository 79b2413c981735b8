import BlogAlgorithms.Java.Exec

namespace Java
universe u

/-- A Java array is the list of its slots, indexed by an int. -/
def InBounds {α : Type u} (a : List α) (i : Int) : Prop := 0 ≤ i ∧ i < a.length

instance {α : Type u} (a : List α) (i : Int) : Decidable (InBounds a i) :=
  inferInstanceAs (Decidable (_ ∧ _))

def slot {α : Type u} (a : List α) (i : Int) : Option α :=
  if 0 ≤ i then a[i.toNat]? else none

/-- Read a slot, or end with the exception of the container. -/
def readOr {α : Type u} (exception : Throwable) (a : List α) (i : Int) : Exec α :=
  match slot a i with
  | some value => .ok value
  | none => throwing exception

/-- The array after a store at an index in bounds. -/
def store {α : Type u} (a : List α) (i : Int) (value : α) : List α := a.set i.toNat value

def writeOr {α : Type u} (exception : Throwable) (a : List α) (i : Int) (value : α) :
    Exec (List α) :=
  if InBounds a i then .ok (store a i value) else throwing exception

/-- The expression `a[i]`. -/
def arrayGet {α : Type u} : List α → Int → Exec α := readOr .arrayIndexOutOfBounds

/-- The statement `a[i] = value`. -/
def arraySet {α : Type u} : List α → Int → α → Exec (List α) := writeOr .arrayIndexOutOfBounds

/-- The expression `new T[length]`, whose slots hold the default of `T`. -/
def newArray {α : Type u} (length : Int) (default : α) : Exec (List α) :=
  if length < 0 then throwing .negativeArraySize else .ok (List.replicate length.toNat default)

/-- The methods `get`, `set` and `add(index, element)` of `ArrayList`. -/
def listGet {α : Type u} : List α → Int → Exec α := readOr .indexOutOfBounds

def listSet {α : Type u} : List α → Int → α → Exec (List α) := writeOr .indexOutOfBounds

def listAdd {α : Type u} (a : List α) (index : Int) (element : α) : Exec (List α) :=
  if 0 ≤ index ∧ index ≤ a.length then .ok (a.insertIdx index.toNat element)
  else throwing .indexOutOfBounds

/-- The method `remove(index)` of `ArrayList`. -/
def listRemove {α : Type u} (a : List α) (index : Int) : Exec (List α) :=
  if InBounds a index then .ok (a.eraseIdx index.toNat) else throwing .indexOutOfBounds

/-- The method `charAt` of `String`. -/
def charAt {C : Type u} : List C → Int → Exec C := readOr .indexOutOfBounds

/-- The methods `remove()` and `element()` of a `Queue`, whose head is the
first element. -/
def queueRemove {α : Type u} : List α → Exec (α × List α)
  | [] => throwing .noSuchElement
  | head :: rest => .ok (head, rest)

def queueElement {α : Type u} : List α → Exec α
  | [] => throwing .noSuchElement
  | head :: _ => .ok head

theorem slot_eq_some {α : Type u} {a : List α} {i : Int} {value : α} :
    slot a i = some value ↔ 0 ≤ i ∧ a[i.toNat]? = some value := by
  unfold slot
  split
  · rename_i lower
    simp only [lower, true_and]
  · rename_i negative
    simp only [negative, false_and, reduceCtorEq]

@[simp] theorem slot_natCast {α : Type u} (a : List α) (n : Nat) : slot a n = a[n]? := by
  simp only [slot, Int.natCast_nonneg, if_true, Int.toNat_natCast]

theorem inBounds_iff_slot {α : Type u} {a : List α} {i : Int} :
    InBounds a i ↔ ∃ value, slot a i = some value := by
  constructor
  · rintro ⟨lower, upper⟩
    have inside : i.toNat < a.length := by omega
    exact ⟨a[i.toNat], slot_eq_some.mpr ⟨lower, List.getElem?_eq_getElem inside⟩⟩
  · rintro ⟨value, atValue⟩
    obtain ⟨lower, found⟩ := slot_eq_some.mp atValue
    obtain ⟨inside, _⟩ := List.getElem?_eq_some_iff.mp found
    exact ⟨lower, by omega⟩

theorem InBounds.of_slot {α : Type u} {a : List α} {i : Int} {value : α}
    (found : slot a i = some value) : InBounds a i :=
  inBounds_iff_slot.mpr ⟨value, found⟩

theorem readOr_of_slot {α : Type u} {exception : Throwable} {a : List α} {i : Int} {value : α}
    (found : slot a i = some value) : readOr exception a i = .ok value := by
  simp only [readOr, found]

theorem arrayGet_of_slot {α : Type u} {a : List α} {i : Int} {value : α}
    (found : slot a i = some value) : arrayGet a i = .ok value := readOr_of_slot found

theorem arrayGet_of_neg {α : Type u} {a : List α} {i : Int} (negative : i < 0) :
    arrayGet a i = throwing .arrayIndexOutOfBounds := by
  simp only [arrayGet, readOr, slot, Int.not_le.mpr negative, if_false]

theorem arraySet_of_inBounds {α : Type u} {a : List α} {i : Int} (inside : InBounds a i)
    (value : α) : arraySet a i value = .ok (store a i value) := by
  simp only [arraySet, writeOr, inside, if_true]

theorem arraySet_of_outside {α : Type u} {a : List α} {i : Int} (outside : ¬ InBounds a i)
    (value : α) : arraySet a i value = throwing .arrayIndexOutOfBounds := by
  simp only [arraySet, writeOr, outside, if_false]

theorem arrayGet_eq_ok {α : Type u} {a : List α} {i : Int} {value : α} (read : arrayGet a i = .ok value) :
    slot a i = some value := by
  unfold arrayGet readOr at read
  split at read
  · rename_i found
    rwa [Except.ok.inj read] at found
  · cases read

theorem arraySet_eq_ok {α : Type u} {a b : List α} {i : Int} {value : α} (written : arraySet a i value = .ok b) :
    InBounds a i ∧ b = store a i value := by
  by_cases inside : InBounds a i
  · rw [arraySet_of_inBounds inside] at written
    exact ⟨inside, (Except.ok.inj written).symm⟩
  · rw [arraySet_of_outside inside] at written
    cases written

theorem newArray_of_nonneg {α : Type u} {length : Int} (lower : 0 ≤ length) (default : α) :
    newArray length default = .ok (List.replicate length.toNat default) := by
  simp only [newArray, Int.not_lt.mpr lower, if_false]

@[simp] theorem length_store {α : Type u} (a : List α) (i : Int) (value : α) :
    (store a i value).length = a.length := List.length_set

/-- A store changes the slot it names and no other. -/
theorem slot_store {α : Type u} {a : List α} {i : Int} (inside : InBounds a i) (value : α)
    (j : Int) : slot (store a i value) j = if j = i then some value else slot a j := by
  obtain ⟨lower, upper⟩ := inside
  have bound : i.toNat < a.length := by omega
  by_cases same : j = i
  · subst same
    simp only [slot, store, lower, if_true, List.getElem?_set_self bound]
  · rw [if_neg same]
    unfold slot store
    split
    · rename_i nonneg
      exact List.getElem?_set_ne (by omega)
    · rfl

theorem slot_ext {α : Type u} {a b : List α} (same : ∀ i, slot a i = slot b i) : a = b := by
  refine List.ext_getElem? fun n => ?_
  have atN := same n
  rwa [slot_natCast, slot_natCast] at atN

theorem store_self {α : Type u} {a : List α} {i : Int} {value : α} (found : slot a i = some value) :
    store a i value = a := by
  refine slot_ext fun k => ?_
  rw [slot_store (.of_slot found)]
  split
  · rename_i same
    rw [same, found]
  · rfl

theorem inBounds_congr {α : Type u} {a b : List α} (length : b.length = a.length) {i : Int} :
    InBounds b i ↔ InBounds a i := by
  unfold InBounds
  rw [length]

theorem InBounds.store {α : Type u} {a : List α} {i : Int} (inside : InBounds a i) (j : Int) (value : α) :
    InBounds (store a j value) i := (inBounds_congr (length_store a j value)).mpr inside

theorem slot_replicate {α : Type u} {length i : Int} (default : α)
    (lower : 0 ≤ i) (upper : i < length) :
    slot (List.replicate length.toNat default) i = some default := by
  have bound : i.toNat < length.toNat := by omega
  simp only [slot, lower, if_true, List.getElem?_replicate, bound]

theorem slot_append_cons {α : Type u} {front back : List α} {value : α} {i : Int}
    (position : i = front.length) : slot (front ++ value :: back) i = some value := by
  subst position
  simp

theorem store_append_cons {α : Type u} {front back : List α} {old value : α} {i : Int}
    (position : i = front.length) :
    store (front ++ old :: back) i value = front ++ value :: back := by
  subst position
  simp [store]

theorem slot_concat {α : Type u} (a : List α) (last : α) (i : Int) :
    slot (a ++ [last]) i = if i = a.length then some last else slot a i := by
  by_cases atLast : i = a.length
  · rw [if_pos atLast, slot_append_cons atLast]
  · rw [if_neg atLast]
    unfold slot
    split
    · rw [List.getElem?_append, List.getElem?_singleton]
      split
      · rfl
      · rw [if_neg (by omega), List.getElem?_eq_none (by omega)]
    · rfl

theorem slot_dropLast {α : Type u} (a : List α) (i : Int) :
    slot a.dropLast i = if i < a.length - 1 then slot a i else none := by
  unfold slot
  split
  · rw [List.getElem?_dropLast]
    by_cases inside : i < a.length - 1
    · rw [if_pos inside, if_pos (by omega)]
    · rw [if_neg inside, if_neg (by omega)]
  · rw [ite_self]

/-- The slots of an array whose last element has been moved into another. -/
theorem slot_moveLast {α : Type u} {a : List α} {index i : Int} (inside : InBounds a index) (last value : α) :
    slot (store a index last).dropLast i = some value ↔
      i < a.length - 1 ∧ (i = index ∧ last = value ∨ i ≠ index ∧ slot a i = some value) := by
  rw [slot_dropLast, length_store, slot_store inside]
  by_cases before : i < a.length - 1
  · by_cases same : i = index
    · simp [same]
    · simp [before, same]
  · simp [before]

theorem listRemove_last {α : Type u} {a : List α} (nonempty : a ≠ []) :
    listRemove a (a.length - 1) = .ok a.dropLast := by
  have positive := List.length_pos_iff.mpr nonempty
  have inside : InBounds a (a.length - 1) := ⟨by omega, by omega⟩
  simp only [listRemove, inside, if_true]
  rw [show ((a.length : Int) - 1).toNat = a.length - 1 by omega, List.eraseIdx_length_sub_one]

theorem insertIdx_length {α : Type u} (front back : List α) (element : α) :
    (front ++ back).insertIdx front.length element = front ++ element :: back := by
  induction front with
  | nil => rfl
  | cons head front ih => simp [ih]

/-- An insertion in bounds cuts the list at its index. -/
theorem listAdd_eq_ok {α : Type u} {a result : List α} {index : Int} {element : α} :
    listAdd a index element = .ok result ↔ ∃ front back,
      a = front ++ back ∧ index = front.length ∧ result = front ++ element :: back := by
  unfold listAdd
  constructor
  · intro added
    split at added
    · rename_i inside
      obtain ⟨lower, upper⟩ := inside
      have length : (a.take index.toNat).length = index.toNat := by
        rw [List.length_take]
        omega
      refine ⟨a.take index.toNat, a.drop index.toNat, (List.take_append_drop _ a).symm, by omega, ?_⟩
      have inserted := insertIdx_length (a.take index.toNat) (a.drop index.toNat) element
      rw [List.take_append_drop, length] at inserted
      rw [← inserted]
      exact (Except.ok.inj added).symm
    · exact absurd added (by simp [throwing])
  · rintro ⟨front, back, whole, position, same⟩
    subst whole position same
    rw [if_pos ⟨by omega, by rw [List.length_append]; omega⟩, Int.toNat_natCast, insertIdx_length]

theorem mem_iff_slot {α : Type u} {a : List α} {value : α} :
    value ∈ a ↔ ∃ i, slot a i = some value := by
  constructor
  · intro member
    obtain ⟨n, found⟩ := List.mem_iff_getElem?.mp member
    exact ⟨n, by rw [slot_natCast, found]⟩
  · rintro ⟨i, found⟩
    exact List.mem_of_getElem? (slot_eq_some.mp found).2

theorem slot_rel {α : Type u} {a : List α} {r : α → α → Prop} (sorted : a.Pairwise r) {i j : Int} {x y : α}
    (atI : slot a i = some x) (atJ : slot a j = some y) (before : i < j) : r x y := by
  obtain ⟨lowI, foundI⟩ := slot_eq_some.mp atI
  obtain ⟨lowJ, foundJ⟩ := slot_eq_some.mp atJ
  obtain ⟨insideI, rfl⟩ := List.getElem?_eq_some_iff.mp foundI
  obtain ⟨insideJ, rfl⟩ := List.getElem?_eq_some_iff.mp foundJ
  exact List.pairwise_iff_getElem.mp sorted _ _ insideI insideJ (by omega)

/-- The slots `lo..hi` of the array hold exactly this piece. -/
def Segment {α : Type u} (a : List α) (lo hi : Int) (piece : List α) : Prop :=
  ∃ front back, a = front ++ (piece ++ back) ∧ lo = front.length ∧ hi = lo + piece.length - 1

theorem Segment.whole {α : Type u} (a : List α) : Segment a 0 (a.length - 1) a :=
  ⟨[], [], by simp, rfl, by omega⟩

theorem Segment.stop {α : Type u} {a : List α} {lo hi : Int} {piece : List α}
    (range : Segment a lo hi piece) : hi = lo + piece.length - 1 := by
  obtain ⟨_, _, _, _, last⟩ := range
  exact last

theorem Segment.head {α : Type u} {a : List α} {lo hi : Int} {value : α} {rest : List α}
    (range : Segment a lo hi (value :: rest)) : slot a lo = some value := by
  obtain ⟨front, back, rfl, first, _⟩ := range
  exact slot_append_cons first

theorem Segment.tail {α : Type u} {a : List α} {lo hi : Int} {value : α} {rest : List α}
    (range : Segment a lo hi (value :: rest)) : Segment a (lo + 1) hi rest := by
  obtain ⟨front, back, rfl, first, last⟩ := range
  refine ⟨front ++ [value], back, by simp, by simp [first], ?_⟩
  simp only [List.length_cons] at last
  omega

theorem Segment.append_left {α : Type u} {a : List α} {lo hi : Int} {left right : List α}
    (range : Segment a lo hi (left ++ right)) : Segment a lo (lo + left.length - 1) left := by
  obtain ⟨front, back, rfl, first, _⟩ := range
  exact ⟨front, right ++ back, by simp, first, rfl⟩

theorem Segment.append_right {α : Type u} {a : List α} {lo hi : Int} {left right : List α}
    (range : Segment a lo hi (left ++ right)) : Segment a (lo + left.length) hi right := by
  obtain ⟨front, back, rfl, first, last⟩ := range
  refine ⟨front ++ left, back, by simp, by simp [first], ?_⟩
  simp only [List.length_append] at last
  omega

theorem Segment.mem {α : Type u} {a : List α} {lo hi : Int} {values : List α}
    (range : Segment a lo hi values) {k : Int} (lower : lo ≤ k) (upper : k ≤ hi) :
    ∃ value ∈ values, slot a k = some value := by
  obtain ⟨front, back, rfl, first, last⟩ := range
  have inside : (k - lo).toNat < values.length := by omega
  refine ⟨values[(k - lo).toNat], List.getElem_mem inside, slot_eq_some.mpr ⟨by omega, ?_⟩⟩
  rw [List.getElem?_append_right (by omega), List.getElem?_append_left (by omega),
    show k.toNat - front.length = (k - lo).toNat by omega]
  exact List.getElem?_eq_getElem inside

theorem Segment.inside {α : Type u} {a : List α} {lo hi : Int} {piece : List α}
    (range : Segment a lo hi piece) : 0 ≤ lo ∧ hi < a.length := by
  obtain ⟨front, back, rfl, first, last⟩ := range
  simp only [List.length_append]
  omega

/-- The slot after a beginning of a segment holds its next element. -/
theorem Segment.next {α : Type u} {a : List α} {lo hi : Int} {done rest : List α}
    (range : Segment a lo hi (done ++ rest)) {k : Int} (position : k = lo + done.length) (upper : k ≤ hi) :
    ∃ value tail, rest = value :: tail ∧ slot a k = some value := by
  have onRest := range.append_right
  cases rest with
  | nil =>
    have stop := onRest.stop
    simp only [List.length_nil] at stop
    omega
  | cons value tail => exact ⟨value, tail, rfl, position ▸ onRest.head⟩

theorem Segment.nil {α : Type u} {a : List α} {lo : Int} (lower : 0 ≤ lo) (upper : lo ≤ a.length) :
    Segment a lo (lo - 1) [] := by
  refine ⟨a.take lo.toNat, a.drop lo.toNat, by simp, ?_, by simp⟩
  rw [List.length_take]
  omega

/-- A store right after a segment makes it one slot longer. -/
theorem Segment.extend {α : Type u} {a : List α} {lo k : Int} {piece : List α}
    (range : Segment a lo (k - 1) piece) (inside : InBounds a k) (value : α) :
    Segment (store a k value) lo k (piece ++ [value]) := by
  obtain ⟨front, back, rfl, first, last⟩ := range
  have position : k = (front ++ piece).length := by
    rw [List.length_append]
    omega
  cases back with
  | nil =>
    have upper := inside.2
    simp only [List.append_nil] at upper
    omega
  | cons old back =>
    rw [← List.append_assoc, store_append_cons position]
    refine ⟨front, back, by simp, first, ?_⟩
    rw [List.length_append, List.length_singleton]
    omega

theorem set_set_perm_of {α : Type u} {a : List α} {i j : Nat} {x y : α} (atI : a[i]? = some x)
    (atJ : a[j]? = some y) : ((a.set i y).set j x).Perm a := by
  obtain ⟨boundI, rfl⟩ := List.getElem?_eq_some_iff.mp atI
  obtain ⟨boundJ, rfl⟩ := List.getElem?_eq_some_iff.mp atJ
  exact List.set_set_perm boundI boundJ

theorem append_of_getElem? {α : Type u} {a : List α} {t : Nat} {x : α} (atT : a[t]? = some x) :
    ∃ front back, a = front ++ x :: back ∧ front.length = t := by
  obtain ⟨bound, rfl⟩ := List.getElem?_eq_some_iff.mp atT
  refine ⟨a.take t, a.drop (t + 1), ?_, List.length_take_of_le bound.le⟩
  rw [← List.drop_eq_getElem_cons bound, List.take_append_drop]

theorem inBounds_append_cons {α : Type u} {front back : List α} {value : α} {i : Int}
    (position : i = front.length) : InBounds (front ++ value :: back) i :=
  .of_slot (slot_append_cons position)

end Java
