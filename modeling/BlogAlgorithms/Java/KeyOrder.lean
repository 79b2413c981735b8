import BlogAlgorithms.Java.Comparator

namespace Java

/-- Over the differences of two ints the 32-bit result has the right sign
exactly where it is the difference itself. -/
theorem sign_wrap_iff {x : Int} (lower : -2 ^ 32 < x) (upper : x < 2 ^ 32) :
    ((wrap x < 0 ↔ x < 0) ∧ (0 < wrap x ↔ 0 < x)) ↔ IsInt x := by
  constructor
  · rintro ⟨negative, positive⟩
    unfold wrap at negative positive
    rw [Int.bmod_def] at negative positive
    unfold IsInt
    split at negative <;> omega
  · intro range
    rw [wrap_of_isInt range]
    exact ⟨Iff.rfl, Iff.rfl⟩

variable {α : Type} (first second : α → Int)

/-- The order by the first key, and by the second among equal first keys. -/
def KeyBefore (x y : α) : Prop := first x < first y ∨ first x = first y ∧ second x < second y

/-- What a comparator of two keys subtracts, as an exact difference. -/
def keyDifference (x y : α) : Int := if first x ≠ first y then first x - first y else second x - second y

/-- The comparator finds for every pair of the set which one comes first. -/
def SignsOn (s : Set α) (compare : α → α → Int) (before : α → α → Prop) : Prop :=
  ∀ x ∈ s, ∀ y ∈ s, (compare x y < 0 ↔ before x y) ∧ (0 < compare x y ↔ before y x)

variable {first second}

theorem keyDifference_signs (x y : α) :
    (keyDifference first second x y < 0 ↔ KeyBefore first second x y) ∧
      (0 < keyDifference first second x y ↔ KeyBefore first second y x) := by
  unfold keyDifference KeyBefore
  split <;> omega

/-- A comparator that returns wrapped differences keeps the order of the keys
exactly on the sets whose differences do not wrap. -/
theorem wrapped_order_iff {s : Set α} {compare : α → α → Int}
    (subtracts : ∀ x ∈ s, ∀ y ∈ s, compare x y = wrap (keyDifference first second x y))
    (bounded : ∀ x ∈ s, ∀ y ∈ s, -2 ^ 32 < keyDifference first second x y ∧
      keyDifference first second x y < 2 ^ 32) :
    (TotalPreorderOn s compare ∧ SignsOn s compare (KeyBefore first second)) ↔
      ∀ x ∈ s, ∀ y ∈ s, IsInt (keyDifference first second x y) := by
  have signs (x : α) (inX : x ∈ s) (y : α) (inY : y ∈ s) :
      ((compare x y < 0 ↔ KeyBefore first second x y) ∧ (0 < compare x y ↔ KeyBefore first second y x)) ↔
        IsInt (keyDifference first second x y) := by
    obtain ⟨lower, upper⟩ := bounded x inX y inY
    obtain ⟨negative, positive⟩ := keyDifference_signs x y
    rw [subtracts x inX y inY, ← negative, ← positive, sign_wrap_iff lower upper]
  constructor
  · rintro ⟨_, agrees⟩ x inX y inY
    exact (signs x inX y inY).mp (agrees x inX y inY)
  · intro fits
    refine ⟨totalPreorderOn_of_keys first second fun x inX y inY => ?_, fun x inX y inY => ?_⟩
    · rw [subtracts x inX y inY, wrap_of_isInt (fits x inX y inY), keyDifference]
    · exact (signs x inX y inY).mpr (fits x inX y inY)

end Java
