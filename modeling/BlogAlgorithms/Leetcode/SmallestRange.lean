import BlogAlgorithms.Java.Comparator
import BlogAlgorithms.Java.Exec
import Mathlib.Order.Bounds.Basic

namespace BlogAlgorithms.SmallestRange
open Java

/-- The method `OptionalInt.getAsInt`. -/
def getAsInt : Option Int → Exec Int
  | some value => .ok value
  | none => throwing .noSuchElement

def smallestRangeI (nums : List Int) (k : Int) : Exec Int := do
  let min ← getAsInt nums.min?
  let max ← getAsInt nums.max?
  let res := if wrap (max - min) ≤ wrap (2 * k) then 0 else wrap (wrap (max - min) - wrap (2 * k))
  .ok res

/-- The difference between the largest and the smallest element of a list. -/
def HasRange (values : List Int) (range : Int) : Prop :=
  ∃ min max, IsLeast {x | x ∈ values} min ∧ IsGreatest {x | x ∈ values} max ∧ range = max - min

/-- One offset for each element, none further from 0 than `k`. -/
structure Offsets (nums : List Int) (k : Int) (offsets : List Int) : Prop where
  length : offsets.length = nums.length
  bounded : ∀ offset ∈ offsets, -k ≤ offset ∧ offset ≤ k

/-- What the difference can become under all choices of offsets. -/
def ranges (nums : List Int) (k : Int) : Set Int :=
  {range | ∃ offsets, Offsets nums k offsets ∧ HasRange (List.zipWith (· + ·) nums offsets) range}

theorem getAsInt_min {nums : List Int} (nonempty : nums ≠ []) :
    ∃ min, getAsInt nums.min? = .ok min ∧ IsLeast {x | x ∈ nums} min := by
  obtain ⟨min, found⟩ := Option.isSome_iff_exists.mp (List.isSome_min?_of_ne_nil nonempty)
  rw [found]
  exact ⟨min, rfl, List.min?_eq_some_iff.mp found⟩

theorem getAsInt_max {nums : List Int} (nonempty : nums ≠ []) :
    ∃ max, getAsInt nums.max? = .ok max ∧ IsGreatest {x | x ∈ nums} max := by
  obtain ⟨max, found⟩ := Option.isSome_iff_exists.mp (List.isSome_max?_of_ne_nil nonempty)
  rw [found]
  exact ⟨max, rfl, List.max?_eq_some_iff.mp found⟩

section
variable {nums : List Int} {k low high : Int}

/-- Every element has a value no further from it than `k` after the offsets. -/
theorem Offsets.near {offsets : List Int} (chosen : Offsets nums k offsets) {x : Int} (member : x ∈ nums) :
    ∃ y ∈ List.zipWith (· + ·) nums offsets, x - k ≤ y ∧ y ≤ x + k := by
  obtain ⟨t, inside, rfl⟩ := List.mem_iff_getElem.mp member
  have offset : t < offsets.length := by rwa [chosen.length]
  obtain ⟨lower, upper⟩ := chosen.bounded offsets[t] (List.getElem_mem offset)
  have both : t < (List.zipWith (· + ·) nums offsets).length := by
    rw [List.length_zipWith]
    omega
  have value : (List.zipWith (· + ·) nums offsets)[t] = nums[t] + offsets[t] := List.getElem_zipWith
  refine ⟨(List.zipWith (· + ·) nums offsets)[t], List.getElem_mem both, ?_⟩
  rw [value]
  omega

/-- No choice brings the largest and the smallest element closer together. -/
theorem ranges_lower (least : IsLeast {x | x ∈ nums} low) (greatest : IsGreatest {x | x ∈ nums} high) :
    max 0 (high - low - 2 * k) ∈ lowerBounds (ranges nums k) := by
  rintro range ⟨offsets, chosen, first, last, isFirst, isLast, rfl⟩
  obtain ⟨y, memberY, _, upperY⟩ := chosen.near least.1
  obtain ⟨z, memberZ, lowerZ, _⟩ := chosen.near greatest.1
  have belowY := isFirst.2 memberY
  have belowZ := isFirst.2 memberZ
  have aboveZ := isLast.2 memberZ
  omega

/-- The new value of an element: the elements move towards the middle of the
range, and meet there if they can. -/
def moved (low high k x : Int) : Int := max (low + k) (min (high - k) x)

theorem moved_le {x y : Int} (below : x ≤ y) : moved low high k x ≤ moved low high k y := by
  unfold moved
  omega

theorem ranges_attained (nonneg : 0 ≤ k) (least : IsLeast {x | x ∈ nums} low)
    (greatest : IsGreatest {x | x ∈ nums} high) : max 0 (high - low - 2 * k) ∈ ranges nums k := by
  have bounds (x : Int) (member : x ∈ nums) : low ≤ x ∧ x ≤ high := ⟨least.2 member, greatest.2 member⟩
  have values : List.zipWith (· + ·) nums (nums.map fun x => moved low high k x - x) =
      nums.map (moved low high k) := by
    rw [List.zipWith_map_right, List.zipWith_self]
    exact List.map_congr_left fun x _ => by omega
  refine ⟨nums.map fun x => moved low high k x - x, ⟨List.length_map _, fun offset member => ?_⟩, ?_⟩
  · obtain ⟨x, memberX, rfl⟩ := List.mem_map.mp member
    obtain ⟨lower, upper⟩ := bounds x memberX
    unfold moved
    omega
  · rw [values]
    refine ⟨moved low high k low, moved low high k high, ⟨?_, ?_⟩, ⟨?_, ?_⟩, ?_⟩
    · exact List.mem_map_of_mem least.1
    · intro y member
      obtain ⟨x, memberX, rfl⟩ := List.mem_map.mp member
      exact moved_le (bounds x memberX).1
    · exact List.mem_map_of_mem greatest.1
    · intro y member
      obtain ⟨x, memberX, rfl⟩ := List.mem_map.mp member
      exact moved_le (bounds x memberX).2
    · have ordered := (bounds low least.1).2
      unfold moved
      omega

end

/-- The result is the smallest difference that a choice of offsets leaves. -/
theorem smallestRangeI_least {nums : List Int} {k : Int} (nonempty : nums ≠ []) (nonneg : 0 ≤ k)
    (fits : ∀ x ∈ nums, ∀ y ∈ nums, IsInt (x - y)) (double : IsInt (2 * k)) :
    ∃ res, smallestRangeI nums k = .ok res ∧ IsLeast (ranges nums k) res := by
  obtain ⟨low, runsMin, least⟩ := getAsInt_min nonempty
  obtain ⟨high, runsMax, greatest⟩ := getAsInt_max nonempty
  have whole := fits high greatest.1 low least.1
  have ordered : low ≤ high := least.2 greatest.1
  have rest : IsInt (high - low - 2 * k) := by
    unfold IsInt at *
    omega
  refine ⟨max 0 (high - low - 2 * k), ?_, ranges_attained nonneg least greatest, ranges_lower least greatest⟩
  simp only [smallestRangeI, runsMin, runsMax, ok_bind, wrap_of_isInt whole, wrap_of_isInt double,
    wrap_of_isInt rest]
  split
  · rw [max_eq_left (by omega)]
  · rw [max_eq_right (by omega)]

theorem smallestRangeI_least_main :
    ∃ res, smallestRangeI [9, 9, 2, 8, 7] 4 = .ok res ∧ IsLeast (ranges [9, 9, 2, 8, 7] 4) res :=
  smallestRangeI_least (by decide) (by decide) (by decide) (by decide)

end BlogAlgorithms.SmallestRange
