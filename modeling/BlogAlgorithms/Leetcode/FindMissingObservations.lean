import BlogAlgorithms.Java.Arithmetic
import BlogAlgorithms.Java.Array
import BlogAlgorithms.Java.Loop
import Mathlib.Algebra.BigOperators.Group.List.Basic
import Mathlib.Algebra.Order.BigOperators.Group.List
import Mathlib.Algebra.Field.Rat
import Mathlib.Tactic.Ring
import Mathlib.Tactic.Linarith

namespace BlogAlgorithms.FindMissingObservations
open Java

def total (rolls : List Int) : Exec Int :=
  forUp 0 (rolls.length - 1) (fun i sum => do .ok (wrap (sum + (← arrayGet rolls i)))) 0

/-- The two ways to fill `res` that the source has: the loop it runs, and the
slower one it keeps in the comment. -/
def distribute (sumMissed n : Int) : Exec (List Int) := do
  let res ← newArray n 0
  let meanMissed ← divide sumMissed n
  let rest ← remainder sumMissed n
  forUp 0 (n - 1) (fun i res => arraySet res i (wrap (meanMissed + if i < rest then 1 else 0))) res

def slowStep (n i : Int) (state : Int × List Int) : Exec (Int × List Int) := do
  let meanMissed ← divide state.1 (wrap (n - i))
  let res ← arraySet state.2 i meanMissed
  .ok (wrap (state.1 - meanMissed), res)

def distributeSlowly (sumMissed n : Int) : Exec (List Int) := do
  let res ← newArray n 0
  let final ← forUp 0 (n - 1) (slowStep n) (sumMissed, res)
  .ok final.2

def missingRollsBy (fill : Int → Int → Exec (List Int)) (rolls : List Int) (mean n : Int) : Exec (List Int) := do
  let m : Int := rolls.length
  let sum ← total rolls
  let sumMissed := wrap (wrap (mean * wrap (m + n)) - sum)
  if sumMissed < n ∨ sumMissed > wrap (n * 6) then .ok []
  else fill sumMissed n

def missingRolls : List Int → Int → Int → Exec (List Int) := missingRollsBy distribute

def missingRollsSlowly : List Int → Int → Int → Exec (List Int) := missingRollsBy distributeSlowly

/-- The array that a loop over its indices has filled so far. -/
def filling (values : List Int) (t : Nat) : List Int := values.take t ++ List.replicate (values.length - t) 0

theorem arraySet_filling {values : List Int} {t : Nat} (inside : t < values.length) :
    arraySet (filling values t) t values[t] = .ok (filling values (t + 1)) := by
  have front : (values.take t).length = t := List.length_take_of_le inside.le
  obtain ⟨rest, size⟩ : ∃ rest, values.length - t = rest + 1 := ⟨values.length - t - 1, by omega⟩
  have next : values.length - (t + 1) = rest := by omega
  rw [filling, size, List.replicate_succ, arraySet_of_inBounds (inBounds_append_cons (by rw [front])),
    store_append_cons (by rw [front]), filling, next, ← List.take_append_getElem inside, List.append_assoc]
  rfl

theorem filling_zero (values : List Int) : filling values 0 = List.replicate values.length 0 := by
  simp [filling]

theorem filling_full {values : List Int} {count : Nat} (size : values.length = count) :
    filling values count = values := by
  subst size
  simp [filling]

/-- A sum written with terms that differ by at most one, the larger ones first. -/
def evenly (q : Int) (r u : Nat) : List Int := List.replicate r (q + 1) ++ List.replicate u q

section Evenly

variable {q : Int} {r u : Nat}

@[simp] theorem length_evenly : (evenly q r u).length = r + u := by
  simp only [evenly, List.length_append, List.length_replicate]

theorem sum_evenly : (evenly q r u).sum = (r + u) * q + r := by
  simp only [evenly, List.sum_append, List.sum_replicate, nsmul_eq_mul]
  ring

theorem reverse_evenly : (evenly q r u).reverse = List.replicate u q ++ List.replicate r (q + 1) := by
  simp [evenly]

theorem mem_evenly {value : Int} (member : value ∈ evenly q r u) : (value = q + 1 ∧ 0 < r) ∨ value = q := by
  rcases List.mem_append.mp member with larger | smaller
  · exact Or.inl ⟨List.eq_of_mem_replicate larger, Nat.pos_of_ne_zero (List.mem_replicate.mp larger).1⟩
  · exact Or.inr (List.eq_of_mem_replicate smaller)

theorem getElem_evenly {t : Nat} (inside : t < (evenly q r u).length) :
    (evenly q r u)[t] = q + if t < r then 1 else 0 := by
  simp only [evenly, List.getElem_append, List.length_replicate, List.getElem_replicate]
  split <;> simp

theorem getElem_reverse_evenly {t : Nat} (inside : t < (evenly q r u).reverse.length) :
    (evenly q r u).reverse[t] = q + if t < u then 0 else 1 := by
  simp only [reverse_evenly, List.getElem_append, List.length_replicate, List.getElem_replicate]
  split <;> simp

end Evenly

theorem div_of_parts {q : Int} {r k : Nat} (positive : 0 < k) :
    ((k : Int) * q + (min r k : Nat)) / k = q + if r < k then 0 else 1 := by
  rw [Int.add_comm, Int.add_mul_ediv_left _ _ (by omega)]
  by_cases small : r < k
  · rw [if_pos small, Nat.min_eq_left small.le, Int.ediv_eq_zero_of_lt (by omega) (by omega)]
    omega
  · rw [if_neg small, Nat.min_eq_right (by omega), Int.ediv_self (by omega)]
    omega

/-- What the slower loop has left for its last `k` terms. -/
def left (q : Int) (r k : Nat) : Int := k * q + (min r k : Nat)

section Distribute

variable {q : Int} {r u : Nat}

theorem left_mono (nonneg : 0 ≤ q) {j k : Nat} (ordered : j ≤ k) : left q r j ≤ left q r k := by
  have products : (j : Int) * q ≤ k * q := Int.mul_le_mul_of_nonneg_right (by omega) nonneg
  unfold left
  omega

theorem left_nonneg (nonneg : 0 ≤ q) (k : Nat) : 0 ≤ left q r k := by
  have product : 0 ≤ (k : Int) * q := Int.mul_nonneg (by omega) nonneg
  unfold left
  omega

theorem left_isInt (nonneg : 0 ≤ q) {j k : Nat} (range : IsInt (left q r k)) (ordered : j ≤ k) :
    IsInt (left q r j) := by
  have lower := left_nonneg (r := r) nonneg j
  have upper := left_mono (r := r) nonneg ordered
  obtain ⟨_, bound⟩ := range
  exact ⟨by omega, by omega⟩

theorem left_total : left q r (r + u) = (r + u : Nat) * q + r := by
  rw [left, Nat.min_eq_left (by omega)]

theorem distribute_eq (nonneg : 0 ≤ q) (positive : 0 < u) (range : IsInt (left q r (r + u))) :
    distribute (left q r (r + u)) (r + u : Nat) = .ok (evenly q r u) := by
  have several : 0 < ((r + u : Nat) : Int) := by omega
  have quotient : left q r (r + u) / (r + u : Nat) = q := by
    rw [left, div_of_parts (by omega), if_pos (by omega), Int.add_zero]
  have rest : left q r (r + u) % (r + u : Nat) = r := by
    rw [left_total, Int.add_comm, Int.add_mul_emod_self_left]
    exact Int.emod_eq_of_lt (by omega) (by omega)
  have larger : q + r ≤ left q r (r + u) := by
    have product : 1 * q ≤ (r + u : Nat) * q := Int.mul_le_mul_of_nonneg_right (by omega) nonneg
    rw [left_total]
    omega
  have loop : forUp 0 ((r + u : Nat) - 1) (fun i res => arraySet res i (wrap (q + if i < r then 1 else 0)))
      (filling (evenly q r u) 0) = .ok (filling (evenly q r u) (r + u)) := by
    refine forUp_states (filling (evenly q r u)) (by omega) fun t inside => ?_
    have inside' : t < (evenly q r u).length := by rwa [length_evenly]
    have next := arraySet_filling inside'
    have small : wrap (q + if (t : Int) < r then 1 else 0) = (evenly q r u)[t] := by
      rw [getElem_evenly, wrap_of_isInt ⟨by split <;> omega, by have := range.2; split <;> omega⟩]
      simp only [Nat.cast_lt]
    rwa [Int.zero_add, small]
  rw [filling_zero, length_evenly, filling_full length_evenly] at loop
  simp only [distribute, newArray_of_nonneg several.le, divide_of_pos (left_nonneg nonneg _) range several,
    remainder_of_pos (left_nonneg nonneg _) several, quotient, rest, ok_bind, Int.toNat_natCast, loop]

theorem left_succ (k : Nat) : left q r (k + 1) = left q r k + (q + if r < k + 1 then 0 else 1) := by
  have product : ((k + 1 : Nat) : Int) * q = k * q + q := by
    push_cast
    ring
  unfold left
  rw [product]
  split <;> omega

/-- One step of the slower loop takes the next term of the reversed list. -/
theorem slowStep_eq (nonneg : 0 ≤ q) (range : IsInt (left q r (r + u))) (size : IsInt (r + u : Nat)) {t k : Nat}
    (remains : r + u = t + (k + 1)) :
    slowStep (r + u : Nat) t (left q r (k + 1), filling (evenly q r u).reverse t) =
      .ok (left q r k, filling (evenly q r u).reverse (t + 1)) := by
  have inside : t < (evenly q r u).reverse.length := by
    rw [List.length_reverse, length_evenly]
    omega
  have count : wrap ((r + u : Nat) - t) = (k + 1 : Nat) := by
    obtain ⟨_, upper⟩ := size
    rw [wrap_of_isInt ⟨by omega, by omega⟩]
    omega
  have term : left q r (k + 1) / (k + 1 : Nat) = q + if r < k + 1 then 0 else 1 :=
    div_of_parts (by omega)
  have place : (evenly q r u).reverse[t] = q + if r < k + 1 then 0 else 1 := by
    rw [getElem_reverse_evenly]
    split <;> split <;> omega
  have taken : left q r (k + 1) - (q + if r < k + 1 then 0 else 1) = left q r k := by
    rw [left_succ]
    omega
  have divided := divide_of_pos (left_nonneg nonneg (k + 1)) (left_isInt nonneg range (by omega : k + 1 ≤ r + u))
    (show 0 < ((k + 1 : Nat) : Int) by omega)
  have filled := arraySet_filling inside
  rw [place] at filled
  simp only [slowStep, count, divided, term, ok_bind, filled, taken,
    wrap_of_isInt (left_isInt nonneg range (by omega : k ≤ r + u))]

theorem distributeSlowly_eq (nonneg : 0 ≤ q) (range : IsInt (left q r (r + u)))
    (size : IsInt (r + u : Nat)) :
    distributeSlowly (left q r (r + u)) (r + u : Nat) = .ok (evenly q r u).reverse := by
  have loop : forUp 0 ((r + u : Nat) - 1) (slowStep (r + u : Nat))
      (left q r (r + u - 0), filling (evenly q r u).reverse 0) =
        .ok (left q r (r + u - (r + u)), filling (evenly q r u).reverse (r + u)) := by
    refine forUp_states (fun t => (left q r (r + u - t), filling (evenly q r u).reverse t)) (by omega)
      fun t inside => ?_
    obtain ⟨k, remains⟩ : ∃ k, r + u = t + (k + 1) := ⟨r + u - t - 1, by omega⟩
    have here : r + u - t = k + 1 := by omega
    have next : r + u - (t + 1) = k := by omega
    rw [Int.zero_add, here, next]
    exact slowStep_eq nonneg range size remains
  have length : (evenly q r u).reverse.length = r + u := by rw [List.length_reverse, length_evenly]
  rw [Nat.sub_zero, filling_zero, length, filling_full length] at loop
  simp only [distributeSlowly, newArray_of_nonneg (show 0 ≤ ((r + u : Nat) : Int) by omega), Int.toNat_natCast,
    ok_bind, loop]

end Distribute

/-- The missed rolls that the problem asks for. -/
structure Completes (rolls : List Int) (mean n : Int) (missed : List Int) : Prop where
  length : missed.length = n
  dice : ∀ value ∈ missed, 1 ≤ value ∧ value ≤ 6
  average : ((rolls ++ missed).sum : ℚ) / (rolls ++ missed).length = mean

def shortfall (rolls : List Int) (mean n : Int) : Int := mean * (rolls.length + n) - rolls.sum

section Spec

variable {rolls : List Int} {mean n : Int}

theorem average_iff {missed : List Int} (positive : 1 ≤ n) (length : missed.length = n) :
    ((rolls ++ missed).sum : ℚ) / (rolls ++ missed).length = mean ↔ missed.sum = shortfall rolls mean n := by
  subst length
  have nonzero : ((rolls ++ missed).length : ℚ) ≠ 0 := by
    rw [List.length_append]
    exact_mod_cast (by omega : rolls.length + missed.length ≠ 0)
  rw [div_eq_iff nonzero, List.sum_append, List.length_append, shortfall]
  norm_cast
  push_cast
  omega

theorem sum_bounds {missed : List Int} (dice : ∀ value ∈ missed, 1 ≤ value ∧ value ≤ 6) :
    missed.length ≤ missed.sum ∧ missed.sum ≤ 6 * missed.length := by
  induction missed with
  | nil => simp
  | cons value rest ih =>
    obtain ⟨here, others⟩ := List.forall_mem_cons.mp dice
    have bounds := ih others
    rw [List.sum_cons, List.length_cons]
    push_cast
    omega

theorem total_eq (rolls : List Int) : total rolls = .ok (wrap rolls.sum) := by
  have loop : ∃ final, total rolls = .ok final ∧ final = wrap rolls.sum := by
    refine forUp_elements (fun front sum => sum = wrap front.sum) ?_ rfl
    intro front value back sum split same
    have atFront : slot rolls front.length = some value := by
      rw [split, slot_append_cons rfl]
    refine ⟨_, by rw [arrayGet_of_slot atFront, ok_bind], ?_⟩
    rw [same, wrap_add_wrap_left, List.sum_append, List.sum_singleton]
  obtain ⟨final, runs, rfl⟩ := loop
  exact runs

/-- The quotient and the remainder of a sum that dice can make. -/
theorem exists_parts {sum : Int} (positive : 1 ≤ n) (lower : n ≤ sum) (upper : sum ≤ 6 * n) :
    ∃ (q : Int) (r u : Nat), 0 < u ∧ n = (r + u : Nat) ∧ sum = left q r (r + u) ∧ 1 ≤ q ∧ q ≤ 6 ∧
      (0 < r → q + 1 ≤ 6) := by
  have parts := Int.mul_ediv_add_emod sum n
  have small := Int.emod_lt_of_pos sum (show 0 < n by omega)
  have nonneg := Int.emod_nonneg sum (show n ≠ 0 by omega)
  refine ⟨sum / n, (sum % n).toNat, (n - sum % n).toNat, by omega, by omega, ?_, ?_, ?_, ?_⟩
  · rw [left_total]
    have size : (((sum % n).toNat + (n - sum % n).toNat : Nat) : Int) = n := by omega
    rw [size]
    omega
  · exact (Int.le_ediv_iff_mul_le (by omega)).mpr (by omega)
  · exact Int.le_of_lt_add_one ((Int.ediv_lt_iff_lt_mul (by omega)).mpr (by omega))
  · intro rest
    have inexact : sum ≠ 6 * n := by
      rintro rfl
      rw [Int.mul_emod_left] at rest
      exact absurd rest (by decide)
    have less : sum / n < 6 := (Int.ediv_lt_iff_lt_mul (by omega)).mpr (by omega)
    omega

theorem dice_evenly {q : Int} {r u : Nat} (atLeast : 1 ≤ q) (atMost : q ≤ 6) (larger : 0 < r → q + 1 ≤ 6) :
    ∀ value ∈ evenly q r u, 1 ≤ value ∧ value ≤ 6 := by
  intro value member
  rcases mem_evenly member with ⟨rfl, some⟩ | rfl
  · have := larger some
    omega
  · exact ⟨atLeast, atMost⟩

theorem exists_completes_iff (positive : 1 ≤ n) :
    (∃ missed, Completes rolls mean n missed) ↔ n ≤ shortfall rolls mean n ∧ shortfall rolls mean n ≤ 6 * n := by
  constructor
  · rintro ⟨missed, length, dice, average⟩
    rw [← (average_iff positive length).mp average, ← length]
    exact sum_bounds dice
  · rintro ⟨lower, upper⟩
    obtain ⟨q, r, u, _, size, sum, atLeast, atMost, larger⟩ := exists_parts positive lower upper
    have length : (evenly q r u).length = n := by rw [length_evenly, size]
    refine ⟨evenly q r u, length, dice_evenly atLeast atMost larger, (average_iff positive length).mpr ?_⟩
    rw [sum, left_total, sum_evenly, Nat.cast_add]

/-- The guard of the source, which sees the difference only after it has been
cut to 32 bits. -/
theorem guard_iff {product sum : Int} (positive : 1 ≤ n) (productFits : IsInt product) (sumFits : IsInt sum)
    (boundFits : IsInt (6 * n)) (unwrapped : ¬ (n ≤ product - sum + 2 ^ 32 ∧ product - sum + 2 ^ 32 ≤ 6 * n)) :
    (wrap (product - sum) < n ∨ wrap (product - sum) > 6 * n) ↔ ¬ (n ≤ product - sum ∧ product - sum ≤ 6 * n) := by
  unfold IsInt at productFits sumFits boundFits
  unfold wrap
  rw [Int.bmod_def]
  split <;> omega

theorem missingRollsBy_eq (fill : Int → Int → Exec (List Int)) (positive : 1 ≤ n) (sumFits : IsInt rolls.sum)
    (productFits : IsInt (mean * (rolls.length + n))) (boundFits : IsInt (6 * n))
    (unwrapped : ¬ (n ≤ shortfall rolls mean n + 2 ^ 32 ∧ shortfall rolls mean n + 2 ^ 32 ≤ 6 * n)) :
    missingRollsBy fill rolls mean n =
      if n ≤ shortfall rolls mean n ∧ shortfall rolls mean n ≤ 6 * n then fill (shortfall rolls mean n) n
      else .ok [] := by
  have guard := guard_iff positive productFits sumFits boundFits unwrapped
  simp only [missingRollsBy, total_eq, ok_bind, wrap_of_isInt sumFits, wrap_mul_wrap_right,
    wrap_of_isInt productFits, Int.mul_comm n 6, wrap_of_isInt boundFits]
  by_cases feasible : n ≤ shortfall rolls mean n ∧ shortfall rolls mean n ≤ 6 * n
  · obtain ⟨lower, upper⟩ := feasible
    have fits : wrap (shortfall rolls mean n) = shortfall rolls mean n :=
      wrap_of_isInt ⟨by omega, by have := boundFits.2; omega⟩
    rw [if_neg (fun rejected => guard.mp rejected ⟨lower, upper⟩), if_pos ⟨lower, upper⟩]
    exact congrArg (fill · n) fits
  · rw [if_pos (guard.mpr feasible), if_neg feasible]

end Spec

theorem missingRolls_spec (rolls : List Int) (mean n : Int) (positive : 1 ≤ n) (sumFits : IsInt rolls.sum)
    (productFits : IsInt (mean * (rolls.length + n))) (boundFits : IsInt (6 * n))
    (unwrapped : ¬ (n ≤ mean * (rolls.length + n) - rolls.sum + 2 ^ 32 ∧
      mean * (rolls.length + n) - rolls.sum + 2 ^ 32 ≤ 6 * n)) :
    ∃ res, missingRolls rolls mean n = .ok res ∧ (res = [] ↔ ¬ ∃ missed, Completes rolls mean n missed) ∧
      ((∃ missed, Completes rolls mean n missed) → res.length = n ∧ (∀ value ∈ res, 1 ≤ value ∧ value ≤ 6) ∧
        res.sum = mean * (rolls.length + n) - rolls.sum ∧
        ∃ slow, missingRollsSlowly rolls mean n = .ok slow ∧ res = slow.reverse) := by
  have fast := missingRollsBy_eq distribute positive sumFits productFits boundFits unwrapped
  have slow := missingRollsBy_eq distributeSlowly positive sumFits productFits boundFits unwrapped
  rw [missingRolls, missingRollsSlowly, fast, slow, exists_completes_iff positive]
  by_cases feasible : n ≤ shortfall rolls mean n ∧ shortfall rolls mean n ≤ 6 * n
  · obtain ⟨q, r, u, others, size, sum, atLeast, atMost, larger⟩ := exists_parts positive feasible.1 feasible.2
    have range : IsInt (left q r (r + u)) := sum ▸ ⟨by omega, by have := boundFits.2; omega⟩
    have count : IsInt (r + u : Nat) := size ▸ ⟨by omega, by have := boundFits.2; omega⟩
    have nonempty : evenly q r u ≠ [] := by
      rw [← List.length_pos_iff, length_evenly]
      omega
    refine ⟨evenly q r u, ?_, iff_of_false nonempty (not_not_intro feasible), fun _ => ⟨?_, ?_, ?_, ?_⟩⟩
    · rw [if_pos feasible, sum, size, distribute_eq (by omega) others range]
    · rw [length_evenly, size]
    · exact dice_evenly atLeast atMost larger
    · change (evenly q r u).sum = shortfall rolls mean n
      rw [sum, left_total, sum_evenly, Nat.cast_add]
    · refine ⟨(evenly q r u).reverse, ?_, (List.reverse_reverse _).symm⟩
      rw [if_pos feasible, sum, size, distributeSlowly_eq (by omega) range count]
  · exact ⟨[], if_neg feasible, iff_of_true rfl feasible, fun possible => absurd possible feasible⟩

theorem missingRolls_spec_two :
    ∃ res, missingRolls [1, 5, 6] 3 4 = .ok res ∧ res.length = (4 : Int) ∧ res.sum = 9 := by
  obtain ⟨res, runs, _, found⟩ :=
    missingRolls_spec [1, 5, 6] 3 4 (by decide) (by decide) (by decide) (by decide) (by decide)
  have possible : ∃ missed, Completes [1, 5, 6] 3 4 missed :=
    (exists_completes_iff (by decide)).mpr (by decide)
  obtain ⟨length, _, sum, _⟩ := found possible
  exact ⟨res, runs, length, sum⟩

/-- The difference is `1 - 2 ^ 32`, which 32 bits do not tell from `1`. -/
theorem missingRolls_wrapped :
    IsInt [2147483647].sum ∧ IsInt (-1073741824 * ((1 : Int) + 1)) ∧ IsInt (6 * 1) ∧
      missingRolls [2147483647] (-1073741824) 1 = .ok [1] ∧
      ¬ ∃ missed, Completes [2147483647] (-1073741824) 1 missed := by
  refine ⟨by decide, by decide, by decide, rfl, ?_⟩
  rw [exists_completes_iff (by decide)]
  decide

end BlogAlgorithms.FindMissingObservations
