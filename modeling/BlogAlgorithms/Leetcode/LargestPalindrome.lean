import BlogAlgorithms.Java.Arithmetic
import BlogAlgorithms.Java.Reach
import BlogAlgorithms.Lib.PalindromeProduct
import Mathlib.Data.Nat.SuccPred
import Mathlib.Order.SuccPred.Archimedean

namespace BlogAlgorithms.LargestPalindrome
open Java Palindrome

/-- The test `x > 0` of the loop over the digits, on `x` and `temp`. -/
def digitsLeft (state : Int × Int) : Exec Bool := .ok (state.1 > 0)

/-- The body `temp = temp * 10 + x % 10` of this loop, and its `x /= 10`. -/
def appendDigit (state : Int × Int) : Exec (Int × Int) :=
  let (x, temp) := state
  .ok (x.tdiv 10, temp * 10 + x.tmod 10)

/-- The palindrome `temp` of the left half. -/
def mirror (fuel : Nat) (upper : Int) : Exec Int := do
  let (_, temp) ← whileLoop digitsLeft (fun _ => appendDigit) fuel (upper, upper)
  .ok temp

/-- One pass of the loop over the divisors, on `i` and `res`. The square of
`i` is compared exactly. -/
def scanStep (temp : Int) (state : Int × Int) : Exec (Flow (Int × Int)) := do
  let (i, res) := state
  if i * i ≥ temp then do
    let rest ← remainder temp i
    if rest = 0 then .ok (.stop (i, temp.tmod 1337)) else .ok (.next (i - 1, res))
  else .ok (.stop (i, res))

def scan (temp : Int) : Nat → Int × Int → Exec (Int × Int) := loopForever fun _ => scanStep temp

/-- The test of the outer loop, on `res` and `upper`. -/
def searching (state : Int × Int) : Exec Bool := .ok (state.1 = 0)

/-- The body of the outer loop. -/
def searchStep (max : Int) (fuel : Nat) (state : Int × Int) : Exec (Int × Int) := do
  let (res, upper) := state
  let temp ← mirror fuel upper
  let (_, res) ← scan temp fuel (max, res)
  .ok (res, upper - 1)

def largestPalindrome (fuel : Nat) (n : Int) : Exec Int :=
  if n = 1 then .ok 9
  else do
    let max := 10 ^ n.toNat - 1
    let (res, _) ← whileLoop searching (searchStep max) fuel (0, max)
    .ok res

/-- The digits of `upper` that `x` has lost stand behind it in `temp`, the
last of them first. -/
def Mirroring (upper : Nat) (state : Int × Int) : Prop :=
  ∃ (x : Nat) (done : List Nat), Nat.digits 10 upper = done ++ Nat.digits 10 x ∧
    state = ((x : Int), ((Nat.ofDigits 10 (done.reverse ++ Nat.digits 10 upper) : Nat) : Int))

theorem Mirroring.step {upper : Nat} {state : Int × Int} (mirroring : Mirroring upper state)
    (left : state.1 > 0) :
    ∃ next, appendDigit state = .ok next ∧ Mirroring upper next ∧ next.1.toNat < state.1.toNat := by
  obtain ⟨x, done, split, rfl⟩ := mirroring
  have positive : 0 < x := by simpa using left
  have quotient : Int.tdiv x 10 = ((x / 10 : Nat) : Int) := rfl
  have digit : Int.tmod x 10 = ((x % 10 : Nat) : Int) := rfl
  rw [Nat.digits_def' Nat.one_lt_ofNat positive] at split
  refine ⟨_, rfl, ⟨x / 10, done ++ [x % 10], ?_, ?_⟩, ?_⟩
  · rw [split, List.append_assoc, List.singleton_append]
  · rw [List.reverse_append, List.reverse_singleton, List.append_assoc, List.singleton_append, Nat.ofDigits_cons,
      quotient, digit]
    refine Prod.ext rfl ?_
    simp only [Int.natCast_add, Int.natCast_mul]
    omega
  · simp only [quotient, Int.toNat_natCast]
    omega

/-- The loop over the digits appends them in reverse. -/
theorem mirror_returns (upper : Nat) :
    Returns (fun fuel => mirror fuel upper) ((mirrored 10 upper : Nat) : Int) := by
  have start : Mirroring upper ((upper : Int), (upper : Int)) :=
    ⟨upper, [], rfl, by rw [List.reverse_nil, List.nil_append, Nat.ofDigits_digits]⟩
  have loop : Ensures (fun fuel => whileLoop digitsLeft (fun _ => appendDigit) fuel ((upper : Int), (upper : Int)))
      (fun final => Mirroring upper final ∧ digitsLeft final = .ok false) := by
    refine whileLoop_ensures (Mirroring upper) (fun state => state.1.toNat) (fun state mirroring => ?_) start
    refine ⟨⟨_, rfl⟩, fun running => ?_⟩
    obtain ⟨next, runs, kept, smaller⟩ := mirroring.step (of_decide_eq_true (Except.ok.inj running))
    exact ensures_const.mpr ⟨next, runs, kept, smaller⟩
  obtain ⟨final, returns, ⟨x, done, split, rfl⟩, stopped⟩ := loop
  have zero : x = 0 := by
    have none := of_decide_eq_false (Except.ok.inj stopped)
    simp only at none
    omega
  rw [zero, Nat.digits_zero, List.append_nil] at split
  rw [← split] at returns
  exact returns.bind (.ok _)

/-- The loop over the divisors was left at one of them. -/
def Found (temp : Int) (final : Int × Int) : Prop := final.1 * final.1 ≥ temp ∧ temp.tmod final.1 = 0

/-- The divisors that the loop looks for. -/
def Divides (temp max i : Int) : Prop := i ≤ max ∧ i * i ≥ temp ∧ temp.tmod i = 0

/-- What the loop leaves in `res`, and whether it found a divisor. -/
def Scanned (temp max res : Int) (final : Int × Int) : Prop :=
  (Found temp final ∧ (∃ i, 0 < i ∧ Divides temp max i) ∧ final.2 = temp.tmod 1337) ∨
    (¬ Found temp final ∧ (∀ i, 0 < i → ¬ Divides temp max i) ∧ final.2 = res)

/-- The state of the loop at `i`: nothing above it divides. -/
structure Scanning (temp max res : Int) (state : Int × Int) : Prop where
  res : state.2 = res
  lower : 0 ≤ state.1
  rejected : ∀ i, state.1 < i → ¬ Divides temp max i

theorem Scanning.step {temp max res : Int} {state : Int × Int} (positive : 0 < temp)
    (scanning : Scanning temp max res state) (upper : state.1 ≤ max) :
    ∃ flow, scanStep temp state = .ok flow ∧
      flow.Advances (fun next => Scanning temp max res next ∧ next.1 ≤ max) (Scanned temp max res)
        (fun next => next.1.toNat) state.1.toNat := by
  obtain ⟨i, now⟩ := state
  obtain ⟨same, lower, rejected⟩ := scanning
  simp only at same lower rejected upper
  subst same
  by_cases large : i * i ≥ temp
  · have nonzero : i ≠ 0 := by
      rintro rfl
      omega
    have quotient : remainder temp i = .ok (temp.tmod i) := if_neg nonzero
    simp only [scanStep, large, if_true, quotient, ok_bind]
    by_cases divides : temp.tmod i = 0
    · rw [if_pos divides]
      exact ⟨_, rfl, Or.inl ⟨⟨large, divides⟩, ⟨i, by omega, upper, large, divides⟩, rfl⟩⟩
    · rw [if_neg divides]
      refine ⟨_, rfl, ⟨⟨rfl, by simp only; omega, fun j above => ?_⟩, by simp only; omega⟩, by simp only; omega⟩
      by_cases here : j = i
      · subst here
        exact fun found => divides found.2.2
      · exact rejected j (by simp only at above; omega)
  · simp only [scanStep, large, if_false]
    refine ⟨_, rfl, Or.inr ⟨fun found => large found.1, fun j above found => ?_, rfl⟩⟩
    -- the test fails for all smaller numbers too
    by_cases below : j ≤ i
    · have squares : j * j ≤ i * i := mul_self_le_mul_self above.le below
      exact large (le_trans found.2.1 squares)
    · exact rejected j (by omega) found

theorem scan_ensures {temp max res : Int} (positive : 0 < temp) (nonneg : 0 ≤ max) :
    Ensures (fun fuel => scan temp fuel (max, res)) (Scanned temp max res) := by
  refine loopForever_ensures (fun state => Scanning temp max res state ∧ state.1 ≤ max) _
    (fun state => state.1.toNat) (fun state kept => ?_) ⟨⟨rfl, nonneg, fun i above divides => ?_⟩, le_rfl⟩
  · exact ensures_const.mpr (kept.1.step positive kept.2)
  · exact absurd divides.1 (by simp only at above; omega)

theorem divides_iff {n p : Nat} :
    (∃ i, 0 < i ∧ Divides p (10 ^ n - 1) i) ↔ ∃ i, 0 < i ∧ i < 10 ^ n ∧ p ≤ i * i ∧ i ∣ p := by
  have power : ((10 ^ n : Nat) : Int) = 10 ^ n := Nat.cast_pow 10 n
  constructor
  · rintro ⟨i, positive, upper, square, divides⟩
    obtain ⟨k, rfl⟩ : ∃ k : Nat, i = k := ⟨i.toNat, by omega⟩
    refine ⟨k, by omega, by omega, by exact_mod_cast square, ?_⟩
    exact Int.natCast_dvd_natCast.mp (Int.dvd_of_tmod_eq_zero divides)
  · rintro ⟨k, positive, upper, square, divides⟩
    refine ⟨k, by omega, by omega, by exact_mod_cast square, ?_⟩
    exact Int.tmod_eq_zero_of_dvd (Int.natCast_dvd_natCast.mpr divides)

/-- What the scan decides about a number with `2 * n` digits. -/
def Decides (n p : Nat) (res : Int) (final : Int × Int) : Prop :=
  (Found p final ↔ IsProduct 10 n p) ∧ (IsProduct 10 n p → final.2 = ((p % 1337 : Nat) : Int)) ∧
    (¬ IsProduct 10 n p → final.2 = res)

theorem scan_decides {n p : Nat} (positive : 0 < n) (length : p ∈ digitNumbers 10 (2 * n)) (res : Int) :
    Ensures (fun fuel => scan p fuel (10 ^ n - 1, res)) (Decides n p res) := by
  obtain ⟨m, rfl⟩ : ∃ m, n = m + 1 := ⟨n - 1, by omega⟩
  have nonzero : 0 < p := by
    by_contra zero
    rw [Nat.eq_zero_of_not_pos zero] at length
    exact absurd (show 0 = 2 * (m + 1) from length) (by omega)
  have power : (0 : Int) < 10 ^ (m + 1) := Int.pow_pos (by decide)
  have divisors := (isProduct_iff Nat.one_lt_ofNat length).trans divides_iff.symm
  refine (scan_ensures (by omega) (by omega)).mono fun final scanned => ?_
  rcases scanned with ⟨found, exists_, result⟩ | ⟨notFound, none, unchanged⟩
  · have product := divisors.mpr exists_
    exact ⟨iff_of_true found product, fun _ => result, fun not => absurd product not⟩
  · have product : ¬ IsProduct 10 (m + 1) p := by
      rw [divisors]
      rintro ⟨i, above, divides⟩
      exact none i above divides
    exact ⟨iff_of_false notFound product, fun holds => absurd holds product, fun _ => unchanged⟩

/-- A pass of the outer loop. -/
theorem searchStep_ensures {n upper : Nat} (positive : 0 < n) (length : upper ∈ digitNumbers 10 n) :
    Ensures (fun fuel => searchStep (10 ^ n - 1) fuel (0, (upper : Int))) (fun next => next.2 = upper - 1 ∧
      (IsProduct 10 n (mirrored 10 upper) → next.1 = ((mirrored 10 upper % 1337 : Nat) : Int)) ∧
      (¬ IsProduct 10 n (mirrored 10 upper) → next.1 = 0)) := by
  have palindrome := (mirrored_bijOn Nat.one_lt_ofNat positive).mapsTo length
  obtain ⟨final, returns, _, accepted, rejected⟩ := scan_decides positive palindrome.2 0
  refine ⟨(final.2, (upper : Int) - 1), ?_, rfl, accepted, rejected⟩
  exact (mirror_returns upper).bind (returns.bind (.ok _))

/-- The halves whose palindrome is a product. -/
def accepted (n : Nat) : Set Nat := {upper | upper ∈ digitNumbers 10 n ∧ IsProduct 10 n (mirrored 10 upper)}

theorem exists_greatest {n : Nat} (digits : 2 ≤ n) : ∃ upper, IsGreatest (accepted n) upper := by
  have bounded : BddAbove (accepted n) :=
    ⟨10 ^ n, fun upper member => (lt_of_mem_digitNumbers Nat.one_lt_ofNat member.1).le⟩
  obtain ⟨some, length, product⟩ := exists_product digits
  exact bounded.exists_isGreatest_of_nonempty ⟨some, length, product⟩

section
variable {n upper : Nat} (digits : 2 ≤ n) (greatest : IsGreatest (accepted n) upper)
include digits greatest

/-- The outer loop goes down through the rejected candidates. -/
theorem reached_down {distance later : Nat} (position : later + distance + 1 = 10 ^ n) (above : upper ≤ later) :
    Reached searching (searchStep (10 ^ n - 1)) (0, 10 ^ n - 1) (0, (later : Int)) := by
  have power : ((10 ^ n : Nat) : Int) = 10 ^ n := Nat.cast_pow 10 n
  -- a candidate above the greatest accepted one is rejected and leaves `res` at 0
  induction distance generalizing later with
  | zero =>
    have first : (10 : Int) ^ n - 1 = later := by omega
    rw [first]
    exact .start
  | succ distance ih =>
    have reached := ih (show later + 1 + distance + 1 = 10 ^ n by omega) (by omega)
    have length : later + 1 ∈ digitNumbers 10 n :=
      mem_digitNumbers_of_le Nat.one_lt_ofNat greatest.1.1 (by omega) (by omega)
    have rejected : ¬ IsProduct 10 n (mirrored 10 (later + 1)) := fun product =>
      absurd (greatest.2 ⟨length, product⟩) (by omega)
    obtain ⟨next, returns, down, _, none⟩ := searchStep_ensures (by omega) length
    have state : next = (0, (later : Int)) := Prod.ext (none rejected) (by rw [down]; push_cast; omega)
    rw [state] at returns
    exact reached.next rfl returns

theorem greatest_palindrome :
    IsGreatest {p | p ∈ palindromes 10 (2 * n) ∧ IsProduct 10 n p} (mirrored 10 upper) := by
  have bijective : Set.BijOn (mirrored 10) (digitNumbers 10 n) (palindromes 10 (2 * n)) :=
    mirrored_bijOn Nat.one_lt_ofNat (by omega)
  refine ⟨⟨bijective.mapsTo greatest.1.1, greatest.1.2⟩, fun p candidate => ?_⟩
  obtain ⟨half, length, rfl⟩ := bijective.surjOn candidate.1
  exact (mirrored_strictMonoOn Nat.one_lt_ofNat n).monotoneOn length greatest.1.1 (greatest.2 ⟨length, candidate.2⟩)

theorem reached_greatest :
    Reached searching (searchStep (10 ^ n - 1)) (0, 10 ^ n - 1) (0, (upper : Int)) := by
  have bound : upper < 10 ^ n := lt_of_mem_digitNumbers Nat.one_lt_ofNat greatest.1.1
  exact reached_down digits greatest (show upper + (10 ^ n - 1 - upper) + 1 = 10 ^ n by omega) le_rfl

/-- The outer loop stops there, if the remainder that it tests is not 0. -/
theorem largestPalindrome_returns (nonzero : mirrored 10 upper % 1337 ≠ 0) :
    Returns (fun fuel => largestPalindrome fuel n) ((mirrored 10 upper % 1337 : Nat) : Int) := by
  obtain ⟨next, returns, _, result, _⟩ := searchStep_ensures (show 0 < n by omega) greatest.1.1
  have same := result greatest.1.2
  have stop : searching next = .ok false := by
    rw [searching, same, decide_eq_false (by omega)]
  have loop := ((reached_greatest digits greatest).next rfl returns).rest (whileLoop_ends stop)
  have whole : Returns (fun fuel => whileLoop searching (searchStep (10 ^ n - 1)) fuel (0, 10 ^ n - 1) >>=
      fun state => (.ok state.1 : Exec Int)) next.1 := loop.bind (.ok next.1)
  rw [← same]
  refine whole.congr fun fuel => ?_
  rw [largestPalindrome, if_neg (by omega), Int.toNat_natCast]

end

/-- The candidates of the search are the palindromes with `2 * n` digits, each
made from its left half, the scan accepts those that are products of two
numbers with `n` digits, and the search comes first to the largest of these. -/
theorem largestPalindrome_candidates {n : Nat} (digits : 2 ≤ n) :
    (∀ upper ∈ digitNumbers 10 n,
      Returns (fun fuel => mirror fuel upper) ((mirrored 10 upper : Nat) : Int) ∧
      mirrored 10 upper ∈ palindromes 10 (2 * n) ∧ mirrored 10 upper / 10 ^ n = upper ∧
      ∀ res, Ensures (fun fuel => scan (mirrored 10 upper : Nat) fuel (10 ^ n - 1, res))
        (fun final => Found (mirrored 10 upper : Nat) final ↔ IsProduct 10 n (mirrored 10 upper))) ∧
    StrictMonoOn (mirrored 10) (digitNumbers 10 n) ∧
    Set.BijOn (mirrored 10) (digitNumbers 10 n) (palindromes 10 (2 * n)) ∧
    ∃ upper ∈ digitNumbers 10 n,
      Reached searching (searchStep (10 ^ n - 1)) (0, 10 ^ n - 1) (0, (upper : Int)) ∧
      (∀ earlier ∈ digitNumbers 10 n, upper < earlier → ¬ IsProduct 10 n (mirrored 10 earlier)) ∧
      IsGreatest {p | p ∈ palindromes 10 (2 * n) ∧ IsProduct 10 n p} (mirrored 10 upper) ∧
      (mirrored 10 upper % 1337 ≠ 0 →
        Returns (fun fuel => largestPalindrome fuel n) ((mirrored 10 upper % 1337 : Nat) : Int)) := by
  have positive : 0 < n := by omega
  have bijective : Set.BijOn (mirrored 10) (digitNumbers 10 n) (palindromes 10 (2 * n)) :=
    mirrored_bijOn Nat.one_lt_ofNat positive
  refine ⟨fun upper length => ?_, mirrored_strictMonoOn Nat.one_lt_ofNat n, bijective, ?_⟩
  · have palindrome := bijective.mapsTo length
    refine ⟨mirror_returns upper, palindrome, mirrored_div Nat.one_lt_ofNat length, fun res => ?_⟩
    exact (scan_decides positive palindrome.2 res).mono fun final decides => decides.1
  · obtain ⟨upper, greatest⟩ := exists_greatest digits
    refine ⟨upper, greatest.1.1, reached_greatest digits greatest, fun earlier length above product => ?_,
      greatest_palindrome digits greatest, largestPalindrome_returns digits greatest⟩
    exact absurd (greatest.2 ⟨length, product⟩) (by omega)

theorem largestPalindrome_candidates_main :
    Set.BijOn (mirrored 10) (digitNumbers 10 2) (palindromes 10 4) ∧ ∃ upper ∈ digitNumbers 10 2,
      IsGreatest {p | p ∈ palindromes 10 4 ∧ IsProduct 10 2 p} (mirrored 10 upper) := by
  obtain ⟨_, _, bijective, upper, length, _, _, greatest, _⟩ :=
    largestPalindrome_candidates (show 2 ≤ 2 by decide)
  exact ⟨bijective, upper, length, greatest⟩

example : largestPalindrome 20 2 = .ok 987 := by decide

end BlogAlgorithms.LargestPalindrome
