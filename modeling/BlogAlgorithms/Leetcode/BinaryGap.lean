import BlogAlgorithms.Java.Loop
import Mathlib.Data.Nat.Bitwise
import Mathlib.Order.Bounds.Basic

namespace BlogAlgorithms.BinaryGap
open Java

/-- The variables of the loop. -/
structure Scan where
  n : Int
  i : Int
  maxGap : Int
  index : Int
  deriving DecidableEq, Repr

/-- The statement `if (temp == 1)`, which records the distance to the 1 before
and then the position of this one. -/
def record (temp : Int) (scan : Scan) : Scan :=
  if temp = 1 then
    let scan := if scan.index ≠ -1 then { scan with maxGap := max (scan.i - scan.index) scan.maxGap } else scan
    { scan with index := scan.i }
  else scan

/-- The body of the loop, and its `i++`. -/
def scanStep (scan : Scan) : Exec Scan :=
  let scan := record (Int.tmod scan.n 2) scan
  .ok { scan with n := Int.tdiv scan.n 2, i := scan.i + 1 }

def binaryGap (fuel : Nat) (n : Int) : Exec Int := do
  let scan ← whileLoop (fun scan => .ok (scan.n ≠ 0)) (fun _ => scanStep) fuel
    { n := n, i := 0, maxGap := 0, index := -1 }
  .ok scan.maxGap

/-- Two 1 bits of the number with only 0 bits between them. -/
structure Adjacent (n p q : Nat) : Prop where
  ordered : p < q
  first : n.testBit p = true
  second : n.testBit q = true
  between : ∀ k, p < k → k < q → n.testBit k = false

/-- The distances of such bits below the position `i`. -/
def gapsBelow (n i : Nat) : Set Int := {d | ∃ p q, q < i ∧ Adjacent n p q ∧ d = q - p}

/-- The distances of all such bits. -/
def gaps (n : Nat) : Set Int := {d | ∃ p q, Adjacent n p q ∧ d = q - p}

theorem gapsBelow_succ {n i : Nat} {d : Int} :
    d ∈ gapsBelow n (i + 1) ↔ d ∈ gapsBelow n i ∨ ∃ p, Adjacent n p i ∧ d = i - p := by
  constructor
  · rintro ⟨p, q, below, adjacent, distance⟩
    by_cases last : q = i
    · subst last
      exact Or.inr ⟨p, adjacent, distance⟩
    · exact Or.inl ⟨p, q, by omega, adjacent, distance⟩
  · rintro (⟨p, q, below, adjacent, distance⟩ | ⟨p, adjacent, distance⟩)
    · exact ⟨p, q, by omega, adjacent, distance⟩
    · exact ⟨p, i, by omega, adjacent, distance⟩

theorem Adjacent.unique {n p p' q : Nat} (adjacent : Adjacent n p q) (other : Adjacent n p' q) : p = p' := by
  rcases Nat.lt_trichotomy p p' with less | same | more
  · have zero := adjacent.between p' less other.ordered
    rw [other.first] at zero
    cases zero
  · exact same
  · have zero := other.between p more adjacent.ordered
    rw [adjacent.first] at zero
    cases zero

theorem gapsBelow_succ_of_none {n i : Nat} (none : ∀ p, ¬ Adjacent n p i) :
    gapsBelow n (i + 1) = gapsBelow n i := by
  ext d
  rw [gapsBelow_succ]
  refine or_iff_left ?_
  rintro ⟨p, adjacent, _⟩
  exact none p adjacent

theorem gapsBelow_succ_of_adjacent {n i p : Nat} (adjacent : Adjacent n p i) :
    gapsBelow n (i + 1) = insert ((i : Int) - p) (gapsBelow n i) := by
  ext d
  rw [gapsBelow_succ, Set.mem_insert_iff, or_comm]
  refine or_congr_left ⟨?_, fun distance => ⟨p, adjacent, distance⟩⟩
  rintro ⟨p', other, distance⟩
  rwa [← adjacent.unique other] at distance

/-- The position of the last 1 bit below `i`, or -1. -/
def LastOne (n i : Nat) (index : Int) : Prop :=
  index = -1 ∧ (∀ k < i, n.testBit k = false) ∨
    ∃ p : Nat, index = p ∧ p < i ∧ n.testBit p = true ∧ ∀ k, p < k → k < i → n.testBit k = false

/-- What the loop knows of the bits below `i`. -/
structure Known (n i : Nat) (maxGap index : Int) : Prop where
  last : LastOne n i index
  largest : IsGreatest (insert 0 (gapsBelow n i)) maxGap
  single : maxGap = 0 → ∀ p < i, ∀ q < i, n.testBit p = true → n.testBit q = true → p = q

section
variable {n i : Nat} {maxGap index : Int}

theorem lastOne_of_bit (bit : n.testBit i = true) : LastOne n (i + 1) i :=
  Or.inr ⟨i, rfl, Nat.lt_succ_self i, bit, fun k after before => by omega⟩

theorem Known.zero (known : Known n i maxGap index) (bit : n.testBit i = false) :
    Known n (i + 1) maxGap index := by
  have one {k : Nat} (below : k < i + 1) (set : n.testBit k = true) : k < i := by
    refine lt_of_le_of_ne (Nat.le_of_lt_succ below) fun same => ?_
    rw [same, bit] at set
    cases set
  have clear {k : Nat} (below : k < i + 1) (lower : k < i → n.testBit k = false) : n.testBit k = false := by
    by_cases last : k = i
    · rwa [last]
    · exact lower (by omega)
  refine ⟨?_, ?_, fun gapless p belowP q belowQ atP atQ => ?_⟩
  · rcases known.last with ⟨unset, zeros⟩ | ⟨p, position, below, set, zeros⟩
    · exact Or.inl ⟨unset, fun k inside => clear inside (zeros k)⟩
    · exact Or.inr ⟨p, position, by omega, set, fun k after inside => clear inside (zeros k after)⟩
  · rw [gapsBelow_succ_of_none fun p adjacent => by simpa [bit] using adjacent.second]
    exact known.largest
  · exact known.single gapless p (one belowP atP) q (one belowQ atQ) atP atQ

theorem Known.first (known : Known n i maxGap index) (zeros : ∀ k < i, n.testBit k = false)
    (bit : n.testBit i = true) : Known n (i + 1) maxGap i := by
  have only {k : Nat} (below : k < i + 1) (set : n.testBit k = true) : k = i := by
    by_contra other
    rw [zeros k (by omega)] at set
    cases set
  refine ⟨lastOne_of_bit bit, ?_, fun _ p belowP q belowQ atP atQ => ?_⟩
  · rw [gapsBelow_succ_of_none fun p adjacent => by simpa [zeros p adjacent.ordered] using adjacent.first]
    exact known.largest
  · rw [only belowP atP, only belowQ atQ]

theorem Known.again (known : Known n i maxGap index) {p : Nat} (adjacent : Adjacent n p i) :
    Known n (i + 1) (max (i - p) maxGap) i := by
  refine ⟨lastOne_of_bit adjacent.second, ?_, fun gapless => ?_⟩
  · rw [gapsBelow_succ_of_adjacent adjacent, Set.insert_comm]
    exact known.largest.insert _
  · have positive := adjacent.ordered
    omega

end

/-- The state before the pass that reads the bit `i`. -/
structure Scanned (n i : Nat) (scan : Scan) : Prop where
  rest : scan.n = (n / 2 ^ i : Nat)
  counter : scan.i = i
  known : Known n i scan.maxGap scan.index

section
variable {n i : Nat} {scan : Scan}

theorem Scanned.temp (scanned : Scanned n i scan) : Int.tmod scan.n 2 = 1 ↔ n.testBit i = true := by
  rw [scanned.rest, Nat.testBit_eq_decide_div_mod_eq, decide_eq_true_eq,
    Int.tmod_eq_emod_of_nonneg (Int.natCast_nonneg _)]
  omega

theorem Scanned.half (scanned : Scanned n i scan) : Int.tdiv scan.n 2 = (n / 2 ^ (i + 1) : Nat) := by
  rw [scanned.rest, Int.tdiv_eq_ediv_of_nonneg (Int.natCast_nonneg _), Nat.pow_succ, ← Nat.div_div_eq_div_mul]
  omega

theorem Scanned.record (scanned : Scanned n i scan) :
    Known n (i + 1) (record (Int.tmod scan.n 2) scan).maxGap (record (Int.tmod scan.n 2) scan).index := by
  have known := scanned.known
  unfold BinaryGap.record
  split
  · rename_i one
    have bit := scanned.temp.mp one
    dsimp only
    rcases known.last with ⟨unset, zeros⟩ | ⟨p, position, below, set, zeros⟩
    · rw [if_neg (not_not.mpr unset), scanned.counter]
      exact known.first zeros bit
    · rw [if_pos (by omega), position]
      simp only [scanned.counter]
      exact known.again ⟨below, set, bit, zeros⟩
  · rename_i zero
    rw [scanned.temp, Bool.not_eq_true] at zero
    exact known.zero zero

theorem record_counter (temp : Int) (scan : Scan) : (BinaryGap.record temp scan).n = scan.n ∧
    (BinaryGap.record temp scan).i = scan.i := by
  unfold BinaryGap.record
  split_ifs <;> exact ⟨rfl, rfl⟩

/-- One pass reads one more bit. -/
theorem Scanned.step (scanned : Scanned n i scan) :
    ∃ next, scanStep scan = .ok next ∧ Scanned n (i + 1) next := by
  obtain ⟨sameN, sameI⟩ := record_counter (Int.tmod scan.n 2) scan
  refine ⟨_, rfl, ?_, ?_, scanned.record⟩
  · simp only [sameN]
    exact scanned.half
  · simp only [sameI, scanned.counter, Int.natCast_add, Int.natCast_one]

theorem Scanned.below (scanned : Scanned n i scan) (ended : scan.n = 0) {k : Nat} (set : n.testBit k = true) :
    k < i := by
  by_contra above
  have small : n < 2 ^ i := by
    have rest := scanned.rest
    rw [ended] at rest
    exact (Nat.div_eq_zero_iff_lt (Nat.two_pow_pos i)).mp (by omega)
  rw [Nat.testBit_lt_two_pow (small.trans_le (Nat.pow_le_pow_right (by decide) (by omega)))] at set
  cases set

theorem Scanned.greatest (scanned : Scanned n i scan) (ended : scan.n = 0) :
    IsGreatest (insert 0 (gaps n)) scan.maxGap := by
  have all : gaps n = gapsBelow n i := by
    ext d
    constructor
    · rintro ⟨p, q, adjacent, distance⟩
      exact ⟨p, q, scanned.below ended adjacent.second, adjacent, distance⟩
    · rintro ⟨p, q, _, adjacent, distance⟩
      exact ⟨p, q, adjacent, distance⟩
  rw [all]
  exact scanned.known.largest

end

theorem gaps_two_pow (k : Nat) : gaps (2 ^ k) = ∅ := by
  refine Set.eq_empty_of_forall_notMem ?_
  rintro d ⟨p, q, adjacent, _⟩
  have first := adjacent.first
  have second := adjacent.second
  rw [Nat.testBit_two_pow, decide_eq_true_eq] at first second
  have ordered := adjacent.ordered
  omega

/-- A number with one 1 bit is a power of two. -/
theorem eq_two_pow_of_single {n : Nat} (positive : n ≠ 0)
    (single : ∀ p q, n.testBit p = true → n.testBit q = true → p = q) : ∃ k, n = 2 ^ k := by
  obtain ⟨k, set⟩ := Nat.exists_testBit_of_ne_zero positive
  refine ⟨k, Nat.eq_of_testBit_eq fun j => ?_⟩
  rw [Nat.testBit_two_pow, Bool.eq_iff_iff, decide_eq_true_eq]
  constructor
  · exact single k j set
  · rintro rfl
    exact set

/-- The result is the largest distance of adjacent 1 bits, and 0 exactly for
the powers of two, which have no such bits. -/
theorem binaryGap_largest {n : Int} (positive : 1 ≤ n) :
    Ensures (fun fuel => binaryGap fuel n)
      (fun gap => IsGreatest (insert 0 (gaps n.toNat)) gap ∧ (gap = 0 ↔ ∃ k : Nat, n = 2 ^ k)) := by
  obtain ⟨n, rfl⟩ : ∃ m : Nat, n = m := ⟨n.toNat, by omega⟩
  have start : Scanned n 0 { n := n, i := 0, maxGap := 0, index := -1 } := by
    have none : gapsBelow n 0 = ∅ := Set.eq_empty_of_forall_notMem fun d ⟨p, q, below, _⟩ => by omega
    refine ⟨by simp, rfl, Or.inl ⟨rfl, fun k below => by omega⟩, ?_, fun _ p below => by omega⟩
    simp [none]
  have loop : Ensures (fun fuel => whileLoop (fun scan : Scan => .ok (scan.n ≠ 0)) (fun _ => scanStep) fuel
      { n := n, i := 0, maxGap := 0, index := -1 })
      (fun final => (∃ i, Scanned n i final) ∧ (Except.ok (decide (final.n ≠ 0)) : Exec Bool) = .ok false) := by
    apply whileLoop_ensures (fun scan => ∃ i, Scanned n i scan) (fun scan => scan.n.toNat)
    · rintro scan ⟨i, scanned⟩
      refine ⟨⟨_, rfl⟩, fun running => ?_⟩
      have more : scan.n ≠ 0 := by simpa using running
      obtain ⟨next, runs, later⟩ := scanned.step
      refine ensures_const.mpr ⟨next, runs, ⟨i + 1, later⟩, ?_⟩
      rw [later.rest, scanned.rest, Nat.pow_succ, ← Nat.div_div_eq_div_mul]
      rw [scanned.rest] at more
      generalize n / 2 ^ i = rest at more ⊢
      omega
    · exact ⟨0, start⟩
  refine loop.bind fun final ⟨⟨i, scanned⟩, stopped⟩ => ensures_const.mpr ⟨_, rfl, ?_⟩
  have ended : final.n = 0 := by simpa using stopped
  rw [Int.toNat_natCast]
  have greatest := scanned.greatest ended
  refine ⟨greatest, fun gapless => ?_, ?_⟩
  · obtain ⟨k, power⟩ := eq_two_pow_of_single (n := n) (by omega) fun p q atP atQ =>
      scanned.known.single gapless p (scanned.below ended atP) q (scanned.below ended atQ) atP atQ
    exact ⟨k, by rw [power]; simp⟩
  · rintro ⟨k, power⟩
    have natPower : n = 2 ^ k := by exact_mod_cast power
    have member := greatest.1
    rw [natPower, gaps_two_pow] at member
    simpa using member

theorem binaryGap_largest_main :
    Ensures (fun fuel => binaryGap fuel 5)
      (fun gap => IsGreatest (insert 0 (gaps 5)) gap ∧ (gap = 0 ↔ ∃ k : Nat, 5 = (2 : Int) ^ k)) :=
  binaryGap_largest (by decide)

example : binaryGap 10 22 = .ok 2 := by decide

end BlogAlgorithms.BinaryGap
