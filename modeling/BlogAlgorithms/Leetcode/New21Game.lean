import BlogAlgorithms.Java.IntLoop
import BlogAlgorithms.Lib.DrawGrowth
import BlogAlgorithms.Lib.DrawLeaves
import Mathlib.Probability.Distributions.Uniform

namespace BlogAlgorithms.New21Game
open Java DrawTree Finset

/-- The two counters of a `Solution`. -/
structure Solution where
  total : ℚ := 0
  success : ℚ := 0
  deriving DecidableEq

/-- What a `double` keeps of an exact result is `keep`. -/
def dfs (keep : ℚ → ℚ) : Nat → Int → Int → Int → Int → Solution → Exec Solution
  | 0, _, _, _, _, _ => .error .outOfFuel
  | fuel + 1, n, k, maxPts, curPts, this =>
    if curPts ≥ k then
      .ok { total := keep (this.total + 1), success := keep (this.success + (if curPts ≤ n then 1 else 0)) }
    else forInt maxPts (fun i this => dfs keep fuel n k maxPts (wrap (curPts + i)) this) fuel 1 this

/-- The quotient that is returned, and the counters the call leaves. -/
def new21Game (keep : ℚ → ℚ) (fuel : Nat) (n k maxPts : Int) (this : Solution) : Exec (ℚ × Solution) := do
  let this ← dfs keep fuel n k maxPts 0 this
  .ok (keep (this.success / this.total), this)

/-- What a leaf with `x` points does to the counters. -/
def Solution.tally (keep : ℚ → ℚ) (n : ℕ) (this : Solution) (x : ℕ) : Solution where
  total := keep (this.total + 1)
  success := keep (this.success + (if x ≤ n then 1 else 0))

/-- The counters after a search that has seen these leaves. -/
def Solution.count (keep : ℚ → ℚ) (n : ℕ) (this : Solution) (leaves : List ℕ) : Solution :=
  leaves.foldl (Solution.tally keep n) this

/-- The sum of points and the counter of the loop stay ints. -/
def Fits (k m : ℕ) : Prop := k = 0 ∨ m < 2 ^ 31 - 1 ∧ k + m ≤ 2 ^ 31

section
variable {keep : ℚ → ℚ} {n k m : ℕ}

theorem dfs_node {fuel : ℕ} {cur : Int} {this : Solution} (node : cur < k) :
    dfs keep (fuel + 1) n k m cur this =
      forInt m (fun i this => dfs keep fuel n k m (wrap (cur + i)) this) fuel 1 this := by
  rw [dfs, if_neg (by omega)]

/-- The search below `cur` counts the leaves of its tree. -/
theorem dfs_returns (fits : Fits k m) (cur : ℕ) (this : Solution) :
    Returns (fun fuel => dfs keep fuel n k m cur this) (this.count keep n (leafPoints m k cur)) := by
  induction cur using tree_induction (k := k) generalizing this with
  | leaf cur leaf =>
    refine Returns.call (fun fuel => ?_) (.ok _)
    rw [dfs, if_pos (by omega), leafPoints_leaf leaf, Solution.count, List.foldl_cons, List.foldl_nil,
      Solution.tally]
    simp only [Nat.cast_le]
  | node cur node ih =>
    obtain ⟨small, sum⟩ : m < 2 ^ 31 - 1 ∧ k + m ≤ 2 ^ 31 := fits.resolve_left (by omega)
    let searched (t : ℕ) : Solution :=
      this.count keep n ((List.range t).flatMap fun i => leafPoints m k (cur + i + 1))
    have next (t : ℕ) : (searched t).count keep n (leafPoints m k (cur + t + 1)) = searched (t + 1) := by
      simp only [searched, Solution.count, List.range_succ, List.flatMap_append, List.flatMap_singleton,
        List.foldl_append]
    have loop :
        Returns (fun fuel => forUp 1 m (fun i this => dfs keep fuel n k m (wrap (cur + i)) this) (searched 0))
          (searched m) := by
      refine forUp_returns searched (by omega) fun t inside => ?_
      have points : wrap (cur + (1 + t)) = ((cur + t + 1 : ℕ) : Int) := by
        rw [wrap_of_isInt ⟨by omega, by omega⟩]
        omega
      rw [← next, points]
      exact ih t (searched t)
    have whole : searched m = this.count keep n (leafPoints m k cur) := by
      rw [leafPoints_node node]
    rw [whole] at loop
    exact Returns.call (fun fuel => dfs_node (by omega)) (forInt_returns (by decide) (by omega) loop)

/-- Where a sum of points wraps around, there is a way back to every node. -/
theorem dfs_never (int : k < 2 ^ 31) (wraps : 2 ^ 31 < k + m) (small : m < 2 ^ 31 - 1) {fuel : ℕ} {cur : Int}
    (range : IsInt cur) (node : cur < k) (this after : Solution) : dfs keep fuel n k m cur this ≠ .ok after := by
  obtain ⟨lower, upper⟩ := range
  induction fuel generalizing cur this after with
  | zero => exact fun ends => nomatch ends
  | succ fuel ih =>
    intro ends
    rw [dfs_node node] at ends
    have child (i : Int) (first : 1 ≤ i) (last : i ≤ m) (below : wrap (cur + i) < k) : False := by
      obtain ⟨before, after, runs⟩ := forInt_visits (by decide) (by omega) ends first last
      exact ih below before after (wrap_isInt _).1 (wrap_isInt _).2 runs
    by_cases deeper : cur + 1 < k
    · refine child 1 le_rfl (by omega) ?_
      rwa [wrap_of_isInt ⟨by omega, by omega⟩]
    · refine child (2 ^ 31 - cur) (by omega) (by omega) ?_
      have least : wrap (cur + (2 ^ 31 - cur)) = -2 ^ 31 := by
        rw [show cur + (2 ^ 31 - cur) = 2 ^ 31 by omega]
        decide
      omega

theorem new21Game_never (unfit : ¬ Fits k m) (intK : k < 2 ^ 31) (intM : m < 2 ^ 31) (fuel : ℕ) (this : Solution)
    (result : ℚ × Solution) : new21Game keep fuel n k m this ≠ .ok result := by
  intro ends
  obtain ⟨after, runs, _⟩ := bind_eq_ok.mp ends
  obtain ⟨positive, wide⟩ := not_or.mp unfit
  by_cases greatest : m = 2 ^ 31 - 1
  · cases fuel with
    | zero => cases runs
    | succ fuel =>
      rw [dfs_node (by omega), show (m : Int) = 2 ^ 31 - 1 by omega] at runs
      exact forInt_never (by decide) runs
  · exact dfs_never intK (by omega) (by omega) (by decide) (by omega) this after runs

theorem new21Game_returns (fits : Fits k m) (this : Solution) :
    Returns (fun fuel => new21Game keep fuel n k m this)
      (keep ((this.count keep n (leafPoints m k 0)).success / (this.count keep n (leafPoints m k 0)).total),
        this.count keep n (leafPoints m k 0)) :=
  (dfs_returns fits 0 this).bind (.ok _)

end

/-- Exact counters count the leaves, and those with at most `n` points. -/
theorem count_id (n : ℕ) (this : Solution) (leaves : List ℕ) : this.count id n leaves =
    ⟨this.total + leaves.length, this.success + leaves.countP (· ≤ n)⟩ := by
  induction leaves generalizing this with
  | nil => simp [Solution.count]
  | cons x leaves ih =>
    rw [Solution.count, List.foldl_cons]
    change (this.tally id n x).count id n leaves = _
    rw [ih, Solution.tally, List.length_cons, List.countP_cons]
    simp only [id_eq, decide_eq_true_eq, Solution.mk.injEq]
    push_cast
    exact ⟨by ring, by ring⟩

/-- Whether a leaf has at most `n` points, as a number. -/
def within (R : Type) [CommSemiring R] (n x : ℕ) : R := if x ≤ n then 1 else 0

theorem treeSum_within (n k m cur : ℕ) :
    treeSum (1 : ℝ) m k (within ℝ n) cur = (leafPoints m k cur).countP (· ≤ n) := by
  rw [treeSum_eq_sum]
  induction leafPoints m k cur with
  | nil => simp
  | cons x leaves ih =>
    rw [List.map_cons, List.sum_cons, ih, List.countP_cons, within]
    by_cases won : x ≤ n
    · simp [won, add_comm]
    · simp [won]

/-- The game from `cur` points on: below `k` points, a uniform draw from
`1..m` that is independent of the earlier ones. -/
noncomputable def play (k m : ℕ) [NeZero m] (cur : ℕ) : PMF ℕ :=
  if k ≤ cur then PMF.pure cur else (PMF.uniformOfFintype (Fin m)).bind fun i => play k m (cur + i + 1)
  termination_by k - cur

/-- The probability of stopping with at most `n` points. -/
noncomputable def chance (n k m : ℕ) [NeZero m] : ℝ := ((play k m 0).toOuterMeasure {x | x ≤ n}).toReal

theorem play_eq_treeSum (n k m : ℕ) [NeZero m] (cur : ℕ) :
    ((play k m cur).toOuterMeasure {x | x ≤ n}).toReal = treeSum (1 / m : ℝ) m k (within ℝ n) cur := by
  induction cur using tree_induction (k := k) with
  | leaf cur leaf =>
    rw [play, if_pos leaf, treeSum_leaf leaf, PMF.toOuterMeasure_pure_apply, within]
    by_cases small : cur ≤ n
    · simp [small]
    · simp [small]
  | node cur node ih =>
    have finite (i : Fin m) : PMF.uniformOfFintype (Fin m) i *
        (play k m (cur + i + 1)).toOuterMeasure {x | x ≤ n} ≠ ⊤ := by
      rw [PMF.toOuterMeasure_apply]
      exact ENNReal.mul_ne_top (PMF.apply_ne_top _ _) (PMF.tsum_coe_indicator_ne_top _ _)
    rw [play, if_neg (not_le.mpr node), PMF.toOuterMeasure_bind_apply, tsum_fintype,
      ENNReal.toReal_sum fun i _ => finite i, treeSum_node node, mul_sum,
      ← Fin.sum_univ_eq_sum_range fun i => 1 / (m : ℝ) * treeSum (1 / m : ℝ) m k (within ℝ n) (cur + i + 1)]
    refine sum_congr rfl fun i _ => ?_
    rw [ENNReal.toReal_mul, ih, PMF.uniformOfFintype_apply, Fintype.card_fin, ENNReal.toReal_inv,
      ENNReal.toReal_natCast, one_div]

/-- The share of the leaves with at most `n` points, each draw weighted by `q`. -/
noncomputable def share (q : ℝ) (n k m : ℕ) : ℝ := treeSum q m k (within ℝ n) 0 / treeSum q m k (fun _ => 1) 0

/-- The quotient on a new object, with exact counters. -/
def quotient (n k m : ℕ) : ℚ := (leafPoints m k 0).countP (· ≤ n) / (leafPoints m k 0).length

theorem quotient_eq_share (n k m : ℕ) : (quotient n k m : ℝ) = share 1 n k m := by
  rw [quotient, share, treeSum_within, treeSum_eq_length]
  push_cast
  rfl

theorem new21Game_quotient {n k m : ℕ} (fits : Fits k m) :
    ∃ after, Returns (fun fuel => new21Game id fuel n k m {}) (quotient n k m, after) := by
  have returns : Returns (fun fuel => new21Game id fuel n k m {}) _ := new21Game_returns fits {}
  rw [count_id, zero_add, zero_add] at returns
  exact ⟨_, returns⟩

theorem chance_eq_share (n k m : ℕ) [NeZero m] : chance n k m = share (1 / m) n k m := by
  have unit : (1 / m : ℝ) * m = 1 := one_div_mul_cancel (NeZero.ne (m : ℝ))
  rw [chance, play_eq_treeSum, share, treeSum_one unit, div_one]

section
variable {q r : ℝ} {n k m : ℕ}

theorem share_eq_one_sub (positive : 0 < q) (draws : 0 < m) :
    share q n k m = 1 - treeSum q m k (fun x => if n < x then 1 else 0) 0 / treeSum q m k (fun _ => 1) 0 := by
  have every : treeSum q m k (fun _ => 1) 0 ≠ 0 := (treeSum_pos positive draws (fun _ => one_pos) 0).ne'
  have parts : treeSum q m k (fun _ => 1) 0 =
      treeSum q m k (within ℝ n) 0 + treeSum q m k (fun x => if n < x then 1 else 0) 0 := by
    rw [← treeSum_add]
    refine treeSum_congr (fun x _ => ?_) 0
    by_cases won : x ≤ n
    · rw [within, if_pos won, if_neg (by omega), add_zero]
    · rw [within, if_neg won, if_pos (by omega), zero_add]
  rw [share, eq_sub_of_add_eq parts.symm, sub_div, div_self every]

/-- Where the leaves do not all have one depth and some but not all of them
win, counting them favours the deep ones, which lose more often. -/
theorem share_lt (smaller : 0 < r) (larger : r < q) (draws : 2 ≤ m) (deep : 2 ≤ k) (stops : k ≤ n)
    (exceeds : n + 1 < k + m) : share q n k m < share r n k m := by
  have everyQ : 0 < treeSum q m k (fun _ => 1) 0 :=
    treeSum_pos (smaller.trans larger) (by omega) (fun _ => one_pos) 0
  have everyR : 0 < treeSum r m k (fun _ => 1) 0 := treeSum_pos smaller (by omega) (fun _ => one_pos) 0
  rw [share_eq_one_sub (smaller.trans larger) (by omega), share_eq_one_sub smaller (by omega)]
  refine sub_lt_sub_left ((div_lt_div_iff₀ everyR everyQ).mpr ?_) 1
  rw [mul_comm]
  exact treeSum_beyond_lt smaller larger draws deep stops exceeds

theorem treeSum_single (value : ℕ → ℝ) : treeSum q m 1 value 0 = q * ∑ i ∈ range m, value (0 + i + 1) := by
  rw [treeSum_node one_pos]
  exact congrArg (q * ·) (sum_congr rfl fun i _ => treeSum_leaf (by omega))

theorem share_eq (positive : 0 < q) (positive' : 0 < r) (draws : 0 < m)
    (plain : k ≤ 1 ∨ n < k ∨ k + m ≤ n + 1) : share q n k m = share r n k m := by
  obtain rfl | rfl | deep : k = 0 ∨ k = 1 ∨ 2 ≤ k := by omega
  · rw [share, share, treeSum_leaf le_rfl, treeSum_leaf le_rfl, treeSum_leaf le_rfl, treeSum_leaf le_rfl]
  · have single (x : ℝ) (factor : 0 < x) : share x n 1 m =
        (∑ i ∈ range m, within ℝ n (0 + i + 1)) / ∑ i ∈ range m, 1 := by
      rw [share, treeSum_single, treeSum_single, mul_div_mul_left _ _ factor.ne']
    rw [single q positive, single r positive']
  · rcases plain.resolve_left (by omega) with below | inside
    · have lost (x : ℝ) : treeSum x m k (within ℝ n) 0 = 0 := by
        rw [← treeSum_zero (q := x) (m := m) (k := k) 0]
        exact treeSum_congr (fun y leaf => if_neg (by omega)) 0
      rw [share, share, lost, lost, zero_div, zero_div]
    · have won (x : ℝ) : treeSum x m k (fun x => if n < x then (1 : ℝ) else 0) 0 = 0 := by
        rw [treeSum_beyond (by omega) (by omega), sum_eq_zero, mul_zero]
        intro j member
        have before := mem_range.mp member
        rw [show j + m - n = 0 by omega, Nat.cast_zero, mul_zero]
      rw [share_eq_one_sub positive draws, share_eq_one_sub positive' draws, won, won, zero_div, zero_div]

end

/-- The exact quotient is the probability of winning exactly when all leaves have
one depth, or all or none of them win. -/
theorem quotient_eq_chance_iff (n k m : ℕ) [NeZero m] :
    (quotient n k m : ℝ) = chance n k m ↔ k ≤ 1 ∨ m = 1 ∨ n < k ∨ k + m ≤ n + 1 := by
  rw [quotient_eq_share, chance_eq_share]
  have draws : 0 < m := Nat.pos_of_ne_zero (NeZero.ne m)
  have factor : (0 : ℝ) < 1 / m := one_div_pos.mpr (Nat.cast_pos.mpr draws)
  by_cases single : m = 1
  · subst single
    rw [Nat.cast_one, one_div_one]
    exact iff_of_true rfl (Or.inr (Or.inl rfl))
  · have smaller : (1 / m : ℝ) < 1 := by
      rw [div_lt_one (Nat.cast_pos.mpr draws)]
      exact_mod_cast (by omega : 1 < m)
    constructor
    · intro same
      by_contra other
      exact (share_lt factor smaller (by omega) (by omega) (by omega) (by omega)).ne same
    · intro plain
      exact share_eq one_pos factor draws (by omega)

/-- For all ints, a new object gives the probability exactly where its int
arithmetic does not wrap and all leaves have one depth, or all or none of them
win. -/
theorem new21Game_exact_iff (n k maxPts : ℕ) [NeZero maxPts] (intK : k < 2 ^ 31) (intM : maxPts < 2 ^ 31) :
    (∃ quotient after, Returns (fun fuel => new21Game id fuel n k maxPts {}) (quotient, after) ∧
      (quotient : ℝ) = chance n k maxPts) ↔
    k = 0 ∨ (maxPts < 2 ^ 31 - 1 ∧ k + maxPts ≤ 2 ^ 31) ∧
      (k = 1 ∨ maxPts = 1 ∨ n < k ∨ k + maxPts ≤ n + 1) := by
  have exact := quotient_eq_chance_iff n k maxPts
  by_cases fits : Fits k maxPts
  · obtain ⟨after, returns⟩ := new21Game_quotient (n := n) fits
    have same : (∃ quotient after, Returns (fun fuel => new21Game id fuel n k maxPts {}) (quotient, after) ∧
        (quotient : ℝ) = chance n k maxPts) ↔ (quotient n k maxPts : ℝ) = chance n k maxPts := by
      constructor
      · rintro ⟨other, _, ends, equal⟩
        rwa [(Prod.mk.inj (returns.unique ends)).1]
      · exact fun equal => ⟨_, after, returns, equal⟩
    rw [same, exact]
    rcases fits with zero | inside <;> omega
  · have never : ¬ ∃ quotient after, Returns (fun fuel => new21Game id fuel n k maxPts {}) (quotient, after) ∧
        (quotient : ℝ) = chance n k maxPts := by
      rintro ⟨_, _, ⟨enough, ends⟩, _⟩
      exact new21Game_never fits intK intM enough {} _ (ends enough le_rfl)
    refine iff_of_false never fun holds => fits ?_
    exact holds.imp_right And.left

theorem new21Game_exact_iff_main :
    (∃ quotient after, Returns (fun fuel => new21Game id fuel (21 : ℕ) (17 : ℕ) (10 : ℕ) {}) (quotient, after) ∧
      (quotient : ℝ) = chance 21 17 10) ↔
    17 = 0 ∨ (10 < 2 ^ 31 - 1 ∧ 17 + 10 ≤ 2 ^ 31) ∧ (17 = 1 ∨ 10 = 1 ∨ 21 < 17 ∨ 17 + 10 ≤ 21 + 1) :=
  new21Game_exact_iff 21 17 10 (by decide) (by decide)

/-- Of the three leaves at 2, 3 and 2 points, the one that is reached in a
single draw has probability one half. -/
theorem new21Game_two_draws :
    (∃ after, Returns (fun fuel => new21Game id fuel 2 2 2 {}) (2 / 3, after)) ∧ chance 2 2 2 = 3 / 4 ∧
      ((2 / 3 : ℚ) : ℝ) ≠ chance 2 2 2 := by
  have points : leafPoints 2 2 0 = [2, 3, 2] := by
    simp [leafPoints_node, leafPoints_leaf, List.range_succ]
  have exact : chance 2 2 2 = 3 / 4 := by
    rw [chance, play_eq_treeSum]
    norm_num [within, treeSum_node, treeSum_leaf, sum_range_succ]
  have returns := new21Game_quotient (n := 2) (k := 2) (m := 2) (Or.inr (by decide))
  rw [quotient, points] at returns
  exact ⟨by simpa using returns, exact, by rw [exact]; norm_num⟩

end BlogAlgorithms.New21Game
