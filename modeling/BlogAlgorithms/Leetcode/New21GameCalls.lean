import BlogAlgorithms.Java.Double
import BlogAlgorithms.Leetcode.New21Game

namespace BlogAlgorithms.New21Game
open Java DrawTree

/-- The arguments of a call of `new21Game`. -/
structure Call where
  n : ℕ
  k : ℕ
  maxPts : ℕ
  positive : 1 ≤ maxPts
  intK : k < 2 ^ 31
  intMaxPts : maxPts < 2 ^ 31

def Call.run (call : Call) (fuel : Nat) (this : Solution) : Exec (ℚ × Solution) :=
  new21Game toDouble fuel call.n call.k call.maxPts this

/-- The object after the calls one after the other. -/
def runCalls (fuel : Nat) (calls : List Call) (this : Solution) : Exec Solution :=
  calls.foldlM (fun this call => do .ok (← call.run fuel this).2) this

/-- Every outcome of the game has at most `n` points, or none has. -/
def Call.Won (call : Call) : Prop := call.k = 0 ∨ call.k + call.maxPts ≤ call.n + 1

def Call.Lost (call : Call) : Prop := call.n < call.k

/-- The same game, or games of a single draw with the same odds. -/
def Call.Alike (call other : Call) : Prop :=
  (call.n = other.n ∧ call.k = other.k ∧ call.maxPts = other.maxPts) ∨
    (call.k = 1 ∧ other.k = 1 ∧ call.n * other.maxPts = other.n * call.maxPts)

/-- Calls none of which shows that the counters are those of all of them. The
counters are exact up to `2 ^ 53`, and a game has at most `maxPts ^ k` outcomes. -/
def Harmless (calls : List Call) : Prop :=
  (∀ call ∈ calls, call.Won) ∨ (∀ call ∈ calls, call.Lost) ∨
    (∀ call ∈ calls, ∀ other ∈ calls, call.Alike other) ∧ (calls.map fun call => call.maxPts ^ call.k).sum ≤ 2 ^ 53

def Call.leaves (call : Call) : List ℕ := leafPoints call.maxPts call.k 0

/-- The counters after a call that returns. -/
def Solution.after (this : Solution) (call : Call) : Solution := this.count toDouble call.n call.leaves

def Solution.result (this : Solution) : ℚ := toDouble (this.success / this.total)

theorem run_returns {call : Call} (fits : Fits call.k call.maxPts) (this : Solution) :
    Returns (fun fuel => call.run fuel this) ((this.after call).result, this.after call) :=
  new21Game_returns fits this

theorem run_never {call : Call} (unfit : ¬ Fits call.k call.maxPts) (fuel : ℕ) (this : Solution)
    (result : ℚ × Solution) : call.run fuel this ≠ .ok result :=
  new21Game_never unfit call.intK call.intMaxPts fuel this result

theorem runCalls_iff {calls : List Call} {first after : Solution} :
    Returns (fun fuel => runCalls fuel calls first) after ↔
      (∀ call ∈ calls, Fits call.k call.maxPts) ∧ after = calls.foldl Solution.after first := by
  induction calls generalizing first with
  | nil =>
    constructor
    · exact fun returns => ⟨by simp, returns.unique (.ok first)⟩
    · rintro ⟨_, same⟩
      rw [same]
      exact .ok first
  | cons call calls ih =>
    simp only [runCalls, List.foldlM_cons, List.foldl_cons, List.forall_mem_cons] at ih ⊢
    by_cases fits : Fits call.k call.maxPts
    · have ends : Returns (fun fuel => do .ok (← call.run fuel first).2) (first.after call) :=
        (run_returns fits first).bind (.ok _)
      constructor
      · intro returns
        obtain ⟨others, same⟩ := ih.mp (ends.of_bind returns)
        exact ⟨⟨fits, others⟩, same⟩
      · rintro ⟨⟨_, others⟩, same⟩
        exact ends.bind (ih.mpr ⟨others, same⟩)
    · constructor
      · rintro ⟨enough, ends⟩
        obtain ⟨_, runs, _⟩ := bind_eq_ok.mp (ends enough le_rfl)
        obtain ⟨result, runs, _⟩ := bind_eq_ok.mp runs
        exact absurd runs (run_never fits enough first result)
      · rintro ⟨⟨here, _⟩, _⟩
        exact absurd here fits

section
variable {n : ℕ} {this : Solution} {leaves : List ℕ}

/-- While every outcome wins, both counters are the same. -/
theorem count_won (won : ∀ x ∈ leaves, x ≤ n) (same : this.success = this.total) (nonneg : 0 ≤ this.total) :
    (this.count toDouble n leaves).success = (this.count toDouble n leaves).total ∧
      0 ≤ (this.count toDouble n leaves).total ∧ (leaves ≠ [] → 0 < (this.count toDouble n leaves).total) := by
  induction leaves generalizing this with
  | nil => exact ⟨same, nonneg, fun some => absurd rfl some⟩
  | cons x leaves ih =>
    obtain ⟨here, others⟩ := List.forall_mem_cons.mp won
    have positive : 0 < (this.tally toDouble n x).total := toDouble_pos (by linarith)
    have equal : (this.tally toDouble n x).success = (this.tally toDouble n x).total := by
      simp only [Solution.tally, if_pos here, same]
    obtain ⟨after, lower, more⟩ := ih others equal positive.le
    refine ⟨after, lower, fun _ => ?_⟩
    cases leaves with
    | nil => exact positive
    | cons y leaves => exact more (List.cons_ne_nil y leaves)

theorem count_lost (lost : ∀ x ∈ leaves, n < x) (none : this.success = 0) :
    (this.count toDouble n leaves).success = 0 := by
  induction leaves generalizing this with
  | nil => exact none
  | cons x leaves ih =>
    obtain ⟨here, others⟩ := List.forall_mem_cons.mp lost
    refine ih others ?_
    simp only [Solution.tally, if_neg (not_le.mpr here), none, add_zero, toDouble_zero]

/-- Below `2 ^ 53` the counters are exact. -/
theorem count_exact {total success : ℕ} (le : success ≤ total) (small : total + leaves.length ≤ 2 ^ 53) :
    Solution.count toDouble n ⟨total, success⟩ leaves =
      ⟨(total + leaves.length : ℕ), (success + leaves.countP (· ≤ n) : ℕ)⟩ := by
  induction leaves generalizing total success with
  | nil => rfl
  | cons x leaves ih =>
    rw [List.length_cons] at small ⊢
    have tally : Solution.tally toDouble n ⟨total, success⟩ x =
        ⟨(total + 1 : ℕ), (success + (if x ≤ n then 1 else 0) : ℕ)⟩ := by
      have least : success + (if x ≤ n then 1 else 0) ≤ 2 ^ 53 := by split <;> omega
      rw [← toDouble_natCast (show total + 1 ≤ 2 ^ 53 by omega), ← toDouble_natCast least]
      simp only [Solution.tally]
      push_cast
      rfl
    rw [Solution.count, List.foldl_cons, tally]
    refine (ih (by split <;> omega) (by omega)).trans ?_
    rw [List.countP_cons]
    congr 2
    · omega
    · simp only [decide_eq_true_eq]
      omega

end

section
variable {call other : Call} {calls : List Call} {this : Solution}

theorem Call.Won.leaves (won : call.Won) : ∀ x ∈ call.leaves, x ≤ call.n := by
  intro x member
  obtain ⟨leaf, root | inside⟩ := leafPoints_bounds member
  · omega
  · rcases won with zero | all
    · rw [Call.leaves, leafPoints_leaf zero.le, List.mem_singleton] at member
      omega
    · omega

theorem Call.Lost.leaves (lost : call.Lost) : ∀ x ∈ call.leaves, call.n < x :=
  fun _ member => lost.trans_le (leafPoints_bounds member).1

theorem fold_won (this : Solution) (won : ∀ call ∈ calls, call.Won) (same : this.success = this.total)
    (nonneg : 0 ≤ this.total) :
    (calls.foldl Solution.after this).success = (calls.foldl Solution.after this).total ∧
      0 ≤ (calls.foldl Solution.after this).total := by
  induction calls generalizing this with
  | nil => exact ⟨same, nonneg⟩
  | cons call calls ih =>
    obtain ⟨here, others⟩ := List.forall_mem_cons.mp won
    obtain ⟨equal, lower, _⟩ := count_won here.leaves same nonneg
    exact ih _ others equal lower

theorem fold_lost (this : Solution) (lost : ∀ call ∈ calls, call.Lost) (none : this.success = 0) :
    (calls.foldl Solution.after this).success = 0 := by
  induction calls generalizing this with
  | nil => exact none
  | cons call calls ih =>
    obtain ⟨here, others⟩ := List.forall_mem_cons.mp lost
    exact ih _ others (count_lost here.leaves none)

theorem result_won (won : call.Won) (same : this.success = this.total) (nonneg : 0 ≤ this.total) :
    (this.after call).result = toDouble 1 := by
  obtain ⟨equal, _, positive⟩ := count_won won.leaves same nonneg
  have nonzero := (positive (leafPoints_ne_nil call.positive 0)).ne'
  rw [Solution.result, Solution.after, equal, div_self nonzero]

theorem result_lost (lost : call.Lost) (none : this.success = 0) : (this.after call).result = toDouble 0 := by
  rw [Solution.result, Solution.after, count_lost lost.leaves none, zero_div]

/-- The number of outcomes with at most `n` points. -/
def Call.wins (call : Call) : ℕ := call.leaves.countP (· ≤ call.n)

theorem countP_range_succ_le (n m : ℕ) : ((List.range m).map (· + 1)).countP (· ≤ n) = min n m := by
  induction m with
  | zero => exact (Nat.min_zero n).symm
  | succ m ih =>
    rw [List.range_succ, List.map_append, List.countP_append, ih, List.map_singleton, List.countP_singleton]
    split <;> rename_i last
    · have := of_decide_eq_true last
      omega
    · have := of_decide_eq_false (Bool.not_eq_true _ ▸ last)
      omega

theorem leaves_single (single : call.k = 1) : call.leaves = (List.range call.maxPts).map (· + 1) := by
  rw [Call.leaves, single, leafPoints_node one_pos, List.map_eq_flatMap]
  refine congrArg (fun f => List.flatMap f _) (funext fun i => ?_)
  rw [leafPoints_leaf (by omega), Nat.zero_add]

theorem Call.Alike.odds (alike : call.Alike other) :
    call.wins * other.leaves.length = other.wins * call.leaves.length := by
  rcases alike with ⟨n, k, maxPts⟩ | ⟨single, single', same⟩
  · simp only [Call.wins, Call.leaves, n, k, maxPts]
  · rw [Call.wins, Call.wins, leaves_single single, leaves_single single', countP_range_succ_le,
      countP_range_succ_le, List.length_map, List.length_map, List.length_range, List.length_range,
      ← Nat.mul_min_mul_right, ← Nat.mul_min_mul_right, same, Nat.mul_comm call.maxPts]

theorem length_leaves_le (call : Call) : call.leaves.length ≤ call.maxPts ^ call.k :=
  length_leafPoints_le call.positive 0

theorem fold_exact (calls : List Call) {total success : ℕ} (le : success ≤ total)
    (small : total + (calls.map fun call => call.maxPts ^ call.k).sum ≤ 2 ^ 53) :
    calls.foldl Solution.after ⟨total, success⟩ =
      ⟨(total + (calls.map fun call => call.leaves.length).sum : ℕ),
        (success + (calls.map Call.wins).sum : ℕ)⟩ := by
  induction calls generalizing total success with
  | nil => rfl
  | cons call calls ih =>
    rw [List.map_cons, List.sum_cons] at small
    have fewer := length_leaves_le call
    have wins : call.wins ≤ call.leaves.length := List.countP_le_length
    have first : Solution.after ⟨total, success⟩ call =
        ⟨(total + call.leaves.length : ℕ), (success + call.wins : ℕ)⟩ := count_exact le (by omega)
    rw [List.foldl_cons, first, ih (by omega) (by omega), List.map_cons, List.map_cons, List.sum_cons,
      List.sum_cons, Nat.add_assoc, Nat.add_assoc]

theorem sum_odds (alike : ∀ other ∈ calls, other.Alike call) :
    (calls.map Call.wins).sum * call.leaves.length =
      call.wins * (calls.map fun call => call.leaves.length).sum := by
  induction calls with
  | nil => simp
  | cons other calls ih =>
    obtain ⟨here, others⟩ := List.forall_mem_cons.mp alike
    rw [List.map_cons, List.map_cons, List.sum_cons, List.sum_cons, Nat.add_mul, Nat.mul_add, here.odds, ih others]

/-- The quotient of the sums is that of each call. -/
theorem result_alike {before : List Call} (alike : ∀ other ∈ before ++ [call], other.Alike call)
    (small : ((before ++ [call]).map fun call => call.maxPts ^ call.k).sum ≤ 2 ^ 53) :
    ((before.foldl Solution.after {}).after call).result = (({} : Solution).after call).result := by
  have whole := fold_exact (before ++ [call]) (le_refl 0) (by omega)
  have alone := fold_exact [call] (le_refl 0) (by
    rw [List.map_append, List.sum_append] at small
    omega)
  have positive : 0 < call.leaves.length := List.length_pos_iff.mpr (leafPoints_ne_nil call.positive 0)
  have more : call.leaves.length ≤ ((before ++ [call]).map fun call => call.leaves.length).sum := by
    rw [List.map_append, List.sum_append]
    simp
  rw [List.foldl_append] at whole
  simp only [List.foldl_cons, List.foldl_nil, List.map_cons, List.map_nil, List.sum_cons, List.sum_nil,
    Nat.zero_add, Nat.add_zero] at whole alone
  have start : (⟨(0 : ℕ), (0 : ℕ)⟩ : Solution) = {} := by simp
  rw [start] at whole alone
  rw [whole, alone, Solution.result, Solution.result]
  refine congrArg toDouble ((div_eq_div_iff ?_ ?_).mpr ?_)
  · exact Nat.cast_ne_zero.mpr (by omega)
  · exact Nat.cast_ne_zero.mpr (by omega)
  · have odds := congrArg (Nat.cast : ℕ → ℚ) (sum_odds alike)
    rwa [Nat.cast_mul, Nat.cast_mul] at odds

end

/-- In every state that calls on one object lead to, the next call returns what it
returns on a new object, if it is the first or none of the calls shows that the
counters are not set back. -/
theorem new21Game_next_call (before : List Call) (call : Call) (this : Solution)
    (ran : Returns (fun fuel => runCalls fuel before {}) this)
    (harmless : before = [] ∨ Harmless (before ++ [call])) (value : ℚ) :
    (∃ after, Returns (fun fuel => call.run fuel this) (value, after)) ↔
      ∃ after, Returns (fun fuel => call.run fuel {}) (value, after) := by
  obtain ⟨_, rfl⟩ := runCalls_iff.mp ran
  have last : call ∈ before ++ [call] := List.mem_append_right before List.mem_cons_self
  have earlier (other : Call) (member : other ∈ before) : other ∈ before ++ [call] :=
    List.mem_append_left [call] member
  have same : ((before.foldl Solution.after {}).after call).result = (({} : Solution).after call).result := by
    rcases harmless with rfl | won | lost | ⟨alike, small⟩
    · rfl
    · obtain ⟨equal, nonneg⟩ := fold_won {} (fun other member => won other (earlier other member)) rfl le_rfl
      rw [result_won (won call last) equal nonneg, result_won (won call last) rfl le_rfl]
    · have none := fold_lost {} (fun other member => lost other (earlier other member)) rfl
      rw [result_lost (lost call last) none, result_lost (lost call last) rfl]
    · exact result_alike (fun other member => alike other member call last) small
  by_cases fits : Fits call.k call.maxPts
  · have used := run_returns fits (before.foldl Solution.after {})
    have fresh := run_returns fits {}
    constructor
    · rintro ⟨_, returns⟩
      obtain ⟨rfl, _⟩ := Prod.mk.inj (returns.unique used)
      exact ⟨_, same ▸ fresh⟩
    · rintro ⟨_, returns⟩
      obtain ⟨rfl, _⟩ := Prod.mk.inj (returns.unique fresh)
      exact ⟨_, same ▸ used⟩
  · constructor
    · rintro ⟨_, enough, ends⟩
      exact absurd (ends enough le_rfl) (run_never fits enough _ _)
    · rintro ⟨_, enough, ends⟩
      exact absurd (ends enough le_rfl) (run_never fits enough _ _)

/-- A game of a single draw. -/
def oneDraw (n maxPts : ℕ) (range : 1 ≤ maxPts ∧ maxPts < 2 ^ 31 - 1) : Call where
  n := n
  k := 1
  maxPts := maxPts
  positive := range.1
  intK := by decide
  intMaxPts := range.2.trans (by decide)

theorem oneDraw_fits (n maxPts : ℕ) (range : 1 ≤ maxPts ∧ maxPts < 2 ^ 31 - 1) :
    Fits (oneDraw n maxPts range).k (oneDraw n maxPts range).maxPts :=
  Or.inr ⟨range.2, by change 1 + maxPts ≤ 2 ^ 31; omega⟩

/-- A draw from two points wins with one, and a draw from four with two. -/
theorem new21Game_next_call_halves : ∃ this, Returns (fun fuel => runCalls fuel [oneDraw 1 2 (by decide)] {}) this ∧
    ∀ value, (∃ after, Returns (fun fuel => (oneDraw 2 4 (by decide)).run fuel this) (value, after)) ↔
      ∃ after, Returns (fun fuel => (oneDraw 2 4 (by decide)).run fuel {}) (value, after) := by
  have ran : Returns (fun fuel => runCalls fuel [oneDraw 1 2 (by decide)] {}) _ :=
    runCalls_iff.mpr ⟨List.forall_mem_singleton.mpr (oneDraw_fits 1 2 (by decide)), rfl⟩
  refine ⟨_, ran, fun value => new21Game_next_call _ _ _ ran (Or.inr (Or.inr (Or.inr ⟨?_, by decide⟩))) value⟩
  simp [Call.Alike, oneDraw]

theorem after_oneDraw (n maxPts : ℕ) (range : 1 ≤ maxPts ∧ maxPts < 2 ^ 31 - 1) {total success : ℕ}
    (le : success ≤ total) (small : total + maxPts ≤ 2 ^ 53) :
    Solution.after ⟨total, success⟩ (oneDraw n maxPts range) =
      ⟨(total + maxPts : ℕ), (success + min n maxPts : ℕ)⟩ := by
  have leaves : (oneDraw n maxPts range).leaves = (List.range maxPts).map (· + 1) := leaves_single rfl
  have length : (oneDraw n maxPts range).leaves.length = maxPts := by
    rw [leaves, List.length_map, List.length_range]
  have counted : Solution.after ⟨total, success⟩ (oneDraw n maxPts range) = _ := count_exact le (by omega)
  rwa [length, leaves, show (oneDraw n maxPts range).n = n from rfl, countP_range_succ_le] at counted

theorem toDouble_half : toDouble (1 / 2) = 1 / 2 := by
  have log : Int.log 2 |(1 / 2 : ℚ)| = -1 := by
    rw [show |(1 / 2 : ℚ)| = ((2 : ℕ) : ℚ) ^ (-1 : ℤ) by norm_num, Int.log_zpow (by decide)]
  exact toDouble_of_multiple (z := 2 ^ 52) (by rw [log]; norm_num)

/-- The one point drawn with `n = 1` is still counted as won with `n = 0`. -/
theorem new21Game_second_call : ∃ this after fresh,
    Returns (fun fuel => runCalls fuel [oneDraw 1 1 (by decide)] {}) this ∧
    Returns (fun fuel => (oneDraw 0 1 (by decide)).run fuel this) (1 / 2, after) ∧
    Returns (fun fuel => (oneDraw 0 1 (by decide)).run fuel {}) (0, fresh) := by
  have first : ({} : Solution).after (oneDraw 1 1 (by decide)) = ⟨(1 : ℕ), (1 : ℕ)⟩ := by
    simpa using after_oneDraw 1 1 (by decide) (le_refl 0) (by decide)
  have used : Solution.after ⟨(1 : ℕ), (1 : ℕ)⟩ (oneDraw 0 1 (by decide)) = ⟨(2 : ℕ), (1 : ℕ)⟩ :=
    after_oneDraw 0 1 (by decide) le_rfl (by decide)
  have fresh : ({} : Solution).after (oneDraw 0 1 (by decide)) = ⟨(1 : ℕ), (0 : ℕ)⟩ := by
    simpa using after_oneDraw 0 1 (by decide) (le_refl 0) (by decide)
  have half : Solution.result ⟨(2 : ℕ), (1 : ℕ)⟩ = 1 / 2 := by
    rw [Solution.result, ← toDouble_half]
    norm_num
  have zero : Solution.result ⟨(1 : ℕ), (0 : ℕ)⟩ = 0 := by
    rw [Solution.result, Nat.cast_zero, zero_div, toDouble_zero]
  have second := run_returns (oneDraw_fits 0 1 (by decide)) ⟨(1 : ℕ), (1 : ℕ)⟩
  have alone := run_returns (oneDraw_fits 0 1 (by decide)) {}
  rw [used, half] at second
  rw [fresh, zero] at alone
  exact ⟨⟨(1 : ℕ), (1 : ℕ)⟩, _, _,
    runCalls_iff.mpr ⟨List.forall_mem_singleton.mpr (oneDraw_fits 1 1 (by decide)), first.symm⟩, second, alone⟩

end BlogAlgorithms.New21Game
