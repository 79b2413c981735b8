import BlogAlgorithms.Java.Array
import BlogAlgorithms.Java.IntLoop
import Mathlib.Data.List.Rotate

namespace BlogAlgorithms.FindTheWinner
open Java

/-- The statement `queue.add(queue.remove())`. -/
def pass (queue : List Int) : Exec (List Int) := do
  let (head, queue) ← queueRemove queue
  .ok (queue ++ [head])

/-- The body of the loop, which lets `k - 1` people pass and the next one leave. -/
def eliminate (k : Int) (fuel : Nat) (queue : List Int) : Exec (List Int) := do
  let queue ← forInt (k - 1) (fun _ => pass) fuel 1 queue
  let (_, queue) ← queueRemove queue
  .ok queue

def findTheWinner (fuel : Nat) (n k : Int) : Exec Int := do
  let queue ← forInt n (fun i queue => .ok (queue ++ [i])) fuel 1 []
  let queue ← whileLoop (fun queue => .ok (queue.length ≠ 1)) (eliminate k) fuel queue
  queueElement queue

/-- The recurrence of the winner's number, by the number of people. -/
def J (k : Nat) : Nat → Nat
  | 0 => 0
  | 1 => 1
  | m + 2 => (J k (m + 1) + k - 1) % (m + 2) + 1

theorem J_bounds (k m : Nat) : 1 ≤ J k (m + 1) ∧ J k (m + 1) ≤ m + 1 := by
  cases m with
  | zero => exact ⟨le_rfl, le_rfl⟩
  | succ m =>
    have small := Nat.mod_lt (J k (m + 1) + k - 1) (show 0 < m + 2 by omega)
    rw [J]
    omega

section
variable {k : Nat} {queue : List Int}

theorem pass_eq (nonempty : queue ≠ []) : pass queue = .ok (queue.rotate 1) := by
  cases queue with
  | nil => exact absurd rfl nonempty
  | cons head rest => simp [pass, queueRemove]

theorem passes_returns (count : Nat) (int : (count : Int) < 2 ^ 31 - 1) (nonempty : queue ≠ []) :
    Returns (fun fuel => forInt count (fun _ => pass) fuel 1 queue) (queue.rotate count) := by
  have loop : forUp 1 count (fun _ => pass) (queue.rotate 0) = .ok (queue.rotate count) := by
    refine forUp_states queue.rotate (by omega) fun t _ => ?_
    rw [pass_eq fun empty => nonempty (List.rotate_eq_nil_iff.mp empty), List.rotate_rotate]
  rw [List.rotate_zero] at loop
  exact forInt_returns (by decide) int (Returns.of_eq fun _ => loop)

/-- A round of the game leaves the others, from the next person on. -/
theorem eliminate_returns (positive : 1 ≤ k) (int : (k : Int) < 2 ^ 31) (nonempty : queue ≠ []) :
    Returns (fun fuel => eliminate k fuel queue) (queue.rotate (k - 1)).tail := by
  have count : (k : Int) - 1 = (k - 1 : Nat) := by omega
  have passes := passes_returns (k - 1) (by omega) nonempty
  rw [← count] at passes
  cases rotated : queue.rotate (k - 1) with
  | nil => exact absurd (List.rotate_eq_nil_iff.mp rotated) nonempty
  | cons head rest =>
    rw [rotated] at passes
    exact passes.bind (.ok rest)

/-- The person at the place that the recurrence names. -/
def Wins (k : Nat) (winner : Int) (queue : List Int) : Prop :=
  queue ≠ [] ∧ queue[J k queue.length - 1]? = some winner

theorem Wins.eliminate {winner : Int} (positive : 1 ≤ k) (wins : Wins k winner queue) (several : queue.length ≠ 1) :
    Wins k winner (queue.rotate (k - 1)).tail := by
  obtain ⟨nonempty, atPlace⟩ := wins
  have occupied := List.length_pos_iff.mpr nonempty
  obtain ⟨m, length⟩ : ∃ m, queue.length = m + 2 := ⟨queue.length - 2, by omega⟩
  have shorter : (queue.rotate (k - 1)).tail.length = m + 1 := by
    rw [List.length_tail, List.length_rotate, length]
    rfl
  obtain ⟨lower, upper⟩ := J_bounds k m
  have next : J k (m + 1) - 1 + 1 = J k (m + 1) := by omega
  have place : J k (m + 1) + (k - 1) = J k (m + 1) + k - 1 := by omega
  refine ⟨fun empty => by simp [empty] at shorter, ?_⟩
  rw [shorter, List.getElem?_tail, next, List.getElem?_rotate (by omega), place, length]
  rwa [length, J, Nat.add_sub_cancel] at atPlace

theorem game_ensures {winner : Int} (positive : 1 ≤ k) (int : (k : Int) < 2 ^ 31) (wins : Wins k winner queue) :
    Ensures (fun fuel => whileLoop (fun queue => .ok (queue.length ≠ 1)) (eliminate k) fuel queue)
      (fun final => final = [winner]) := by
  have loop : Ensures (fun fuel => whileLoop (fun queue => .ok (queue.length ≠ 1)) (eliminate k) fuel queue)
      (fun final => Wins k winner final ∧ (.ok (decide (final.length ≠ 1)) : Exec Bool) = .ok false) := by
    refine whileLoop_ensures (Wins k winner) List.length (fun q wins => ⟨⟨_, rfl⟩, fun running => ?_⟩) wins
    have several : q.length ≠ 1 := of_decide_eq_true (Except.ok.inj running)
    refine ⟨_, eliminate_returns positive int wins.1, wins.eliminate positive several, ?_⟩
    have occupied := List.length_pos_iff.mpr wins.1
    rw [List.length_tail, List.length_rotate]
    omega
  refine loop.mono fun final ⟨⟨_, atPlace⟩, stopped⟩ => ?_
  have single : final.length = 1 := not_not.mp (of_decide_eq_false (Except.ok.inj stopped))
  obtain ⟨x, rfl⟩ := List.length_eq_one_iff.mp single
  cases atPlace
  rfl

end

theorem numbers_returns (n : Nat) (int : (n : Int) < 2 ^ 31 - 1) :
    Returns (fun fuel => forInt n (fun i queue => .ok (queue ++ [i])) fuel 1 [])
      ((List.range n).map fun i : Nat => (i : Int) + 1) := by
  have loop : forUp 1 n (fun i queue => .ok (queue ++ [i])) [] =
      .ok ((List.range n).map fun i : Nat => (i : Int) + 1) := by
    refine forUp_states (fun t => (List.range t).map fun i : Nat => (i : Int) + 1) (by omega) fun t _ => ?_
    rw [List.range_succ, List.map_append, List.map_singleton, Int.add_comm]
  exact forInt_returns (by decide) int (Returns.of_eq fun _ => loop)

/-- The simulated game ends, and the winner is the one of the recurrence. -/
theorem findTheWinner_returns {n k : Nat} (people : 1 ≤ n) (small : (n : Int) < 2 ^ 31 - 1)
    (positive : 1 ≤ k) (int : (k : Int) < 2 ^ 31) :
    Returns (fun fuel => findTheWinner fuel n k) (J k n : Nat) := by
  obtain ⟨m, rfl⟩ : ∃ m, n = m + 1 := ⟨n - 1, by omega⟩
  obtain ⟨lower, upper⟩ := J_bounds k m
  have start : Wins k (J k (m + 1) : Nat) ((List.range (m + 1)).map fun i : Nat => (i : Int) + 1) := by
    refine ⟨by simp, ?_⟩
    rw [List.length_map, List.length_range, List.getElem?_map, List.getElem?_range (by omega), Option.map_some]
    congr 1
    omega
  obtain ⟨final, runs, rfl⟩ := game_ensures positive int start
  exact (numbers_returns (m + 1) small).bind (runs.bind (.ok _))

theorem findTheWinner_never {n : Int} (greatest : n = 2 ^ 31 - 1) (k value : Int) :
    ¬ Returns (fun fuel => findTheWinner fuel n k) value := by
  subst greatest
  rintro ⟨enough, ends⟩
  obtain ⟨queue, filled, _⟩ := bind_eq_ok.mp (ends enough le_rfl)
  exact forInt_never (by decide) filled

/-- For all ints `n` and `k` the game ends with the winner of the recurrence,
but for `n` the greatest int, where the queue is never filled. -/
theorem findTheWinner_iff (n k : Nat) (people : 1 ≤ n) (positive : 1 ≤ k) (intN : n < 2 ^ 31) (intK : k < 2 ^ 31) :
    Returns (fun fuel => findTheWinner fuel n k) (J k n : Nat) ↔ n ≤ 2 ^ 31 - 2 := by
  constructor
  · intro returns
    by_contra large
    exact findTheWinner_never (by omega) k _ returns
  · intro small
    exact findTheWinner_returns people (by omega) positive (by omega)

theorem findTheWinner_iff_main : Returns (fun fuel => findTheWinner fuel 5 2) 3 :=
  (findTheWinner_iff 5 2 (by decide) (by decide) (by decide) (by decide)).mpr (by decide)

theorem findTheWinner_greatest : ¬ Returns (fun fuel => findTheWinner fuel 2147483647 1) (J 1 2147483647 : Nat) :=
  findTheWinner_never (by decide) 1 _

end BlogAlgorithms.FindTheWinner
