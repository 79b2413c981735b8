import BlogAlgorithms.Java.Comparator
import BlogAlgorithms.Java.Loop

namespace Java
universe u

/-- The statement `for (int k = lo; k <= hi; k++) body` where `hi` may be the
greatest int: the counter wraps, and the test is made on what it then is. -/
def forInt {σ : Type u} (hi : Int) (body : Int → σ → Exec σ) : Nat → Int → σ → Exec σ
  | 0, _, _ => .error .outOfFuel
  | fuel + 1, k, state =>
    if k ≤ hi then body k state >>= forInt hi body fuel (wrap (k + 1)) else .ok state

section
variable {σ : Type u} {lo hi : Int} {body : Int → σ → Exec σ} {fuel : Nat} {state final : σ}

theorem forInt_done (done : hi < lo) : forInt hi body (fuel + 1) lo state = .ok state := by
  rw [forInt, if_neg (by omega)]

theorem forInt_step (range : IsInt lo) (inside : lo ≤ hi) (below : hi < 2 ^ 31 - 1) :
    IsInt (lo + 1) ∧ forInt hi body (fuel + 1) lo state = body lo state >>= forInt hi body fuel (lo + 1) := by
  have lower := range.1
  have next : IsInt (lo + 1) := ⟨by omega, by omega⟩
  rw [forInt, if_pos inside, wrap_of_isInt next]
  exact ⟨next, rfl⟩

/-- Below the greatest int, as the indices of an array are and what is less than an
int, the counter does not wrap, and the loop is the counted one. -/
theorem forInt_eq_forUp (range : IsInt lo) (below : hi < 2 ^ 31 - 1) (enough : (hi + 1 - lo).toNat < fuel) :
    forInt hi body fuel lo state = forUp lo hi body state := by
  induction fuel generalizing lo state with
  | zero => omega
  | succ fuel ih =>
    by_cases inside : lo ≤ hi
    · obtain ⟨next, steps⟩ := forInt_step range inside below
      rw [steps, forUp_step inside]
      exact bind_congr_ok fun later _ => ih next (by omega)
    · rw [forInt_done (by omega), forUp_empty (by omega)]

theorem forInt_returns {body : Nat → Int → σ → Exec σ} (range : IsInt lo) (below : hi < 2 ^ 31 - 1)
    (returns : Returns (fun fuel => forUp lo hi (body fuel) state) final) :
    Returns (fun fuel => forInt hi (body fuel) fuel lo state) final := by
  obtain ⟨enough, ends⟩ := returns
  refine ⟨max enough ((hi + 1 - lo).toNat + 1), fun fuel bound => ?_⟩
  exact (forInt_eq_forUp range below (by omega)).trans (ends fuel (by omega))

/-- Every int passes the test `k <= 2147483647`. -/
theorem forInt_never (range : IsInt lo) : forInt (2 ^ 31 - 1) body fuel lo state ≠ .ok final := by
  induction fuel generalizing lo state with
  | zero => exact fun ends => nomatch ends
  | succ fuel ih =>
    intro ends
    have upper := range.2
    rw [forInt, if_pos (by omega)] at ends
    obtain ⟨next, _, rest⟩ := bind_eq_ok.mp ends
    exact ih (wrap_isInt (lo + 1)) rest

/-- A loop that has ended has run its body for every value of the counter. -/
theorem forInt_visits (range : IsInt lo) (below : hi < 2 ^ 31 - 1)
    (ends : forInt hi body fuel lo state = .ok final) {k : Int} (lower : lo ≤ k) (upper : k ≤ hi) :
    ∃ before after, body k before = .ok after := by
  induction fuel generalizing lo state with
  | zero => cases ends
  | succ fuel ih =>
    obtain ⟨next, steps⟩ := forInt_step range (show lo ≤ hi by omega) below
    rw [steps] at ends
    obtain ⟨later, runs, rest⟩ := bind_eq_ok.mp ends
    by_cases here : k = lo
    · exact ⟨state, later, here ▸ runs⟩
    · exact ih next rest (by omega)

end

section Search
variable {ρ : Type u} {lo hi : Int} {body : Int → Exec (Option ρ)}

/-- The body of a search in a loop that goes on once the search is over, and then does
nothing. -/
def searching (body : Int → Exec (Option ρ)) (k : Int) : Option ρ → Exec (Option ρ)
  | some exit => .ok (some exit)
  | none => body k

theorem forCount_searched (count : Nat) (k : Int) (exit : ρ) :
    forCount (searching body) count k (some exit) = .ok (some exit) := by
  induction count generalizing k with
  | zero => rfl
  | succ count ih => rw [forCount, searching, ok_bind, ih]

theorem forSearch_eq_forUp : forSearch lo hi body = forUp lo hi (searching body) none := by
  rw [forSearch, forUp]
  induction (hi + 1 - lo).toNat generalizing lo with
  | zero => rfl
  | succ count ih =>
    rw [searchCount, forCount, searching]
    refine bind_congr_ok fun exit _ => ?_
    cases exit with
    | some exit => exact (forCount_searched count (lo + 1) exit).symm
    | none => exact ih

/-- The same bound makes a search on ints the counted one. -/
theorem forInt_eq_forSearch {fuel : Nat} (range : IsInt lo) (below : hi < 2 ^ 31 - 1)
    (enough : (hi + 1 - lo).toNat < fuel) : forInt hi (searching body) fuel lo none = forSearch lo hi body := by
  rw [forSearch_eq_forUp, forInt_eq_forUp range below enough]

end Search

end Java
