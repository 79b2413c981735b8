import BlogAlgorithms.Java.Exec

namespace Java
universe u

/-- The statement `while (test) body` on the variables the loop assigns. The
body may hold loops of its own, which run on the remaining fuel. -/
def whileLoop {σ : Type u} (test : σ → Exec Bool) (body : Nat → σ → Exec σ) : Nat → σ → Exec σ
  | 0, _ => .error .outOfFuel
  | fuel + 1, state =>
    match test state with
    | .error halt => .error halt
    | .ok false => .ok state
    | .ok true => body fuel state >>= whileLoop test body fuel

/-- One pass of a loop that keeps its invariant: the test has a value, and
where it is true the body ends in a state of smaller measure. -/
structure LoopStep {σ : Type u} (test : σ → Exec Bool) (body : Nat → σ → Exec σ)
    (invariant : σ → Prop) (measure : σ → Nat) (state : σ) : Prop where
  tests : ∃ running, test state = .ok running
  runs : test state = .ok true →
    Ensures (fun fuel => body fuel state) (fun next => invariant next ∧ measure next < measure state)

theorem whileLoop_ends {σ : Type u} {test : σ → Exec Bool} {body : Nat → σ → Exec σ} {state : σ}
    (ended : test state = .ok false) : Returns (fun fuel => whileLoop test body fuel state) state :=
  Returns.call (fun fuel => by simp only [whileLoop, ended]) (.ok state)

/-- The while rule for total correctness. -/
theorem whileLoop_ensures {σ : Type u} {test : σ → Exec Bool} {body : Nat → σ → Exec σ}
    (invariant : σ → Prop) (measure : σ → Nat)
    (step : ∀ state, invariant state → LoopStep test body invariant measure state)
    {state : σ} (holds : invariant state) :
    Ensures (fun fuel => whileLoop test body fuel state)
      (fun final => invariant final ∧ test final = .ok false) := by
  induction size : measure state using Nat.strong_induction_on generalizing state with
  | _ bound ih =>
    subst size
    obtain ⟨tests, runs⟩ := step state holds
    obtain ⟨running, outcome⟩ := tests
    cases running with
    | false => exact ⟨state, whileLoop_ends outcome, holds, outcome⟩
    | true =>
      have iterate : Ensures (fun fuel => body fuel state >>= whileLoop test body fuel)
          (fun final => invariant final ∧ test final = .ok false) :=
        (runs outcome).bind fun next ⟨kept, smaller⟩ => ih (measure next) smaller kept rfl
      obtain ⟨final, returns, post⟩ := iterate
      exact ⟨final, Returns.call (fun fuel => by simp only [whileLoop, outcome]) returns, post⟩

/-- How the body of a loop ends: it goes on to the next iteration, or it
leaves the loop with `break`. -/
inductive Flow (σ : Type u)
  | next (state : σ)
  | stop (state : σ)

/-- The statement `while (true) body` whose body may leave the loop. -/
def loopForever {σ : Type u} (body : Nat → σ → Exec (Flow σ)) : Nat → σ → Exec σ
  | 0, _ => .error .outOfFuel
  | fuel + 1, state => do
    match ← body fuel state with
    | .next state => loopForever body fuel state
    | .stop state => .ok state

/-- An iteration either keeps the invariant and makes the measure smaller, or
leaves the loop in a state of the postcondition. -/
def Flow.Advances {σ : Type u} (invariant post : σ → Prop) (measure : σ → Nat) (bound : Nat) :
    Flow σ → Prop
  | .next state => invariant state ∧ measure state < bound
  | .stop state => post state

theorem loopForever_ensures {σ : Type u} {body : Nat → σ → Exec (Flow σ)}
    (invariant post : σ → Prop) (measure : σ → Nat)
    (step : ∀ state, invariant state →
      Ensures (fun fuel => body fuel state) (Flow.Advances invariant post measure (measure state)))
    {state : σ} (holds : invariant state) :
    Ensures (fun fuel => loopForever body fuel state) post := by
  induction size : measure state using Nat.strong_induction_on generalizing state with
  | _ bound ih =>
    subst size
    refine Ensures.call (fun _ => rfl) ((step state holds).bind fun flow advances => ?_)
    cases flow with
    | next state => exact ih (measure state) advances.2 advances.1 rfl
    | stop state => exact ⟨state, .ok state, advances⟩

/-- Run the body for so many consecutive values of the counter. -/
def forCount {σ : Type u} (body : Int → σ → Exec σ) : Nat → Int → σ → Exec σ
  | 0, _, state => .ok state
  | count + 1, k, state => body k state >>= forCount body count (k + 1)

/-- The statement `for (int k = lo; k <= hi; k++) body`, or the same with `k < hi + 1`,
where the body does not assign the counter and `hi + 1` is an int, as behind the last
index of an array: the counter does not wrap. -/
def forUp {σ : Type u} (lo hi : Int) (body : Int → σ → Exec σ) (state : σ) : Exec σ :=
  forCount body (hi + 1 - lo).toNat lo state

theorem forUp_empty {σ : Type u} {lo hi : Int} {body : Int → σ → Exec σ} {state : σ}
    (empty : hi < lo) : forUp lo hi body state = .ok state := by
  have none : (hi + 1 - lo).toNat = 0 := by omega
  simp only [forUp, none, forCount]

theorem forUp_step {σ : Type u} {lo hi : Int} {body : Int → σ → Exec σ} {state : σ}
    (nonempty : lo ≤ hi) :
    forUp lo hi body state = body lo state >>= forUp (lo + 1) hi body := by
  obtain ⟨count, same⟩ : ∃ count, (hi + 1 - lo).toNat = count + 1 := ⟨(hi - lo).toNat, by omega⟩
  have rest : (hi + 1 - (lo + 1)).toNat = count := by omega
  have tail : forUp (lo + 1) hi body = forCount body count (lo + 1) := by
    funext next
    rw [forUp, rest]
  rw [forUp, same, tail, forCount]

/-- The counted loop keeps an invariant indexed by its counter. -/
theorem forUp_ensures {σ : Type u} {lo hi : Int} {body : Nat → Int → σ → Exec σ}
    (invariant : Int → σ → Prop)
    (step : ∀ k state, lo ≤ k → k ≤ hi → invariant k state →
      Ensures (fun fuel => body fuel k state) (invariant (k + 1)))
    (ordered : lo ≤ hi + 1) {state : σ} (holds : invariant lo state) :
    Ensures (fun fuel => forUp lo hi (body fuel) state) (invariant (hi + 1)) := by
  obtain ⟨count, size⟩ : ∃ count : Nat, hi + 1 - lo = count := ⟨(hi + 1 - lo).toNat, by omega⟩
  induction count generalizing lo state with
  | zero =>
    have done : lo = hi + 1 := by omega
    subst done
    exact ⟨state, Returns.of_eq fun fuel => forUp_empty (by omega), holds⟩
  | succ count ih =>
    have first := step lo state le_rfl (by omega) holds
    have rest : Ensures (fun fuel => body fuel lo state >>= forUp (lo + 1) hi (body fuel))
        (invariant (hi + 1)) :=
      first.bind fun next kept =>
        ih (fun k inner lower upper => step k inner (by omega) upper) (by omega) kept (by omega)
    obtain ⟨final, returns, post⟩ := rest
    exact ⟨final, returns.congr fun fuel => forUp_step (by omega), post⟩

/-- The same rule where the body needs no fuel of its own. -/
theorem forUp_ok {σ : Type u} {lo hi : Int} {body : Int → σ → Exec σ} (invariant : Int → σ → Prop)
    (step : ∀ k state, lo ≤ k → k ≤ hi → invariant k state →
      ∃ next, body k state = .ok next ∧ invariant (k + 1) next)
    (ordered : lo ≤ hi + 1) {state : σ} (holds : invariant lo state) :
    ∃ final, forUp lo hi body state = .ok final ∧ invariant (hi + 1) final := by
  have loop : Ensures (fun _ => forUp lo hi body state) (invariant (hi + 1)) := by
    refine forUp_ensures invariant (fun k state lower upper kept => ?_) ordered holds
    exact ensures_const.mpr (step k state lower upper kept)
  exact ensures_const.mp loop

/-- A counted loop whose state is known after each number of iterations. -/
theorem forUp_returns {σ : Type u} {lo hi : Int} {count : Nat} {body : Nat → Int → σ → Exec σ} (states : Nat → σ)
    (size : hi + 1 - lo = count)
    (step : ∀ t < count, Returns (fun fuel => body fuel (lo + t) (states t)) (states (t + 1))) :
    Returns (fun fuel => forUp lo hi (body fuel) (states 0)) (states count) := by
  have loop : Ensures (fun fuel => forUp lo hi (body fuel) (states 0))
      (fun final => final = states (hi + 1 - lo).toNat) := by
    refine forUp_ensures (fun k state => state = states (k - lo).toNat) (fun k state lower upper same => ?_)
      (by omega) (by rw [Int.sub_self, Int.toNat_zero])
    obtain ⟨t, rfl⟩ : ∃ t : Nat, k = lo + t := ⟨(k - lo).toNat, by omega⟩
    have here : (lo + t - lo).toNat = t := by omega
    have next : (lo + t + 1 - lo).toNat = t + 1 := by omega
    rw [same, here]
    exact ⟨_, step t (by omega), by rw [next]⟩
  rw [size, Int.toNat_natCast] at loop
  obtain ⟨final, returns, rfl⟩ := loop
  exact returns

theorem forUp_states {σ : Type u} {lo hi : Int} {count : Nat} {body : Int → σ → Exec σ} (states : Nat → σ)
    (size : hi + 1 - lo = count) (step : ∀ t < count, body (lo + t) (states t) = .ok (states (t + 1))) :
    forUp lo hi body (states 0) = .ok (states count) :=
  returns_const.mp (forUp_returns states size fun t inside => returns_const.mpr (step t inside))

/-- A loop over the indices of an array, with an invariant about the elements
it has passed. -/
theorem forUp_elements {σ α : Type u} {a : List α} {body : Int → σ → Exec σ} (invariant : List α → σ → Prop)
    (step : ∀ front value back state, a = front ++ value :: back → invariant front state →
      ∃ next, body front.length state = .ok next ∧ invariant (front ++ [value]) next)
    {state : σ} (holds : invariant [] state) :
    ∃ final, forUp 0 (a.length - 1) body state = .ok final ∧ invariant a final := by
  have loop : ∃ final, forUp 0 (a.length - 1) body state = .ok final ∧
      invariant (a.take ((a.length : Int) - 1 + 1).toNat) final := by
    refine forUp_ok (fun k => invariant (a.take k.toNat)) (fun k state lower upper kept => ?_) (by omega) holds
    obtain ⟨t, rfl⟩ : ∃ t : Nat, k = t := ⟨k.toNat, by omega⟩
    have inside : t < a.length := by omega
    have split : a = a.take t ++ a[t] :: a.drop (t + 1) := by
      rw [← List.drop_eq_getElem_cons, List.take_append_drop]
    have found := step (a.take t) a[t] (a.drop (t + 1)) state split kept
    rwa [List.length_take_of_le inside.le, List.take_append_getElem inside] at found
  rwa [Int.sub_add_cancel, Int.toNat_natCast, List.take_length] at loop

/-- The statement `for (int k = hi; k >= lo; k--) body`: the opposite of its
counter goes up. -/
def forDown {σ : Type u} (hi lo : Int) (body : Int → σ → Exec σ) (state : σ) : Exec σ :=
  forUp (-hi) (-lo) (fun k => body (-k)) state

theorem forDown_ensures {σ : Type u} {hi lo : Int} {body : Nat → Int → σ → Exec σ}
    (invariant : Int → σ → Prop)
    (step : ∀ k state, lo ≤ k → k ≤ hi → invariant k state →
      Ensures (fun fuel => body fuel k state) (invariant (k - 1)))
    (ordered : lo ≤ hi + 1) {state : σ} (holds : invariant hi state) :
    Ensures (fun fuel => forDown hi lo (body fuel) state) (invariant (lo - 1)) := by
  have start : invariant (- -hi) state := (Int.neg_neg hi).symm ▸ holds
  have loop : Ensures (fun fuel => forUp (-hi) (-lo) (fun k => body fuel (-k)) state)
      (fun final => invariant (-(-lo + 1)) final) := by
    refine forUp_ensures (fun k => invariant (-k)) (fun k inner lower upper kept => ?_) (by omega) start
    rw [Int.neg_add, ← Int.sub_eq_add_neg]
    exact step (-k) inner (by omega) (by omega) kept
  rwa [Int.neg_add, Int.neg_neg, ← Int.sub_eq_add_neg] at loop

/-- Run the body for consecutive values of the counter until it leaves. -/
def searchCount {ρ : Type u} (body : Int → Exec (Option ρ)) : Nat → Int → Exec (Option ρ)
  | 0, _ => .ok none
  | count + 1, k => do
    match ← body k with
    | some exit => .ok (some exit)
    | none => searchCount body count (k + 1)

/-- The statement of `forUp`, with the same bound, whose body changes no variable and may
leave the loop, which ends with the way it was left. -/
def forSearch {ρ : Type u} (lo hi : Int) (body : Int → Exec (Option ρ)) : Exec (Option ρ) :=
  searchCount body (hi + 1 - lo).toNat lo

/-- The loop is left at the first value of the counter at which the body leaves. -/
theorem forSearch_ok {ρ : Type u} {lo hi : Int} {body : Int → Exec (Option ρ)}
    (runs : ∀ k, lo ≤ k → k ≤ hi → ∃ exit, body k = .ok exit) :
    (forSearch lo hi body = .ok none ∧ ∀ k, lo ≤ k → k ≤ hi → body k = .ok none) ∨
      ∃ k exit, forSearch lo hi body = .ok (some exit) ∧ lo ≤ k ∧ k ≤ hi ∧ body k = .ok (some exit) ∧
        ∀ j, lo ≤ j → j < k → body j = .ok none := by
  unfold forSearch
  induction size : (hi + 1 - lo).toNat generalizing lo with
  | zero => exact Or.inl ⟨rfl, fun k lower upper => by omega⟩
  | succ count ih =>
    obtain ⟨outcome, here⟩ := runs lo le_rfl (by omega)
    cases outcome with
    | some exit =>
      refine Or.inr ⟨lo, exit, ?_, le_rfl, by omega, here, fun j lower upper => by omega⟩
      simp only [searchCount, here, ok_bind]
    | none =>
      have step : searchCount body (count + 1) lo = searchCount body count (lo + 1) := by
        simp only [searchCount, here, ok_bind]
      have later : ∀ k, lo + 1 ≤ k → k ≤ hi → ∃ exit, body k = .ok exit :=
        fun k lower upper => runs k (by omega) upper
      rw [step]
      rcases ih later (by omega) with
        ⟨ends, all⟩ | ⟨k, exit, leaves, lower, upper, found, before⟩
      · refine Or.inl ⟨ends, fun k lower upper => ?_⟩
        by_cases first : k = lo
        · exact first ▸ here
        · exact all k (by omega) upper
      · refine Or.inr ⟨k, exit, leaves, by omega, upper, found, fun j lower upper => ?_⟩
        by_cases first : j = lo
        · exact first ▸ here
        · exact before j (by omega) upper

end Java
