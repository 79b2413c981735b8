import BlogAlgorithms.Java.Loop

namespace Java
universe u

/-- Partial correctness: whatever the bound, the program does not throw, and
where it is seen to end its value satisfies the postcondition. -/
def Confined {α : Type u} (run : Nat → Exec α) (post : α → Prop) : Prop :=
  ∀ fuel, run fuel = .error .outOfFuel ∨ ∃ value, run fuel = .ok value ∧ post value

/-- The unbounded program runs forever. -/
def Diverges {α : Type u} (run : Nat → Exec α) : Prop :=
  ∀ fuel, run fuel = .error .outOfFuel

theorem Diverges.not_returns {α : Type u} {run : Nat → Exec α} (forever : Diverges run) {value : α} :
    ¬ Returns run value := by
  rintro ⟨enough, ends⟩
  have same := (forever enough).symm.trans (ends enough le_rfl)
  cases same

theorem Diverges.not_ensures {α : Type u} {run : Nat → Exec α} (forever : Diverges run) {post : α → Prop} :
    ¬ Ensures run post := by
  rintro ⟨value, returns, _⟩
  exact forever.not_returns returns

theorem Confined.diverges {α : Type u} {run : Nat → Exec α} {post : α → Prop} (confined : Confined run post)
    (impossible : ∀ value, ¬ post value) : Diverges run := by
  intro fuel
  rcases confined fuel with spent | ⟨value, _, holds⟩
  · exact spent
  · exact absurd holds (impossible value)

theorem Confined.mono {α : Type u} {run : Nat → Exec α} {post weaker : α → Prop} (confined : Confined run post)
    (weaken : ∀ value, post value → weaker value) : Confined run weaker := by
  intro fuel
  rcases confined fuel with spent | ⟨value, ends, holds⟩
  · exact Or.inl spent
  · exact Or.inr ⟨value, ends, weaken value holds⟩

theorem Confined.of_eq {α : Type u} {run : Nat → Exec α} {post : α → Prop} {value : α}
    (same : ∀ fuel, run fuel = .ok value) (holds : post value) : Confined run post :=
  fun fuel => Or.inr ⟨value, same fuel, holds⟩

theorem Confined.bind {α β : Type u} {first : Nat → Exec α} {next : Nat → α → Exec β}
    {middle : α → Prop} {post : β → Prop} (left : Confined first middle)
    (right : ∀ value, middle value → Confined (fun fuel => next fuel value) post) :
    Confined (fun fuel => first fuel >>= next fuel) post := by
  intro fuel
  rcases left fuel with spent | ⟨value, ends, holds⟩
  · left
    simp only [spent, error_bind]
  · simp only [ends, ok_bind]
    exact right value holds fuel

theorem Confined.call {α : Type u} {run body : Nat → Exec α} {post : α → Prop}
    (exhausted : run 0 = .error .outOfFuel) (unfolds : ∀ fuel, run (fuel + 1) = body fuel)
    (confined : Confined body post) : Confined run post := by
  intro fuel
  cases fuel with
  | zero => exact Or.inl exhausted
  | succ fuel =>
    rw [unfolds]
    exact confined fuel

theorem Diverges.bind {α β : Type u} {first : Nat → Exec α} (forever : Diverges first)
    (next : Nat → α → Exec β) : Diverges (fun fuel => first fuel >>= next fuel) := by
  intro fuel
  simp only [forever fuel, error_bind]

/-- The while rule for partial correctness. -/
theorem whileLoop_confined {σ : Type u} {test : σ → Exec Bool} {body : Nat → σ → Exec σ} (invariant : σ → Prop)
    (tests : ∀ state, invariant state → ∃ running, test state = .ok running)
    (step : ∀ state, invariant state → test state = .ok true → Confined (fun fuel => body fuel state) invariant)
    {state : σ} (holds : invariant state) :
    Confined (fun fuel => whileLoop test body fuel state)
      (fun final => invariant final ∧ test final = .ok false) := by
  intro fuel
  induction fuel generalizing state with
  | zero => exact Or.inl rfl
  | succ fuel ih =>
    obtain ⟨running, outcome⟩ := tests state holds
    cases running with
    | false =>
      right
      refine ⟨state, ?_, holds, outcome⟩
      simp only [whileLoop, outcome]
    | true =>
      simp only [whileLoop, outcome]
      rcases step state holds outcome fuel with spent | ⟨next, ends, kept⟩
      · left
        simp only [spent, error_bind]
      · simp only [ends, ok_bind]
        exact ih kept

/-- A loop whose test stays true under an invariant never ends. -/
theorem whileLoop_diverges {σ : Type u} {test : σ → Exec Bool} {body : Nat → σ → Exec σ} (invariant : σ → Prop)
    (tests : ∀ state, invariant state → test state = .ok true)
    (step : ∀ state, invariant state → Confined (fun fuel => body fuel state) invariant)
    {state : σ} (holds : invariant state) : Diverges (fun fuel => whileLoop test body fuel state) := by
  have loop := whileLoop_confined invariant (fun state kept => ⟨true, tests state kept⟩)
    (fun state kept _ => step state kept) holds
  apply loop.diverges
  rintro final ⟨kept, ended⟩
  rw [tests final kept] at ended
  cases ended

/-- An iteration keeps the invariant or leaves the loop in a state of the
postcondition. -/
def Flow.Confines {σ : Type u} (invariant post : σ → Prop) : Flow σ → Prop
  | .next state => invariant state
  | .stop state => post state

theorem Flow.Advances.confines {σ : Type u} {invariant post : σ → Prop} {measure : σ → Nat} {bound : Nat}
    {flow : Flow σ} (advances : flow.Advances invariant post measure bound) : flow.Confines invariant post := by
  cases flow with
  | next state => exact advances.1
  | stop state => exact advances

theorem loopForever_confined {σ : Type u} {body : Nat → σ → Exec (Flow σ)} (invariant post : σ → Prop)
    (step : ∀ state, invariant state → Confined (fun fuel => body fuel state) (Flow.Confines invariant post))
    {state : σ} (holds : invariant state) : Confined (fun fuel => loopForever body fuel state) post := by
  intro fuel
  induction fuel generalizing state with
  | zero => exact Or.inl rfl
  | succ fuel ih =>
    simp only [loopForever]
    rcases step state holds fuel with spent | ⟨flow, ends, confines⟩
    · left
      simp only [spent, error_bind]
    · simp only [ends, ok_bind]
      cases flow with
      | next later => exact ih confines
      | stop final => exact Or.inr ⟨final, rfl, confines⟩

/-- What a loop keeps, where its end is already known. -/
theorem whileLoop_kept {σ : Type u} {test : σ → Exec Bool} {body : Nat → σ → Exec σ} (invariant : σ → Prop)
    (step : ∀ fuel state later, invariant state → body fuel state = .ok later → invariant later)
    {fuel : Nat} {state final : σ} (ends : whileLoop test body fuel state = .ok final) (holds : invariant state) :
    invariant final := by
  induction fuel generalizing state with
  | zero => cases ends
  | succ fuel ih =>
    simp only [whileLoop] at ends
    split at ends
    · cases ends
    · cases ends
      exact holds
    · obtain ⟨later, runs, rest⟩ := bind_eq_ok.mp ends
      exact ih rest (step fuel state later holds runs)

theorem forUp_kept {σ : Type u} {lo hi : Int} {body : Int → σ → Exec σ} (invariant : σ → Prop)
    (step : ∀ k state later, invariant state → body k state = .ok later → invariant later)
    {state final : σ} (ends : forUp lo hi body state = .ok final) (holds : invariant state) : invariant final := by
  unfold forUp at ends
  generalize (hi + 1 - lo).toNat = count at ends
  induction count generalizing lo state with
  | zero =>
    cases ends
    exact holds
  | succ count ih =>
    obtain ⟨later, runs, rest⟩ := bind_eq_ok.mp ends
    exact ih (step lo state later holds runs) rest

/-- Loops whose tests agree on the states of an invariant run alike. -/
theorem whileLoop_congr {σ : Type u} {test other : σ → Exec Bool} {body : Nat → σ → Exec σ} (invariant : σ → Prop)
    (same : ∀ state, invariant state → test state = other state)
    (step : ∀ fuel state later, invariant state → test state = .ok true → body fuel state = .ok later →
      invariant later)
    {state : σ} (holds : invariant state) (fuel : Nat) :
    whileLoop test body fuel state = whileLoop other body fuel state := by
  induction fuel generalizing state with
  | zero => rfl
  | succ fuel ih =>
    simp only [whileLoop, ← same state holds]
    split
    · rfl
    · rfl
    · rename_i running
      exact bind_congr_ok fun later runs => ih (step fuel state later holds running runs)

theorem forUp_congr {σ : Type u} {lo hi : Int} {body other : Int → σ → Exec σ} (invariant : Int → σ → Prop)
    (same : ∀ k state, lo ≤ k → k ≤ hi → invariant k state → body k state = other k state)
    (step : ∀ k state later, lo ≤ k → k ≤ hi → invariant k state → other k state = .ok later →
      invariant (k + 1) later)
    {state : σ} (holds : invariant lo state) : forUp lo hi body state = forUp lo hi other state := by
  obtain ⟨count, size⟩ : ∃ count : Nat, (hi + 1 - lo).toNat = count := ⟨_, rfl⟩
  induction count generalizing lo state with
  | zero => rw [forUp_empty (by omega), forUp_empty (by omega)]
  | succ count ih =>
    rw [forUp_step (by omega), forUp_step (by omega), same lo state le_rfl (by omega) holds]
    refine bind_congr_ok fun later runs => ?_
    exact ih (fun k state lower => same k state (by omega))
      (fun k state later lower => step k state later (by omega))
      (step lo state later le_rfl (by omega) holds runs) (by omega)

/-- A counted loop that has been seen to end returns, if its passes do. -/
theorem returns_forUp {σ : Type u} {lo hi : Int} {body : Nat → Int → σ → Exec σ} {fuel : Nat}
    (passes : ∀ k state later, body fuel k state = .ok later → Returns (fun fuel => body fuel k state) later)
    {state final : σ} (ends : forUp lo hi (body fuel) state = .ok final) :
    Returns (fun fuel => forUp lo hi (body fuel) state) final := by
  obtain ⟨count, size⟩ : ∃ count : Nat, (hi + 1 - lo).toNat = count := ⟨_, rfl⟩
  induction count generalizing lo state with
  | zero =>
    rw [forUp_empty (by omega)] at ends
    exact Returns.of_eq fun _ => (forUp_empty (by omega)).trans ends
  | succ count ih =>
    rw [forUp_step (by omega)] at ends
    obtain ⟨later, runs, rest⟩ := bind_eq_ok.mp ends
    exact ((passes lo state later runs).bind (ih rest (by omega))).congr fun _ => forUp_step (by omega)

/-- A pass that throws ends the loop, if the passes before it change nothing. -/
theorem forUp_throws {σ : Type u} {lo hi : Int} {body : Nat → Int → σ → Exec σ} {state : σ}
    {exception : Throwable} (mid : Int) (lower : lo ≤ mid) (upper : mid ≤ hi)
    (idle : ∀ k, lo ≤ k → k < mid → Returns (fun fuel => body fuel k state) state)
    (throws : Throws (fun fuel => body fuel mid state) exception) :
    Throws (fun fuel => forUp lo hi (body fuel) state) exception := by
  obtain ⟨count, size⟩ : ∃ count : Nat, (mid - lo).toNat = count := ⟨_, rfl⟩
  induction count generalizing lo with
  | zero =>
    obtain rfl : lo = mid := by omega
    simp only [forUp_step upper]
    exact throws.bind _
  | succ count ih =>
    have later := ih (show lo + 1 ≤ mid by omega) (fun k first => idle k (by omega)) (by omega)
    simp only [forUp_step (show lo ≤ hi by omega)]
    exact (idle lo le_rfl (by omega)).bind_throws later

theorem foldlM_kept {σ α : Type u} {body : σ → α → Exec σ} (invariant : σ → Prop)
    (step : ∀ state value later, invariant state → body state value = .ok later → invariant later)
    {values : List α} {state final : σ} (ends : values.foldlM body state = .ok final) (holds : invariant state) :
    invariant final := by
  induction values generalizing state with
  | nil =>
    cases ends
    exact holds
  | cons value rest ih =>
    rw [List.foldlM_cons] at ends
    obtain ⟨later, runs, next⟩ := bind_eq_ok.mp ends
    exact ih next (step state value later holds runs)

/-- The states at the head of a loop, before each evaluation of its test. -/
inductive Reached {σ : Type u} (test : σ → Exec Bool) (body : Nat → σ → Exec σ) (initial : σ) : σ → Prop
  | start : Reached test body initial initial
  | next {state later : σ} : Reached test body initial state → test state = .ok true →
      Returns (fun fuel => body fuel state) later → Reached test body initial later

theorem Reached.keeps {σ : Type u} {test : σ → Exec Bool} {body : Nat → σ → Exec σ} {initial state : σ}
    (reached : Reached test body initial state) (invariant : σ → Prop) (holds : invariant initial)
    (step : ∀ state later, invariant state → test state = .ok true →
      Returns (fun fuel => body fuel state) later → invariant later) : invariant state := by
  induction reached with
  | start => exact holds
  | next _ running returns ih => exact step _ _ ih running returns

/-- The loop ends as it does from any state on its way. -/
theorem Reached.rest {σ : Type u} {test : σ → Exec Bool} {body : Nat → σ → Exec σ} {initial state final : σ}
    (reached : Reached test body initial state)
    (returns : Returns (fun fuel => whileLoop test body fuel state) final) :
    Returns (fun fuel => whileLoop test body fuel initial) final := by
  induction reached with
  | start => exact returns
  | next _ running runs ih =>
    apply ih
    exact Returns.call (fun fuel => by simp only [whileLoop, running]) (runs.bind returns)

/-- The states of a counted loop before its passes, with the counter of the
pass that comes next, and the state after them all. -/
inductive Passing {σ : Type u} (lo hi : Int) (body : Nat → Int → σ → Exec σ) (initial : σ) : Int → σ → Prop
  | start : Passing lo hi body initial lo initial
  | next {k : Int} {state later : σ} : Passing lo hi body initial k state → k ≤ hi →
      Returns (fun fuel => body fuel k state) later → Passing lo hi body initial (k + 1) later

section
variable {σ : Type u} {lo hi : Int} {body : Nat → Int → σ → Exec σ} {initial : σ}

theorem Passing.keeps {k : Int} {state : σ} (passing : Passing lo hi body initial k state)
    (invariant : Int → σ → Prop) (holds : invariant lo initial)
    (step : ∀ k state later, lo ≤ k → k ≤ hi → invariant k state →
      Returns (fun fuel => body fuel k state) later → invariant (k + 1) later) : lo ≤ k ∧ invariant k state := by
  induction passing with
  | start => exact ⟨le_rfl, holds⟩
  | next _ upper returns ih => exact ⟨by omega, step _ _ _ ih.1 upper ih.2 returns⟩

/-- The loop ends as its remaining passes do. -/
theorem Passing.rest {k : Int} {state final : σ} (passing : Passing lo hi body initial k state)
    (returns : Returns (fun fuel => forUp k hi (body fuel) state) final) :
    Returns (fun fuel => forUp lo hi (body fuel) initial) final := by
  induction passing with
  | start => exact returns
  | next _ upper runs ih =>
    apply ih
    exact (runs.bind returns).congr fun fuel => forUp_step upper

/-- The states of a loop that counts down, before the pass with the counter `k`. -/
def PassingDown (hi lo : Int) (body : Nat → Int → σ → Exec σ) (initial : σ) (k : Int) (state : σ) : Prop :=
  Passing (-hi) (-lo) (fun fuel k => body fuel (-k)) initial (-k) state

theorem Passing.down {k : Int} {state : σ}
    (passing : Passing (-hi) (-lo) (fun fuel k => body fuel (-k)) initial k state) :
    PassingDown hi lo body initial (-k) state := by
  rwa [PassingDown, Int.neg_neg]

theorem Passing.ends {final : σ} (passing : Passing lo hi body initial (hi + 1) final) :
    Returns (fun fuel => forUp lo hi (body fuel) initial) final :=
  passing.rest (Returns.of_eq fun _ => forUp_empty (by omega))

end

end Java
