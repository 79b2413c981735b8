import BlogAlgorithms.Java.Loop
import BlogAlgorithms.Lib.Decimal
import Mathlib.Order.Interval.Finset.Nat

namespace BlogAlgorithms.LexicalOrder
open Java Decimal

section
variable (keep : Int → Int)

/-- The test of the inner loop. What an int keeps of an exact sum or product
is a parameter. -/
def cannotGrow (n num : Int) : Exec Bool := .ok (decide (num.tmod 10 = 9 ∨ keep (num + 1) > n))

/-- The inner loop, which leaves the numbers whose last digit cannot grow. -/
def strip (n : Int) : Nat → Int → Exec Int :=
  whileLoop (cannotGrow keep n) (fun _ num => .ok (num.tdiv 10))

/-- One pass of the outer loop on `res` and `num`. -/
def advance (n : Int) (fuel : Nat) (state : List Int × Int) : Exec (List Int × Int) := do
  let (res, num) := state
  let res := res ++ [num]
  if keep (num * 10) ≤ n then .ok (res, keep (num * 10))
  else do
    let num ← strip keep n fuel num
    .ok (res, keep (num + 1))

def lexicalOrder (fuel : Nat) (n : Int) : Exec (List Int) := do
  let (res, _) ← forUp 0 (n - 1) (fun _ => advance keep n fuel) ([], 1)
  .ok res

end

/-- The number that follows among the positive numbers up to the limit. -/
def Follows (n m next : Nat) : Prop :=
  Before m next ∧ ∀ x, 0 < x → x ≤ n → Before m x → x = next ∨ Before next x

theorem follows_child {n m : Nat} (positive : 0 < m) : Follows n m (10 * m) := by
  have begins : Begins m (10 * m) := ⟨1, by omega⟩
  refine ⟨begins.before (by omega), fun x _ _ later => ?_⟩
  rcases later.cases with ⟨inside, different⟩ | ⟨p, q, parent, less, hp, left, right⟩
  · obtain ⟨next, above, longer, reaches⟩ := inside.child different
    rcases Nat.eq_or_lt_of_le (show 10 * m ≤ next by omega) with same | more
    · by_cases whole : x = 10 * m
      · exact Or.inl whole
      · exact Or.inr ((same ▸ reaches).before (Ne.symm whole))
    · exact Or.inr (before_of_siblings (by omega) (by omega) more (Begins.refl _) reaches)
  · exact Or.inr (before_of_siblings parent hp less (left.trans begins) right)

/-- Nothing up to the limit that begins with `q` comes after `m`. -/
def Exhausted (n m q : Nat) : Prop :=
  Begins q m ∧ ∀ x, 0 < x → x ≤ n → Begins q x → ¬ Before m x

theorem exhausted_self {n m : Nat} (large : n < 10 * m) : Exhausted n m m := by
  refine ⟨Begins.refl m, fun x _ bound inside later => ?_⟩
  have different : m ≠ x := fun same => before_irrefl x (same ▸ later)
  obtain ⟨next, above, longer, reaches⟩ := inside.child different
  have large := reaches.le
  omega

/-- One pass of the inner loop: no sibling after `q` is left either. -/
theorem Exhausted.div {n m q : Nat} (exhausted : Exhausted n m q) (positive : 0 < q)
    (last : q % 10 = 9 ∨ n < q + 1) : Exhausted n m (q / 10) := by
  obtain ⟨begins, none⟩ := exhausted
  refine ⟨(Begins.div q).trans begins, fun x hx bound inside later => ?_⟩
  by_cases whole : q / 10 = x
  · have earlier : Begins x m := whole ▸ (Begins.div q).trans begins
    have different : x ≠ m := fun same => before_irrefl m (same ▸ later)
    exact (earlier.before different).asymm later
  · obtain ⟨next, parent, longer, reaches⟩ := inside.child whole
    have size := reaches.le
    rcases Nat.lt_trichotomy next q with less | same | more
    · exact (before_of_siblings parent (by omega) less reaches begins).asymm later
    · exact none x hx bound (same ▸ reaches) later
    · omega

theorem Exhausted.follows {n m q : Nat} (exhausted : Exhausted n m q) (positive : 0 < q)
    (more : q % 10 ≠ 9) : Follows n m (q + 1) := by
  obtain ⟨begins, none⟩ := exhausted
  have parent : q / 10 = (q + 1) / 10 := by omega
  refine ⟨before_of_siblings parent positive (by omega) begins (Begins.refl _), fun x hx bound later => ?_⟩
  by_cases same : x = q + 1
  · exact Or.inl same
  rcases before_or_before same with earlier | after
  · exfalso
    rcases earlier.cases with ⟨inside, different⟩ | ⟨p, p', siblings, less, hp, left, right⟩
    · -- a proper beginning of `q + 1` already begins `m`
      have reaches := ((parent ▸ inside.of_ne different).trans (Begins.div q)).trans begins
      have unequal : x ≠ m := fun equal => before_irrefl m (equal ▸ later)
      exact (reaches.before unequal).asymm later
    · by_cases atEnd : p' = q + 1
      · rcases Nat.eq_or_lt_of_le (show p ≤ q by omega) with equal | below
        · exact none x hx bound (equal ▸ left) later
        · exact (before_of_siblings (by omega) hp below left begins).asymm later
      · have reaches := ((parent ▸ right.of_ne atEnd).trans (Begins.div q)).trans begins
        exact (before_of_siblings siblings hp less left reaches).asymm later
  · exact Or.inr after

theorem cannotGrow_natCast (n q : Nat) :
    cannotGrow id n q = .ok (decide (q % 10 = 9 ∨ n < q + 1)) := by
  have digit : (q : Int).tmod 10 = ((q % 10 : Nat) : Int) := rfl
  have same : ((q : Int).tmod 10 = 9 ∨ id ((q : Int) + 1) > (n : Int)) ↔ (q % 10 = 9 ∨ n < q + 1) := by
    rw [digit, id_eq]
    omega
  rw [cannotGrow, decide_eq_decide.mpr same]

/-- The inner loop ends at a number whose successor is within the limit. -/
theorem strip_ensures {n m : Nat} (limit : 0 < n) (large : n < 10 * m) :
    Ensures (fun fuel => strip id n fuel m)
      (fun num => ∃ q : Nat, num = (q : Int) ∧ Exhausted n m q ∧ q % 10 ≠ 9 ∧ q + 1 ≤ n) := by
  have step : ∀ num : Int, (∃ q : Nat, num = (q : Int) ∧ Exhausted n m q) →
      LoopStep (cannotGrow id n) (fun _ num => .ok (num.tdiv 10))
        (fun num => ∃ q : Nat, num = (q : Int) ∧ Exhausted n m q) Int.toNat num := by
    intro num ⟨q, same, exhausted⟩
    subst same
    refine ⟨⟨_, cannotGrow_natCast n q⟩, fun running => ?_⟩
    rw [cannotGrow_natCast] at running
    have last := of_decide_eq_true (Except.ok.inj running)
    have positive : 0 < q := by omega
    refine ⟨((q / 10 : Nat) : Int), .ok _, ⟨q / 10, rfl, exhausted.div positive last⟩, ?_⟩
    rw [Int.toNat_natCast, Int.toNat_natCast]
    omega
  refine (whileLoop_ensures _ _ step ⟨m, rfl, exhausted_self large⟩).mono fun num reached => ?_
  obtain ⟨⟨q, same, exhausted⟩, stopped⟩ := reached
  subst same
  rw [cannotGrow_natCast] at stopped
  have stop := of_decide_eq_false (Except.ok.inj stopped)
  exact ⟨q, rfl, exhausted, by omega, by omega⟩

/-- The numbers up to the limit that are still to come after `m`. -/
def later (n m : Nat) : Finset Nat := (Finset.Icc 1 n).filter (Before m)

theorem mem_later {n m x : Nat} : x ∈ later n m ↔ (0 < x ∧ x ≤ n) ∧ Before m x := by
  rw [later, Finset.mem_filter, Finset.mem_Icc]
  exact Iff.rfl

theorem Follows.later_eq {n m next : Nat} (follows : Follows n m next) :
    later n next = (later n m).erase next := by
  obtain ⟨before, least⟩ := follows
  ext x
  rw [Finset.mem_erase, mem_later, mem_later]
  constructor
  · intro ⟨bounds, after⟩
    exact ⟨fun same => before_irrefl next (same ▸ after), bounds, before.trans after⟩
  · intro ⟨different, bounds, after⟩
    exact ⟨bounds, (least x bounds.1 bounds.2 after).resolve_left different⟩

/-- A pass on a number that is not the last moves to the one that follows. -/
theorem advance_ensures {n m : Nat} (limit : 0 < n) (positive : 0 < m) (res : List Int) :
    Ensures (fun fuel => advance id n fuel (res, (m : Int)))
      (fun state => state.1 = res ++ [(m : Int)] ∧ ((later n m).Nonempty →
        ∃ next : Nat, state.2 = (next : Int) ∧ 0 < next ∧ next ≤ n ∧ Follows n m next)) := by
  by_cases small : 10 * m ≤ n
  · have test : id ((m : Int) * 10) ≤ (n : Int) := by
      rw [id_eq]
      omega
    refine ⟨(res ++ [(m : Int)], (m : Int) * 10), Returns.of_eq fun fuel => ?_, rfl, fun _ => ?_⟩
    · simp only [advance, test, if_true]
      rfl
    · exact ⟨10 * m, by push_cast; omega, by omega, small, follows_child positive⟩
  · have test : ¬ id ((m : Int) * 10) ≤ (n : Int) := by
      rw [id_eq]
      omega
    have body : Ensures (fun fuel => strip id n fuel m >>= fun num =>
        (.ok (res ++ [(m : Int)], id (num + 1)) : Exec (List Int × Int)))
        (fun state => state.1 = res ++ [(m : Int)] ∧ ((later n m).Nonempty →
          ∃ next : Nat, state.2 = (next : Int) ∧ 0 < next ∧ next ≤ n ∧ Follows n m next)) := by
      refine (strip_ensures limit (by omega)).bind fun num ⟨q, same, exhausted, digit, bound⟩ => ?_
      subst same
      refine ⟨_, .ok _, rfl, fun ⟨x, member⟩ => ?_⟩
      obtain ⟨bounds, after⟩ := mem_later.mp member
      have begun : 0 < q := by
        by_contra zero
        have empty : q = 0 := by omega
        exact exhausted.2 x bounds.1 bounds.2 (empty ▸ Begins.zero x) after
      exact ⟨q + 1, by simp, by omega, bound, exhausted.follows begun digit⟩
    obtain ⟨state, returns, post⟩ := body
    refine ⟨state, returns.congr fun fuel => ?_, post⟩
    simp only [advance, test, if_false]

/-- What holds before the pass with the counter `k`. -/
def Listed (n : Nat) (k : Int) (state : List Int × Int) : Prop :=
  ∃ done : List Nat, state.1 = done.map (fun x : Nat => (x : Int)) ∧ (done.length : Int) = k ∧
    done.Pairwise Before ∧ (∀ x ∈ done, 0 < x ∧ x ≤ n) ∧
    (k < n → ∃ m : Nat, state.2 = (m : Int) ∧ 0 < m ∧ m ≤ n ∧ (∀ x ∈ done, Before x m) ∧
      ((later n m).card : Int) + k + 1 = n)

theorem later_one {n : Nat} : later n 1 = (Finset.Icc 1 n).erase 1 := by
  ext x
  rw [mem_later, Finset.mem_erase, Finset.mem_Icc]
  constructor
  · intro ⟨bounds, after⟩
    exact ⟨fun same => before_irrefl 1 (same ▸ after), bounds⟩
  · intro ⟨different, bounds⟩
    refine ⟨bounds, (before_or_before (Ne.symm different)).resolve_right fun earlier => ?_⟩
    rcases earlier.cases with ⟨inside, _⟩ | ⟨p, q, parent, less, hp, left, right⟩
    · have small := inside.le
      omega
    · have small := right.le
      omega

theorem listed_start {n : Nat} (limit : 0 < n) : Listed n 0 ([], 1) := by
  refine ⟨[], rfl, rfl, List.Pairwise.nil, by simp, fun _ => ⟨1, rfl, by omega, limit, by simp, ?_⟩⟩
  rw [later_one, Finset.card_erase_of_mem (by simp; omega), Nat.card_Icc]
  omega

theorem Listed.advance {n : Nat} (limit : 0 < n) {k : Int} {state : List Int × Int}
    (bound : k < n) (listed : Listed n k state) :
    Ensures (fun fuel => LexicalOrder.advance id n fuel state) (Listed n (k + 1)) := by
  obtain ⟨done, same, length, sorted, bounds, current⟩ := listed
  obtain ⟨m, atM, positive, small, behind, count⟩ := current bound
  obtain ⟨res, num⟩ := state
  simp only at same atM
  subst same atM
  refine (advance_ensures limit positive _).mono fun next ⟨grown, moves⟩ => ?_
  refine ⟨done ++ [m], by simp [grown], by simp [length], ?_, ?_, fun more => ?_⟩
  · rw [List.pairwise_append]
    exact ⟨sorted, List.pairwise_singleton _ _, fun x inDone y atEnd => by
      rw [List.mem_singleton.mp atEnd]
      exact behind x inDone⟩
  · intro x member
    rcases List.mem_append.mp member with old | new
    · exact bounds x old
    · rw [List.mem_singleton.mp new]
      exact ⟨positive, small⟩
  · have nonempty : (later n m).Nonempty := Finset.card_pos.mp (by omega)
    obtain ⟨following, atNext, hNext, nextSmall, follows⟩ := moves nonempty
    have member : following ∈ later n m := mem_later.mpr ⟨⟨hNext, nextSmall⟩, follows.1⟩
    refine ⟨following, atNext, hNext, nextSmall, fun x inside => ?_, ?_⟩
    · rcases List.mem_append.mp inside with old | new
      · exact (behind x old).trans follows.1
      · rw [List.mem_singleton.mp new]
        exact follows.1
    · rw [follows.later_eq, Finset.card_erase_of_mem member]
      have positiveCard := Finset.card_pos.mpr nonempty
      omega

theorem advance_run {n : Nat} (limit : 0 < n) :
    Ensures (fun fuel => forUp 0 ((n : Int) - 1) (fun _ => advance id n fuel) ([], 1)) (Listed n n) := by
  have loop : Ensures (fun fuel => forUp 0 ((n : Int) - 1) (fun _ => advance id n fuel) ([], 1))
      (Listed n ((n : Int) - 1 + 1)) :=
    forUp_ensures _ (fun k state _ upper listed => listed.advance limit (by omega)) (by omega) (listed_start limit)
  rwa [Int.sub_add_cancel] at loop

/-- Only the whole of `1..n` is as long as the list at the end. -/
theorem Listed.complete {n : Nat} {state : List Int × Int} (listed : Listed n n state) :
    ∃ done : List Nat, state.1 = done.map (fun x : Nat => (x : Int)) ∧ done.length = n ∧ done.Pairwise Before ∧
      done.Nodup ∧ ∀ x, x ∈ done ↔ 0 < x ∧ x ≤ n := by
  obtain ⟨done, same, length, sorted, bounds, _⟩ := listed
  have distinct : done.Nodup := by
    refine List.Pairwise.imp (fun {x y} before => ?_) sorted
    exact fun equal => before_irrefl y (equal ▸ before)
  have all : done.toFinset = Finset.Icc 1 n := by
    apply Finset.eq_of_subset_of_card_le
    · intro x member
      rw [Finset.mem_Icc]
      exact bounds x (List.mem_toFinset.mp member)
    · rw [Nat.card_Icc, List.toFinset_card_of_nodup distinct]
      omega
  refine ⟨done, same, by omega, sorted, distinct, fun x => ?_⟩
  rw [← List.mem_toFinset, all, Finset.mem_Icc]
  exact Iff.rfl

/-- The list holds each of `1..n` once, in the order of the decimal strings. -/
theorem lexicalOrder_correct (n : Int) (limit : 1 ≤ n) :
    ∃ res, Returns (fun fuel => lexicalOrder id fuel n) res ∧ (res.length : Int) = n ∧ res.Nodup ∧
      (∀ x, x ∈ res ↔ 1 ≤ x ∧ x ≤ n) ∧ res.Pairwise (fun x y => toString x < toString y) := by
  obtain ⟨limitNat, same⟩ : ∃ limitNat : Nat, n = limitNat := ⟨n.toNat, by omega⟩
  subst same
  obtain ⟨⟨res, num⟩, returns, listed⟩ := advance_run (show 0 < limitNat by omega)
  obtain ⟨done, same, length, sorted, distinct, members⟩ := listed.complete
  simp only at same
  subst same
  refine ⟨_, returns.bind (.ok _), ?_, ?_, ?_, ?_⟩
  · rw [List.length_map, length]
  · exact distinct.map Nat.cast_injective
  · intro x
    rw [List.mem_map]
    constructor
    · intro ⟨y, member, equal⟩
      have range := (members y).mp member
      omega
    · intro ⟨lower, upper⟩
      exact ⟨x.toNat, (members x.toNat).mpr (by omega), by omega⟩
  · rw [List.pairwise_map]
    refine List.Pairwise.imp_of_mem (fun {x y} inFirst inSecond before => ?_) sorted
    exact (toString_lt_iff ((members x).mp inFirst).1 ((members y).mp inSecond).1).mpr before

theorem lexicalOrder_correct_main :
    ∃ res, Returns (fun fuel => lexicalOrder id fuel 25) res ∧ (res.length : Int) = 25 ∧ res.Nodup ∧
      (∀ x, x ∈ res ↔ 1 ≤ x ∧ x ≤ 25) ∧ res.Pairwise (fun x y => toString x < toString y) :=
  lexicalOrder_correct 25 (by decide)

example : lexicalOrder id 3 12 = .ok [1, 10, 11, 12, 2, 3, 4, 5, 6, 7, 8, 9] := by decide

end BlogAlgorithms.LexicalOrder
