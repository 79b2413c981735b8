import BlogAlgorithms.Java.Comparator
import BlogAlgorithms.Java.Reach
import BlogAlgorithms.Leetcode.LexicalOrder

namespace BlogAlgorithms.LexicalOrder
open Java Decimal

/-- The states before the passes of the run on ints. -/
abbrev Walks (n k : Int) (state : List Int × Int) : Prop :=
  Passing 0 (n - 1) (fun fuel _ => advance wrap n fuel) ([], 1) k state

/-- The run on ints returns the list of the run on unbounded integers. -/
def SameList (n : Int) : Prop :=
  ∃ res, Returns (fun fuel => lexicalOrder wrap fuel n) res ∧ Returns (fun fuel => lexicalOrder id fuel n) res

/-- No product of the test and no sum of the inner loop leaves the ints. -/
def NeverWraps (n : Int) : Prop :=
  ∀ k state, Walks n k state → k < n → IsInt (state.2 * 10) ∧ (¬ wrap (state.2 * 10) ≤ n →
    ∀ num, Reached (cannotGrow wrap n) (fun _ num => .ok (num.tdiv 10)) state.2 num → IsInt (num + 1))

theorem within_tdiv {n num : Int} (within : 0 ≤ num ∧ num ≤ n) : 0 ≤ num.tdiv 10 ∧ num.tdiv 10 ≤ n := by
  rw [Int.tdiv_eq_ediv_of_nonneg within.1]
  omega

theorem strip_within {keep : Int → Int} {n num final : Int} (within : 0 ≤ num ∧ num ≤ n) {fuel : Nat}
    (ends : strip keep n fuel num = .ok final) : 0 ≤ final ∧ final ≤ n := by
  refine whileLoop_kept (fun num => 0 ≤ num ∧ num ≤ n) (fun _ num later kept divided => ?_) ends within
  cases divided
  exact within_tdiv kept

section
variable {n : Nat} (small : n ≤ 214748364)
include small

theorem isInt_of_within {x : Int} (within : 0 ≤ x ∧ x ≤ 10 * n + 1) : IsInt x := ⟨by omega, by omega⟩

theorem wrap_succ {num : Int} (within : 0 ≤ num ∧ num ≤ n) : wrap (num + 1) = num + 1 :=
  wrap_of_isInt (isInt_of_within small (by omega))

theorem strip_wrap {num : Int} (within : 0 ≤ num ∧ num ≤ n) (fuel : Nat) :
    strip wrap n fuel num = strip id n fuel num := by
  refine whileLoop_congr (fun num : Int => 0 ≤ num ∧ num ≤ n) (fun num kept => ?_)
    (fun _ num later kept _ divided => ?_) within fuel
  · rw [cannotGrow, cannotGrow, wrap_succ small kept, id_eq]
  · cases divided
    exact within_tdiv kept

/-- Up to this limit a pass on ints does what it does on unbounded integers. -/
theorem advance_wrap {num : Int} (within : 0 ≤ num ∧ num ≤ n) (res : List Int) (fuel : Nat) :
    advance wrap n fuel (res, num) = advance id n fuel (res, num) := by
  have product : wrap (num * 10) = id (num * 10) := wrap_of_isInt (isInt_of_within small (by omega))
  simp only [advance, product, strip_wrap small within fuel]
  split
  · rfl
  · refine bind_congr_ok fun final ends => ?_
    rw [wrap_succ small (strip_within within ends), id_eq]

theorem Listed.advance_wrap {k : Int} {state : List Int × Int} (bound : k < n) (listed : Listed n k state)
    (fuel : Nat) : LexicalOrder.advance wrap n fuel state = LexicalOrder.advance id n fuel state := by
  obtain ⟨_, _, _, _, _, current⟩ := listed
  obtain ⟨m, same, positive, upper, _⟩ := current bound
  obtain ⟨res, num⟩ := state
  exact LexicalOrder.advance_wrap small (by simp only at same; omega) res fuel

theorem sameList_of_small (limit : 0 < n) : SameList n := by
  have loop : Ensures (fun fuel => forUp 0 ((n : Int) - 1) (fun _ => LexicalOrder.advance id n fuel) ([], 1))
      (fun state => Listed n ((n : Int) - 1 + 1) state ∧ Walks n ((n : Int) - 1 + 1) state) := by
    apply forUp_ensures (fun k state => Listed n k state ∧ Walks n k state)
    · intro k state _ upper kept
      obtain ⟨listed, walks⟩ := kept
      obtain ⟨next, returns, later⟩ := listed.advance limit (by omega)
      exact ⟨next, returns, later, walks.next upper (returns.congr (listed.advance_wrap small (by omega)))⟩
    · omega
    · exact ⟨listed_start limit, .start⟩
  obtain ⟨state, returns, _, walks⟩ := loop
  exact ⟨state.1, walks.ends.bind (.ok _), returns.bind (.ok _)⟩

theorem neverWraps_of_small (limit : 0 < n) : NeverWraps n := by
  intro k state walks bound
  have listed : Listed n k state := by
    refine (walks.keeps (fun k state => Listed n k state) (listed_start limit) ?_).2
    intro k state later _ upper listed returns
    obtain ⟨next, exact, lists⟩ := listed.advance limit (by omega)
    cases returns.unique (exact.congr (listed.advance_wrap small (by omega)))
    exact lists
  obtain ⟨_, _, _, _, _, current⟩ := listed
  obtain ⟨m, same, positive, upper, _⟩ := current bound
  refine ⟨isInt_of_within small (by omega), fun _ num reached => ?_⟩
  have within : 0 ≤ num ∧ num ≤ n := by
    refine reached.keeps (fun num => 0 ≤ num ∧ num ≤ n) (by omega) fun num later kept _ returns => ?_
    cases returns.unique (.ok _)
    exact within_tdiv kept
  exact isInt_of_within small (by omega)

end

theorem wrap_product : wrap (214748365 * 10) = -2147483646 := by decide

/-- On ints the number 214748365 can only be followed by the negative one that
its product with 10 wraps to. -/
def Overflowed (state : List Int × Int) : Prop :=
  214748365 ∈ state.1 → (state.1.getLast? = some 214748365 ∧ state.2 = -2147483646) ∨ -2147483646 ∈ state.1

theorem Overflowed.advance {n : Int} (limit : 0 ≤ n) {fuel : Nat} {state later : List Int × Int}
    (overflowed : Overflowed state) (runs : advance wrap n fuel state = .ok later) : Overflowed later := by
  obtain ⟨res, num⟩ := state
  have grown : later.1 = res ++ [num] ∧ (num = 214748365 → later.2 = -2147483646) := by
    unfold LexicalOrder.advance at runs
    dsimp only at runs
    split at runs
    · cases runs
      exact ⟨rfl, fun same => same ▸ wrap_product⟩
    · rename_i above
      obtain ⟨final, _, ends⟩ := bind_eq_ok.mp runs
      cases ends
      refine ⟨rfl, fun same => absurd ?_ above⟩
      rw [same, wrap_product]
      omega
  obtain ⟨list, next⟩ := grown
  intro member
  rw [list] at member ⊢
  rcases List.mem_append.mp member with old | new
  · right
    rcases overflowed old with ⟨_, negative⟩ | before
    · exact List.mem_append_right res (List.mem_singleton.mpr negative.symm)
    · exact List.mem_append_left [num] before
  · have same := List.mem_singleton.mp new
    exact Or.inl ⟨by rw [List.getLast?_append, ← same]; rfl, next same.symm⟩

/-- The number 9 comes after all that begin with a smaller digit. -/
theorem before_nine : Before 214748365 9 :=
  before_of_siblings (p := 2) (q := 9) rfl (by decide) (by decide) ⟨8, by decide⟩ (Begins.refl 9)

theorem not_sameList {n : Nat} (large : 214748365 ≤ n) : ¬ SameList n := by
  rintro ⟨res, onInts, unbounded⟩
  obtain ⟨state, returns, listed⟩ := advance_run (show 0 < n by omega)
  obtain ⟨done, same, _, sorted, _, members⟩ := listed.complete
  cases unbounded.unique (returns.bind (.ok state.1))
  obtain ⟨enough, ends⟩ := onInts
  obtain ⟨final, runs, list⟩ := bind_eq_ok.mp (ends enough le_rfl)
  have overflowed : Overflowed final := by
    refine forUp_kept Overflowed (fun _ state later kept advances => ?_) runs fun member => absurd member (by simp)
    exact kept.advance (by omega) advances
  have list : final.1 = done.map (fun x : Nat => (x : Int)) := (Except.ok.inj list).trans same
  unfold Overflowed at overflowed
  rw [list] at overflowed
  have listed : (214748365 : Int) ∈ done.map (fun x : Nat => (x : Int)) :=
    List.mem_map.mpr ⟨214748365, (members _).mpr ⟨by decide, large⟩, rfl⟩
  rcases overflowed listed with ⟨last, _⟩ | negative
  · -- then 214748365 would be the last number of the list, but 9 comes after it
    rw [List.getLast?_map, Option.map_eq_some_iff] at last
    obtain ⟨m, last, big⟩ := last
    obtain ⟨front, rfl⟩ := List.getLast?_eq_some_iff.mp last
    have nine : 9 ∈ front ++ [m] := (members 9).mpr ⟨by decide, by omega⟩
    rw [List.pairwise_append] at sorted
    rcases List.mem_append.mp nine with early | atEnd
    · have before := sorted.2.2 9 early m (List.mem_singleton_self m)
      rw [show m = 214748365 by omega] at before
      exact before.asymm before_nine
    · have equal := List.mem_singleton.mp atEnd
      omega
  · -- the list over the unbounded integers has no negative number
    obtain ⟨m, _, equal⟩ := List.mem_map.mp negative
    omega

/-- The run on ints computes the list, and nothing in it wraps, exactly for
the limits whose numbers can all be multiplied by 10. -/
theorem lexicalOrder_int_iff {n : Int} (lower : 1 ≤ n) : (SameList n ∧ NeverWraps n) ↔ n ≤ 214748364 := by
  obtain ⟨n, rfl⟩ : ∃ m : Nat, n = m := ⟨n.toNat, by omega⟩
  constructor
  · rintro ⟨same, _⟩
    by_contra large
    exact not_sameList (by omega) same
  · intro small
    exact ⟨sameList_of_small (by omega) (by omega), neverWraps_of_small (by omega) (by omega)⟩

theorem lexicalOrder_int_iff_main : (SameList 25 ∧ NeverWraps 25) ↔ (25 : Int) ≤ 214748364 :=
  lexicalOrder_int_iff (by decide)

/-- At the limit 214748365 the walk goes on from it with a negative number. -/
theorem lexicalOrder_overflows :
    ¬ SameList 214748365 ∧
      advance wrap 214748365 1 ([], 214748365) = .ok ([214748365], -2147483646) :=
  ⟨not_sameList le_rfl, by decide⟩

end BlogAlgorithms.LexicalOrder
