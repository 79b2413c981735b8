import BlogAlgorithms.Java.Array
import BlogAlgorithms.Java.Comparator
import BlogAlgorithms.Java.Loop
import BlogAlgorithms.Lib.Reservoir

namespace BlogAlgorithms.RandomSampling
open Java Reservoir

variable {ν β : Type} (random : Nat → Int)

/-- The method `nextInt` of a `Random` whose successive results are given, and
the bounds of its calls so far. -/
def nextInt (asked : List Int) (bound : Int) : Exec (Int × List Int) :=
  if bound ≤ 0 then throwing .illegalArgument else .ok (random asked.length, asked ++ [bound])

/-- The variables of both loops, and the bounds of the calls of `nextInt`. -/
structure Sampling (β : Type) where
  count : Int
  res : β
  asked : List Int

/-- The statements `count++; if (random.nextInt(count) == 0) res = x;`. -/
def sample (x : β) (state : Sampling β) : Exec (Sampling β) := do
  let count := wrap (state.count + 1)
  let (draw, asked) ← nextInt random state.asked count
  .ok { count := count, res := if draw = 0 then x else state.res, asked := asked }

/-- The loop of `getRandom` along the list, which stores what it reads from a
node. -/
def traverse (read : ν → β) (res : β) (head : List ν) : Exec (β × List Int) := do
  let state ← head.foldlM (fun state cursor => sample random (read cursor) state) ⟨0, res, []⟩
  .ok (state.res, state.asked)

def getRandom (val : ν → Int) (head : List ν) : Exec (Int × List Int) := traverse random val (-1) head

/-- The node whose value `getRandom` returns: the same loop with the node
itself in the place of its value. -/
def keptNode (head : List ν) : Exec (Option ν × List Int) := traverse random some none head

/-- The body of the loop of `pick`. -/
def pickStep (nums : List Int) (target : Int) (i : Int) (state : Sampling Int) : Exec (Sampling Int) := do
  let num ← arrayGet nums i
  if num = target then sample random i state else .ok state

def pick (nums : List Int) (target : Int) : Exec (Int × List Int) := do
  let state ← forUp 0 (nums.length - 1) (pickStep random nums target) ⟨0, -1, []⟩
  .ok (state.res, state.asked)

/-- The run on this vector of draws ends with the result, and `nextInt` was
called once for each of them, with a bound that allows it. -/
def Outcome (run : (Nat → Int) → Exec (β × List Int)) (draws : List Int) (res : β) : Prop :=
  ∃ asked, run (source draws) = .ok (res, asked) ∧ Within draws asked

/-- The state after the elements `xs` have been offered. -/
def sampled (xs : List β) (res : β) : Sampling β := ⟨xs.length, kept random xs res, bounds xs.length⟩

theorem sample_eq {xs : List β} (small : xs.length + 1 < 2 ^ 31) (x res : β) :
    sample random x (sampled random xs res) = .ok (sampled random (xs ++ [x]) res) := by
  have count : wrap ((xs.length : Int) + 1) = (xs.length : Int) + 1 := wrap_of_isInt ⟨by omega, by omega⟩
  have positive : ¬ (xs.length : Int) + 1 ≤ 0 := by omega
  simp only [sample, sampled, count, nextInt, positive, if_false, ok_bind, kept_concat, length_bounds,
    List.length_append, List.length_singleton, bounds_succ, Int.natCast_add, Int.natCast_one]

theorem sample_throws {xs : List β} (large : (xs.length : Int) = 2 ^ 31 - 1) (x res : β) :
    sample random x (sampled random xs res) = throwing .illegalArgument := by
  have count : wrap ((xs.length : Int) + 1) ≤ 0 := by
    rw [wrap, Int.bmod_def]
    split <;> omega
  rw [sample, sampled, nextInt, if_pos count]
  rfl

theorem samples_eq (read : ν → β) (res : β) {head : List ν} (small : head.length < 2 ^ 31) :
    head.foldlM (fun state cursor => sample random (read cursor) state) ⟨0, res, []⟩ =
      .ok (sampled random (head.map read) res) := by
  induction head using List.reverseRecOn with
  | nil => rfl
  | append_singleton front node ih =>
    have length : (front ++ [node]).length = front.length + 1 := List.length_append
    have mapped : (front.map read).length + 1 < 2 ^ 31 := by
      rw [List.length_map]
      omega
    rw [List.foldlM_append, ih (by omega), List.map_append, List.map_singleton, ← sample_eq random mapped,
      ok_bind, List.foldlM_cons]
    exact bind_pure _

theorem traverse_eq (read : ν → β) (res : β) {head : List ν} (small : head.length < 2 ^ 31) :
    traverse random read res head = .ok (kept random (head.map read) res, bounds head.length) := by
  rw [traverse, samples_eq random read res small, ok_bind, sampled, List.length_map]

/-- At the node of the number `2 ^ 31` the counter is negative. -/
theorem traverse_throws (read : ν → β) (res : β) {head : List ν} (large : 2 ^ 31 ≤ head.length) :
    traverse random read res head = throwing .illegalArgument := by
  have length : (head.take (2 ^ 31 - 1)).length = 2 ^ 31 - 1 := List.length_take_of_le (by omega)
  obtain ⟨node, rest, remaining⟩ : ∃ node rest, head.drop (2 ^ 31 - 1) = node :: rest := by
    refine List.exists_cons_of_ne_nil fun empty => ?_
    have short := List.drop_eq_nil_iff.mp empty
    omega
  have split := List.take_append_drop (2 ^ 31 - 1) head
  rw [remaining] at split
  rw [traverse, ← split, List.foldlM_append, samples_eq random read res (by omega), ok_bind, List.foldlM_cons,
    sample_throws random (by rw [List.length_map]; omega)]
  rfl

/-- The positions of the target. -/
def positions (nums : List Int) (target : Int) : List Int :=
  nums.zipIdx.filterMap fun (num, i) => if num = target then some (i : Int) else none

theorem positions_concat (nums : List Int) (num target : Int) :
    positions (nums ++ [num]) target =
      positions nums target ++ if num = target then [(nums.length : Int)] else [] := by
  rw [positions, List.zipIdx_append, List.filterMap_append, Nat.zero_add]
  by_cases same : num = target
  · simp [positions, same]
  · simp [positions, same]

theorem length_positions (nums : List Int) (target : Int) : (positions nums target).length = nums.count target := by
  induction nums using List.reverseRecOn with
  | nil => rfl
  | append_singleton nums num ih =>
    rw [positions_concat, List.length_append, ih, List.count_append, List.count_singleton]
    by_cases same : num = target
    · simp [same]
    · simp [same]

theorem mem_positions {nums : List Int} {target i : Int} :
    i ∈ positions nums target ↔ slot nums i = some target := by
  induction nums using List.reverseRecOn with
  | nil => simp [positions, slot]
  | append_singleton nums num ih =>
    rw [positions_concat, List.mem_append, ih, slot_concat]
    by_cases atLast : i = nums.length
    · have outside : slot nums i ≠ some target := fun found => by
        have inside := (InBounds.of_slot found).2
        omega
      rw [if_pos atLast]
      split
      · rename_i same
        simp [same, atLast]
      · rename_i other
        simp [other, outside]
    · rw [if_neg atLast]
      split
      · simp [atLast]
      · simp

theorem nodup_positions (nums : List Int) (target : Int) : (positions nums target).Nodup := by
  induction nums using List.reverseRecOn with
  | nil => exact List.nodup_nil
  | append_singleton nums num ih =>
    rw [positions_concat, List.nodup_append]
    refine ⟨ih, by split <;> simp, fun i member j new same => ?_⟩
    have inside := (InBounds.of_slot (mem_positions.mp member)).2
    split at new
    · have last := List.mem_singleton.mp new
      omega
    · cases new

theorem pick_eq {nums : List Int} (length : nums.length < 2 ^ 31) (target : Int) :
    pick random nums target = .ok (kept random (positions nums target) (-1), bounds (nums.count target)) := by
  have loop : ∃ state, forUp 0 (nums.length - 1) (pickStep random nums target) ⟨0, -1, []⟩ = .ok state ∧
      state = sampled random (positions nums target) (-1) := by
    refine forUp_elements (fun front state => state = sampled random (positions front target) (-1))
      (fun front num back state split same => ?_) rfl
    have found : slot nums front.length = some num := split ▸ slot_append_cons rfl
    have shorter : front.length < nums.length := by
      rw [split, List.length_append, List.length_cons]
      omega
    have fewer : (positions front target).length ≤ front.length := by
      rw [length_positions]
      exact List.count_le_length
    simp only [pickStep, arrayGet_of_slot found, ok_bind, same, positions_concat]
    split
    · exact ⟨_, sample_eq random (by omega) (front.length : Int) (-1), rfl⟩
    · exact ⟨_, rfl, by rw [List.append_nil]⟩
  obtain ⟨state, runs, same⟩ := loop
  rw [pick, runs, same, ok_bind, sampled, length_positions]

section
variable {n : Nat} {run : (Nat → Int) → Exec (β × List Int)} {result : (Nat → Int) → β} {draws : List Int}

/-- Where the bounds of the calls do not depend on the draws. -/
theorem outcome_iff (runs : ∀ random, run random = .ok (result random, bounds n)) {res : β} :
    Outcome run draws res ↔ Within draws (bounds n) ∧ result (source draws) = res := by
  rw [Outcome, runs]
  constructor
  · rintro ⟨asked, same, within⟩
    obtain ⟨value, rfl⟩ := Prod.mk.inj (Except.ok.inj same)
    exact ⟨within, value⟩
  · rintro ⟨within, rfl⟩
    exact ⟨_, rfl, within⟩

theorem possible_iff (runs : ∀ random, run random = .ok (result random, bounds n)) :
    (∃ res, Outcome run draws res) ↔ Within draws (bounds n) := by
  simp only [outcome_iff runs, exists_and_left, exists_eq', and_true]

theorem card_possible (runs : ∀ random, run random = .ok (result random, bounds n)) :
    {draws | ∃ res, Outcome run draws res}.ncard = n.factorial := by
  have all := ncard_within (n := n) fun _ => True
  rw [Nat.card_congr (Equiv.subtypeUnivEquiv fun _ => trivial), card_draws] at all
  simpa only [possible_iff runs, and_true] using all

theorem card_outcome (runs : ∀ random, run random = .ok (result random, bounds n)) (res : β) :
    {draws | Outcome run draws res}.ncard = Nat.card {draws : Draws n // result (stream draws) = res} := by
  simp only [outcome_iff runs]
  exact ncard_within fun draws => result (source draws) = res

end

/-- The first draw is below one. -/
theorem source_zero {n : Nat} {draws : List Int} (within : Within draws (bounds n)) : source draws 0 = 0 := by
  obtain ⟨vector, rfl⟩ := within_bounds_iff.mp within
  change stream vector 0 = 0
  by_cases inside : 0 < n
  · rw [stream_of_lt vector inside, Fin.val_eq_zero]
    rfl
  · exact stream_of_ge vector (by omega)

/-- What is meant by the uniformity of `getRandom` on a list: the vectors of
draws it can meet are those below `1, ..., n`, it returns the value of the node
that the run keeps, and every node is kept by as many of them. -/
structure UniformOn (val : ν → Int) (head : List ν) : Prop where
  draws : ∀ draws, (∃ res, Outcome (getRandom · val head) draws res) ↔ Within draws (bounds head.length)
  all : {draws | ∃ res, Outcome (getRandom · val head) draws res}.ncard = head.length.factorial
  value : ∀ draws res, Outcome (getRandom · val head) draws res →
    ∃ node ∈ head, Outcome (keptNode · head) draws (some node) ∧ res = val node
  each : ∀ node ∈ head, {draws | Outcome (keptNode · head) draws (some node)}.ncard = (head.length - 1).factorial

theorem getRandom_uniform (val : ν → Int) {head : List ν} (distinct : head.Nodup) (nonempty : head ≠ [])
    (small : head.length < 2 ^ 31) : UniformOn val head := by
  have returns (random : Nat → Int) : getRandom random val head =
      .ok (kept random (head.map val) (-1), bounds head.length) := traverse_eq random val (-1) small
  have keeps (random : Nat → Int) : keptNode random head =
      .ok (kept random (head.map some) none, bounds head.length) := traverse_eq random some none small
  refine ⟨fun draws => possible_iff returns, card_possible returns, fun draws res outcome => ?_,
    fun node member => ?_⟩
  · obtain ⟨within, rfl⟩ := (outcome_iff returns).mp outcome
    have some_ne : head.map some ≠ [] := fun empty => nonempty (List.map_eq_nil_iff.mp empty)
    obtain ⟨node, member, same⟩ :=
      List.mem_map.mp (kept_first (source draws) (source_zero within) some_ne none)
    have value := kept_map (fun node => node.elim (-1) val) (source draws) (head.map some) none
    rw [← same, List.map_map] at value
    exact ⟨node, member, (outcome_iff keeps).mpr ⟨within, same.symm⟩, value⟩
  · have nodup : (head.map some).Nodup := distinct.map (Option.some_injective ν)
    have fresh : none ∉ head.map some := by simp
    rw [card_outcome keeps]
    exact card_kept (List.length_map some) nodup fresh (List.mem_map_of_mem member)

theorem not_uniform (val : ν → Int) {head : List ν} (large : 2 ^ 31 ≤ head.length) : ¬ UniformOn val head := by
  intro uniform
  have none : {draws | ∃ res, Outcome (getRandom · val head) draws res} = ∅ := by
    refine Set.eq_empty_of_forall_notMem fun draws possible => ?_
    obtain ⟨res, asked, runs, _⟩ := possible
    cases (traverse_throws (source draws) val (-1) large).symm.trans runs
  have all := uniform.all
  rw [none, Set.ncard_empty] at all
  exact absurd all.symm (Nat.factorial_ne_zero _)

/-- The same for `pick`: the indices of the target are returned by as many vectors of
draws each, and -1 where there is none. -/
structure UniformPick (nums : List Int) (target : Int) : Prop where
  draws : ∀ draws, (∃ res, Outcome (pick · nums target) draws res) ↔ Within draws (bounds (nums.count target))
  all : {draws | ∃ res, Outcome (pick · nums target) draws res}.ncard = (nums.count target).factorial
  value : ∀ draws res, Outcome (pick · nums target) draws res →
    (res = -1 ↔ nums.count target = 0) ∧ (nums.count target ≠ 0 → slot nums res = some target)
  each : ∀ i, slot nums i = some target →
    {draws | Outcome (pick · nums target) draws i}.ncard = (nums.count target - 1).factorial

theorem pick_uniform {nums : List Int} (length : nums.length < 2 ^ 31) (target : Int) :
    UniformPick nums target := by
  have returns (random : Nat → Int) : pick random nums target =
      .ok (kept random (positions nums target) (-1), bounds (nums.count target)) := pick_eq random length target
  refine ⟨fun draws => possible_iff returns, card_possible returns, fun draws res outcome => ?_, fun i found => ?_⟩
  · obtain ⟨within, rfl⟩ := (outcome_iff returns).mp outcome
    have present (occurs : nums.count target ≠ 0) :
        slot nums (kept (source draws) (positions nums target) (-1)) = some target := by
      have nonempty : positions nums target ≠ [] := fun empty => by
        rw [← length_positions, empty] at occurs
        exact occurs rfl
      exact mem_positions.mp (kept_first (source draws) (source_zero within) nonempty (-1))
    refine ⟨⟨fun absent => ?_, fun none => ?_⟩, present⟩
    · by_contra occurs
      have lower := (InBounds.of_slot (present occurs)).1
      omega
    · rw [← length_positions] at none
      rw [List.eq_nil_of_length_eq_zero none]
      rfl
  · have fresh : -1 ∉ positions nums target := fun member => by
      have lower := (InBounds.of_slot (mem_positions.mp member)).1
      omega
    rw [card_outcome returns]
    exact card_kept (length_positions nums target) (nodup_positions nums target) fresh (mem_positions.mpr found)

/-- Both methods are exactly uniform over the vectors of draws that `nextInt` can
return, but for lists whose nodes an int cannot count. -/
theorem sampling_uniform_iff (val : ν → Int) (head : List ν) (distinct : head.Nodup) (nonempty : head ≠ [])
    (nums : List Int) (target : Int) (isArray : nums.length < 2 ^ 31) :
    UniformOn val head ∧ UniformPick nums target ↔ head.length < 2 ^ 31 := by
  constructor
  · rintro ⟨uniform, _⟩
    by_contra large
    exact not_uniform val (by omega) uniform
  · exact fun small => ⟨getRandom_uniform val distinct nonempty small, pick_uniform isArray target⟩

theorem sampling_uniform_iff_three :
    UniformOn (fun _ => 0) ['a', 'b', 'c'] ∧ UniformPick [7, 5, 7] 7 :=
  (sampling_uniform_iff (fun _ => 0) ['a', 'b', 'c'] (by decide) (by decide) [7, 5, 7] 7 (by decide)).mpr
    (by decide)

/-- On a list of `2 ^ 31` nodes every run throws. -/
theorem getRandom_throws :
    (∀ random, getRandom random (fun _ => 0) (List.range (2 ^ 31)) = throwing .illegalArgument) ∧
    ¬ UniformOn (fun _ => 0) (List.range (2 ^ 31)) :=
  ⟨fun random => traverse_throws random _ _ (List.length_range).ge, not_uniform _ (List.length_range).ge⟩

end BlogAlgorithms.RandomSampling
