import BlogAlgorithms.Redis.DictRuns

namespace BlogAlgorithms.Redis
open C

namespace Dict
variable {K V : Type} {hashFunction : K → BitVec 64}

/-- The calls on a dictionary that may resize itself. The table is not resized
from outside and the rehash is never paused. -/
def Op.growing : Op K V → Bool
  | .add settings _ _ => settings.canResize && settings.expandAllowed
  | .replace settings _ _ => settings.canResize && settings.expandAllowed
  | .rehash n => decide (0 < n)
  | .find _ => true
  | .delete _ => true
  | .empty => true
  | _ => false

/-- The keys and the buckets still to move, with room for some more keys, fit
into the new table. -/
structure Loaded (room : Nat) (d : Dict K V) : Prop where
  active : d.pauserehash = 0
  idle : d.rehashidx = none → d.entries.length ≤ d.ht0.size
  moving : ∀ idx, d.rehashidx = some idx →
    d.entries.length + (d.ht0.size - idx) + room ≤ d.ht1.size + 1 ∧ 2 * d.ht0.size ≤ d.ht1.size

theorem Loaded.relax {d : Dict K V} {room : Nat} (loaded : Loaded room d) : Loaded 0 d := by
  refine ⟨loaded.active, loaded.idle, fun idx rehashing => ?_⟩
  obtain ⟨left, doubled⟩ := loaded.moving idx rehashing
  exact ⟨by omega, doubled⟩

theorem Rehashed.loaded {d after : Dict K V} {idx : Nat} (rehashed : Rehashed hashFunction d idx after)
    (rehashing : d.rehashidx = some idx) (below : idx < d.ht0.size) (loaded : Loaded 0 d) : Loaded 1 after := by
  obtain ⟨left, doubled⟩ := loaded.moving idx rehashing
  have active := rehashed.pause.trans loaded.active
  have same := rehashed.perm.length_eq
  cases rehashed with
  | finished notRehashing _ _ size _ =>
    refine ⟨active, fun _ => by omega, fun other busy => ?_⟩
    rw [notRehashing] at busy
    cases busy
  | further next above _ progress =>
    refine ⟨active, fun none => ?_, fun other busy => ?_⟩
    · rw [progress.rehashing] at none
      cases none
    · obtain rfl := Option.some.inj (progress.rehashing.symm.trans busy)
      rw [progress.size0, progress.size1, same]
      exact ⟨by omega, doubled⟩

/-- The step that begins an operation makes room for a key. -/
theorem Loaded.step {d after : Dict K V} (loaded : Loaded 0 d) (valid : d.Valid hashFunction)
    (steps : d.stepIfRehashing hashFunction = .ok after) : Loaded 1 after := by
  obtain ⟨result, runs, _, _, outcome⟩ := valid.step_spec
  obtain rfl := Except.ok.inj (steps.symm.trans runs)
  rcases outcome with ⟨rfl, none | paused⟩ | ⟨idx, rehashing, rehashed⟩
  · refine ⟨loaded.active, loaded.idle, fun idx busy => ?_⟩
    rw [none] at busy
    cases busy
  · exact absurd loaded.active paused
  · cases valid with
    | idle notRehashing _ =>
      rw [rehashing] at notRehashing
      cases notRehashing
    | moving other isOther below _ =>
      obtain rfl := Option.some.inj (rehashing.symm.trans isOther)
      exact rehashed.loaded rehashing below loaded

/-- A power of two above another one is at least its double. -/
theorem double_le_of_lt {a b k j : Nat} (first : a = 2 ^ k) (second : b = 2 ^ j) (less : a < b) : 2 * a ≤ b := by
  rw [first, second, Nat.pow_lt_pow_iff_right (by omega)] at less
  rw [first, second, ← pow_succ']
  exact Nat.pow_le_pow_right (by omega) less

/-- A full table is replaced by one of twice the size, and otherwise there is a
place left. -/
theorem Loaded.expand {d : Dict K V} (loaded : Loaded 1 d) (valid : d.Valid hashFunction) {settings : Settings}
    (resizes : settings.canResize = true) (allowed : settings.expandAllowed = true)
    (room : d.entries.length < longMax) :
    Loaded 1 (d.dictExpandIfNeeded settings).1 ∧
      ((d.dictExpandIfNeeded settings).1.rehashidx = none →
        d.entries.length < (d.dictExpandIfNeeded settings).1.ht0.size) := by
  obtain ⟨after, expands, _, same, sized⟩ := valid.dictExpandIfNeeded_spec settings room
  have count := congrArg List.length same
  rw [expands]
  change Loaded 1 after ∧ (after.rehashidx = none → d.entries.length < after.ht0.size)
  by_cases rehashing : d.dictIsRehashing = true
  · rw [dictExpandIfNeeded, if_pos rehashing] at expands
    obtain rfl : d = after := congrArg Prod.fst expands
    refine ⟨loaded, fun none => ?_⟩
    simp [dictIsRehashing, none] at rehashing
  have idle : d.rehashidx = none := by simpa [dictIsRehashing] using rehashing
  have within := loaded.idle idle
  have used : d.ht0.used = d.entries.length := by
    rw [valid.entries_of_idle rehashing, valid.first.count]
  rw [dictExpandIfNeeded, if_neg rehashing] at expands
  by_cases absent : d.ht0.size = 0
  · rw [if_pos absent] at expands
    have expanded := dictExpandWith_cases d dictHtInitialSize true
    rw [← dictExpand, expands] at expanded
    cases expanded with
    | first empty _ =>
      have positive := sized.pos
      refine ⟨⟨loaded.active, fun _ => by omega, fun idx busy => ?_⟩, fun _ => by omega⟩
      have busy' : d.rehashidx = some idx := busy
      rw [idle] at busy'
      cases busy'
    | started filled _ => exact absurd (List.length_eq_zero_iff.mp absent) filled
  rw [if_neg absent] at expands
  by_cases full : d.ht0.size ≤ d.ht0.used
  · rw [if_pos ⟨full, Or.inl resizes, allowed⟩] at expands
    have expanded := dictExpandWith_cases d (d.ht0.used + 1) true
    rw [← dictExpand, expands] at expanded
    cases expanded with
    | first empty _ => exact absurd (congrArg List.length empty) absent
    | started _ _ =>
      obtain ⟨k, _, _, size0⟩ := valid.sized_of absent
      obtain ⟨j, _, _, size1, enough⟩ := dictNextPower_spec (d.ht0.used + 1)
      have larger := enough (by omega)
      have doubled := double_le_of_lt size0 size1 (by omega)
      refine ⟨⟨loaded.active, fun none => ?_, fun idx busy => ?_⟩, fun none => ?_⟩
      · cases none
      · obtain rfl : 0 = idx := Option.some.inj busy
        have fresh : (⟨List.replicate (dictNextPower (d.ht0.used + 1)) [], 0⟩ : Dictht K V).size =
            dictNextPower (d.ht0.used + 1) := List.length_replicate
        rw [fresh, count]
        change d.entries.length + (d.ht0.size - 0) + 1 ≤ _ ∧ _
        exact ⟨by omega, doubled⟩
      · cases none
  · rw [if_neg fun holds => full holds.1] at expands
    obtain rfl : d = after := congrArg Prod.fst expands
    exact ⟨loaded, fun _ => by omega⟩

/-- A key more, in tables of the same shape. -/
theorem Loaded.grow {d after : Dict K V} (loaded : Loaded 1 d) (shape : SameShape d after)
    (free : d.rehashidx = none → d.entries.length < d.ht0.size)
    (count : after.entries.length ≤ d.entries.length + 1) : Loaded 0 after := by
  refine ⟨shape.pause.trans loaded.active, fun none => ?_, fun idx busy => ?_⟩
  · have place := free (shape.rehashidx.symm.trans none)
    rw [shape.size0]
    omega
  · obtain ⟨left, doubled⟩ := loaded.moving idx (shape.rehashidx.symm.trans busy)
    rw [shape.size0, shape.size1]
    exact ⟨by omega, doubled⟩

theorem Loaded.shrink {d after : Dict K V} (loaded : Loaded 0 d) (shape : SameShape d after)
    (count : after.entries.length ≤ d.entries.length) : Loaded 0 after := by
  refine ⟨shape.pause.trans loaded.active, fun none => ?_, fun idx busy => ?_⟩
  · have before := loaded.idle (shape.rehashidx.symm.trans none)
    rw [shape.size0]
    omega
  · obtain ⟨left, doubled⟩ := loaded.moving idx (shape.rehashidx.symm.trans busy)
    rw [shape.size0, shape.size1]
    exact ⟨by omega, doubled⟩

theorem loaded_dictCreate : Loaded 0 (dictCreate : Dict K V) :=
  ⟨rfl, fun _ => le_rfl, fun idx busy => by cases busy⟩

/-- A step, a possible expansion, and then one key more. -/
theorem Loaded.insert {d stepped after : Dict K V} (loaded : Loaded 0 d) (valid : d.Valid hashFunction)
    {settings : Settings} (growing : (settings.canResize && settings.expandAllowed) = true)
    (room : d.entries.length < longMax) (steps : d.stepIfRehashing hashFunction = .ok stepped)
    (shape : SameShape (stepped.dictExpandIfNeeded settings).1 after)
    (count : after.entries.length ≤ d.entries.length + 1) : Loaded 0 after := by
  obtain ⟨result, runs, validStepped, perm, _⟩ := valid.step_spec
  obtain rfl := Except.ok.inj (steps.symm.trans runs)
  obtain ⟨resizes, allowed⟩ := Bool.and_eq_true_iff.mp growing
  have length := perm.length_eq
  have roomStepped : stepped.entries.length < longMax := by omega
  obtain ⟨_, expands, _, same, _⟩ := validStepped.dictExpandIfNeeded_spec settings roomStepped
  have sameLength : (stepped.dictExpandIfNeeded settings).1.entries.length = stepped.entries.length := by
    rw [expands]
    exact congrArg List.length same
  obtain ⟨expanded, free⟩ := (loaded.step valid steps).expand validStepped resizes allowed roomStepped
  refine expanded.grow shape (fun none => ?_) (by omega)
  rw [sameLength]
  exact free none

theorem Loaded.rehash {d after : Dict K V} {n : Nat} {more : Bool} (loaded : Loaded 0 d)
    (valid : d.Valid hashFunction)
    (positive : 0 < n) (runs : d.dictRehash hashFunction n = .ok (after, more)) : Loaded 0 after := by
  obtain ⟨n, rfl⟩ := Nat.exists_eq_add_one.mpr positive
  cases valid with
  | idle notRehashing _ =>
    rw [dictRehash, notRehashing] at runs
    obtain rfl : d = after := congrArg Prod.fst (Except.ok.inj runs)
    exact loaded
  | moving idx rehashing below state =>
    obtain ⟨result, _, steps, _, rehashed⟩ := state.dictRehash_spec rehashing n
    obtain rfl : result = after := congrArg Prod.fst (Except.ok.inj (steps.symm.trans runs))
    exact (rehashed.loaded rehashing below loaded).relax

variable [DecidableEq K]

theorem Loaded.call {d after : Dict K V} {map : K → Option V} {op : Op K V} {answer : Answer V}
    (loaded : Loaded 0 d)
    (represents : d.Represents hashFunction map) (room : d.entries.length < longMax) (growing : op.growing = true)
    (calls : d.call hashFunction op = .ok (after, answer)) : Loaded 0 after := by
  cases op with
  | add settings key val =>
    obtain ⟨result, runs, _, count, stepped, steps, shape⟩ := represents.dictAdd_spec settings key val room
    simp only [Dict.call, runs, ok_bind, Except.ok.injEq, Prod.mk.injEq] at calls
    obtain ⟨rfl, _⟩ := calls
    exact loaded.insert represents.valid growing room steps shape count
  | replace settings key val =>
    obtain ⟨result, runs, _, count, stepped, steps, shape⟩ := represents.dictReplace_spec settings key val room
    simp only [Dict.call, runs, ok_bind, Except.ok.injEq, Prod.mk.injEq] at calls
    obtain ⟨rfl, _⟩ := calls
    exact loaded.insert represents.valid growing room steps shape count
  | find key =>
    obtain ⟨result, found, runs, _, _, _, same | steps⟩ := represents.dictFind_spec key
    all_goals
      simp only [Dict.call, runs, ok_bind, Except.ok.injEq, Prod.mk.injEq] at calls
      obtain ⟨rfl, _⟩ := calls
    · rwa [same.1]
    · exact (loaded.step represents.valid steps).relax
  | delete key =>
    obtain ⟨result, found, runs, _, _, count, same | ⟨stepped, steps, shape⟩⟩ :=
      represents.dictGenericDelete_spec key
    all_goals
      simp only [Dict.call, runs, ok_bind, Except.ok.injEq, Prod.mk.injEq] at calls
      obtain ⟨rfl, _⟩ := calls
    · rwa [same.1]
    · obtain ⟨middle, runsStep, _, perm, _⟩ := represents.valid.step_spec
      obtain rfl := Except.ok.inj (steps.symm.trans runsStep)
      exact (loaded.step represents.valid steps).relax.shrink shape (by rw [perm.length_eq]; exact count)
  | rehash n =>
    obtain ⟨⟨result, more⟩, runs, calls⟩ := bind_eq_ok.mp calls
    obtain rfl : result = after := congrArg Prod.fst (Except.ok.inj calls)
    exact loaded.rehash represents.valid (of_decide_eq_true growing) runs
  | empty =>
    obtain rfl : d.dictEmpty = after := congrArg Prod.fst (Except.ok.inj calls)
    exact loaded_dictCreate
  | resize => cases growing
  | expand => cases growing
  | pause => cases growing
  | resume => cases growing

theorem Loaded.run (ops : List (Op K V)) {d last : Dict K V} {map : K → Option V} {answers : List (Answer V)}
    (loaded : Loaded 0 d) (represents : d.Represents hashFunction map)
    (room : d.entries.length + ops.length ≤ longMax)
    (growing : ∀ op ∈ ops, op.growing = true) (runs : d.run hashFunction ops = .ok (last, answers)) :
      Loaded 0 last := by
  induction ops generalizing d map answers with
  | nil =>
    obtain rfl : d = last := congrArg Prod.fst (Except.ok.inj runs)
    exact loaded
  | cons op rest ih =>
    rw [List.length_cons] at room
    rw [List.forall_mem_cons] at growing
    obtain ⟨next, calls, result, length, _⟩ := represents.call_spec op (by omega)
    simp only [Dict.run, calls, ok_bind] at runs
    obtain ⟨⟨final, others⟩, runsRest, finish⟩ := bind_eq_ok.mp runs
    obtain rfl : final = last := congrArg Prod.fst (Except.ok.inj finish)
    exact ih (loaded.call represents (by omega) growing.1 calls) result (by omega) growing.2 runsRest

/-- A dictionary that grows by itself never has more keys than buckets. While it
is rehashed, every key still to come finds a place in the new table, of twice
the size, before the rehash is over: each operation moves a bucket, so the keys
and the buckets left to move are together at most the buckets of the new table. -/
theorem load_le_one (ops : List (Op K V)) (bounded : ops.length ≤ 2 ^ 60)
    (growing : ∀ op ∈ ops, op.growing = true) :
    ∃ last answers, (dictCreate : Dict K V).run hashFunction ops = .ok (last, answers) ∧
      (last.rehashidx = none → last.dictSize ≤ last.ht0.size) ∧
      ∀ idx, last.rehashidx = some idx → idx < last.ht0.size ∧
        last.dictSize + (last.ht0.size - idx) ≤ last.ht1.size + 1 ∧ 2 * last.ht0.size ≤ last.ht1.size := by
  have start : (dictCreate : Dict K V).entries.length + ops.length ≤ longMax := by
    rw [length_entries_dictCreate, Nat.zero_add]
    exact bounded.trans (by decide)
  have new : (dictCreate : Dict K V).Represents hashFunction fun _ => none := represents_dictCreate
  obtain ⟨last, runs, final, _⟩ := new.run_spec ops start
  have loaded := loaded_dictCreate.run ops new start growing runs
  refine ⟨last, _, runs, fun idle => ?_, fun idx rehashing => ?_⟩
  · rw [final.valid.dictSize_eq]
    exact loaded.idle idle
  · obtain ⟨left, doubled⟩ := loaded.moving idx rehashing
    rw [final.valid.dictSize_eq]
    refine ⟨?_, left, doubled⟩
    cases final.valid with
    | idle notRehashing _ =>
      rw [rehashing] at notRehashing
      cases notRehashing
    | moving other isOther below _ => rwa [Option.some.inj (rehashing.symm.trans isOther)]

theorem load_le_one_five :
    ∃ last answers, (dictCreate : Dict Nat Nat).run (BitVec.ofNat 64)
        [.add ⟨true, true⟩ 1 10, .add ⟨true, true⟩ 2 20, .add ⟨true, true⟩ 3 30, .add ⟨true, true⟩ 4 40,
          .add ⟨true, true⟩ 5 50, .find 4] = .ok (last, answers) ∧
      ∀ idx, last.rehashidx = some idx → last.dictSize + (last.ht0.size - idx) ≤ last.ht1.size + 1 := by
  obtain ⟨last, answers, runs, _, moving⟩ := @load_le_one Nat Nat (BitVec.ofNat 64) _
    [.add ⟨true, true⟩ 1 10, .add ⟨true, true⟩ 2 20, .add ⟨true, true⟩ 3 30, .add ⟨true, true⟩ 4 40,
      .add ⟨true, true⟩ 5 50, .find 4] (by decide) (by simp [Op.growing])
  exact ⟨last, answers, runs, fun idx rehashing => (moving idx rehashing).2.1⟩

end Dict
end BlogAlgorithms.Redis
