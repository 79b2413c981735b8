import BlogAlgorithms.Redis.DictRehash
import Mathlib.Tactic.Ring

namespace BlogAlgorithms.Redis
open C

theorem nextPowerFrom_spec (size more j : Nat) :
    ∃ m, nextPowerFrom size more (2 ^ j) = 2 ^ m ∧ j ≤ m ∧ m ≤ j + more ∧
      (size ≤ 2 ^ (j + more) → size ≤ 2 ^ m) := by
  induction more generalizing j with
  | zero => exact ⟨j, rfl, le_rfl, le_rfl, id⟩
  | succ more ih =>
    by_cases reached : size ≤ 2 ^ j
    · exact ⟨j, by rw [nextPowerFrom, if_pos reached], le_rfl, by omega, fun _ => reached⟩
    · obtain ⟨m, value, lower, upper, enough⟩ := ih (j + 1)
      refine ⟨m, ?_, by omega, by omega, fun bound => enough ?_⟩
      · rw [nextPowerFrom, if_neg reached, ← pow_succ, value]
      · rwa [Nat.add_right_comm, Nat.add_assoc]

/-- The size of a new table is a power of two, and holds what was asked for. -/
theorem dictNextPower_spec (size : Nat) :
    ∃ k, 2 ≤ k ∧ k ≤ 63 ∧ dictNextPower size = 2 ^ k ∧ (size ≤ longMax + 1 → size ≤ dictNextPower size) := by
  rw [dictNextPower]
  by_cases large : longMax ≤ size
  · rw [if_pos large]
    exact ⟨63, by omega, le_rfl, by simp [longMax], id⟩
  · rw [if_neg large]
    obtain ⟨m, value, lower, upper, enough⟩ := nextPowerFrom_spec size 61 2
    have start : dictHtInitialSize = 2 ^ 2 := rfl
    rw [start, value]
    refine ⟨m, lower, upper, rfl, fun _ => enough ?_⟩
    simp only [longMax] at large
    norm_num
    omega

theorem nextPowerFrom_le {size more j m : Nat} (small : size ≤ 2 ^ m) (le : j ≤ m) :
    nextPowerFrom size more (2 ^ j) ≤ 2 ^ m := by
  induction more generalizing j with
  | zero => exact Nat.pow_le_pow_right Nat.two_pos le
  | succ more ih =>
    rw [nextPowerFrom]
    split
    · exact Nat.pow_le_pow_right Nat.two_pos le
    · rename_i above
      have less : j ≠ m := by
        rintro rfl
        exact above small
      rw [← pow_succ]
      exact ih (by omega)

theorem dictNextPower_le {size : Nat} (small : size ≤ 2 ^ 60) : dictNextPower size ≤ 2 ^ 60 := by
  rw [dictNextPower, if_neg (by rw [longMax]; omega)]
  exact nextPowerFrom_le (j := 2) small (by decide)

namespace Dict
variable {K V : Type} {hashFunction : K → BitVec 64}

/-- The tables have the same sizes and the rehash is at the same place. -/
structure SameShape (d after : Dict K V) : Prop where
  size0 : after.ht0.size = d.ht0.size
  size1 : after.ht1.size = d.ht1.size
  rehashidx : after.rehashidx = d.rehashidx
  pause : after.pauserehash = d.pauserehash

theorem SameShape.refl (d : Dict K V) : SameShape d d := ⟨rfl, rfl, rfl, rfl⟩

theorem SameShape.fits {d after : Dict K V} (shape : SameShape d after) (fits : d.Fits) : after.Fits :=
  ⟨shape.size0 ▸ fits.1, shape.size1 ▸ fits.2⟩

/-- What the expansion of a table can do: nothing, give the dictionary its first
table, or start a rehash into a new one. -/
inductive Expanded (d : Dict K V) (size : Nat) : Dict K V × Bool → Prop
  | refused : Expanded d size (d, false)
  | first (empty : d.ht0.table = []) (idle : d.rehashidx = none) :
      Expanded d size ({ d with ht0 := ⟨List.replicate (dictNextPower size) [], 0⟩ }, true)
  | started (filled : d.ht0.table ≠ []) (idle : d.rehashidx = none) :
      Expanded d size ({ d with ht1 := ⟨List.replicate (dictNextPower size) [], 0⟩, rehashidx := some 0 }, true)

theorem dictExpandWith_cases (d : Dict K V) (size : Nat) (allocates : Bool) :
    Expanded d size (d.dictExpandWith size allocates) := by
  rw [dictExpandWith]
  split
  · exact .refused
  · rename_i free
    have idle : d.rehashidx = none := by
      rw [← Option.not_isSome_iff_eq_none]
      exact fun rehashing => free (Or.inl rehashing)
    simp only []
    split
    · exact .refused
    · split
      · exact .refused
      · split
        · rename_i empty
          exact .first empty idle
        · rename_i filled
          exact .started filled idle

theorem sized_replicate (size : Nat) :
    ({ table := List.replicate (dictNextPower size) [], used := 0 } : Dictht K V).Sized := by
  obtain ⟨k, lower, upper, value, _⟩ := dictNextPower_spec size
  exact ⟨k, lower, upper, by rw [Dictht.size, List.length_replicate, value]⟩

theorem entries_replicate (n : Nat) : ({ table := List.replicate n [], used := 0 } : Dictht K V).entries = [] := by
  simp [Dictht.entries]

theorem Valid.idle_of {d : Dict K V} (valid : d.Valid hashFunction) (idle : d.rehashidx = none) :
    d.Idle hashFunction := by
  cases valid with
  | idle _ state => exact state
  | moving idx rehashing _ _ => rw [idle] at rehashing; cases rehashing

theorem Expanded.spec {d : Dict K V} {size : Nat} {result : Dict K V × Bool} (expanded : Expanded d size result)
    (valid : d.Valid hashFunction) :
    result.1.Valid hashFunction ∧ result.1.entries = d.entries := by
  cases expanded with
  | refused => exact ⟨valid, rfl⟩
  | first empty idle =>
    have state := valid.idle_of idle
    have same : ({ d with ht0 := ⟨List.replicate (dictNextPower size) [], 0⟩ } : Dict K V).entries = d.entries := by
      simp [entries, state.second, Dictht.entries, empty]
    exact ⟨.idle idle ⟨Dictht.sound_replicate _, Or.inr (sized_replicate size), state.second, same ▸ state.nodup⟩,
      same⟩
  | started filled idle =>
    have state := valid.idle_of idle
    have sized : d.ht0.Sized := state.sized.resolve_left fun reset => filled (by rw [reset]; rfl)
    have same :
        ({ d with ht1 := ⟨List.replicate (dictNextPower size) [], 0⟩, rehashidx := some 0 } : Dict K V).entries =
        d.entries := by
      simp [entries, entries_replicate, state.second, Dictht.entries_reset]
    refine ⟨.moving 0 rfl sized.pos
      ⟨state.sound, Dictht.sound_replicate _, sized, sized_replicate size, same ▸ state.nodup,
      fun i below => absurd below (Nat.not_lt_zero i)⟩, same⟩

theorem Expanded.fits {d : Dict K V} {size : Nat} {result : Dict K V × Bool} (expanded : Expanded d size result)
    (small : size ≤ 2 ^ 60) (fits : d.Fits) : result.1.Fits := by
  have new : (⟨List.replicate (dictNextPower size) [], 0⟩ : Dictht K V).size ≤ 2 ^ 60 := by
    rw [Dictht.size, List.length_replicate]
    exact dictNextPower_le small
  cases expanded with
  | refused => exact fits
  | first _ _ => exact ⟨new, fits.2⟩
  | started _ _ => exact ⟨fits.1, new⟩

theorem dictExpandIfNeeded_fits {d : Dict K V} (settings : Settings) (small : d.ht0.used < 2 ^ 60) (fits : d.Fits) :
    (d.dictExpandIfNeeded settings).1.Fits := by
  rw [dictExpandIfNeeded]
  split
  · exact fits
  · split
    · exact (dictExpandWith_cases d dictHtInitialSize true).fits (by decide) fits
    · split
      · exact (dictExpandWith_cases d (d.ht0.used + 1) true).fits small fits
      · exact fits

theorem dictExpand_ok {d : Dict K V} {size : Nat} (idle : d.rehashidx = none) (holds : d.ht0.used ≤ size)
    (differs : dictNextPower size ≠ d.ht0.size) : (d.dictExpand size).2 = true := by
  have free : ¬(d.dictIsRehashing = true ∨ size < d.ht0.used) := by
    simp only [dictIsRehashing, idle, Option.isSome_none, Bool.false_eq_true, false_or]
    omega
  rw [dictExpand, dictExpandWith, if_neg free]
  simp only [if_neg differs, Bool.not_true, Bool.false_eq_true, if_false]
  split <;> rfl

theorem Valid.used_le {d : Dict K V} (valid : d.Valid hashFunction) : d.ht0.used ≤ d.entries.length := by
  have size := valid.dictSize_eq
  rw [dictSize] at size
  omega

/-- A dictionary whose first table is there. -/
theorem Valid.sized_of {d : Dict K V} (valid : d.Valid hashFunction) (present : d.ht0.size ≠ 0) : d.ht0.Sized := by
  cases valid with
  | idle _ state => exact state.sized.resolve_left fun reset => present (by rw [reset]; rfl)
  | moving _ _ _ state => exact state.sized0

/-- Before a key is looked up for insertion the first table is there, and the
expansion of a table that is full is never refused. -/
theorem Valid.dictExpandIfNeeded_spec {d : Dict K V} (valid : d.Valid hashFunction) (settings : Settings)
    (room : d.entries.length < longMax) :
    ∃ after, d.dictExpandIfNeeded settings = (after, true) ∧ after.Valid hashFunction ∧ after.entries = d.entries ∧
      after.ht0.Sized := by
  have expands {size : Nat} (idle : d.rehashidx = none) (holds : d.ht0.used ≤ size)
      (differs : dictNextPower size ≠ d.ht0.size) :
      ∃ after, d.dictExpand size = (after, true) ∧ after.Valid hashFunction ∧ after.entries = d.entries ∧
        after.ht0.Sized := by
    have ok := dictExpand_ok idle holds differs
    have expanded := dictExpandWith_cases d size true
    rw [← dictExpand] at expanded
    obtain ⟨validAfter, same⟩ := expanded.spec valid
    refine ⟨(d.dictExpand size).1, Prod.ext rfl ok, validAfter, same, validAfter.sized_of ?_⟩
    generalize d.dictExpand size = result at expanded ok
    cases expanded with
    | refused => cases ok
    | first _ _ => exact Nat.pos_iff_ne_zero.mp (sized_replicate size).pos
    | started filled _ => exact fun none => filled (List.length_eq_zero_iff.mp none)
  by_cases rehashing : d.dictIsRehashing = true
  · refine ⟨d, by rw [dictExpandIfNeeded, if_pos rehashing], valid, rfl, ?_⟩
    cases valid with
    | idle notRehashing _ => simp [dictIsRehashing, notRehashing] at rehashing
    | moving _ _ _ state => exact state.sized0
  have idle : d.rehashidx = none := by simpa [dictIsRehashing] using rehashing
  have used := valid.used_le
  rw [dictExpandIfNeeded, if_neg rehashing]
  by_cases absent : d.ht0.size = 0
  · rw [if_pos absent]
    refine expands idle ?_ ?_
    · have reset := (valid.idle_of idle).sized.resolve_right fun sized => absurd sized.pos (by omega)
      rw [reset]
      exact Nat.zero_le _
    · obtain ⟨k, _, _, value, _⟩ := dictNextPower_spec dictHtInitialSize
      rw [value, absent]
      exact Nat.pos_iff_ne_zero.mp (Nat.two_pow_pos k)
  rw [if_neg absent]
  split
  · rename_i full
    refine expands idle (by omega) ?_
    obtain ⟨_, _, _, _, enough⟩ := dictNextPower_spec (d.ht0.used + 1)
    have larger := enough (by omega)
    omega
  · exact ⟨d, rfl, valid, rfl, valid.sized_of absent⟩

theorem Valid.with_ht0 {d : Dict K V} (valid : d.Valid hashFunction) (present : d.ht0.Sized) {ht0 : Dictht K V}
    (sound : ht0.Sound hashFunction) (size : ht0.size = d.ht0.size)
    (empty : d.rehashidx = none ∨ ∀ i : Nat, d.ht0.table[i]? = some [] → ht0.table[i]? = some [])
    (nodup : (({ d with ht0 := ht0 } : Dict K V).entries.map DictEntry.key).Nodup) :
    ({ d with ht0 := ht0 } : Dict K V).Valid hashFunction := by
  have sized := present.of_size_eq size
  cases valid with
  | idle notRehashing state => exact .idle notRehashing ⟨sound, Or.inr sized, state.second, nodup⟩
  | moving idx rehashing below state =>
    have keeps := empty.resolve_left (by rw [rehashing]; exact Option.some_ne_none idx)
    exact .moving idx rehashing (size.symm ▸ below)
      ⟨sound, state.sound1, sized, state.sized1, nodup, fun i lower => keeps i (state.cleared i lower)⟩

theorem Valid.with_ht1 {d : Dict K V} (valid : d.Valid hashFunction) (rehashing : d.dictIsRehashing = true)
    {ht1 : Dictht K V} (sound : ht1.Sound hashFunction) (size : ht1.size = d.ht1.size)
    (nodup : (({ d with ht1 := ht1 } : Dict K V).entries.map DictEntry.key).Nodup) :
    ({ d with ht1 := ht1 } : Dict K V).Valid hashFunction := by
  cases valid with
  | idle notRehashing state => simp [dictIsRehashing, notRehashing] at rehashing
  | moving idx isSome below state =>
    exact .moving idx isSome below
      ⟨state.sound0, sound, state.sized0, state.sized1.of_size_eq size, nodup, state.cleared⟩

/-- The second table of a dictionary under rehash. -/
theorem Valid.second {d : Dict K V} (valid : d.Valid hashFunction) (rehashing : d.dictIsRehashing = true) :
    d.ht1.Sound hashFunction ∧ d.ht1.Sized := by
  cases valid with
  | idle notRehashing state => simp [dictIsRehashing, notRehashing] at rehashing
  | moving idx isSome below state => exact ⟨state.sound1, state.sized1⟩

theorem Valid.first {d : Dict K V} (valid : d.Valid hashFunction) : d.ht0.Sound hashFunction := by
  cases valid with
  | idle _ state => exact state.sound
  | moving _ _ _ state => exact state.sound0

theorem Valid.entries_of_idle {d : Dict K V} (valid : d.Valid hashFunction) (idle : ¬d.dictIsRehashing = true) :
    d.entries = d.ht0.entries := by
  have none : d.rehashidx = none := by simpa [dictIsRehashing] using idle
  simp [entries, (valid.idle_of none).second, Dictht.entries_reset]

theorem nodup_of_added {es more : List (DictEntry K V)} {key : K} {val : V} (nodup : (es.map DictEntry.key).Nodup)
    (fresh : ∀ he ∈ es, he.key ≠ key) (perm : more.Perm (⟨key, val⟩ :: es)) : (more.map DictEntry.key).Nodup := by
  refine (perm.map DictEntry.key).nodup_iff.mpr ?_
  rw [List.map_cons, List.nodup_cons]
  refine ⟨fun member => ?_, nodup⟩
  obtain ⟨he, inside, isKey⟩ := List.mem_map.mp member
  exact fresh he inside isKey

section Keyed
variable [DecidableEq K]

/-- The outcome of `_dictKeyIndex` in a dictionary. -/
inductive Indexed (hashFunction : K → BitVec 64) (d : Dict K V) (key : K) : KeyIndex → Prop
  | first (he : DictEntry K V) (found : d.ht0.find hashFunction key = .ok (some he)) :
    Indexed hashFunction d key (.existing false)
  | second (he : DictEntry K V) (rehashing : d.dictIsRehashing = true)
      (found : d.ht1.find hashFunction key = .ok (some he)) : Indexed hashFunction d key (.existing true)
  | freeFirst (idle : ¬d.dictIsRehashing = true) (fresh : ∀ he ∈ d.entries, he.key ≠ key) :
      Indexed hashFunction d key (.free (d.ht0.bucket (hashFunction key)))
  | freeSecond (rehashing : d.dictIsRehashing = true) (fresh : ∀ he ∈ d.entries, he.key ≠ key) :
      Indexed hashFunction d key (.free (d.ht1.bucket (hashFunction key)))

theorem Valid.dictKeyIndex_spec {d : Dict K V} (valid : d.Valid hashFunction) (settings : Settings) (key : K)
    (room : d.entries.length < longMax) :
    ∃ after index, d.dictKeyIndex hashFunction settings key = .ok (after, index) ∧ after.Valid hashFunction ∧
      after.entries = d.entries ∧ after = (d.dictExpandIfNeeded settings).1 ∧ after.ht0.Sized ∧
      Indexed hashFunction after key index := by
  obtain ⟨after, expands, validAfter, same, sized⟩ := valid.dictExpandIfNeeded_spec settings room
  obtain ⟨found0, runs0, here0, absent0⟩ := validAfter.first.find_spec sized key
  rw [dictKeyIndex, expands]
  simp only [Bool.not_true, Bool.false_eq_true, if_false, runs0, ok_bind]
  cases found0 with
  | some he => exact ⟨after, .existing false, rfl, validAfter, same, rfl, sized, .first he runs0⟩
  | none =>
    by_cases rehashing : after.dictIsRehashing = true
    · obtain ⟨sound1, sized1⟩ := validAfter.second rehashing
      obtain ⟨found1, runs1, here1, absent1⟩ := sound1.find_spec sized1 key
      simp only [if_pos rehashing, runs1, ok_bind]
      cases found1 with
      | some he => exact ⟨after, .existing true, rfl, validAfter, same, rfl, sized, .second he rehashing runs1⟩
      | none =>
        refine ⟨after, _, rfl, validAfter, same, rfl, sized, .freeSecond rehashing fun he member => ?_⟩
        rcases List.mem_append.mp member with member | member
        · exact absent0 rfl he member
        · exact absent1 rfl he member
    · simp only [if_neg rehashing]
      refine ⟨after, _, rfl, validAfter, same, rfl, sized, .freeFirst rehashing fun he member => ?_⟩
      rw [validAfter.entries_of_idle rehashing] at member
      exact absent0 rfl he member

/-- The outcome of `dictAddRaw`. -/
inductive AddedRaw (hashFunction : K → BitVec 64) (d : Dict K V) (key : K) (val : V) (after : Dict K V) :
    KeyIndex → Prop
  | added (idx : Nat) (fresh : ∀ he ∈ d.entries, he.key ≠ key)
    (perm : after.entries.Perm (⟨key, val⟩ :: d.entries)) :
      AddedRaw hashFunction d key val after (.free idx)
  | first (he : DictEntry K V) (sized : after.ht0.Sized) (perm : after.entries.Perm d.entries)
      (found : after.ht0.find hashFunction key = .ok (some he)) :
        AddedRaw hashFunction d key val after (.existing false)
  | second (he : DictEntry K V) (rehashing : after.dictIsRehashing = true) (perm : after.entries.Perm d.entries)
      (found : after.ht1.find hashFunction key = .ok (some he)) :
        AddedRaw hashFunction d key val after (.existing true)

theorem Valid.dictAddRaw_spec {d : Dict K V} (valid : d.Valid hashFunction) (settings : Settings) (key : K)
    (val : V) (room : d.entries.length < longMax) :
    ∃ stepped after index, d.stepIfRehashing hashFunction = .ok stepped ∧
      d.dictAddRaw hashFunction settings key val = .ok (after, index) ∧ after.Valid hashFunction ∧
      SameShape (stepped.dictExpandIfNeeded settings).1 after ∧ AddedRaw hashFunction d key val after index := by
  obtain ⟨stepped, steps, validStepped, permStepped, _⟩ := valid.step_spec
  obtain ⟨middle, index, runs, validMiddle, same, isMiddle, sized, indexed⟩ :=
    validStepped.dictKeyIndex_spec settings key (permStepped.length_eq ▸ room)
  have perm : middle.entries.Perm d.entries := same ▸ permStepped
  have freshIn (fresh : ∀ he ∈ middle.entries, he.key ≠ key) : ∀ he ∈ d.entries, he.key ≠ key :=
    fun he member => fresh he (perm.mem_iff.mpr member)
  refine ⟨stepped, ?_⟩
  rw [← isMiddle, dictAddRaw, steps]
  simp only [ok_bind, runs, true_and]
  cases indexed with
  | first he found =>
    exact ⟨middle, _, rfl, validMiddle, .refl middle, .first he sized perm found⟩
  | second he rehashing found =>
    exact ⟨middle, _, rfl, validMiddle, .refl middle, .second he rehashing perm found⟩
  | freeFirst idle fresh =>
    obtain ⟨ht0, pushes, sound, size, permHt⟩ := validMiddle.first.push_spec sized ⟨key, val⟩
    have added : ({ middle with ht0 := ht0 } : Dict K V).entries.Perm (⟨key, val⟩ :: middle.entries) :=
      permHt.append_right middle.ht1.entries
    simp only [if_neg idle, pushes, ok_bind]
    refine ⟨_, _, rfl, validMiddle.with_ht0 sized sound size (Or.inl (by simpa [dictIsRehashing] using idle))
      (nodup_of_added validMiddle.nodup fresh added), ⟨size, rfl, rfl, rfl⟩,
      .added _ (freshIn fresh) (added.trans (perm.cons _))⟩
  | freeSecond rehashing fresh =>
    obtain ⟨sound1, sized1⟩ := validMiddle.second rehashing
    obtain ⟨ht1, pushes, sound, size, permHt⟩ := sound1.push_spec sized1 ⟨key, val⟩
    have added : ({ middle with ht1 := ht1 } : Dict K V).entries.Perm (⟨key, val⟩ :: middle.entries) :=
      (permHt.append_left middle.ht0.entries).trans List.perm_middle
    simp only [if_pos rehashing, pushes, ok_bind]
    refine ⟨_, _, rfl, validMiddle.with_ht1 rehashing sound size (nodup_of_added validMiddle.nodup fresh added),
      ⟨rfl, size, rfl, rfl⟩, .added _ (freshIn fresh) (added.trans (perm.cons _))⟩

end Keyed

end Dict
end BlogAlgorithms.Redis
