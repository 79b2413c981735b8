import BlogAlgorithms.Redis.DictInsert
import Mathlib.Logic.Function.Basic

namespace BlogAlgorithms.Redis
open C

namespace Dict
variable {K V : Type} {hashFunction : K → BitVec 64}

/-- The dictionary is sound and its entries are the pairs of the map. -/
structure Represents (hashFunction : K → BitVec 64) (d : Dict K V) (map : K → Option V) : Prop where
  valid : d.Valid hashFunction
  holds : ∀ key val, (⟨key, val⟩ : DictEntry K V) ∈ d.entries ↔ map key = some val

theorem length_entries_dictCreate : (dictCreate : Dict K V).entries.length = 0 := rfl

theorem represents_dictCreate : (dictCreate : Dict K V).Represents hashFunction fun _ => none :=
  ⟨valid_dictCreate, fun key val => by simp [dictCreate, entries, Dictht.entries_reset]⟩

theorem Represents.of_perm {d after : Dict K V} {map : K → Option V} (represents : d.Represents hashFunction map)
    (valid : after.Valid hashFunction) (perm : after.entries.Perm d.entries) : after.Represents hashFunction map :=
  ⟨valid, fun key val => perm.mem_iff.trans (represents.holds key val)⟩

theorem Represents.absent_iff {d : Dict K V} {map : K → Option V} (represents : d.Represents hashFunction map)
    (key : K) : (∀ he ∈ d.entries, he.key ≠ key) ↔ map key = none := by
  constructor
  · intro fresh
    by_contra present
    obtain ⟨val, value⟩ := Option.ne_none_iff_exists'.mp present
    exact fresh ⟨key, val⟩ ((represents.holds key val).mpr value) rfl
  · intro absent he member isKey
    have value := (represents.holds he.key he.val).mp member
    rw [isKey, absent] at value
    cases value

variable [DecidableEq K]

theorem Represents.added {d after : Dict K V} {map : K → Option V} {key : K} {val : V}
    (represents : d.Represents hashFunction map) (valid : after.Valid hashFunction)
    (fresh : ∀ he ∈ d.entries, he.key ≠ key) (perm : after.entries.Perm (⟨key, val⟩ :: d.entries)) :
    after.Represents hashFunction (Function.update map key (some val)) := by
  refine ⟨valid, fun other value => ?_⟩
  rw [perm.mem_iff, List.mem_cons, represents.holds, Function.update_apply]
  by_cases same : other = key
  · subst same
    simp [(represents.absent_iff other).mp fresh, eq_comm]
  · simp [same]

theorem Represents.removed {d after : Dict K V} {map : K → Option V} {he : DictEntry K V}
    (represents : d.Represents hashFunction map) (valid : after.Valid hashFunction)
    (perm : d.entries.Perm (he :: after.entries)) :
    map he.key = some he.val ∧ after.Represents hashFunction (Function.update map he.key none) := by
  have nodup := (perm.map DictEntry.key).nodup_iff.mp represents.valid.nodup
  rw [List.map_cons, List.nodup_cons] at nodup
  refine ⟨(represents.holds _ _).mp (perm.mem_iff.mpr List.mem_cons_self), valid, fun other value => ?_⟩
  rw [Function.update_apply]
  by_cases same : other = he.key
  · subst same
    simp only [if_true, reduceCtorEq, iff_false]
    exact fun member => nodup.1 (List.mem_map.mpr ⟨_, member, rfl⟩)
  · have differs : (⟨other, value⟩ : DictEntry K V) ≠ he := fun eq => same (congrArg DictEntry.key eq)
    rw [if_neg same, ← represents.holds, perm.mem_iff, List.mem_cons]
    simp [differs]

theorem Represents.assigned {d after : Dict K V} {map : K → Option V} {he : DictEntry K V}
    {rest : List (DictEntry K V)}
    {val : V} (represents : d.Represents hashFunction map) (valid : after.Valid hashFunction)
    (before : d.entries.Perm (he :: rest)) (perm : after.entries.Perm (⟨he.key, val⟩ :: rest)) :
    map he.key = some he.val ∧ after.Represents hashFunction (Function.update map he.key (some val)) := by
  have nodup := (before.map DictEntry.key).nodup_iff.mp represents.valid.nodup
  rw [List.map_cons, List.nodup_cons] at nodup
  refine ⟨(represents.holds _ _).mp (before.mem_iff.mpr List.mem_cons_self), valid, fun other value => ?_⟩
  rw [perm.mem_iff, List.mem_cons, Function.update_apply]
  by_cases same : other = he.key
  · subst same
    have gone : (⟨he.key, value⟩ : DictEntry K V) ∉ rest :=
      fun member => nodup.1 (List.mem_map.mpr ⟨_, member, rfl⟩)
    simp [gone, eq_comm]
  · have differs : (⟨other, value⟩ : DictEntry K V) ≠ he := fun eq => same (congrArg DictEntry.key eq)
    rw [if_neg same, ← represents.holds, before.mem_iff, List.mem_cons]
    simp [same, differs]

theorem Represents.dictAdd_spec {d : Dict K V} {map : K → Option V} (represents : d.Represents hashFunction map)
    (settings : Settings) (key : K) (val : V) (room : d.entries.length < longMax) :
    ∃ after, d.dictAdd hashFunction settings key val = .ok (after, (map key).isNone) ∧
      after.Represents hashFunction (if (map key).isNone then Function.update map key (some val) else map) ∧
      after.entries.length ≤ d.entries.length + 1 ∧
      ∃ stepped, d.stepIfRehashing hashFunction = .ok stepped ∧
        SameShape (stepped.dictExpandIfNeeded settings).1 after := by
  obtain ⟨stepped, after, index, steps, runs, valid, shape, outcome⟩ :=
    represents.valid.dictAddRaw_spec settings key val room
  have present {he : DictEntry K V} (member : he ∈ d.entries) (isKey : he.key = key) :
      (map key).isNone = false := by
    rw [← isKey, (represents.holds he.key he.val).mp member]
    rfl
  rw [dictAdd, runs]
  simp only [ok_bind]
  cases outcome with
  | added idx fresh perm =>
    have absent := (represents.absent_iff key).mp fresh
    refine ⟨after, by simp [absent], ?_, by simp [perm.length_eq], stepped, steps, shape⟩
    simpa [absent] using represents.added valid fresh perm
  | first he sized perm found =>
    obtain ⟨_, same, here, _⟩ := valid.first.find_spec sized key
    obtain ⟨member, isKey⟩ := here he (Except.ok.inj (same.symm.trans found))
    have some := present (perm.mem_iff.mp (List.mem_append_left _ member)) isKey
    refine ⟨after, by simp [some], ?_, by simp [perm.length_eq], stepped, steps, shape⟩
    simpa [some] using represents.of_perm valid perm
  | second he rehashing perm found =>
    obtain ⟨sound1, sized1⟩ := valid.second rehashing
    obtain ⟨_, same, here, _⟩ := sound1.find_spec sized1 key
    obtain ⟨member, isKey⟩ := here he (Except.ok.inj (same.symm.trans found))
    have some := present (perm.mem_iff.mp (List.mem_append_right _ member)) isKey
    refine ⟨after, by simp [some], ?_, by simp [perm.length_eq], stepped, steps, shape⟩
    simpa [some] using represents.of_perm valid perm

omit [DecidableEq K] in
theorem nodup_of_assigned {es before rest : List (DictEntry K V)} {he : DictEntry K V} {val : V}
    (nodup : (before.map DictEntry.key).Nodup) (split : before.Perm (he :: rest))
    (perm : es.Perm (⟨he.key, val⟩ :: rest)) : (es.map DictEntry.key).Nodup :=
  (perm.map DictEntry.key).nodup_iff.mpr ((split.map DictEntry.key).nodup_iff.mp nodup)

theorem Represents.dictReplace_spec {d : Dict K V} {map : K → Option V} (represents : d.Represents hashFunction map)
    (settings : Settings) (key : K) (val : V) (room : d.entries.length < longMax) :
    ∃ after, d.dictReplace hashFunction settings key val = .ok (after, (map key).isNone) ∧
      after.Represents hashFunction (Function.update map key (some val)) ∧
      after.entries.length ≤ d.entries.length + 1 ∧
      ∃ stepped, d.stepIfRehashing hashFunction = .ok stepped ∧
        SameShape (stepped.dictExpandIfNeeded settings).1 after := by
  obtain ⟨stepped, middle, index, steps, runs, valid, shape, outcome⟩ :=
    represents.valid.dictAddRaw_spec settings key val room
  rw [dictReplace, runs]
  simp only [ok_bind]
  cases outcome with
  | added idx fresh perm =>
    have absent := (represents.absent_iff key).mp fresh
    exact ⟨middle, by simp [absent], represents.added valid fresh perm, by simp [perm.length_eq], stepped, steps,
      shape⟩
  | first he sized perm found =>
    obtain ⟨ht0, rest, sets, sound, size, rfl, before, after, keeps⟩ := valid.first.setVal_spec sized val found
    have split : middle.entries.Perm (he :: (rest ++ middle.ht1.entries)) := before.append_right _
    have assigned :
        ({ middle with ht0 := ht0 } : Dict K V).entries.Perm (⟨he.key, val⟩ :: (rest ++ middle.ht1.entries)) :=
      after.append_right _
    have validNext := valid.with_ht0 sized sound size (Or.inr keeps) (nodup_of_assigned valid.nodup split assigned)
    obtain ⟨value, result⟩ := (represents.of_perm valid perm).assigned validNext split assigned
    refine ⟨_, by simp [sets, value], result, ?_, stepped, steps, { shape with size0 := size.trans shape.size0 }⟩
    rw [assigned.length_eq, ← perm.length_eq, split.length_eq]
    simp
  | second he rehashing perm found =>
    obtain ⟨sound1, sized1⟩ := valid.second rehashing
    obtain ⟨ht1, rest, sets, sound, size, rfl, before, after, _⟩ := sound1.setVal_spec sized1 val found
    have split : middle.entries.Perm (he :: (middle.ht0.entries ++ rest)) :=
      (before.append_left _).trans List.perm_middle
    have assigned :
        ({ middle with ht1 := ht1 } : Dict K V).entries.Perm (⟨he.key, val⟩ :: (middle.ht0.entries ++ rest)) :=
      (after.append_left _).trans List.perm_middle
    have validNext := valid.with_ht1 rehashing sound size (nodup_of_assigned valid.nodup split assigned)
    obtain ⟨value, result⟩ := (represents.of_perm valid perm).assigned validNext split assigned
    refine ⟨_, by simp [sets, value], result, ?_, stepped, steps, { shape with size1 := size.trans shape.size1 }⟩
    rw [assigned.length_eq, ← perm.length_eq, split.length_eq]
    simp

omit [DecidableEq K] in
theorem Valid.sized_of_nonempty {d : Dict K V} (valid : d.Valid hashFunction) (filled : d.entries ≠ []) :
    d.ht0.Sized := by
  cases valid with
  | idle _ state =>
    refine state.sized.resolve_left fun reset => filled ?_
    simp [entries, reset, state.second, Dictht.entries_reset]
  | moving _ _ _ state => exact state.sized0

theorem Represents.dictFind_spec {d : Dict K V} {map : K → Option V} (represents : d.Represents hashFunction map)
    (key : K) :
    ∃ after found, d.dictFind hashFunction key = .ok (after, found) ∧ found.map DictEntry.val = map key ∧
      after.Represents hashFunction map ∧ after.entries.length = d.entries.length ∧
      (after = d ∧ d.entries = [] ∨ d.stepIfRehashing hashFunction = .ok after) := by
  rw [dictFind, represents.valid.dictSize_eq]
  by_cases empty : d.entries.length = 0
  · rw [if_pos empty]
    have absent : map key = none := (represents.absent_iff key).mp (by simp [List.length_eq_zero_iff.mp empty])
    exact ⟨d, none, rfl, by simp [absent], represents, rfl, Or.inl ⟨rfl, List.length_eq_zero_iff.mp empty⟩⟩
  rw [if_neg empty]
  obtain ⟨after, steps, valid, perm, _⟩ := represents.valid.step_spec
  have represents' := represents.of_perm valid perm
  have sized := valid.sized_of_nonempty (List.ne_nil_of_length_pos (by rw [perm.length_eq]; omega))
  obtain ⟨found0, runs0, here0, absent0⟩ := valid.first.find_spec sized key
  have value {he : DictEntry K V} (member : he ∈ after.entries) (isKey : he.key = key) : some he.val = map key := by
    rw [← isKey]
    exact ((represents'.holds he.key he.val).mp member).symm
  simp only [steps, ok_bind, runs0]
  cases found0 with
  | some he =>
    obtain ⟨member, isKey⟩ := here0 he rfl
    exact ⟨after, some he, rfl, value (List.mem_append_left _ member) isKey, represents', perm.length_eq,
      Or.inr rfl⟩
  | none =>
    by_cases rehashing : after.dictIsRehashing = true
    · obtain ⟨sound1, sized1⟩ := valid.second rehashing
      obtain ⟨found1, runs1, here1, absent1⟩ := sound1.find_spec sized1 key
      simp only [if_pos rehashing, runs1, ok_bind]
      refine ⟨after, found1, rfl, ?_, represents', perm.length_eq, Or.inr rfl⟩
      cases found1 with
      | some he =>
        obtain ⟨member, isKey⟩ := here1 he rfl
        exact value (List.mem_append_right _ member) isKey
      | none =>
        refine ((represents'.absent_iff key).mp fun he member => ?_).symm
        rcases List.mem_append.mp member with member | member
        · exact absent0 rfl he member
        · exact absent1 rfl he member
    · simp only [if_neg rehashing]
      refine ⟨after, none, rfl, ((represents'.absent_iff key).mp fun he member => ?_).symm, represents',
        perm.length_eq, Or.inr rfl⟩
      rw [valid.entries_of_idle rehashing] at member
      exact absent0 rfl he member

theorem Represents.update_absent {d : Dict K V} {map : K → Option V} {key : K}
    (represents : d.Represents hashFunction map)
    (fresh : ∀ he ∈ d.entries, he.key ≠ key) : d.Represents hashFunction (Function.update map key none) := by
  have same : Function.update map key none = map := by
    rw [← (represents.absent_iff key).mp fresh, Function.update_eq_self]
  rwa [same]

theorem Represents.dictGenericDelete_spec {d : Dict K V} {map : K → Option V}
    (represents : d.Represents hashFunction map) (key : K) :
    ∃ after found, d.dictGenericDelete hashFunction key = .ok (after, found) ∧ found.map DictEntry.val = map key ∧
      after.Represents hashFunction (Function.update map key none) ∧ after.entries.length ≤ d.entries.length ∧
      (after = d ∧ d.entries = [] ∨ ∃ stepped, d.stepIfRehashing hashFunction = .ok stepped ∧
        SameShape stepped after) := by
  have used := represents.valid.dictSize_eq
  rw [dictSize] at used
  rw [dictGenericDelete]
  by_cases empty : d.ht0.used = 0 ∧ d.ht1.used = 0
  · rw [if_pos empty]
    have none : d.entries = [] := List.length_eq_zero_iff.mp (by omega)
    have fresh : ∀ he ∈ d.entries, he.key ≠ key := by simp [none]
    exact ⟨d, _, rfl, by simp [(represents.absent_iff key).mp fresh], represents.update_absent fresh, le_rfl,
      Or.inl ⟨rfl, none⟩⟩
  rw [if_neg empty]
  obtain ⟨middle, steps, valid, perm, _⟩ := represents.valid.step_spec
  have represents' := represents.of_perm valid perm
  have sized := valid.sized_of_nonempty (List.ne_nil_of_length_pos (by rw [perm.length_eq]; omega))
  simp only [steps, ok_bind]
  rcases valid.first.unlink_spec sized key with ⟨runs, absent0⟩ | ⟨he, ht0, runs, isKey, sound, size, split, keeps⟩
  · simp only [runs, ok_bind]
    by_cases rehashing : middle.dictIsRehashing = true
    · obtain ⟨sound1, sized1⟩ := valid.second rehashing
      simp only [if_pos rehashing]
      rcases sound1.unlink_spec sized1 key with ⟨runs1, absent1⟩ | ⟨he, ht1, runs1, isKey, sound, size, split, _⟩
      · have fresh : ∀ he ∈ middle.entries, he.key ≠ key := by
          intro he member
          rcases List.mem_append.mp member with member | member
          · exact absent0 he member
          · exact absent1 he member
        simp only [runs1, ok_bind]
        exact ⟨middle, _, rfl, by simp [(represents'.absent_iff key).mp fresh], represents'.update_absent fresh,
          perm.length_eq.le, Or.inr ⟨middle, rfl, .refl middle⟩⟩
      · have removed : middle.entries.Perm (he :: ({ middle with ht1 := ht1 } : Dict K V).entries) :=
          (split.append_left _).trans List.perm_middle
        have nodup := (removed.map DictEntry.key).nodup_iff.mp valid.nodup
        have validNext := valid.with_ht1 rehashing sound size (List.nodup_cons.mp nodup).2
        obtain ⟨value, result⟩ := represents'.removed validNext removed
        subst isKey
        simp only [runs1, ok_bind]
        refine ⟨_, _, rfl, value.symm, result, ?_, Or.inr ⟨middle, rfl, rfl, size, rfl, rfl⟩⟩
        rw [← perm.length_eq, removed.length_eq]
        exact Nat.le_succ _
    · have fresh : ∀ he ∈ middle.entries, he.key ≠ key := by
        rw [valid.entries_of_idle rehashing]
        exact absent0
      simp only [if_neg rehashing]
      exact ⟨middle, _, rfl, by simp [(represents'.absent_iff key).mp fresh], represents'.update_absent fresh,
        perm.length_eq.le, Or.inr ⟨middle, rfl, .refl middle⟩⟩
  · have removed : middle.entries.Perm (he :: ({ middle with ht0 := ht0 } : Dict K V).entries) :=
      split.append_right _
    have nodup := (removed.map DictEntry.key).nodup_iff.mp valid.nodup
    have validNext := valid.with_ht0 sized sound size (Or.inr keeps) (List.nodup_cons.mp nodup).2
    obtain ⟨value, result⟩ := represents'.removed validNext removed
    subst isKey
    simp only [runs, ok_bind]
    refine ⟨_, _, rfl, value.symm, result, ?_, Or.inr ⟨middle, rfl, size, rfl, rfl, rfl⟩⟩
    rw [← perm.length_eq, removed.length_eq]
    exact Nat.le_succ _

end Dict
end BlogAlgorithms.Redis
