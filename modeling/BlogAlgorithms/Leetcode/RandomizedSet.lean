import BlogAlgorithms.Java.Array
import Mathlib.Data.Finset.Basic
import Mathlib.Data.Int.ConditionallyCompleteOrder
import Mathlib.Tactic.Linarith

namespace BlogAlgorithms
open Java

structure RandomizedSet where
  list : List Int
  map : Std.HashMap Int Int

namespace RandomizedSet

def new : RandomizedSet := { list := [], map := ∅ }

def insert (set : RandomizedSet) (val : Int) : Bool × RandomizedSet :=
  if set.map.contains val then (false, set)
  else (true, { list := set.list ++ [val], map := set.map.insert val set.list.length })

/-- The unboxing of `map.get(val)` fails on a missing key. -/
def indexOf (set : RandomizedSet) (val : Int) : Exec Int :=
  match set.map[val]? with
  | some index => .ok index
  | none => throwing .nullPointer

def remove (set : RandomizedSet) (val : Int) : Exec (Bool × RandomizedSet) :=
  if !set.map.contains val then .ok (false, set)
  else do
    let index ← set.indexOf val
    let lastElement ← listGet set.list (set.list.length - 1)
    let moved ← listSet set.list index lastElement
    let map := set.map.insert lastElement index
    let list ← listRemove moved (moved.length - 1)
    .ok (true, { list := list, map := map.erase val })

/-- The draw of `random.nextInt(list.size())` is an input of the model. -/
def getRandom (set : RandomizedSet) (draw : Int) : Exec Int :=
  if (set.list.length : Int) ≤ 0 then throwing .illegalArgument else listGet set.list draw

inductive Call
  | insert (val : Int)
  | remove (val : Int)

def call (set : RandomizedSet) : Call → Exec (Bool × RandomizedSet)
  | .insert val => .ok (set.insert val)
  | .remove val => set.remove val

/-- A sequence of calls, with the answers in the order of the calls. -/
def run (set : RandomizedSet) : List Call → Exec (List Bool × RandomizedSet)
  | [] => .ok ([], set)
  | first :: rest => do
    let (answer, next) ← set.call first
    let (answers, last) ← next.run rest
    .ok (answer :: answers, last)

/-- What a call means on the mathematical set. -/
def Call.spec : Call → Finset Int → Bool × Finset Int
  | .insert val, values => (decide (val ∉ values), Insert.insert val values)
  | .remove val, values => (decide (val ∈ values), values.erase val)

def specRun (values : Finset Int) : List Call → List Bool × Finset Int
  | [] => ([], values)
  | first :: rest =>
    let step := first.spec values
    let tail := specRun step.2 rest
    (step.1 :: tail.1, tail.2)

def contents (set : RandomizedSet) : Finset Int := set.list.toFinset

/-- The map holds the position of each element of the list and no other key. -/
def Coherent (set : RandomizedSet) : Prop :=
  ∀ val index, set.map[val]? = some index ↔ slot set.list index = some val

theorem coherent_new : Coherent new := by
  intro val index
  simp [new, slot]

section
variable {set : RandomizedSet} (coherent : Coherent set)
include coherent

theorem Coherent.contains_iff (val : Int) : set.map.contains val = true ↔ val ∈ set.list := by
  rw [Std.HashMap.contains_eq_isSome_getElem?, Option.isSome_iff_exists, mem_iff_slot]
  exact exists_congr fun index => coherent val index

theorem Coherent.unique {val i j : Int} (atI : slot set.list i = some val) (atJ : slot set.list j = some val) :
    i = j := Option.some.inj (((coherent val i).mpr atI).symm.trans ((coherent val j).mpr atJ))

theorem Coherent.nodup : set.list.Nodup := by
  rw [List.nodup_iff_getElem?_ne_getElem?]
  intro i j before inside same
  obtain ⟨val, found⟩ : ∃ val, set.list[i]? = some val := ⟨_, List.getElem?_eq_getElem (by omega)⟩
  have equal : (i : Int) = j :=
    coherent.unique (by rw [slot_natCast, found]) (by rw [slot_natCast, ← same, found])
  omega

theorem Coherent.insert_absent {val : Int} (absent : val ∉ set.list) :
    Coherent { list := set.list ++ [val], map := set.map.insert val set.list.length } := by
  intro other index
  simp only [slot_concat, Std.HashMap.getElem?_insert, beq_iff_eq]
  by_cases same : val = other
  · subst same
    have missing : slot set.list index ≠ some val := fun found => absent (mem_iff_slot.mpr ⟨index, found⟩)
    rw [if_pos rfl]
    split
    · rename_i atEnd
      simp [atEnd]
    · rename_i elsewhere
      simp only [missing, iff_false, Option.some.injEq]
      exact Ne.symm elsewhere
  · rw [if_neg same, coherent other index]
    split
    · rename_i atEnd
      have outside : slot set.list index = none := by simp [atEnd]
      simp [outside, same]
    · rfl

/-- The last element fills the hole that the removed value leaves. Both
arguments may be the same element, at the same position. -/
theorem Coherent.remove_present {val last index : Int} (atVal : slot set.list index = some val)
    (atLast : slot set.list (set.list.length - 1) = some last) :
    Coherent { list := (store set.list index last).dropLast,
               map := (set.map.insert last index).erase val } := by
  have beforeLast : ∀ {other position}, last ≠ other → slot set.list position = some other →
      position < set.list.length - 1 := by
    intro other position different found
    have bound := (InBounds.of_slot found).2
    by_contra atEnd
    have same : position = set.list.length - 1 := by omega
    rw [same, atLast] at found
    exact different (Option.some.inj found)
  intro other position
  rw [slot_moveLast (.of_slot atVal)]
  simp only [Std.HashMap.getElem?_erase, Std.HashMap.getElem?_insert, beq_iff_eq]
  by_cases removed : val = other
  · subst removed
    simp only [if_true, reduceCtorEq, false_iff]
    intro ⟨before, place⟩
    rcases place with ⟨atIndex, same⟩ | ⟨elsewhere, found⟩
    · subst same
      have equal := coherent.unique atVal atLast
      omega
    · exact elsewhere (coherent.unique found atVal)
  · rw [if_neg removed]
    by_cases moved : last = other
    · subst moved
      have before := beforeLast (Ne.symm removed) atVal
      rw [if_pos rfl, Option.some_inj]
      refine ⟨fun same => ⟨same ▸ before, Or.inl ⟨same.symm, rfl⟩⟩, fun ⟨inside, place⟩ => ?_⟩
      rcases place with ⟨atIndex, _⟩ | ⟨_, found⟩
      · exact atIndex.symm
      · have equal := coherent.unique found atLast
        omega
    · rw [if_neg moved, coherent other position]
      refine ⟨fun found => ⟨beforeLast moved found, Or.inr ⟨fun same => ?_, found⟩⟩, fun ⟨_, place⟩ => ?_⟩
      · rw [same, atVal] at found
        exact removed (Option.some.inj found)
      · rcases place with ⟨_, same⟩ | ⟨_, found⟩
        · exact absurd same moved
        · exact found

/-- A removal that finds its value runs through without an exception. -/
theorem Coherent.remove_eq {val : Int} (present : val ∈ set.list) :
    ∃ index last, slot set.list index = some val ∧
      slot set.list (set.list.length - 1) = some last ∧
      set.remove val = .ok (true, { list := (store set.list index last).dropLast,
                                    map := (set.map.insert last index).erase val }) := by
  obtain ⟨index, atVal⟩ := mem_iff_slot.mp present
  have inside := InBounds.of_slot atVal
  have endInside : InBounds set.list (set.list.length - 1) := by
    obtain ⟨lower, upper⟩ := inside
    exact ⟨by omega, by omega⟩
  obtain ⟨last, atLast⟩ := inBounds_iff_slot.mp endInside
  refine ⟨index, last, atVal, atLast, ?_⟩
  have contained := (coherent.contains_iff val).mpr present
  have found := (coherent val index).mpr atVal
  have nonempty : store set.list index last ≠ [] := by
    intro empty
    have length := length_store set.list index last
    rw [empty, List.length_nil] at length
    have upper := inside.2
    have lower := inside.1
    omega
  have removed := listRemove_last nonempty
  simp only [remove, contained, Bool.not_true, Bool.false_eq_true, if_false, indexOf, found,
    listGet, readOr_of_slot atLast, listSet, writeOr, inside, if_true, ok_bind, removed]

theorem Coherent.contents_iff (val : Int) : val ∈ set.contents ↔ set.map.contains val = true := by
  rw [coherent.contains_iff, contents, List.mem_toFinset]

theorem Coherent.call_insert (val : Int) :
    ∃ answer after, set.call (.insert val) = .ok (answer, after) ∧ Coherent after ∧
      (Call.insert val).spec set.contents = (answer, after.contents) ∧ (answer = false → after = set) := by
  by_cases present : val ∈ set.list
  · have contained := (coherent.contains_iff val).mpr present
    have member : val ∈ set.contents := (coherent.contents_iff val).mpr contained
    refine ⟨false, set, by simp [RandomizedSet.call, insert, contained], coherent, ?_, fun _ => rfl⟩
    simp [Call.spec, member]
  · have missing : set.map.contains val = false :=
      Bool.eq_false_iff.mpr (mt (coherent.contains_iff val).mp present)
    refine ⟨true, _, by simp only [RandomizedSet.call, insert, missing, Bool.false_eq_true, if_false],
      coherent.insert_absent present, ?_, by simp⟩
    simp only [Call.spec, contents, List.mem_toFinset, present, not_false_eq_true, decide_true,
      Prod.mk.injEq, true_and]
    ext other
    rw [List.mem_toFinset, List.mem_append, List.mem_singleton, Finset.mem_insert, List.mem_toFinset, or_comm]

/-- A removal that finds its value takes just this key out of the map. -/
theorem Coherent.contents_remove {val last index : Int} (atVal : slot set.list index = some val)
    (atLast : slot set.list (set.list.length - 1) = some last) :
    contents { list := (store set.list index last).dropLast, map := (set.map.insert last index).erase val } =
      set.contents.erase val := by
  have kept := coherent.remove_present atVal atLast
  have lastKey : set.map.contains last = true := (coherent.contains_iff last).mpr (mem_iff_slot.mpr ⟨_, atLast⟩)
  ext other
  rw [kept.contents_iff, Finset.mem_erase, coherent.contents_iff]
  simp only [Std.HashMap.contains_erase, Std.HashMap.contains_insert, Bool.and_eq_true,
    Bool.or_eq_true, Bool.not_eq_true', beq_eq_false_iff_ne, beq_iff_eq]
  refine ⟨fun ⟨different, key⟩ => ⟨different.symm, ?_⟩, fun ⟨different, old⟩ => ⟨different.symm, Or.inr old⟩⟩
  rcases key with same | old
  · exact same ▸ lastKey
  · exact old

theorem Coherent.call_remove (val : Int) :
    ∃ answer after, set.call (.remove val) = .ok (answer, after) ∧ Coherent after ∧
      (Call.remove val).spec set.contents = (answer, after.contents) ∧ (answer = false → after = set) := by
  by_cases present : val ∈ set.list
  · obtain ⟨index, last, atVal, atLast, runs⟩ := coherent.remove_eq present
    have member : val ∈ set.contents := by rwa [contents, List.mem_toFinset]
    refine ⟨true, _, runs, coherent.remove_present atVal atLast, ?_, by simp⟩
    rw [coherent.contents_remove atVal atLast]
    simp [Call.spec, member]
  · have missing : set.map.contains val = false :=
      Bool.eq_false_iff.mpr (mt (coherent.contains_iff val).mp present)
    have absent : val ∉ set.contents := by rwa [contents, List.mem_toFinset]
    refine ⟨false, set, by simp [RandomizedSet.call, remove, missing], coherent, ?_, fun _ => rfl⟩
    simp [Call.spec, absent]

/-- Each call acts on the contents as its meaning on sets says, and one that
answers false changes nothing. -/
theorem Coherent.call (step : Call) :
    ∃ answer after, set.call step = .ok (answer, after) ∧ Coherent after ∧
      step.spec set.contents = (answer, after.contents) ∧ (answer = false → after = set) := by
  cases step with
  | insert val => exact coherent.call_insert val
  | remove val => exact coherent.call_remove val

/-- Every admissible draw picks a member, and every member by one draw. -/
theorem Coherent.getRandom_bijOn (nonempty : set.list ≠ []) :
    Set.BijOn set.getRandom (Set.Ico 0 (set.list.length : Int))
      (Set.image Except.ok (set.contents : Set Int)) := by
  have positive : ¬ (set.list.length : Int) ≤ 0 := by
    have length := List.length_pos_iff.mpr nonempty
    omega
  have draws : ∀ {draw val}, slot set.list draw = some val → set.getRandom draw = .ok val := by
    intro draw val found
    simp only [getRandom, positive, if_false, listGet, readOr_of_slot found]
  refine ⟨?_, ?_, ?_⟩
  · intro draw inside
    obtain ⟨val, found⟩ := inBounds_iff_slot.mp (show InBounds set.list draw from inside)
    refine ⟨val, ?_, (draws found).symm⟩
    rw [Finset.mem_coe, contents, List.mem_toFinset]
    exact mem_iff_slot.mpr ⟨draw, found⟩
  · intro first atFirst second atSecond same
    obtain ⟨val, found⟩ := inBounds_iff_slot.mp (show InBounds set.list first from atFirst)
    obtain ⟨other, foundOther⟩ := inBounds_iff_slot.mp (show InBounds set.list second from atSecond)
    rw [draws found, draws foundOther] at same
    cases Except.ok.inj same
    exact coherent.unique found foundOther
  · intro result member
    obtain ⟨val, inContents, rfl⟩ := member
    rw [Finset.mem_coe, contents, List.mem_toFinset] at inContents
    obtain ⟨draw, found⟩ := mem_iff_slot.mp inContents
    exact ⟨draw, InBounds.of_slot found, draws found⟩

end

theorem run_coherent {set : RandomizedSet} (coherent : Coherent set) (calls : List Call) :
    ∃ answers last, set.run calls = .ok (answers, last) ∧ Coherent last ∧
      specRun set.contents calls = (answers, last.contents) := by
  induction calls generalizing set with
  | nil => exact ⟨[], set, rfl, coherent, rfl⟩
  | cons first rest ih =>
    obtain ⟨answer, next, called, kept, meaning, _⟩ := coherent.call first
    obtain ⟨answers, last, ran, stays, agrees⟩ := ih kept
    refine ⟨answer :: answers, last, ?_, stays, ?_⟩
    · simp only [run, called, ok_bind, ran]
    · simp only [specRun, meaning, agrees]

/-- Any sequence of calls on a new object runs like the same sequence on a
set, and leaves the list and the map in agreement. In a state so reached the
next call acts as on the set, and the draws enumerate the set. -/
theorem run_is_set (calls : List Call) :
    ∃ answers set, new.run calls = .ok (answers, set) ∧
      specRun ∅ calls = (answers, set.contents) ∧
      set.list.Nodup ∧ (∀ val, set.map.contains val = true ↔ val ∈ set.list) ∧
      (∀ index val, slot set.list index = some val → set.map[val]? = some index) ∧
      (∀ step, ∃ answer after, set.call step = .ok (answer, after) ∧
        step.spec set.contents = (answer, after.contents) ∧ (answer = false → after = set)) ∧
      (set.list ≠ [] → Set.BijOn set.getRandom (Set.Ico 0 (set.list.length : Int))
        (Set.image Except.ok (set.contents : Set Int))) := by
  obtain ⟨answers, set, ran, coherent, agrees⟩ := run_coherent coherent_new calls
  refine ⟨answers, set, ran, agrees, coherent.nodup, coherent.contains_iff, ?_, ?_, coherent.getRandom_bijOn⟩
  · exact fun index val found => (coherent val index).mpr found
  · intro step
    obtain ⟨answer, after, called, _, meaning, refused⟩ := coherent.call step
    exact ⟨answer, after, called, meaning, refused⟩

end RandomizedSet
end BlogAlgorithms
