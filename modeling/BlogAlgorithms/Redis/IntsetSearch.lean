import BlogAlgorithms.Redis.IntsetRecords

namespace BlogAlgorithms.Redis
open C LittleEndian

namespace Intset

/-- The contents are exactly the records of a list. -/
structure Stores (is : Intset) (vs : List Int) : Prop where
  encoding : IsEncoding is.encoding
  contents : is.contents = records is.encoding vs
  length : is.length = vs.length
  fits : ∀ v ∈ vs, Fits is.encoding v

structure Holds (is : Intset) (vs : List Int) : Prop extends Stores is vs where
  sorted : vs.Pairwise (· < ·)

theorem holds_new : intsetNew.Holds [] :=
  ⟨⟨Or.inl rfl, rfl, rfl, fun _ none => (List.not_mem_nil none).elim⟩, .nil⟩

theorem Holds.eq_mk {is : Intset} {vs : List Int} (holds : is.Holds vs) :
    ∃ enc, IsEncoding enc ∧ is = ⟨enc, vs.length, records enc vs⟩ ∧ ∀ v ∈ vs, Fits enc v :=
  ⟨is.encoding, holds.encoding, by rw [← holds.contents, ← holds.length], holds.fits⟩

section Search
variable {is : Intset} {vs : List Int} {value : Int}

theorem Stores.get (stores : is.Stores vs) {pos : Nat} {v : Int} (here : vs[pos]? = some v)
    (small : pos < intLimit) : is.intsetGet pos = .ok v := by
  obtain ⟨inside, isV⟩ := List.getElem?_eq_some_iff.mp here
  have split : vs = vs.take pos ++ (v :: vs.drop (pos + 1)) := by
    rw [← isV, ← List.drop_eq_getElem_cons inside, List.take_append_drop]
  have contents : is.contents = records is.encoding (vs.take pos) ++
      (signedBytes is.encoding v ++ records is.encoding (vs.drop (pos + 1))) := by
    rw [stores.contents, ← records_cons, ← records_append, ← split]
  exact getEncoded_append stores.encoding small contents (by rw [length_records, List.length_take_of_le inside.le])
    (stores.fits v (List.mem_of_getElem? here))

/-- Where a search ends: everything before the place is smaller than the value,
and everything from it on is not. -/
structure Located (vs : List Int) (value : Int) (found : Bool) (pos : Nat) : Prop where
  inside : pos ≤ vs.length
  below : ∀ v ∈ vs.take pos, v < value
  above : ∀ v ∈ vs.drop pos, value ≤ v
  found : found = decide (value ∈ vs)

theorem located_of_index (sorted : vs.Pairwise (· < ·)) {pos : Nat} (here : vs[pos]? = some value) :
    Located vs value true pos := by
  obtain ⟨inside, isValue⟩ := List.getElem?_eq_some_iff.mp here
  have split : vs.take pos ++ (value :: vs.drop (pos + 1)) = vs := by
    rw [← isValue, ← List.drop_eq_getElem_cons inside, List.take_append_drop]
  have drops : vs.drop pos = value :: vs.drop (pos + 1) := by rw [List.drop_eq_getElem_cons inside, isValue]
  rw [← split, List.pairwise_append, List.pairwise_cons] at sorted
  obtain ⟨_, ⟨after, _⟩, before⟩ := sorted
  refine ⟨inside.le, fun v member => before v member value List.mem_cons_self, fun v member => ?_, ?_⟩
  · rw [drops] at member
    rcases List.mem_cons.mp member with rfl | member
    · exact le_rfl
    · exact (after v member).le
  · exact (decide_eq_true (List.mem_of_getElem? here)).symm

theorem located_of_gap {pos : Nat} (inside : pos ≤ vs.length) (below : ∀ i v, i < pos → vs[i]? = some v → v < value)
    (above : ∀ i v, pos ≤ i → vs[i]? = some v → value < v) : Located vs value false pos := by
  have before (v : Int) (member : v ∈ vs.take pos) : v < value := by
    obtain ⟨i, here⟩ := List.mem_iff_getElem?.mp member
    rw [List.getElem?_take] at here
    split at here
    · rename_i early
      exact below i v early here
    · cases here
  have after (v : Int) (member : v ∈ vs.drop pos) : value < v := by
    obtain ⟨i, here⟩ := List.mem_iff_getElem?.mp member
    rw [List.getElem?_drop] at here
    exact above (pos + i) v (by omega) here
  refine ⟨inside, before, fun v member => (after v member).le, (decide_eq_false fun member => ?_).symm⟩
  rw [← List.take_append_drop pos vs] at member
  rcases List.mem_append.mp member with member | member
  · exact lt_irrefl _ (before value member)
  · exact lt_irrefl _ (after value member)

theorem le_of_index (sorted : vs.Pairwise (· < ·)) {i j : Nat} {v w : Int} (at_i : vs[i]? = some v)
    (at_j : vs[j]? = some w) (le : i ≤ j) : v ≤ w := by
  obtain ⟨_, rfl⟩ := List.getElem?_eq_some_iff.mp at_i
  obtain ⟨_, rfl⟩ := List.getElem?_eq_some_iff.mp at_j
  rcases le.eq_or_lt with rfl | lt
  · exact le_rfl
  · exact (List.pairwise_iff_getElem.mp sorted i j _ _ lt).le

theorem searchLoop_spec (holds : is.Holds vs) (small : vs.length ≤ intLimit) (fuel : Nat) {min max mid cur : Int}
    (lower : 0 ≤ min) (upper : max < vs.length) (ordered : min ≤ max + 1) (enough : max - min + 1 < fuel)
    (below : ∀ (i : Nat) v, (i : Int) < min → vs[i]? = some v → v < value)
    (above : ∀ (i : Nat) v, max < i → vs[i]? = some v → value < v) (fresh : min ≤ max ∨ value ≠ cur) :
    ∃ found pos, is.searchLoop value fuel min max mid cur = .ok (found, pos) ∧ Located vs value found pos := by
  induction fuel generalizing min max mid cur with
  | zero => omega
  | succ fuel ih =>
    rw [searchLoop]
    by_cases more : max ≥ min
    · rw [if_pos more]
      obtain ⟨v, here⟩ : ∃ v, vs[((min + max) / 2).toNat]? = some v := ⟨_, List.getElem?_eq_getElem (by omega)⟩
      generalize isMid : (min + max) / 2 = middle at here
      simp only [holds.get here (by omega), ok_bind]
      split
      · rename_i greater
        refine ih (by omega) upper (by omega) (by omega) (fun i w early at_i => ?_) above (Or.inr (by omega))
        exact (le_of_index holds.sorted at_i here (by omega)).trans_lt greater
      · split
        · rename_i less
          refine ih lower (by omega) (by omega) (by omega) below (fun i w late at_i => ?_) (Or.inr (by omega))
          exact less.trans_le (le_of_index holds.sorted here at_i (by omega))
        · refine ⟨true, middle.toNat, rfl, located_of_index holds.sorted ?_⟩
          rw [here, show v = value by omega]
    · rw [if_neg more, if_neg (fresh.resolve_left (by omega))]
      refine ⟨false, min.toNat, rfl, located_of_gap (by omega) (fun i v early => below i v (by omega)) ?_⟩
      exact fun i v late => above i v (by omega)

theorem search_spec (holds : is.Holds vs) (small : vs.length ≤ intLimit) (value : Int) :
    ∃ found pos, is.intsetSearch value = .ok (found, pos) ∧ Located vs value found pos := by
  rw [intsetSearch, holds.length]
  split
  · rename_i empty
    exact ⟨false, 0, rfl, located_of_gap (by omega) (fun i v early => by omega)
      fun i v _ at_i => by rw [List.length_eq_zero_iff.mp empty] at at_i; cases at_i⟩
  · rename_i nonempty
    obtain ⟨last, atLast⟩ : ∃ last, vs[vs.length - 1]? = some last := ⟨_, List.getElem?_eq_getElem (by omega)⟩
    obtain ⟨first, atFirst⟩ : ∃ first, vs[0]? = some first := ⟨_, List.getElem?_eq_getElem (by omega)⟩
    simp only [holds.get atLast (by omega), holds.get atFirst (by omega), ok_bind]
    split
    · rename_i greater
      refine ⟨false, vs.length, rfl, located_of_gap le_rfl (fun i v early at_i => ?_) fun i v late at_i => ?_⟩
      · exact (le_of_index holds.sorted at_i atLast (by omega)).trans_lt greater
      · rw [List.getElem?_eq_none late] at at_i
        cases at_i
    · split
      · rename_i less
        refine ⟨false, 0, rfl, located_of_gap (by omega) (fun i v early => by omega) fun i v late at_i => ?_⟩
        exact less.trans_le (le_of_index holds.sorted atFirst at_i late)
      · refine searchLoop_spec holds small (vs.length + 1) le_rfl (by omega) (by omega) (by omega)
          (fun i v early => by omega) (fun i v late at_i => ?_) (Or.inl (by omega))
        rw [List.getElem?_eq_none (by omega)] at at_i
        cases at_i

end Search

end Intset

end BlogAlgorithms.Redis
