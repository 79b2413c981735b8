import BlogAlgorithms.Redis.IntsetSearch
import Mathlib.Data.List.Nodup

namespace BlogAlgorithms.Redis
open C LittleEndian

namespace Intset

section Update
variable {is : Intset} {vs : List Int} {value : Int} (garbage : Nat → UInt8)

/-- Sizes up to this many integers are not cut to 32 bits. -/
def maxLength : Nat := 536870911

theorem uint32_size {enc n : Nat} (isEnc : IsEncoding enc) (small : n ≤ maxLength) :
    uint32 (n * enc) = n * enc := by
  unfold maxLength at small
  refine Nat.mod_eq_of_lt ?_
  rcases isEnc with rfl | rfl | rfl
  · omega
  · omega
  · omega

theorem uint32_length {n : Nat} (small : n ≤ maxLength) : uint32 n = n := by
  unfold maxLength at small
  exact Nat.mod_eq_of_lt (by omega)

theorem le_intLimit {n : Nat} (small : n ≤ maxLength) : n ≤ intLimit := small.trans (by decide)

theorem lt_intLimit {n : Nat} (small : n ≤ maxLength) : n < intLimit := small.trans_lt (by decide)

/-- Where a value goes that no integer of the set is as far out as. -/
def outermost (vs : List Int) (value : Int) : List Int := if value < 0 then value :: vs else vs ++ [value]

theorem pairwise_outermost (sorted : vs.Pairwise (· < ·))
    (out : ∀ v ∈ vs, if value < 0 then value < v else v < value) : (outermost vs value).Pairwise (· < ·) := by
  rw [outermost]
  split
  · rename_i negative
    exact List.pairwise_cons.mpr ⟨fun v member => by simpa only [if_pos negative] using out v member, sorted⟩
  · rename_i nonneg
    refine List.pairwise_append.mpr ⟨sorted, List.pairwise_singleton .., fun v member w last => ?_⟩
    rw [List.mem_singleton.mp last]
    simpa only [if_neg nonneg] using out v member

theorem mem_outermost {v : Int} : v ∈ outermost vs value ↔ v = value ∨ v ∈ vs := by
  rw [outermost]
  split
  · exact List.mem_cons
  · rw [List.mem_append, List.mem_singleton, or_comm]

theorem upgradeAndAdd_spec (holds : is.Holds vs) (int64 : Fits 8 value)
    (wide : is.encoding < intsetValueEncoding value) (small : vs.length + 1 ≤ maxLength) :
    ∃ is', is.intsetUpgradeAndAdd garbage value = .ok is' ∧ is'.Holds (outermost vs value) := by
  have isNew := isEncoding_valueEncoding value
  have outside : ¬ Fits is.encoding value := fun fits => by
    have le := (valueEncoding_le_iff holds.encoding int64).mpr fits
    omega
  have fitsNew : Fits (intsetValueEncoding value) value := (valueEncoding_le_iff isNew int64).mp le_rfl
  have fitsAll (v : Int) (member : v ∈ outermost vs value) : Fits (intsetValueEncoding value) v := by
    rcases mem_outermost.mp member with rfl | member
    · exact fitsNew
    · exact Fits.mono (holds.fits v member) wide.le
  have sorted := pairwise_outermost holds.sorted fun v member => outside_of_not_fits outside (holds.fits v member)
  have more : vs.length * is.encoding ≤ (vs.length + 1) * intsetValueEncoding value :=
    Nat.mul_le_mul (by omega) wide.le
  have larger : is.contents.length ≤ (vs.length + 1) * intsetValueEncoding value := by
    rwa [holds.contents, length_records]
  obtain ⟨fresh, grown, freshLength⟩ := realloc_grow garbage larger
  rw [holds.contents, length_records] at freshLength
  rw [holds.contents] at grown
  unfold intsetUpgradeAndAdd
  simp only [intsetResize, holds.length, uint32_size isNew small, holds.contents, grown]
  by_cases negative : value < 0
  · simp only [if_pos negative, outermost] at fitsAll sorted ⊢
    obtain ⟨gap, widened, gapLength⟩ :=
      upgradeLoop_spec holds.encoding isNew wide.le vs (le_intLimit small) holds.fits
      (show vs.length * is.encoding + fresh.length = (vs.length + 1) * intsetValueEncoding value by omega)
    rw [Nat.one_mul] at gapLength
    have writes : intsetSet
        ⟨intsetValueEncoding value, vs.length, [] ++ (gap ++ records (intsetValueEncoding value) vs)⟩
        0 value = .ok _ :=
      set_append isNew (by decide) vs.length (by rw [List.length_nil, Nat.zero_mul]) gapLength value
    rw [← List.append_nil fresh, widened, ok_bind, if_pos trivial, List.append_nil, ← List.nil_append (gap ++ _),
      writes, ok_bind]
    refine ⟨_, rfl, ⟨isNew, ?_, uint32_length small, fitsAll⟩, sorted⟩
    rw [records_cons, List.nil_append]
  · simp only [if_neg negative, outermost] at fitsAll sorted ⊢
    have room : vs.length * is.encoding ≤ vs.length * intsetValueEncoding value := Nat.mul_le_mul_left _ wide.le
    rw [Nat.succ_mul] at freshLength more
    obtain ⟨gap, last, rfl, gapLength⟩ : ∃ gap last, fresh = gap ++ last ∧
        gap.length = vs.length * intsetValueEncoding value - vs.length * is.encoding :=
      ⟨_, _, (List.take_append_drop (vs.length * intsetValueEncoding value - vs.length * is.encoding) _).symm,
        by rw [List.length_take]; omega⟩
    rw [List.length_append] at freshLength
    obtain ⟨none, widened, noneLength⟩ := upgradeLoop_spec holds.encoding isNew wide.le vs
      (le_intLimit (Nat.le_of_succ_le small)) holds.fits
      (show vs.length * is.encoding + gap.length = (vs.length + 0) * intsetValueEncoding value by
        rw [Nat.add_zero]
        omega)
    rw [Nat.zero_mul, List.length_eq_zero_iff] at noneLength
    have writes : intsetSet
        ⟨intsetValueEncoding value, vs.length, records (intsetValueEncoding value) vs ++ (last ++ [])⟩ vs.length
        value = .ok _ :=
      set_append isNew (lt_intLimit (Nat.le_of_succ_le small)) vs.length (length_records ..) (by omega) value
    rw [widened, ok_bind, if_neg Nat.zero_ne_one, noneLength, List.nil_append, ← List.append_nil last, writes,
      ok_bind]
    refine ⟨_, rfl,
      ⟨isNew, ?_, (uint32_length small).trans (by rw [List.length_append, List.length_singleton]), fitsAll⟩, sorted⟩
    rw [records_append, records_singleton, List.append_nil]

/-- Inserting at the place that a search gave keeps the list sorted. -/
theorem Located.insert {pos : Nat} (located : Located vs value false pos) (sorted : vs.Pairwise (· < ·)) :
    (vs.take pos ++ value :: vs.drop pos).Pairwise (· < ·) ∧
      ∀ v, v ∈ vs.take pos ++ value :: vs.drop pos ↔ v = value ∨ v ∈ vs := by
  have absent : value ∉ vs := of_decide_eq_false located.found.symm
  constructor
  · have parts := sorted
    rw [← List.take_append_drop pos vs, List.pairwise_append] at parts
    obtain ⟨before, after, across⟩ := parts
    refine List.pairwise_append.mpr
      ⟨before, List.pairwise_cons.mpr ⟨fun v member => ?_, after⟩, fun v early w late => ?_⟩
    · exact lt_of_le_of_ne (located.above v member) fun same => absent (same ▸ List.mem_of_mem_drop member)
    · rcases List.mem_cons.mp late with rfl | late
      · exact located.below v early
      · exact across v early w late
  · intro v
    rw [List.mem_append, List.mem_cons, or_left_comm, ← List.mem_append, List.take_append_drop]

/-- The bytes behind the place move up over the new ones. -/
theorem makeRoom {enc length : Nat} (isEnc : IsEncoding enc) (front back : List Int)
    (isLength : length = front.length + back.length)
    (small : length ≤ maxLength) {fresh : Bytes} (freshLength : fresh.length = enc) :
    ∃ hole, (if front.length < length then
          intsetMoveTail ⟨enc, length, records enc front ++ (records enc back ++ fresh)⟩ front.length
            (front.length + 1)
        else .ok ⟨enc, length, records enc front ++ (records enc back ++ fresh)⟩) =
        .ok ⟨enc, length, records enc front ++ (hole ++ records enc back)⟩ ∧ hole.length = enc := by
  split
  · obtain ⟨hole, moved, holeLength⟩ :
      ∃ hole, memmove (records enc front ++ (records enc back ++ fresh)) ((front.length + 1) * enc)
        (front.length * enc) ((length - front.length) * enc) =
          .ok (records enc front ++ (hole ++ records enc back)) ∧
        hole.length = fresh.length :=
      memmove_up (by rw [length_records, freshLength, Nat.succ_mul]) (length_records ..).symm
        (by rw [length_records, isLength, Nat.add_sub_cancel_left])
    refine ⟨hole, ?_, holeLength.trans freshLength⟩
    simp only [intsetMoveTail, isEnc.recordSize, uint32_size isEnc (Nat.le_trans (Nat.sub_le ..) small), moved,
      ok_bind]
  · have none : back = [] := List.length_eq_zero_iff.mp (by omega)
    exact ⟨fresh, by rw [none]; simp [records], freshLength⟩

theorem insert_spec (holds : is.Holds vs) (fits : Fits is.encoding value) (small : vs.length + 1 ≤ maxLength)
    {pos : Nat} (inside : pos ≤ vs.length) (sorted : (vs.take pos ++ value :: vs.drop pos).Pairwise (· < ·)) :
    ∃ is', (do
        let is := is.intsetResize garbage (is.length + 1)
        let is ← if pos < is.length then is.intsetMoveTail pos (pos + 1) else .ok is
        let is ← is.intsetSet pos value
        .ok (({ is with length := uint32 (is.length + 1) } : Intset), true)) = .ok (is', true) ∧
      is'.Holds (vs.take pos ++ value :: vs.drop pos) := by
  obtain ⟨front, back, rfl, rfl⟩ : ∃ front back, vs = front ++ back ∧ pos = front.length :=
    ⟨vs.take pos, vs.drop pos, (List.take_append_drop pos vs).symm, (List.length_take_of_le inside).symm⟩
  rw [List.take_left, List.drop_left] at sorted ⊢
  have larger : is.contents.length ≤ ((front ++ back).length + 1) * is.encoding := by
    rw [holds.contents, length_records]
    exact Nat.mul_le_mul_right _ (Nat.le_succ _)
  obtain ⟨fresh, grown, freshLength⟩ := realloc_grow garbage larger
  rw [holds.contents, length_records, Nat.succ_mul, Nat.add_sub_cancel_left] at freshLength
  rw [holds.contents, records_append, List.append_assoc] at grown
  obtain ⟨hole, moved, holeLength⟩ := makeRoom holds.encoding front back List.length_append (by omega) freshLength
  have writes : intsetSet
      ⟨is.encoding, (front ++ back).length, records is.encoding front ++ (hole ++ records is.encoding back)⟩
      front.length value = .ok _ :=
    set_append holds.encoding (lt_intLimit (inside.trans (Nat.le_of_succ_le small))) _
      (length_records ..) holeLength value
  simp only [intsetResize, holds.length, uint32_size holds.encoding small, holds.contents, records_append, grown]
  rw [ite_bind, moved, ok_bind, writes, ok_bind]
  refine ⟨_, rfl, ⟨holds.encoding, ?_, ?_, fun v member => ?_⟩, sorted⟩
  · rw [records_append, records_cons]
  · rw [uint32_length small, List.length_append, List.length_append, List.length_cons, Nat.add_assoc]
  · rcases List.mem_append.mp member with member | member
    · exact holds.fits v (List.mem_append_left _ member)
    · rcases List.mem_cons.mp member with rfl | member
      · exact fits
      · exact holds.fits v (List.mem_append_right _ member)

/-- The bytes behind the removed integer move down over it. -/
theorem closeGap {enc length : Nat} (isEnc : IsEncoding enc) (front back : List Int) (value : Int)
    (isLength : length = front.length + 1 + back.length) (small : length ≤ maxLength) :
    ∃ rest, (if front.length < length - 1 then
          intsetMoveTail ⟨enc, length, records enc front ++ (signedBytes enc value ++ records enc back)⟩
            (front.length + 1) front.length
        else .ok ⟨enc, length, records enc front ++ (signedBytes enc value ++ records enc back)⟩) =
        .ok ⟨enc, length, records enc front ++ (records enc back ++ rest)⟩ := by
  split
  · obtain ⟨rest, moved, _⟩ :
      ∃ rest, memmove (records enc front ++ (signedBytes enc value ++ records enc back)) (front.length * enc)
        ((front.length + 1) * enc) ((length - (front.length + 1)) * enc) =
          .ok (records enc front ++ (records enc back ++ rest)) ∧
        rest.length = (signedBytes enc value).length :=
      memmove_down (length_records ..).symm (by rw [length_records, length_signedBytes, Nat.succ_mul])
        (by rw [length_records, isLength, Nat.add_sub_cancel_left])
    refine ⟨rest, ?_⟩
    simp only [intsetMoveTail, isEnc.recordSize, uint32_size isEnc (Nat.le_trans (Nat.sub_le ..) small), moved,
      ok_bind]
  · have none : back = [] := List.length_eq_zero_iff.mp (by omega)
    exact ⟨signedBytes enc value, by rw [none]; simp [records]⟩

theorem add_spec (holds : is.Holds vs) (int64 : Fits 8 value) (small : vs.length + 1 ≤ maxLength) :
    ∃ is' vs', is.intsetAdd garbage value = .ok (is', decide (value ∉ vs)) ∧ is'.Holds vs' ∧
      ∀ v, v ∈ vs' ↔ v = value ∨ v ∈ vs := by
  by_cases wide : is.encoding < intsetValueEncoding value
  · obtain ⟨is', upgrades, holds'⟩ := upgradeAndAdd_spec garbage holds int64 wide small
    have absent : value ∉ vs := fun member => by
      have le := (valueEncoding_le_iff holds.encoding int64).mpr (holds.fits value member)
      omega
    refine ⟨is', outermost vs value, ?_, holds', fun v => mem_outermost⟩
    rw [intsetAdd, if_pos wide, upgrades, ok_bind, decide_eq_true absent]
  · have fits : Fits is.encoding value := (valueEncoding_le_iff holds.encoding int64).mp (by omega)
    obtain ⟨found, pos, searches, located⟩ := search_spec holds (le_intLimit (Nat.le_of_succ_le small)) value
    by_cases member : value ∈ vs
    · refine ⟨is, vs, ?_, holds, fun v => ⟨Or.inr, fun new => new.elim (fun same => same ▸ member) id⟩⟩
      rw [intsetAdd, if_neg wide, searches, ok_bind]
      simp [located.found, member]
    · have isFound : found = false := located.found.trans (decide_eq_false member)
      subst isFound
      obtain ⟨sorted, mem_iff⟩ := located.insert holds.sorted
      obtain ⟨is', inserts, holds'⟩ := insert_spec garbage holds fits small located.inside sorted
      refine ⟨is', _, ?_, holds', mem_iff⟩
      rw [intsetAdd, if_neg wide, searches, ok_bind, decide_eq_true member]
      exact inserts

/-- A value that was found is the integer at the place. -/
theorem Located.split {pos : Nat} (located : Located vs value true pos) (sorted : vs.Pairwise (· < ·)) :
    ∃ front back, vs = front ++ value :: back ∧ pos = front.length := by
  have member : value ∈ vs := of_decide_eq_true located.found.symm
  have parts := sorted
  rw [← List.take_append_drop pos vs, List.pairwise_append] at parts
  rw [← List.take_append_drop pos vs] at member
  have late : value ∈ vs.drop pos :=
    (List.mem_append.mp member).resolve_left fun early => lt_irrefl _ (located.below value early)
  refine ⟨vs.take pos, vs.drop (pos + 1), ?_, (List.length_take_of_le located.inside).symm⟩
  cases tail : vs.drop pos with
  | nil =>
    rw [tail] at late
    cases late
  | cons first rest =>
    rw [tail] at late parts
    have least := located.above first (by rw [tail]; exact List.mem_cons_self)
    have same : value = first := by
      rcases List.mem_cons.mp late with same | later
      · exact same
      · exact absurd ((List.pairwise_cons.mp parts.2.1).1 value later) least.not_gt
    rw [← List.tail_drop, tail, List.tail_cons, same, ← tail, List.take_append_drop]

theorem delete_spec {front back : List Int} (holds : is.Holds (front ++ value :: back))
    (small : (front ++ value :: back).length ≤ maxLength) :
    ∃ is', (do
        let len := is.length
        let is ← if front.length < len - 1 then is.intsetMoveTail (front.length + 1) front.length else .ok is
        .ok (({ is.intsetResize garbage (len - 1) with length := len - 1 } : Intset), true)) = .ok (is', true) ∧
      is'.Holds (front ++ back) := by
  have sorted := holds.sorted
  obtain ⟨enc, isEnc, rfl, fits⟩ := holds.eq_mk
  have lengths : (front ++ value :: back).length = front.length + 1 + back.length := by
    rw [List.length_append, List.length_cons]
    omega
  rw [records_append, records_cons]
  generalize isLength : (front ++ value :: back).length = length at *
  obtain ⟨rest, moved⟩ := closeGap isEnc front back value lengths small
  have kept : (records enc (front ++ back)).length = (length - 1) * enc := by
    rw [length_records, List.length_append]
    congr 1
    omega
  have shrinks : realloc garbage (records enc (front ++ back) ++ rest) ((length - 1) * enc) =
      records enc (front ++ back) := by
    rw [realloc_shrink garbage (by rw [List.length_append]; omega), List.take_append_of_le_length kept.ge,
      List.take_of_length_le kept.le]
  simp only
  rw [ite_bind, moved, ok_bind]
  refine ⟨_, rfl, ⟨isEnc, ?_, ?_, fun v member => ?_⟩, ?_⟩
  · simp only [intsetResize, uint32_size isEnc (show length - 1 ≤ maxLength by omega), ← List.append_assoc,
      ← records_append, shrinks]
  · change length - 1 = _
    rw [List.length_append]
    omega
  · refine fits v ?_
    rw [List.mem_append, List.mem_cons]
    exact (List.mem_append.mp member).imp_right Or.inr
  · exact sorted.sublist ((List.sublist_cons_self value back).append_left front)

theorem mem_delete {front back : List Int} (sorted : (front ++ value :: back).Pairwise (· < ·)) (v : Int) :
    v ∈ front ++ back ↔ v ≠ value ∧ v ∈ front ++ value :: back := by
  have apart := sorted.imp fun less => less.ne
  rw [← List.nodup_iff_pairwise_ne, List.nodup_middle, List.nodup_cons] at apart
  rw [List.mem_append (s := front) (t := value :: back), List.mem_cons, or_left_comm, ← List.mem_append]
  constructor
  · intro member
    exact ⟨fun same => apart.1 (same ▸ member), Or.inr member⟩
  · rintro ⟨other, same | member⟩
    · exact absurd same other
    · exact member

theorem remove_spec (holds : is.Holds vs) (int64 : Fits 8 value) (small : vs.length ≤ maxLength) :
    ∃ is' vs', is.intsetRemove garbage value = .ok (is', decide (value ∈ vs)) ∧ is'.Holds vs' ∧
      ∀ v, v ∈ vs' ↔ v ≠ value ∧ v ∈ vs := by
  by_cases member : value ∈ vs
  · have narrow := (valueEncoding_le_iff holds.encoding int64).mpr (holds.fits value member)
    obtain ⟨found, pos, searches, located⟩ := search_spec holds (le_intLimit small) value
    have isFound : found = true := located.found.trans (decide_eq_true member)
    subst isFound
    obtain ⟨front, back, rfl, rfl⟩ := located.split holds.sorted
    obtain ⟨is', deletes, holds'⟩ := delete_spec garbage holds small
    refine ⟨is', front ++ back, ?_, holds', mem_delete holds.sorted⟩
    rw [intsetRemove, if_pos narrow, searches, ok_bind, decide_eq_true member]
    exact deletes
  · refine ⟨is, vs, ?_, holds, fun v => ⟨fun inside => ⟨fun same => member (same ▸ inside), inside⟩, And.right⟩⟩
    rw [intsetRemove, decide_eq_false member]
    split
    · obtain ⟨found, pos, searches, located⟩ := search_spec holds (le_intLimit small) value
      have isFound : found = false := located.found.trans (decide_eq_false member)
      rw [searches, isFound]
      rfl
    · rfl

end Update

section Query
variable {is : Intset} {vs : List Int}

theorem find_spec (holds : is.Holds vs) (small : vs.length ≤ intLimit) {value : Int} (int64 : Fits 8 value) :
    is.intsetFind value = .ok (decide (value ∈ vs)) := by
  rw [intsetFind]
  split
  · obtain ⟨found, pos, searches, located⟩ := search_spec holds small value
    rw [searches, located.found]
    rfl
  · rename_i wide
    rw [decide_eq_false fun member =>
      wide ((valueEncoding_le_iff holds.encoding int64).mpr (holds.fits value member))]

theorem getChecked_spec (holds : is.Holds vs) (small : vs.length ≤ intLimit) (pos : Nat) :
    is.intsetGetChecked pos = .ok vs[pos]? := by
  rw [intsetGetChecked, holds.length]
  split
  · rename_i inside
    rw [holds.get (List.getElem?_eq_getElem inside) (by omega), List.getElem?_eq_getElem inside]
    rfl
  · rename_i outside
    rw [List.getElem?_eq_none (by omega)]

theorem random_spec (holds : is.Holds vs) (small : vs.length ≤ intLimit) (rand : Nat) :
    is.intsetRandom rand = (vs[rand % vs.length]?).elim (.error .assertion) .ok := by
  rw [intsetRandom, holds.length]
  split
  · rename_i empty
    rw [List.length_eq_zero_iff.mp empty]
    rfl
  · rename_i nonempty
    have inside : rand % vs.length < vs.length := Nat.mod_lt _ (Nat.pos_of_ne_zero nonempty)
    rw [holds.get (List.getElem?_eq_getElem inside) (by omega), List.getElem?_eq_getElem inside]
    rfl

end Query

end Intset

end BlogAlgorithms.Redis
