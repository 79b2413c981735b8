import BlogAlgorithms.Redis.Intset
import Mathlib.Data.List.Flatten
import Mathlib.Data.List.Induction
import Mathlib.Algebra.Order.Ring.Int
import Mathlib.Tactic.SplitIfs

namespace BlogAlgorithms.Redis
open C LittleEndian

/-- The integers as the bytes that hold them. -/
def records (size : Nat) (vs : List Int) : Bytes := (vs.map (signedBytes size)).flatten

theorem records_append (size : Nat) (vs ws : List Int) :
    records size (vs ++ ws) = records size vs ++ records size ws := by
  rw [records, List.map_append, List.flatten_append, records, records]

theorem records_cons (size : Nat) (v : Int) (vs : List Int) :
    records size (v :: vs) = signedBytes size v ++ records size vs := by
  rw [records, List.map_cons, List.flatten_cons, records]

theorem records_singleton (size : Nat) (v : Int) : records size [v] = signedBytes size v := by
  rw [records_cons]
  exact List.append_nil _

@[simp] theorem length_records (size : Nat) (vs : List Int) : (records size vs).length = vs.length * size := by
  induction vs with
  | nil => rw [List.length_nil, Nat.zero_mul]; rfl
  | cons v vs ih =>
    rw [records_cons, List.length_append, length_signedBytes, ih, List.length_cons, Nat.succ_mul, Nat.add_comm]

/-- Integers that fit are told apart by their records. -/
theorem records_inj {size : Nat} {vs ws : List Int} (lengths : vs.length = ws.length) (fits : ∀ v ∈ vs, Fits size v)
    (fits' : ∀ w ∈ ws, Fits size w) (same : records size vs = records size ws) : vs = ws := by
  induction vs generalizing ws with
  | nil => exact (List.length_eq_zero_iff.mp lengths.symm).symm
  | cons v vs ih =>
    cases ws with
    | nil => cases lengths
    | cons w ws =>
      rw [records_cons, records_cons] at same
      obtain ⟨first, rest⟩ := List.append_inj same (by rw [length_signedBytes, length_signedBytes])
      have values := congrArg signedValue first
      rw [signedValue_signedBytes (fits v List.mem_cons_self), signedValue_signedBytes (fits' w List.mem_cons_self)]
        at values
      rw [values, ih (Nat.succ.inj lengths) (fun u member => fits u (List.mem_cons_of_mem _ member))
        (fun u member => fits' u (List.mem_cons_of_mem _ member)) rest]

/-- The three encodings. -/
def IsEncoding (enc : Nat) : Prop := enc = 2 ∨ enc = 4 ∨ enc = 8

theorem IsEncoding.recordSize {enc : Nat} (is : IsEncoding enc) : recordSize enc = enc := by
  rcases is with rfl | rfl | rfl
  · rfl
  · rfl
  · rfl

theorem isEncoding_valueEncoding (v : Int) : IsEncoding (intsetValueEncoding v) := by
  rw [intsetValueEncoding]
  split
  · exact Or.inr (Or.inr rfl)
  · split
    · exact Or.inr (Or.inl rfl)
    · exact Or.inl rfl

theorem fits_int16 {v : Int} : Fits 2 v ↔ -32768 ≤ v ∧ v ≤ 32767 := by
  rw [Fits, show (256 : Int) ^ 2 = 65536 from rfl]
  omega

theorem fits_int32 {v : Int} : Fits 4 v ↔ -2147483648 ≤ v ∧ v ≤ 2147483647 := by
  rw [Fits, show (256 : Int) ^ 4 = 4294967296 from rfl]
  omega

/-- The encoding of a value is the least that it fits into. -/
theorem valueEncoding_le_iff {enc : Nat} (is : IsEncoding enc) {v : Int} (int64 : Fits 8 v) :
    intsetValueEncoding v ≤ enc ↔ Fits enc v := by
  unfold intsetValueEncoding intsetEncInt64 intsetEncInt32 intsetEncInt16
  rcases is with rfl | rfl | rfl
  · rw [fits_int16]
    split_ifs <;> omega
  · rw [fits_int32]
    split_ifs <;> omega
  · refine iff_of_true ?_ int64
    split_ifs <;> omega

/-- A value that needs a wider encoding lies outside the range of the narrower one. -/
theorem outside_of_not_fits {size : Nat} {v w : Int} (wide : ¬ Fits size v) (fits : Fits size w) :
    if v < 0 then v < w else w < v := by
  have positive : (0 : Int) < 256 ^ size := Int.pow_pos (by omega)
  unfold Fits at *
  split
  · omega
  · omega

namespace Intset

theorem intPosition_of_lt {pos : Nat} (small : pos < intLimit) : intPosition pos = .ok pos := by
  have kept : uint32 pos = pos := Nat.mod_eq_of_lt (by unfold intLimit at small; omega)
  rw [intPosition, kept, if_pos small]

section Access
variable {is : Intset} {enc pos : Nat} {before after : Bytes} {v : Int}

theorem getEncoded_append (isEnc : IsEncoding enc) (small : pos < intLimit)
    (contents : is.contents = before ++ (signedBytes enc v ++ after)) (place : before.length = pos * enc)
    (fits : Fits enc v) : is.intsetGetEncoded pos enc = .ok v := by
  rw [intsetGetEncoded, intPosition_of_lt small, ok_bind, isEnc.recordSize, contents,
    readBytes_append place.symm (length_signedBytes ..).symm, ok_bind, signedValue_signedBytes fits]

theorem set_append (isEnc : IsEncoding enc) (small : pos < intLimit) (length : Nat) {old : Bytes}
    (place : before.length = pos * enc) (size : old.length = enc) (v : Int) :
    intsetSet ⟨enc, length, before ++ (old ++ after)⟩ pos v =
      .ok ⟨enc, length, before ++ (signedBytes enc v ++ after)⟩ := by
  rw [intsetSet, intPosition_of_lt small, ok_bind, isEnc.recordSize,
    writeBytes_append place.symm (by rw [length_signedBytes, size]), ok_bind]

end Access

/-- The narrow records that are still to be widened, a gap, and what has been
widened already. A wide record is written where no narrow one is left unread. -/
theorem upgradeLoop_spec {cur wide prepend length : Nat} (isCur : IsEncoding cur) (isWide : IsEncoding wide)
    (wider : cur ≤ wide) (front : List Int) (small : front.length + prepend ≤ intLimit)
    (fits : ∀ v ∈ front, Fits cur v) {gap done : Bytes}
    (room : front.length * cur + gap.length = (front.length + prepend) * wide) :
    ∃ gap', upgradeLoop cur prepend front.length ⟨wide, length, records cur front ++ (gap ++ done)⟩ =
        .ok ⟨wide, length, gap' ++ (records wide front ++ done)⟩ ∧ gap'.length = prepend * wide := by
  induction front using List.reverseRecOn generalizing gap done with
  | nil => exact ⟨gap, rfl, by simpa using room⟩
  | append_singleton init v ih =>
    rw [List.length_append, List.length_singleton] at room small ⊢
    rw [records_append, records_append, records_singleton, records_singleton, List.append_assoc, List.append_assoc]
    have reads : intsetGetEncoded ⟨wide, length, records cur init ++ (signedBytes cur v ++ (gap ++ done))⟩
        init.length cur = .ok v :=
      getEncoded_append isCur (by omega) rfl (length_records ..)
      (fits v (List.mem_append_right _ List.mem_cons_self))
    -- the place of the wide record, behind the narrow ones before it
    have behind : init.length * cur ≤ (init.length + prepend) * wide := Nat.mul_le_mul (by omega) wider
    have expand : (init.length + 1 + prepend) * wide = (init.length + prepend) * wide + wide := by
      rw [Nat.add_right_comm, Nat.succ_mul]
    have expandCur : (init.length + 1) * cur = init.length * cur + cur := Nat.succ_mul ..
    have total : (signedBytes cur v ++ gap).length = cur + gap.length := by
      rw [List.length_append, length_signedBytes]
    obtain ⟨kept, old, parts, keptLength⟩ : ∃ kept old, signedBytes cur v ++ gap = kept ++ old ∧
        kept.length = (init.length + prepend) * wide - init.length * cur :=
      ⟨_, _, (List.take_append_drop ((init.length + prepend) * wide - init.length * cur) _).symm,
        by rw [List.length_take, total]; omega⟩
    have lengths := congrArg List.length parts
    rw [total, List.length_append] at lengths
    have writes : intsetSet ⟨wide, length, (records cur init ++ kept) ++ (old ++ done)⟩
        (init.length + prepend) v = .ok _ :=
      set_append isWide (by omega) length (by rw [List.length_append, length_records]; omega) (by omega) v
    obtain ⟨gap', runs, gapLength⟩ := ih (by omega) (fun w member => fits w (List.mem_append_left _ member))
      (show init.length * cur + kept.length = (init.length + prepend) * wide by omega)
    refine ⟨gap', ?_, gapLength⟩
    rw [upgradeLoop, reads, ok_bind, ← List.append_assoc (signedBytes cur v), parts, List.append_assoc kept,
      ← List.append_assoc (records cur init), writes, ok_bind, List.append_assoc, runs]

end Intset

end BlogAlgorithms.Redis
