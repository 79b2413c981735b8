import BlogAlgorithms.Redis.IntsetSearch

namespace BlogAlgorithms.Redis
open C LittleEndian

/-- Bytes of the right length are records of integers that fit. -/
theorem exists_records (size count : Nat) (bytes : Bytes) (length : bytes.length = count * size) :
    ∃ vs : List Int, vs.length = count ∧ bytes = records size vs ∧ ∀ v ∈ vs, Fits size v := by
  induction count generalizing bytes with
  | zero =>
    exact ⟨[], rfl, List.length_eq_zero_iff.mp (length.trans (Nat.zero_mul _)),
      fun _ none => (List.not_mem_nil none).elim⟩
  | succ count ih =>
    rw [Nat.succ_mul] at length
    have firstLength : (bytes.take size).length = size := List.length_take_of_le (by omega)
    obtain ⟨vs, isLength, rest, fits⟩ := ih (bytes.drop size) (by rw [List.length_drop]; omega)
    refine ⟨signedValue (bytes.take size) :: vs, by rw [List.length_cons, isLength], ?_, fun v member => ?_⟩
    · have first := signedBytes_signedValue (bytes.take size)
      rw [firstLength] at first
      rw [records_cons, first, ← rest, List.take_append_drop]
    · rcases List.mem_cons.mp member with rfl | member
      · have fitsFirst := fits_signedValue (bytes.take size)
        rwa [firstLength] at fitsFirst
      · exact fits v member

namespace Intset

theorem intPosition_intLimit : intPosition intLimit = .error .outOfBounds := rfl

/-- The loop compares the records up to the first position that is negative as an `int`. -/
theorem validateLoop_spec {is : Intset} (front : List Int) (prev : Int) (back : List Int)
    (stores : is.Stores (front ++ prev :: back)) (inside : front.length < intLimit) :
    is.validateLoop back.length (front.length + 1) prev =
      if ((prev :: back).take (intLimit - front.length)).IsChain (· < ·) then
        if front.length + (back.length + 1) ≤ intLimit then .ok true else .error .outOfBounds
      else .ok false := by
  induction back generalizing front prev with
  | nil =>
    obtain ⟨more, isMore⟩ : ∃ more, intLimit - front.length = more + 1 := ⟨intLimit - front.length - 1, by omega⟩
    have fits : front.length + (([] : List Int).length + 1) ≤ intLimit := inside
    rw [isMore, List.take_succ_cons, List.take_nil, if_pos (.singleton _), if_pos fits, List.length_nil,
      validateLoop]
  | cons cur back ih =>
    have shift : front ++ prev :: cur :: back = (front ++ [prev]) ++ cur :: back := by rw [List.append_assoc]; rfl
    rw [shift] at stores
    have here : ((front ++ [prev]) ++ cur :: back)[front.length + 1]? = some cur := by
      rw [List.getElem?_append_right (by rw [List.length_append, List.length_singleton]), List.length_append,
        List.length_singleton, Nat.sub_self]
      rfl
    rw [List.length_cons, validateLoop]
    rcases Nat.lt_or_eq_of_le (show front.length + 1 ≤ intLimit from inside) with next | last
    · obtain ⟨more, isMore⟩ : ∃ more, intLimit - (front.length + 1) = more + 1 :=
        ⟨intLimit - (front.length + 1) - 1, by omega⟩
      have onward := ih (front ++ [prev]) cur stores (by rwa [List.length_append, List.length_singleton])
      rw [List.length_append, List.length_singleton, isMore, List.take_succ_cons] at onward
      rw [stores.get here next, ok_bind, show intLimit - front.length = more + 1 + 1 by omega, List.take_succ_cons,
        List.take_succ_cons, onward,
        show front.length + 1 + (back.length + 1) = front.length + (back.length + 1 + 1) by omega]
      simp only [List.isChain_cons_cons]
      split
      · rename_i notAbove
        rw [if_neg fun chain => absurd chain.1 notAbove.not_gt]
      · rename_i above
        simp only [Int.not_le.mp above, true_and]
    · -- the position is the first that the read takes for a negative one
      have refused : is.intsetGet (front.length + 1) = .error .outOfBounds := by
        rw [intsetGet, intsetGetEncoded, last, intPosition_intLimit]
        rfl
      rw [refused, show intLimit - front.length = 1 by omega, List.take_succ_cons, List.take_zero,
        if_pos (.singleton _), if_neg (by omega)]
      rfl

/-- The set that a blob is taken for. -/
def ofBlob (p : Bytes) : Intset :=
  { encoding := value (p.take 4), length := value ((p.drop 4).take 4), contents := p.drop 8 }

theorem blob_ofBlob {p : Bytes} (header : 8 ≤ p.length) : (ofBlob p).blob = p := by
  have encoding := bytes_value (p.take 4)
  have length := bytes_value ((p.drop 4).take 4)
  rw [List.length_take_of_le (by omega)] at encoding
  rw [List.length_take_of_le (by rw [List.length_drop]; omega)] at length
  rw [blob, ofBlob, encoding, length, show p.drop 8 = (p.drop 4).drop 4 by rw [List.drop_drop],
    List.take_append_drop, List.take_append_drop]

theorem ofBlob_blob {is : Intset} (encoding : is.encoding < 4294967296) (length : is.length < 4294967296) :
    ofBlob is.blob = is := by
  have first : is.blob.take 4 = bytes 4 is.encoding := List.take_left' (length_bytes ..)
  have rest : is.blob.drop 4 = bytes 4 is.length ++ is.contents := List.drop_left' (length_bytes ..)
  have second : (is.blob.drop 4).take 4 = bytes 4 is.length := rest ▸ List.take_left' (length_bytes ..)
  have last : is.blob.drop 8 = is.contents := by
    rw [show 8 = 4 + 4 from rfl, ← List.drop_drop, rest]
    exact List.drop_left' (length_bytes ..)
  rw [ofBlob, first, second, last, value_bytes, value_bytes, show 256 ^ 4 = 4294967296 from rfl,
    Nat.mod_eq_of_lt encoding, Nat.mod_eq_of_lt length]

theorem length_blob (is : Intset) : is.blob.length = 8 + is.contents.length := by
  rw [blob, List.length_append, List.length_append, length_bytes, length_bytes]
  omega

/-- The blob of a nonempty list of integers. -/
def IsBlob (p : Bytes) (vs : List Int) : Prop :=
  ∃ is : Intset, p = is.blob ∧ is.Stores vs ∧ vs ≠ [] ∧ vs.length < 4294967296

theorem isBlob_iff {p : Bytes} {vs : List Int} : IsBlob p vs ↔ 8 ≤ p.length ∧ (ofBlob p).Stores vs ∧ vs ≠ [] := by
  constructor
  · rintro ⟨is, rfl, stores, nonempty, small⟩
    have encoding : is.encoding < 4294967296 := by rcases stores.encoding with enc | enc | enc <;> omega
    rw [ofBlob_blob encoding (stores.length ▸ small), length_blob]
    exact ⟨by omega, stores, nonempty⟩
  · rintro ⟨header, stores, nonempty⟩
    refine ⟨ofBlob p, (blob_ofBlob header).symm, stores, nonempty, ?_⟩
    have small := value_lt ((p.drop 4).take 4)
    rw [List.length_take_of_le (by rw [List.length_drop]; omega)] at small
    exact stores.length ▸ small

/-- An integer set stores one list only. -/
theorem Stores.unique {is : Intset} {vs ws : List Int} (stores : is.Stores vs) (also : is.Stores ws) : vs = ws := by
  have same := stores.contents.symm.trans also.contents
  exact records_inj (stores.length.symm.trans also.length) stores.fits also.fits same

/-- What the first three tests of a blob establish. -/
theorem exists_stores {p : Bytes} (isEnc : IsEncoding (ofBlob p).encoding)
    (fit : 8 + (ofBlob p).length * (ofBlob p).encoding = p.length) : ∃ vs, (ofBlob p).Stores vs := by
  obtain ⟨vs, length, contents, fits⟩ :=
    exists_records (ofBlob p).encoding (ofBlob p).length (p.drop 8) (by rw [List.length_drop]; omega)
  exact ⟨vs, isEnc, contents, length.symm, fits⟩

/-- What the deep check makes of the integers. -/
def deepVerdict (vs : List Int) : Exec Bool :=
  if (vs.take intLimit).Pairwise (· < ·) then
    if vs.length ≤ intLimit then .ok true else .error .outOfBounds
  else .ok false

theorem validate_deep {is : Intset} {vs : List Int} (stores : is.Stores vs) (nonempty : vs ≠ []) :
    (do
      let prev ← is.intsetGet 0
      is.validateLoop (is.length - 1) 1 prev) = deepVerdict vs := by
  obtain ⟨prev, back, rfl⟩ := List.exists_cons_of_ne_nil nonempty
  have positive : 0 < intLimit := by decide
  have loop := validateLoop_spec [] prev back stores positive
  rw [List.length_nil, Nat.zero_add, Nat.zero_add, Nat.sub_zero] at loop
  rw [stores.get (show (prev :: back)[0]? = some prev from rfl) positive, ok_bind, stores.length, List.length_cons,
    Nat.add_sub_cancel, loop, deepVerdict, List.length_cons]
  simp only [List.isChain_iff_pairwise]

theorem deepVerdict_eq_true {vs : List Int} :
    deepVerdict vs = .ok true ↔ vs.Pairwise (· < ·) ∧ vs.length ≤ intLimit := by
  rw [deepVerdict]
  split
  · rename_i sorted
    split
    · rename_i few
      rw [List.take_of_length_le few] at sorted
      exact iff_of_true rfl ⟨sorted, few⟩
    · rename_i many
      exact iff_of_false nofun fun both => many both.2
  · rename_i unsorted
    exact iff_of_false nofun fun both => unsorted (both.1.sublist (List.take_sublist ..))

theorem deepVerdict_eq_error {vs : List Int} {fault : Fault} : deepVerdict vs = .error fault ↔
    fault = .outOfBounds ∧ (vs.take intLimit).Pairwise (· < ·) ∧ intLimit < vs.length := by
  rw [deepVerdict]
  split
  · rename_i sorted
    split
    · rename_i few
      exact iff_of_false nofun fun all => absurd few all.2.2.not_ge
    · rename_i many
      rw [and_iff_left ⟨sorted, Nat.lt_of_not_le many⟩]
      exact ⟨fun same => (Except.error.inj same).symm, fun same => congrArg _ same.symm⟩
  · rename_i unsorted
    exact iff_of_false nofun fun all => unsorted all.2.1

/-- The answer on a blob of integers, and on bytes that are none. -/
theorem validate_spec (p : Bytes) (deep : Bool) :
    (∃ vs, IsBlob p vs ∧ intsetValidateIntegrity p deep = if deep then deepVerdict vs else .ok true) ∨
      (∀ vs, ¬ IsBlob p vs) ∧ intsetValidateIntegrity p deep = .ok false := by
  simp only [isBlob_iff]
  unfold intsetValidateIntegrity
  split
  · rename_i short
    exact Or.inr ⟨fun vs blob => by omega, rfl⟩
  · rename_i header
    have known : IsEncoding (value (p.take 4)) ↔ ¬ (value (p.take 4) ≠ intsetEncInt64 ∧
        value (p.take 4) ≠ intsetEncInt32 ∧ value (p.take 4) ≠ intsetEncInt16) := by
      unfold IsEncoding intsetEncInt64 intsetEncInt32 intsetEncInt16
      omega
    dsimp only
    split
    · rename_i unknown
      exact Or.inr ⟨fun vs ⟨_, stores, _⟩ => known.mp stores.encoding unknown, rfl⟩
    · rename_i isKnown
      split
      · rename_i unfit
        refine Or.inr ⟨fun vs ⟨_, stores, _⟩ => unfit ?_, rfl⟩
        have contents := congrArg List.length stores.contents
        rw [length_records, ← stores.length, show (ofBlob p).contents = p.drop 8 from rfl,
          List.length_drop] at contents
        have place : (ofBlob p).length * (ofBlob p).encoding = value ((p.drop 4).take 4) * value (p.take 4) := rfl
        omega
      · rename_i fit
        obtain ⟨vs, stores⟩ := exists_stores (known.mpr isKnown) (not_not.mp fit)
        split
        · rename_i none
          refine Or.inr ⟨fun ws ⟨_, also, nonempty⟩ => nonempty ?_, rfl⟩
          exact List.length_eq_zero_iff.mp (also.length.symm.trans none)
        · rename_i more
          have nonempty : vs ≠ [] := fun none => more (stores.length.trans (by rw [none, List.length_nil]))
          refine Or.inl ⟨vs, ⟨by omega, stores, nonempty⟩, ?_⟩
          cases deep with
          | false => rfl
          | true => exact validate_deep stores nonempty

theorem IsBlob.unique {p : Bytes} {vs ws : List Int} (blob : IsBlob p vs) (also : IsBlob p ws) : vs = ws :=
  (isBlob_iff.mp blob).2.1.unique (isBlob_iff.mp also).2.1

/-- The check accepts exactly the blobs of nonempty sets, which with the deep check
have to be in order, and are at most `2 ^ 31`. With the deep check it reads outside
the blob in one case: more integers than that, of which the first `2 ^ 31` are in order. -/
theorem intsetValidateIntegrity_accepts (p : Bytes) (deep : Bool) :
    (intsetValidateIntegrity p deep = .ok true ↔
      ∃ vs, IsBlob p vs ∧ (deep = false ∨ vs.Pairwise (· < ·) ∧ vs.length ≤ intLimit)) ∧
    ∀ fault, intsetValidateIntegrity p deep = .error fault ↔ fault = .outOfBounds ∧ deep = true ∧
      ∃ vs, IsBlob p vs ∧ (vs.take intLimit).Pairwise (· < ·) ∧ intLimit < vs.length := by
  rcases validate_spec p deep with ⟨vs, blob, answers⟩ | ⟨bad, answers⟩
  · have only (P : List Int → Prop) : (∃ ws, IsBlob p ws ∧ P ws) ↔ P vs := by
      constructor
      · rintro ⟨ws, also, holds⟩
        exact blob.unique also ▸ holds
      · exact fun holds => ⟨vs, blob, holds⟩
    rw [answers, only]
    refine ⟨?_, fun fault => ?_⟩
    · cases deep with
      | false => simp
      | true => simp only [if_true, deepVerdict_eq_true, Bool.true_eq_false, false_or]
    · rw [only]
      cases deep with
      | false => simp
      | true => simp only [if_true, deepVerdict_eq_error, true_and]
  · rw [answers]
    refine ⟨iff_of_false nofun fun ⟨vs, blob, _⟩ => bad vs blob, fun fault => ?_⟩
    exact iff_of_false nofun fun ⟨_, _, vs, blob, _⟩ => bad vs blob

end Intset

end BlogAlgorithms.Redis
