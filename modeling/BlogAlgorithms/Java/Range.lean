import BlogAlgorithms.Java.Array
import BlogAlgorithms.Java.Comparator
import Mathlib.Data.List.Perm.Basic

namespace Java
universe u

/-- The statements `T temp = a[i]; a[i] = a[j]; a[j] = temp;`. -/
def swapSlots {α : Type u} (a : List α) (i j : Int) : Exec (List α) := do
  let temp ← arrayGet a i
  let a ← arraySet a i (← arrayGet a j)
  arraySet a j temp

/-- The elements in the slots `lo..hi`. -/
def slice {α : Type u} (a : List α) (lo hi : Int) : List α := (a.take (hi + 1).toNat).drop lo.toNat

/-- The second array is a permutation of the first that moves nothing outside
the slots `lo..hi`. -/
structure Rearranges {α : Type u} (lo hi : Int) (a b : List α) : Prop where
  perm : b.Perm a
  outside : ∀ k, k < lo ∨ hi < k → slot b k = slot a k

def AllOn {α : Type u} (property : α → Prop) (a : List α) (lo hi : Int) : Prop :=
  ∀ k x, lo ≤ k → k ≤ hi → slot a k = some x → property x

def SortedOn {α : Type u} (compare : α → α → Int) (a : List α) (lo hi : Int) : Prop :=
  ∀ p q x y, lo ≤ p → p < q → q ≤ hi → slot a p = some x → slot a q = some y → compare x y ≤ 0

section
variable {α : Type u} {a b c : List α} {lo hi : Int}

theorem getElem?_slice (t : Nat) :
    (slice a lo hi)[t]? = if (lo.toNat + t : Int) ≤ hi then slot a (lo.toNat + t) else none := by
  have cast : (lo.toNat + t : Int) = ((lo.toNat + t : Nat) : Int) := by omega
  rw [slice, List.getElem?_drop, List.getElem?_take, cast, slot_natCast]
  by_cases inside : lo.toNat + t < (hi + 1).toNat
  · rw [if_pos inside, if_pos (by omega)]
  · rw [if_neg inside, if_neg (by omega)]

theorem mem_slice {x : α} : x ∈ slice a lo hi ↔ ∃ k, lo ≤ k ∧ k ≤ hi ∧ slot a k = some x := by
  rw [List.mem_iff_getElem?]
  constructor
  · rintro ⟨t, found⟩
    rw [getElem?_slice] at found
    split at found
    · rename_i upper
      exact ⟨lo.toNat + t, by omega, upper, found⟩
    · cases found
  · rintro ⟨k, lower, upper, found⟩
    have nonneg := (InBounds.of_slot found).1
    have position : (lo.toNat + (k.toNat - lo.toNat : Nat) : Int) = k := by omega
    exact ⟨k.toNat - lo.toNat, by rw [getElem?_slice, position, if_pos upper, found]⟩

theorem swapSlots_ok {i j : Int} {x y : α} (atI : slot a i = some x) (atJ : slot a j = some y) :
    ∃ b, swapSlots a i j = .ok b ∧ b.Perm a ∧
      ∀ k, slot b k = if k = j then some x else if k = i then some y else slot a k := by
  have insideI := InBounds.of_slot atI
  have insideJ : InBounds (store a i y) j := (InBounds.of_slot atJ).store i y
  refine ⟨store (store a i y) j x, ?_, ?_, fun k => ?_⟩
  · simp only [swapSlots, arrayGet_of_slot atI, arrayGet_of_slot atJ, ok_bind,
      arraySet_of_inBounds insideI, arraySet_of_inBounds insideJ]
  · exact set_set_perm_of (slot_eq_some.mp atI).2 (slot_eq_some.mp atJ).2
  · rw [slot_store insideJ, slot_store insideI]

/-- An element taken out of the array, and where that leaves the slots after it. -/
theorem cons_perm_of_slot {k : Int} {x : α} (atK : slot a k = some x) :
    ∃ rest, (x :: rest).Perm a ∧ ∀ m, k < m → slot rest (m - 1) = slot a m := by
  obtain ⟨lower, found⟩ := slot_eq_some.mp atK
  obtain ⟨inside, rfl⟩ := List.getElem?_eq_some_iff.mp found
  refine ⟨a.eraseIdx k.toNat, List.getElem_cons_eraseIdx_perm inside, fun m after => ?_⟩
  obtain ⟨n, rfl⟩ : ∃ n : Nat, m = n + 1 := ⟨(m - 1).toNat, by omega⟩
  rw [Int.add_sub_cancel, slot_natCast, List.getElem?_eraseIdx_of_ge (by omega)]
  exact (slot_natCast a (n + 1)).symm

theorem Rearranges.refl (lo hi : Int) (a : List α) : Rearranges lo hi a a := ⟨.refl a, fun _ _ => rfl⟩

theorem Rearranges.trans (first : Rearranges lo hi a b) (second : Rearranges lo hi b c) :
    Rearranges lo hi a c :=
  ⟨second.perm.trans first.perm, fun k out => (second.outside k out).trans (first.outside k out)⟩

theorem Rearranges.widen {lo' hi' : Int} (moved : Rearranges lo hi a b) (lower : lo' ≤ lo)
    (upper : hi ≤ hi') : Rearranges lo' hi' a b :=
  ⟨moved.perm, fun k out => moved.outside k (by omega)⟩

theorem Rearranges.of_swap {i j : Int} {x y : α} (perm : b.Perm a)
    (slots : ∀ k, slot b k = if k = j then some x else if k = i then some y else slot a k)
    (inI : lo ≤ i ∧ i ≤ hi) (inJ : lo ≤ j ∧ j ≤ hi) : Rearranges lo hi a b :=
  ⟨perm, fun k out => by rw [slots, if_neg (by omega), if_neg (by omega)]⟩

theorem take_slice_drop (a : List α) (ordered : lo.toNat ≤ (hi + 1).toNat) :
    a.take lo.toNat ++ (slice a lo hi ++ a.drop (hi + 1).toNat) = a := by
  have prefixes : (a.take (hi + 1).toNat).take lo.toNat = a.take lo.toNat := by
    rw [List.take_take, Nat.min_eq_left ordered]
  rw [slice, ← List.append_assoc, ← prefixes, List.take_append_drop, List.take_append_drop]

theorem Rearranges.slice_perm (moved : Rearranges lo hi a b) : (slice b lo hi).Perm (slice a lo hi) := by
  by_cases ordered : lo.toNat ≤ (hi + 1).toNat
  · have front : b.take lo.toNat = a.take lo.toNat := by
      refine List.ext_getElem? fun k => ?_
      rw [List.getElem?_take, List.getElem?_take]
      split
      · have same := moved.outside k (Or.inl (by omega))
        rwa [slot_natCast, slot_natCast] at same
      · rfl
    have back : b.drop (hi + 1).toNat = a.drop (hi + 1).toNat := by
      refine List.ext_getElem? fun k => ?_
      rw [List.getElem?_drop, List.getElem?_drop]
      have same := moved.outside ((hi + 1).toNat + k : Nat) (Or.inr (by omega))
      rwa [slot_natCast, slot_natCast] at same
    have perm := moved.perm
    rw [← take_slice_drop b ordered, ← take_slice_drop a ordered, front, back,
      List.perm_append_left_iff, List.perm_append_right_iff] at perm
    exact perm
  · have empty (whole : List α) : slice whole lo hi = [] :=
      List.drop_eq_nil_of_le (by rw [List.length_take]; omega)
    rw [empty, empty]

theorem AllOn.rearranged {property : α → Prop} (all : AllOn property a lo hi)
    (moved : Rearranges lo hi a b) : AllOn property b lo hi := by
  intro k x lower upper found
  have member := moved.slice_perm.mem_iff.mp (mem_slice.mpr ⟨k, lower, upper, found⟩)
  obtain ⟨k', lower', upper', found'⟩ := mem_slice.mp member
  exact all k' x lower' upper' found'

theorem AllOn.congr {property : α → Prop} (all : AllOn property a lo hi)
    (same : ∀ k, lo ≤ k → k ≤ hi → slot b k = slot a k) : AllOn property b lo hi :=
  fun k x lower upper found => all k x lower upper (same k lower upper ▸ found)

theorem AllOn.append {property : α → Prop} {mid : Int} (first : AllOn property a lo mid)
    (second : AllOn property a (mid + 1) hi) : AllOn property a lo hi := by
  intro k x lower upper found
  by_cases early : k ≤ mid
  · exact first k x lower early found
  · exact second k x (by omega) upper found

theorem AllOn.extend {property : α → Prop} {k : Int} {x : α} (all : AllOn property a lo (k - 1))
    (atK : slot a k = some x) (holds : property x) : AllOn property a lo k := by
  intro m y lower upper found
  by_cases last : m = k
  · subst last
    cases Option.some.inj (atK.symm.trans found)
    exact holds
  · exact all m y lower (by omega) found

theorem SortedOn.congr {compare : α → α → Int} (sorted : SortedOn compare a lo hi)
    (same : ∀ k, lo ≤ k → k ≤ hi → slot b k = slot a k) : SortedOn compare b lo hi := by
  intro p q x y lower ordered upper atP atQ
  rw [same p lower (by omega)] at atP
  rw [same q (by omega) upper] at atQ
  exact sorted p q x y lower ordered upper atP atQ

theorem SortedOn.of_short {compare : α → α → Int} (short : hi ≤ lo) : SortedOn compare a lo hi :=
  fun p q _ _ lower ordered upper _ _ => by omega

theorem SortedOn.slice {compare : α → α → Int} (sorted : SortedOn compare a lo hi) :
    (slice a lo hi).Pairwise (fun x y => compare x y ≤ 0) := by
  rw [List.pairwise_iff_getElem]
  intro s t boundS boundT ordered
  have atS := List.getElem?_eq_getElem boundS
  have atT := List.getElem?_eq_getElem boundT
  rw [getElem?_slice] at atS atT
  split at atS
  · split at atT
    · rename_i upper
      exact sorted _ _ _ _ (by omega) (by omega) upper atS atT
    · cases atT
  · cases atS

theorem slice_whole (a : List α) : slice a 0 (a.length - 1) = a := by
  have stop : ((a.length : Int) - 1 + 1).toNat = a.length := by omega
  rw [slice, stop, List.take_length, Int.toNat_zero, List.drop_zero]

theorem SortedOn.pairwise {compare : α → α → Int} (sorted : SortedOn compare a 0 (a.length - 1)) :
    a.Pairwise (fun x y => compare x y ≤ 0) := by
  have whole := sorted.slice
  rwa [slice_whole] at whole

end

/-- Two sorted ranges with everything between them at most, and at least, the
element that separates them. -/
theorem SortedOn.join {α : Type} {compare : α → α → Int} (order : TotalPreorderOn Set.univ compare)
    {a : List α} {lo mid hi : Int} {pivot : α} (left : SortedOn compare a lo (mid - 1))
    (right : SortedOn compare a (mid + 1) hi) (middle : slot a mid = some pivot)
    (below : AllOn (fun x => compare x pivot ≤ 0) a lo (mid - 1))
    (above : AllOn (fun x => compare pivot x ≤ 0) a (mid + 1) hi) : SortedOn compare a lo hi := by
  intro p q x y lower ordered upper atP atQ
  rcases Int.lt_trichotomy q mid with before | same | after
  · exact left p q x y lower ordered (by omega) atP atQ
  · subst same
    cases Option.some.inj (middle.symm.trans atQ)
    exact below p x lower (by omega) atP
  · have aboveY := above q y (by omega) upper atQ
    rcases Int.lt_trichotomy p mid with before | same | after
    · exact order.trans_univ x pivot y
        (below p x lower (by omega) atP) aboveY
    · subst same
      cases Option.some.inj (middle.symm.trans atP)
      exact aboveY
    · exact right p q x y (by omega) ordered upper atP atQ

end Java
