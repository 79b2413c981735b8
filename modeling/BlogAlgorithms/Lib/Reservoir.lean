import Mathlib.Data.List.Permutation
import Mathlib.Data.Nat.Factorial.BigOperators
import Mathlib.Data.Set.Card
import Mathlib.SetTheory.Cardinal.Finite

namespace Reservoir
universe u

/-- Every draw is one that a source can return for its bound. -/
def Within (draws bounds : List Int) : Prop := List.Forall₂ (fun draw bound => 0 ≤ draw ∧ draw < bound) draws bounds

/-- The bounds `1, ..., n`. -/
def bounds (n : Nat) : List Int := (List.range n).map fun t : Nat => (t : Int) + 1

theorem bounds_succ (n : Nat) : bounds (n + 1) = bounds n ++ [(n : Int) + 1] := by
  rw [bounds, bounds, List.range_succ, List.map_append, List.map_singleton]

theorem length_bounds (n : Nat) : (bounds n).length = n := by rw [bounds, List.length_map, List.length_range]

/-- The vectors of draws of which the one at `t` is below `t + 1`. -/
abbrev Draws (n : Nat) : Type := (t : Fin n) → Fin (t + 1)

def toList {n : Nat} (draws : Draws n) : List Int := List.ofFn fun t => ((draws t).val : Int)

/-- The results of a source that starts with these draws. -/
def source (draws : List Int) (t : Nat) : Int := draws[t]?.getD 0

def stream {n : Nat} (draws : Draws n) : Nat → Int := source (toList draws)

theorem stream_of_lt {n : Nat} (draws : Draws n) {t : Nat} (inside : t < n) :
    stream draws t = (draws ⟨t, inside⟩).val := by
  rw [stream, source, toList, List.getElem?_ofFn, dif_pos inside, Option.getD_some]

theorem stream_of_ge {n : Nat} (draws : Draws n) {t : Nat} (outside : n ≤ t) : stream draws t = 0 := by
  rw [stream, source, toList, List.getElem?_ofFn, dif_neg (by omega), Option.getD_none]

theorem toList_injective (n : Nat) : Function.Injective (toList : Draws n → List Int) := by
  intro draws other same
  have values := congrFun (List.ofFn_injective same)
  funext t
  exact Fin.ext (Int.ofNat.inj (values t))

theorem within_bounds_iff {n : Nat} {list : List Int} :
    Within list (bounds n) ↔ ∃ draws : Draws n, toList draws = list := by
  rw [Within, List.forall₂_iff_get]
  constructor
  · rintro ⟨length, within⟩
    rw [length_bounds] at length
    subst length
    have range (t : Fin list.length) : 0 ≤ list.get t ∧ list.get t < t + 1 := by
      have atT := within t t.2 (by rw [length_bounds]; exact t.2)
      simpa [bounds] using atT
    refine ⟨fun t => ⟨(list.get t).toNat, by have := range t; omega⟩, ?_⟩
    refine List.ext_get (by rw [toList, List.length_ofFn]) fun t inside inside' => ?_
    have lower := (range ⟨t, inside'⟩).1
    simpa [toList] using lower
  · rintro ⟨draws, rfl⟩
    refine ⟨by rw [toList, List.length_ofFn, length_bounds], fun t inside _ => ?_⟩
    rw [toList, List.length_ofFn] at inside
    have below : (draws ⟨t, inside⟩).val < t + 1 := (draws ⟨t, inside⟩).2
    simp only [toList, bounds, List.get_eq_getElem, List.getElem_ofFn, List.getElem_map, List.getElem_range]
    omega

/-- To count vectors as lists of draws is to count them. -/
theorem ncard_within {n : Nat} (P : List Int → Prop) :
    {list | Within list (bounds n) ∧ P list}.ncard = Nat.card {draws : Draws n // P (toList draws)} := by
  have image : {list | Within list (bounds n) ∧ P list} =
      Set.image toList {draws : Draws n | P (toList draws)} := by
    ext list
    constructor
    · rintro ⟨within, holds⟩
      obtain ⟨draws, rfl⟩ := within_bounds_iff.mp within
      exact ⟨draws, holds, rfl⟩
    · rintro ⟨draws, holds, rfl⟩
      exact ⟨within_bounds_iff.mpr ⟨draws, rfl⟩, holds⟩
  rw [image, Set.ncard_image_of_injective _ (toList_injective n)]
  rfl

/-- The last element whose draw is zero. -/
def kept {β : Type u} (random : Nat → Int) (xs : List β) (res : β) : β :=
  xs.zipIdx.foldl (fun res (x, t) => if random t = 0 then x else res) res

theorem kept_concat {β : Type u} (random : Nat → Int) (xs : List β) (x res : β) :
    kept random (xs ++ [x]) res = if random xs.length = 0 then x else kept random xs res := by
  simp [kept, List.zipIdx_append]

theorem kept_map {β γ : Type u} (f : β → γ) (random : Nat → Int) (xs : List β) (res : β) :
    kept random (xs.map f) (f res) = f (kept random xs res) := by
  induction xs using List.reverseRecOn with
  | nil => rfl
  | append_singleton xs x ih =>
    rw [List.map_append, List.map_singleton, kept_concat, kept_concat, List.length_map, ih]
    split <;> rfl

theorem kept_congr {β : Type u} {random other : Nat → Int} {xs : List β}
    (same : ∀ t < xs.length, random t = other t) (res : β) : kept random xs res = kept other xs res := by
  induction xs using List.reverseRecOn with
  | nil => rfl
  | append_singleton xs x ih =>
    rw [List.length_append, List.length_singleton] at same
    rw [kept_concat, kept_concat, same xs.length (by omega), ih fun t bound => same t (by omega)]

theorem card_draws (n : Nat) : Nat.card (Draws n) = n.factorial := by
  rw [Nat.card_pi]
  simp only [Nat.card_fin]
  rw [Fin.prod_univ_eq_prod_range (fun t => t + 1) n, Finset.prod_range_add_one_eq_factorial]

/-- A vector of draws is one that is shorter by one with a last draw. -/
def snoc (n : Nat) : Fin (n + 1) × Draws n ≃ Draws (n + 1) := Fin.snocEquiv fun t : Fin (n + 1) => Fin (t + 1)

theorem stream_snoc_last {n : Nat} (draws : Draws n) (last : Fin (n + 1)) :
    stream (snoc n (last, draws)) n = last.val := by
  have atLast : snoc n (last, draws) (Fin.last n) = last :=
    Fin.snoc_last (α := fun t : Fin (n + 1) => Fin (t + 1)) last draws
  rw [stream_of_lt _ (Nat.lt_succ_self n)]
  exact congrArg (fun draw : Fin (n + 1) => (draw.val : Int)) atLast

theorem stream_snoc_before {n : Nat} (draws : Draws n) (last : Fin (n + 1)) {t : Nat} (before : t < n) :
    stream (snoc n (last, draws)) t = stream draws t := by
  have atT : snoc n (last, draws) (Fin.castSucc ⟨t, before⟩) = draws ⟨t, before⟩ :=
    Fin.snoc_castSucc (α := fun t : Fin (n + 1) => Fin (t + 1)) last draws ⟨t, before⟩
  rw [stream_of_lt _ (before.trans (Nat.lt_succ_self n)), stream_of_lt _ before]
  exact congrArg (fun draw : Fin (t + 1) => (draw.val : Int)) atT

section
variable {β : Type u} {xs : List β} {x y : β}

theorem kept_snoc (draws : Draws xs.length) (last : Fin (xs.length + 1)) (res : β) :
    kept (stream (snoc xs.length (last, draws))) (xs ++ [x]) res =
      if last = 0 then x else kept (stream draws) xs res := by
  have earlier : kept (stream (snoc xs.length (last, draws))) xs res = kept (stream draws) xs res :=
    kept_congr (fun t before => stream_snoc_before draws last before) res
  have zero_iff : ((last.val : Int) = 0) = (last = 0) :=
    propext ⟨fun same => Fin.ext (Int.ofNat.inj same), fun same => by rw [same]; rfl⟩
  rw [kept_concat, stream_snoc_last, earlier]
  simp only [zero_iff]

theorem kept_mem (random : Nat → Int) (xs : List β) (res : β) :
    kept random xs res = res ∨ kept random xs res ∈ xs := by
  induction xs using List.reverseRecOn with
  | nil => exact Or.inl rfl
  | append_singleton xs x ih =>
    rw [kept_concat]
    split
    · exact Or.inr (List.mem_append_right xs List.mem_cons_self)
    · exact ih.imp_right (List.mem_append_left [x])

theorem kept_first (random : Nat → Int) (zero : random 0 = 0) (nonempty : xs ≠ []) (res : β) :
    kept random xs res ∈ xs := by
  induction xs using List.reverseRecOn with
  | nil => exact absurd rfl nonempty
  | append_singleton xs x ih =>
    rw [kept_concat]
    split
    · exact List.mem_append_right xs List.mem_cons_self
    · rename_i later
      have some : xs ≠ [] := by
        rintro rfl
        exact later zero
      exact List.mem_append_left [x] (ih some)

end

theorem card_snoc {m : Nat} {P : Fin (m + 1) → Prop} {Q : Draws m → Prop} {R : Draws (m + 1) → Prop}
    (split : ∀ last draws, R (snoc m (last, draws)) ↔ P last ∧ Q draws) :
    Nat.card {draws // R draws} = Nat.card {last // P last} * Nat.card {draws // Q draws} := by
  have pairs : {pair : Fin (m + 1) × Draws m // P pair.1 ∧ Q pair.2} ≃ {draws // R draws} :=
    (snoc m).subtypeEquiv fun pair => (split pair.1 pair.2).symm
  rw [← Nat.card_prod]
  exact Nat.card_congr (pairs.symm.trans Equiv.subtypeProdEquivProd)

section
variable {β : Type u} {xs : List β} {x y res : β}

/-- The last element is kept by the vectors whose last draw is zero. -/
theorem card_kept_last (absent : ∀ draws : Draws xs.length, kept (stream draws) xs res ≠ y) :
    Nat.card {draws : Draws (xs.length + 1) // kept (stream draws) (xs ++ [y]) res = y} = xs.length.factorial := by
  have one : Nat.card {last : Fin (xs.length + 1) // last = 0} = 1 := by simp
  rw [card_snoc (P := (· = 0)) (Q := fun _ => True), one, Nat.one_mul,
    Nat.card_congr (Equiv.subtypeUnivEquiv fun _ => trivial), card_draws]
  intro last draws
  rw [kept_snoc]
  by_cases zero : last = 0
  · simp [zero]
  · simp [zero, absent]

/-- An earlier element is kept by the vectors that keep it before a last draw
that is not zero. -/
theorem card_kept_earlier (other : y ≠ x) :
    Nat.card {draws : Draws (xs.length + 1) // kept (stream draws) (xs ++ [x]) res = y} =
      xs.length * Nat.card {draws : Draws xs.length // kept (stream draws) xs res = y} := by
  have others : Nat.card {last : Fin (xs.length + 1) // last ≠ 0} = xs.length := by simp
  rw [card_snoc (P := (· ≠ 0)) (Q := fun draws => kept (stream draws) xs res = y), others]
  intro last draws
  rw [kept_snoc]
  by_cases zero : last = 0
  · simp [zero, other.symm]
  · simp [zero]

/-- Every element of a list without duplicates is kept by the same number of
vectors of draws. -/
theorem card_kept {n : Nat} (length : xs.length = n) (distinct : xs.Nodup) (fresh : res ∉ xs) (member : y ∈ xs) :
    Nat.card {draws : Draws n // kept (stream draws) xs res = y} = (n - 1).factorial := by
  induction xs using List.reverseRecOn generalizing n with
  | nil => cases member
  | append_singleton xs x ih =>
    obtain ⟨distinctXs, _, across⟩ := List.nodup_append.mp distinct
    rw [List.mem_append, not_or, List.mem_singleton] at fresh
    rw [List.length_append, List.length_singleton] at length
    subst length
    rw [Nat.add_sub_cancel]
    by_cases last : y = x
    · subst last
      refine card_kept_last fun draws same => ?_
      rcases kept_mem (stream draws) xs res with unchanged | inXs
      · exact fresh.2 (unchanged.symm.trans same)
      · exact across _ inXs y List.mem_cons_self same
    · have inXs : y ∈ xs := (List.mem_append.mp member).resolve_right fun new => last (List.mem_singleton.mp new)
      have positive := List.length_pos_of_mem inXs
      rw [card_kept_earlier last, ih rfl distinctXs fresh.1 inXs, Nat.mul_factorial_pred positive.ne']

end

end Reservoir
