import BlogAlgorithms.Java.Array
import BlogAlgorithms.Java.Comparator
import Mathlib.Data.List.Perm.Basic
import Mathlib.Data.List.Chain

namespace Strand
open Java

variable {α : Type}

/-- The elements of a list at the distances `0, h, 2h, ...` from its head. -/
def every (h : Nat) : List α → List α
  | [] => []
  | x :: rest => x :: every h (rest.drop (h - 1))
termination_by a => a.length
decreasing_by
  rw [List.length_drop, List.length_cons]
  omega

/-- The elements at the positions `r, r + h, r + 2h, ...`. -/
def strand (h : Nat) (a : List α) (r : Nat) : List α := every h (a.drop r)

/-- Elements that are `h` positions apart are in order. -/
def GapSorted (compare : α → α → Int) (h : Nat) (a : List α) : Prop :=
  ∀ p x y, a[p]? = some x → a[p + h]? = some y → compare x y ≤ 0

/-- The second list moves elements of the first only within their strands. -/
structure StrandPerm (h : Nat) (a b : List α) : Prop where
  perm : b.Perm a
  strands : ∀ r < h, (strand h b r).Perm (strand h a r)

theorem getElem?_every {h : Nat} (positive : 0 < h) (a : List α) (t : Nat) : (every h a)[t]? = a[h * t]? := by
  induction t generalizing a with
  | zero => cases a <;> simp [every]
  | succ t ih =>
    cases a with
    | nil => simp [every]
    | cons x rest =>
      have position : h * (t + 1) = h - 1 + h * t + 1 := by
        rw [Nat.mul_add]
        omega
      rw [every, List.getElem?_cons_succ, ih, List.getElem?_drop, position, List.getElem?_cons_succ]

theorem getElem?_strand {h : Nat} (positive : 0 < h) (a : List α) (r t : Nat) :
    (strand h a r)[t]? = a[r + h * t]? := by
  rw [strand, getElem?_every positive, List.getElem?_drop]

/-- Every position lies on the strand of its remainder. -/
theorem getElem?_position {h : Nat} (positive : 0 < h) (a : List α) (p : Nat) :
    (strand h a (p % h))[p / h]? = a[p]? := by
  rw [getElem?_strand positive, Nat.mod_add_div]

theorem strand_set_same {h : Nat} (positive : 0 < h) (a : List α) (i : Nat) (x : α) :
    strand h (a.set i x) (i % h) = (strand h a (i % h)).set (i / h) x := by
  refine List.ext_getElem? fun t => ?_
  have whole := Nat.mod_add_div i h
  by_cases same : i / h = t
  · subst same
    rw [List.getElem?_set_self', getElem?_position positive, getElem?_strand positive, whole,
      List.getElem?_set_self']
  · have apart : i ≠ i % h + h * t := fun equal => same (Nat.eq_of_mul_eq_mul_left positive (by omega))
    rw [List.getElem?_set_ne same, getElem?_strand positive, getElem?_strand positive, List.getElem?_set_ne apart]

theorem strand_set_other {h : Nat} (positive : 0 < h) (a : List α) {i r : Nat} (small : r < h)
    (other : i % h ≠ r) (x : α) : strand h (a.set i x) r = strand h a r := by
  refine List.ext_getElem? fun t => ?_
  have apart : i ≠ r + h * t :=
    fun equal => other (by rw [equal, Nat.add_mul_mod_self_left, Nat.mod_eq_of_lt small])
  rw [getElem?_strand positive, getElem?_strand positive, List.getElem?_set_ne apart]

theorem StrandPerm.refl (h : Nat) (a : List α) : StrandPerm h a a := ⟨.refl a, fun _ _ => .refl _⟩

theorem StrandPerm.trans {h : Nat} {a b c : List α} (first : StrandPerm h a b) (second : StrandPerm h b c) :
    StrandPerm h a c :=
  ⟨second.perm.trans first.perm, fun r small => (second.strands r small).trans (first.strands r small)⟩

/-- Exchanging two elements that are `h` positions apart. -/
theorem strandPerm_swap {h : Nat} (positive : 0 < h) {a : List α} {p : Nat} {x y : α}
    (atP : a[p]? = some x) (above : a[p + h]? = some y) : StrandPerm h a ((a.set p y).set (p + h) x) := by
  refine ⟨set_set_perm_of atP above, fun r small => ?_⟩
  have residue : (p + h) % h = p % h := Nat.add_mod_right p h
  by_cases same : p % h = r
  · subst same
    have quotient : (p + h) / h = p / h + 1 := Nat.add_div_right p positive
    have upper := strand_set_same positive (a.set p y) (p + h) x
    rw [residue, strand_set_same positive a p y] at upper
    rw [upper]
    refine set_set_perm_of ?_ ?_
    · rw [getElem?_position positive, atP]
    · rw [← residue, getElem?_position positive, above]
  · rw [strand_set_other positive _ small (by rwa [residue]), strand_set_other positive _ small same]

theorem pairwise_of_adjacent {compare : α → α → Int} (order : TotalPreorderOn Set.univ compare) {a : List α}
    (adjacent : GapSorted compare 1 a) : a.Pairwise (fun x y => compare x y ≤ 0) := by
  have transitive : Trans (fun x y => compare x y ≤ 0) (fun x y => compare x y ≤ 0)
      (fun x y => compare x y ≤ 0) :=
    ⟨fun first second => order.trans_univ _ _ _ first second⟩
  refine List.IsChain.pairwise (List.isChain_iff_getElem.mpr fun t bound => ?_)
  exact adjacent t _ _ (List.getElem?_eq_getElem (by omega)) (List.getElem?_eq_getElem bound)

theorem GapSorted.strand_pairwise {compare : α → α → Int} (order : TotalPreorderOn Set.univ compare) {h : Nat}
    (positive : 0 < h) {a : List α} (sorted : GapSorted compare h a) (r : Nat) :
    (strand h a r).Pairwise (fun x y => compare x y ≤ 0) := by
  refine pairwise_of_adjacent order fun t x y atT next => ?_
  rw [getElem?_strand positive] at atT next
  exact sorted (r + h * t) x y atT (by rwa [Nat.mul_add, Nat.mul_one, ← Nat.add_assoc] at next)

/-- If at each position of the first list that satisfies a test the second
has an element that does, the second has at least as many. -/
theorem countP_le_of_pointwise {test : α → Bool} {a b : List α}
    (pointwise : ∀ (t : Nat) x, a[t]? = some x → test x = true → ∃ y, b[t]? = some y ∧ test y = true) :
    a.countP test ≤ b.countP test := by
  induction a generalizing b with
  | nil => simp
  | cons x a ih =>
    cases b with
    | nil =>
      have none : (x :: a).countP test = 0 := by
        refine List.countP_eq_zero.mpr fun y member holds => ?_
        obtain ⟨t, atT⟩ := List.mem_iff_getElem?.mp member
        obtain ⟨z, found, _⟩ := pointwise t y atT holds
        simp at found
      omega
    | cons y b =>
      have tails : a.countP test ≤ b.countP test := ih fun t z atT holds => pointwise (t + 1) z atT holds
      have heads : test x = true → test y = true := fun holds => by
        obtain ⟨z, found, passes⟩ := pointwise 0 x rfl holds
        cases Option.some.inj found
        exact passes
      rw [List.countP_cons, List.countP_cons]
      by_cases holds : test x = true
      · rw [if_pos holds, if_pos (heads holds)]
        omega
      · rw [if_neg holds]
        omega

section
variable {compare : α → α → Int} (order : TotalPreorderOn Set.univ compare)
include order

theorem le_countP_of_sorted {a : List α} (sorted : a.Pairwise (fun x y => compare x y ≤ 0)) {t : Nat}
    {x y : α} (atT : a[t]? = some x) (below : compare x y ≤ 0) : t + 1 ≤ a.countP (compare · y ≤ 0) := by
  obtain ⟨front, back, rfl, length⟩ := append_of_getElem? atT
  have before := (List.pairwise_append.mp sorted).2.2
  have all : front.countP (compare · y ≤ 0) = front.length := by
    refine List.countP_eq_length.mpr fun v member => decide_eq_true ?_
    have upToX := before v member x List.mem_cons_self
    exact order.trans_univ v x y upToX below
  rw [List.countP_append, all, List.countP_cons, if_pos (decide_eq_true below)]
  omega

theorem countP_le_of_sorted {a : List α} (sorted : a.Pairwise (fun x y => compare x y ≤ 0)) {t : Nat}
    {x y : α} (atT : a[t]? = some x) (larger : ¬ compare x y ≤ 0) : a.countP (compare · y ≤ 0) ≤ t := by
  obtain ⟨front, back, rfl, length⟩ := append_of_getElem? atT
  have after := (List.pairwise_cons.mp (List.pairwise_append.mp sorted).2.1).1
  have none : (x :: back).countP (compare · y ≤ 0) = 0 := by
    refine List.countP_eq_zero.mpr fun v member holds => larger ?_
    have upToY : compare v y ≤ 0 := of_decide_eq_true holds
    rcases List.mem_cons.mp member with same | inBack
    · exact same ▸ upToY
    · exact order.trans_univ x v y (after v inBack) upToY
  have most : front.countP (compare · y ≤ 0) ≤ front.length := List.countP_le_length
  rw [List.countP_append, none]
  omega

/-- If the elements of one list are below those of another at a fixed distance
further on, so are the elements of the two lists sorted: both sides count the
elements that are at most a given one. -/
theorem sorted_below {d : Nat} {low high low' high' : List α}
    (permLow : low'.Perm low) (permHigh : high'.Perm high)
    (sortedLow : low'.Pairwise (fun x y => compare x y ≤ 0))
    (sortedHigh : high'.Pairwise (fun x y => compare x y ≤ 0)) (lengths : high.length ≤ low.length + d)
    (below : ∀ (t : Nat) x y, low[t]? = some x → high[t + d]? = some y → compare x y ≤ 0) {t : Nat} {x y : α}
    (atT : low'[t]? = some x) (above : high'[t + d]? = some y) : compare x y ≤ 0 := by
  by_contra larger
  have manyHigh := le_countP_of_sorted order sortedHigh above (order.refl_univ y)
  have fewLow := countP_le_of_sorted order sortedLow atT larger
  rw [permHigh.countP_eq, ← List.take_append_drop d high, List.countP_append] at manyHigh
  rw [permLow.countP_eq] at fewLow
  have early : (high.take d).countP (compare · y ≤ 0) ≤ d :=
    List.countP_le_length.trans (List.length_take_le d high)
  have late : (high.drop d).countP (compare · y ≤ 0) ≤ low.countP (compare · y ≤ 0) := by
    refine countP_le_of_pointwise fun s z atS holds => ?_
    rw [List.getElem?_drop, Nat.add_comm] at atS
    obtain ⟨bound, _⟩ := List.getElem?_eq_some_iff.mp atS
    have inside : s < low.length := by omega
    have found := List.getElem?_eq_getElem inside
    have upToZ := below s low[s] z found atS
    exact ⟨low[s], found, decide_eq_true (order.trans_univ _ z y
      upToZ (of_decide_eq_true holds))⟩
  omega

/-- Sorting the strands of one distance keeps the order at any other distance. -/
theorem GapSorted.keep {h k : Nat} (positive : 0 < h) {a b : List α} (sorted : GapSorted compare k a)
    (moved : StrandPerm h a b) (strands : GapSorted compare h b) : GapSorted compare k b := by
  intro p x y atP above
  have partP := Nat.mod_add_div p h
  have partK := Nat.mod_add_div (p + k) h
  obtain ⟨d, further⟩ : ∃ d, (p + k) / h = p / h + d :=
    Nat.exists_eq_add_of_le (Nat.div_le_div_right (Nat.le_add_right p k))
  have shift (t : Nat) : (p + k) % h + h * (t + d) = p % h + h * t + k := by
    rw [further, Nat.mul_add] at partK
    rw [Nat.mul_add]
    omega
  rw [← getElem?_position positive] at atP above
  rw [further] at above
  have smallP := Nat.mod_lt p positive
  have smallK := Nat.mod_lt (p + k) positive
  refine sorted_below order (moved.strands _ smallP) (moved.strands _ smallK)
    (strands.strand_pairwise order positive _)
    (strands.strand_pairwise order positive _) ?_ (fun t u v atT atD => ?_) atP above
  · by_contra longer
    have inside : (strand h a (p % h)).length + d < (strand h a ((p + k) % h)).length := by omega
    have found := List.getElem?_eq_getElem inside
    rw [getElem?_strand positive, shift] at found
    obtain ⟨bound, _⟩ := List.getElem?_eq_some_iff.mp found
    have outside : (strand h a (p % h))[(strand h a (p % h)).length]? = none := List.getElem?_eq_none le_rfl
    rw [getElem?_strand positive, List.getElem?_eq_none_iff] at outside
    omega
  · rw [getElem?_strand positive] at atT atD
    rw [shift] at atD
    exact sorted (p % h + h * t) u v atT atD

end

end Strand
