import Mathlib.Data.Nat.Basic
import Mathlib.Data.List.Chain
import Mathlib.Data.List.Infix

namespace Lexicographic
universe u

variable {α : Type u} (rank : α → Nat)

/-- The order of words by the ranks of their letters, in which a word comes
after its proper prefixes. -/
def LexLe : List α → List α → Prop
  | [], _ => True
  | _ :: _, [] => False
  | c :: u, d :: v => rank c < rank d ∨ c = d ∧ LexLe u v

/-- Where the two words first differ, the first one has the later letter. -/
def Descends (u v : List α) : Prop :=
  ∃ shared c d us vs, u = shared ++ c :: us ∧ v = shared ++ d :: vs ∧ rank d < rank c

/-- The second word is the first one without some of its last letters. -/
def Truncates (u v : List α) : Prop := v <+: u ∧ v ≠ u

variable {rank} {u v w : List α} {c d : α}

theorem LexLe.trans (first : LexLe rank u v) (second : LexLe rank v w) : LexLe rank u w := by
  induction u generalizing v w with
  | nil => trivial
  | cons c u ih =>
    cases v with
    | nil => cases first
    | cons d v =>
      cases w with
      | nil => cases second
      | cons e w =>
        rcases first with lower | ⟨rfl, first⟩
        · rcases second with next | ⟨rfl, _⟩
          · exact Or.inl (lower.trans next)
          · exact Or.inl lower
        · rcases second with next | ⟨rfl, second⟩
          · exact Or.inl next
          · exact Or.inr ⟨rfl, ih first second⟩

theorem descends_cons_same : Descends rank (c :: u) (c :: v) ↔ Descends rank u v := by
  constructor
  · rintro ⟨shared, e, f, us, vs, first, second, below⟩
    cases shared with
    | nil =>
      cases first
      cases second
      exact absurd below (lt_irrefl _)
    | cons g shared =>
      cases first
      cases second
      exact ⟨shared, e, f, us, vs, rfl, rfl, below⟩
  · rintro ⟨shared, e, f, us, vs, rfl, rfl, below⟩
    exact ⟨c :: shared, e, f, us, vs, rfl, rfl, below⟩

theorem descends_cons_ne (different : c ≠ d) : Descends rank (c :: u) (d :: v) ↔ rank d < rank c := by
  constructor
  · rintro ⟨shared, e, f, us, vs, first, second, below⟩
    cases shared with
    | nil =>
      cases first
      cases second
      exact below
    | cons g shared =>
      cases first
      cases second
      exact absurd rfl different
  · exact fun below => ⟨[], c, d, u, v, rfl, rfl, below⟩

theorem descends_append (shared : List α) : Descends rank (shared ++ u) (shared ++ v) ↔ Descends rank u v := by
  induction shared with
  | nil => exact Iff.rfl
  | cons c shared ih => exact descends_cons_same.trans ih

/-- The two ways in which a pair of words can be out of order. -/
theorem lexLe_iff (injective : ∀ c ∈ u, ∀ d ∈ v, rank c = rank d → c = d) :
    LexLe rank u v ↔ ¬ Descends rank u v ∧ ¬ Truncates u v := by
  induction u generalizing v with
  | nil =>
    refine iff_of_true trivial ⟨?_, fun ⟨shorter, different⟩ => different (List.prefix_nil.mp shorter)⟩
    rintro ⟨shared, c, d, us, vs, empty, _⟩
    simp at empty
  | cons c u ih =>
    cases v with
    | nil => exact iff_of_false id fun ⟨_, whole⟩ => whole ⟨List.nil_prefix, (List.cons_ne_nil c u).symm⟩
    | cons d v =>
      by_cases same : c = d
      · subst same
        have tails := ih fun e inU f inV => injective e (List.mem_cons_of_mem _ inU) f (List.mem_cons_of_mem _ inV)
        simp only [LexLe, lt_irrefl, false_or, true_and, descends_cons_same, tails, Truncates,
          List.cons_prefix_cons, ne_eq, List.cons.injEq]
      · have ranks : rank c ≠ rank d := fun equal =>
          same (injective c List.mem_cons_self d List.mem_cons_self equal)
        have notShorter : ¬ Truncates (c :: u) (d :: v) := fun ⟨shorter, _⟩ =>
          same (List.cons_prefix_cons.mp shorter).1.symm
        simp only [LexLe, same, false_and, or_false, descends_cons_ne same, notShorter, not_false_eq_true,
          and_true]
        omega

end Lexicographic
