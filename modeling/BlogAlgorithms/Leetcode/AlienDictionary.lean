import BlogAlgorithms.Java.Array
import BlogAlgorithms.Java.Loop
import BlogAlgorithms.Lib.Lexicographic
import Mathlib.Tactic.Linarith
import Mathlib.Tactic.Push
import Mathlib.Tactic.SplitIfs
import Mathlib.Util.Superscript

namespace BlogAlgorithms.AlienDictionary
open Java Lexicographic

-- The letters are the units of a `String`, of which only equality and the hash are used.
variable {C : Type}

section Solution
variable [DecidableEq C] [Hashable C]

/-- The first loop, which fills the map from letters to positions. -/
def fillLetters (order : List C) : Exec (Std.HashMap C Int) :=
  forUp 0 (order.length - 1) (fun i letters => do
    let c ← charAt order i
    .ok (letters.insertIfNew c i)) ∅

/-- The unboxing of `letters.get(c)` fails on a missing key. -/
def position (letters : Std.HashMap C Int) (c : C) : Exec Int :=
  match letters[c]? with
  | some i => .ok i
  | none => throwing .nullPointer

/-- How the loop over the letters of two words can be left. -/
inductive Exit
  | broken
  | returnedFalse
  deriving DecidableEq

/-- The body of the loop over the letters. -/
def compareLetters (letters : Std.HashMap C Int) (char1 char2 : List C) (k : Int) : Exec (Option Exit) := do
  let c1 ← arrayGet char1 k
  let c2 ← arrayGet char2 k
  if c1 = c2 then .ok none
  else do
    let first ← position letters c1
    let second ← position letters c2
    if first < second then .ok (some .broken) else .ok (some .returnedFalse)

/-- The body of the loop over the words, left when the method returns. -/
def compareWords (letters : Std.HashMap C Int) (words : List (List C)) (i : Int) : Exec (Option Bool) := do
  let pre ← arrayGet words (i - 1)
  let word ← arrayGet words i
  let lim := min (pre.length : Int) word.length
  let exit ← forSearch 0 (lim - 1) (compareLetters letters pre word)
  .ok (if exit = some .returnedFalse then some false else none)

def isAlienSorted (words : List (List C)) (order : List C) : Exec Bool := do
  let letters ← fillLetters order
  let exit ← forSearch 1 (words.length - 1) (compareWords letters words)
  .ok (exit.getD true)

end Solution

section Words

theorem eq_of_slots {front front' back back' : List C} (lengths : front'.length = front.length)
    (same : ∀ j : Int, 0 ≤ j → j < front.length → slot (front ++ back) j = slot (front' ++ back') j) :
    front = front' := by
  refine List.ext_getElem? fun t => ?_
  by_cases inside : t < front.length
  · have atT := same t (by omega) (by omega)
    rwa [slot_natCast, slot_natCast, List.getElem?_append_left inside, List.getElem?_append_left (by omega)] at atT
  · rw [List.getElem?_eq_none (by omega), List.getElem?_eq_none (by omega)]

/-- The first difference of two words decides between them. -/
theorem descends_iff_at {rank : C → Nat} {pre word : List C} {c1 c2 : C} {k : Int}
    (first : slot pre k = some c1) (second : slot word k = some c2) (different : c1 ≠ c2)
    (agree : ∀ j, 0 ≤ j → j < k → slot pre j = slot word j) : Descends rank pre word ↔ rank c2 < rank c1 := by
  obtain ⟨_, atK⟩ := slot_eq_some.mp first
  obtain ⟨front, us, rfl, length⟩ := append_of_getElem? atK
  obtain ⟨front', vs, rfl, length'⟩ := append_of_getElem? (slot_eq_some.mp second).2
  have shared : front = front' :=
    eq_of_slots (length'.trans length.symm) fun j nonneg inside => agree j nonneg (by omega)
  subst shared
  rw [descends_append, descends_cons_ne different]

theorem not_descends_of_agree {rank : C → Nat} {pre word : List C}
    (agree : ∀ k, 0 ≤ k → k ≤ min (pre.length : Int) word.length - 1 → slot pre k = slot word k) :
    ¬ Descends rank pre word := by
  rintro ⟨shared, c, d, us, vs, rfl, rfl, below⟩
  have same :=
    agree shared.length (Int.natCast_nonneg _) (by simp only [List.length_append, List.length_cons]; omega)
  rw [slot_append_cons rfl, slot_append_cons rfl] at same
  cases same
  exact lt_irrefl _ below

/-- One word stands right before another in the array. -/
def Adjacent (words : List (List C)) (pre word : List C) : Prop :=
  ∃ i, slot words i = some pre ∧ slot words (i + 1) = some word

theorem pairwise_iff_adjacent {words : List (List C)} {R : List C → List C → Prop} [Trans R R R] :
    words.Pairwise R ↔ ∀ pre word, Adjacent words pre word → R pre word := by
  rw [← List.isChain_iff_pairwise, List.isChain_iff_getElem]
  constructor
  · rintro chain pre word ⟨i, first, second⟩
    obtain ⟨nonneg, first⟩ := slot_eq_some.mp first
    obtain ⟨_, second⟩ := slot_eq_some.mp second
    rw [show (i + 1).toNat = i.toNat + 1 by omega] at second
    obtain ⟨_, rfl⟩ := List.getElem?_eq_some_iff.mp first
    obtain ⟨bound, rfl⟩ := List.getElem?_eq_some_iff.mp second
    exact chain i.toNat bound
  · intro related t bound
    refine related _ _ ⟨t, ?_, ?_⟩
    · rw [slot_natCast, List.getElem?_eq_getElem]
    · rw [← Int.natCast_one, ← Int.natCast_add, slot_natCast, List.getElem?_eq_getElem]

end Words

section Letters
variable [DecidableEq C]

/-- What the body of the loop over the letters does with two letters. -/
def verdict (order : List C) (c1 c2 : C) : Option Exit :=
  if c1 = c2 then none
  else if order.idxOf c1 < order.idxOf c2 then some .broken else some .returnedFalse

theorem verdict_eq_none {order : List C} {c1 c2 : C} : verdict order c1 c2 = none ↔ c1 = c2 := by
  unfold verdict
  split_ifs with same
  · exact iff_of_true rfl same
  · exact iff_of_false nofun same
  · exact iff_of_false nofun same

theorem verdict_eq_false {order : List C} {c1 c2 : C} (known : c1 ∈ order) :
    verdict order c1 c2 = some .returnedFalse ↔ order.idxOf c2 < order.idxOf c1 := by
  unfold verdict
  split_ifs with same ascends
  · exact iff_of_false nofun (by rw [same]; exact lt_irrefl _)
  · exact iff_of_false nofun ascends.asymm
  · have ranks : order.idxOf c1 ≠ order.idxOf c2 := fun equal => same ((List.idxOf_inj known).mp equal)
    exact iff_of_true rfl (by omega)

variable [Hashable C]

/-- The map holds the first position of each letter of the order. -/
def Ranks (order : List C) (letters : Std.HashMap C Int) : Prop :=
  ∀ c ∈ order, letters[c]? = some (order.idxOf c : Int)

/-- The first loop after the letters `front`. -/
structure Filled (front : List C) (letters : Std.HashMap C Int) : Prop where
  ranks : Ranks front letters
  only : ∀ c ∈ letters, c ∈ front

theorem Filled.add {front : List C} {letters : Std.HashMap C Int} (filled : Filled front letters) (c : C) :
    Filled (front ++ [c]) (letters.insertIfNew c front.length) := by
  obtain ⟨ranks, only⟩ := filled
  refine ⟨fun d member => ?_, fun d held => ?_⟩
  · rw [Std.HashMap.getElem?_insertIfNew]
    by_cases old : d ∈ front
    · have held : d ∈ letters := Std.HashMap.mem_iff_isSome_getElem?.mpr (by rw [ranks d old]; rfl)
      have kept : ¬ ((c == d) = true ∧ ¬ c ∈ letters) := fun ⟨same, fresh⟩ => fresh (beq_iff_eq.mp same ▸ held)
      rw [if_neg kept, ranks d old, List.idxOf_append_of_mem old]
    · have same : d = c := List.mem_singleton.mp ((List.mem_append.mp member).resolve_left old)
      subst same
      rw [if_pos ⟨beq_self_eq_true d, fun held => old (only d held)⟩, List.idxOf_append_of_notMem old,
        List.idxOf_cons_self]
      rfl
  · rw [Std.HashMap.mem_insertIfNew] at held
    rcases held with same | held
    · exact List.mem_append_right _ (List.mem_singleton.mpr (beq_iff_eq.mp same).symm)
    · exact List.mem_append_left _ (only d held)

theorem fillLetters_ok (order : List C) : ∃ letters, fillLetters order = .ok letters ∧ Ranks order letters := by
  have loop : ∃ letters, fillLetters order = .ok letters ∧ Filled order letters := by
    refine forUp_elements Filled (fun front c back letters split filled => ?_) ⟨by simp [Ranks], by simp⟩
    have found : slot order front.length = some c := split ▸ slot_append_cons rfl
    exact ⟨_, by simp only [charAt, readOr_of_slot found, ok_bind], filled.add c⟩
  obtain ⟨letters, runs, filled⟩ := loop
  exact ⟨letters, runs, filled.ranks⟩

section Search
variable {order : List C} {letters : Std.HashMap C Int} (ranks : Ranks order letters)
include ranks

theorem compareLetters_ok {char1 char2 : List C} {c1 c2 : C} {k : Int} (first : slot char1 k = some c1)
    (second : slot char2 k = some c2) (known1 : c1 ∈ order) (known2 : c2 ∈ order) :
    compareLetters letters char1 char2 k = .ok (verdict order c1 c2) := by
  simp only [compareLetters, arrayGet_of_slot first, arrayGet_of_slot second, ok_bind, position, ranks c1 known1,
    ranks c2 known2, Int.ofNat_lt, verdict]
  split_ifs <;> rfl

/-- The loop over the letters returns false exactly on words that descend at
their first difference. -/
theorem search_ok {pre word : List C} (known1 : ∀ c ∈ pre, c ∈ order) (known2 : ∀ c ∈ word, c ∈ order) :
    ∃ exit, forSearch 0 (min (pre.length : Int) word.length - 1) (compareLetters letters pre word) = .ok exit ∧
      (exit = some .returnedFalse ↔ Descends order.idxOf pre word) := by
  have letter (k : Int) (lower : 0 ≤ k) (upper : k ≤ min (pre.length : Int) word.length - 1) :
      ∃ c1 c2, slot pre k = some c1 ∧ slot word k = some c2 ∧
        compareLetters letters pre word k = .ok (verdict order c1 c2) := by
    obtain ⟨c1, first⟩ := inBounds_iff_slot.mp (⟨lower, by omega⟩ : InBounds pre k)
    obtain ⟨c2, second⟩ := inBounds_iff_slot.mp (⟨lower, by omega⟩ : InBounds word k)
    exact ⟨c1, c2, first, second, compareLetters_ok ranks first second (known1 c1 (mem_iff_slot.mpr ⟨k, first⟩))
      (known2 c2 (mem_iff_slot.mpr ⟨k, second⟩))⟩
  have runs (k : Int) (lower : 0 ≤ k) (upper : k ≤ min (pre.length : Int) word.length - 1) :
      ∃ exit, compareLetters letters pre word k = .ok exit := by
    obtain ⟨c1, c2, _, _, value⟩ := letter k lower upper
    exact ⟨_, value⟩
  have agrees {k : Int} (lower : 0 ≤ k) (upper : k ≤ min (pre.length : Int) word.length - 1)
      (goes : compareLetters letters pre word k = .ok none) : slot pre k = slot word k := by
    obtain ⟨c1, c2, first, second, value⟩ := letter k lower upper
    rw [goes] at value
    rw [first, second, verdict_eq_none.mp (Except.ok.inj value).symm]
  rcases forSearch_ok runs with ⟨ends, all⟩ | ⟨k, exit, leaves, lower, upper, found, before⟩
  · exact ⟨none, ends, iff_of_false nofun
      (not_descends_of_agree fun k lower upper => agrees lower upper (all k lower upper))⟩
  · obtain ⟨c1, c2, first, second, value⟩ := letter k lower upper
    have outcome : some exit = verdict order c1 c2 := Except.ok.inj (found.symm.trans value)
    have different : c1 ≠ c2 := fun same => by
      rw [verdict_eq_none.mpr same] at outcome
      cases outcome
    refine ⟨some exit, leaves, ?_⟩
    rw [descends_iff_at first second different fun j nonneg inside =>
      agrees nonneg (by omega) (before j nonneg inside),
      ← verdict_eq_false (known1 c1 (mem_iff_slot.mpr ⟨k, first⟩)), outcome]

theorem compareWords_ok {words : List (List C)} {pre word : List C} {i : Int}
    [Decidable (Descends order.idxOf pre word)] (known : ∀ w ∈ words, ∀ c ∈ w, c ∈ order)
    (first : slot words (i - 1) = some pre) (second : slot words i = some word) :
    compareWords letters words i = .ok (if Descends order.idxOf pre word then some false else none) := by
  obtain ⟨exit, runs, descends⟩ := search_ok ranks (known pre (mem_iff_slot.mpr ⟨_, first⟩))
    (known word (mem_iff_slot.mpr ⟨_, second⟩))
  simp only [compareWords, arrayGet_of_slot first, arrayGet_of_slot second, ok_bind, runs, descends]

end Search

/-- The method accepts exactly the arrays in which no word descends to the next. -/
theorem isAlienSorted_ok {words : List (List C)} {order : List C} (known : ∀ w ∈ words, ∀ c ∈ w, c ∈ order) :
    ∃ answer, isAlienSorted words order = .ok answer ∧
      (answer = true ↔ ∀ pre word, Adjacent words pre word → ¬ Descends order.idxOf pre word) := by
  classical
  obtain ⟨letters, fills, ranks⟩ := fillLetters_ok order
  have pair (i : Int) (lower : 1 ≤ i) (upper : i ≤ words.length - 1) :
      ∃ pre word, slot words (i - 1) = some pre ∧ slot words i = some word ∧
        compareWords letters words i = .ok (if Descends order.idxOf pre word then some false else none) := by
    obtain ⟨pre, first⟩ := inBounds_iff_slot.mp (⟨by omega, by omega⟩ : InBounds words (i - 1))
    obtain ⟨word, second⟩ := inBounds_iff_slot.mp (⟨by omega, by omega⟩ : InBounds words i)
    exact ⟨pre, word, first, second, compareWords_ok ranks known first second⟩
  have runs (i : Int) (lower : 1 ≤ i) (upper : i ≤ words.length - 1) :
      ∃ exit, compareWords letters words i = .ok exit := by
    obtain ⟨pre, word, _, _, value⟩ := pair i lower upper
    exact ⟨_, value⟩
  rcases forSearch_ok runs with ⟨ends, all⟩ | ⟨i, exit, leaves, lower, upper, found, _⟩
  · refine ⟨true, by simp only [isAlienSorted, fills, ok_bind, ends]; rfl, iff_of_true rfl ?_⟩
    rintro pre word ⟨i, first, second⟩ descends
    have nonneg := (InBounds.of_slot first).1
    have bound := (InBounds.of_slot second).2
    rw [← Int.add_sub_cancel i 1] at first
    have value := compareWords_ok ranks known first second
    rw [all (i + 1) (by omega) (by omega), if_pos descends] at value
    cases value
  · obtain ⟨pre, word, first, second, value⟩ := pair i lower upper
    rw [found] at value
    by_cases descends : Descends order.idxOf pre word
    · rw [if_pos descends] at value
      cases value
      refine ⟨false, by simp only [isAlienSorted, fills, ok_bind, leaves]; rfl, iff_of_false nofun fun all => ?_⟩
      rw [← Int.sub_add_cancel i 1] at second
      exact all pre word ⟨i - 1, first, second⟩ descends
    · rw [if_neg descends] at value
      cases value

/-- The answer is right exactly when no word is cut short by the next one, or
when another pair is out of order anyway. -/
theorem isAlienSorted_iff (words : List (List C)) (order : List C)
    (known : ∀ w ∈ words, ∀ c ∈ w, c ∈ order) :
    ∃ answer, isAlienSorted words order = .ok answer ∧
      ((answer = true ↔ words.Pairwise (LexLe order.idxOf)) ↔
        (∀ pre word, Adjacent words pre word → ¬ Truncates pre word) ∨
          ∃ pre word, Adjacent words pre word ∧ Descends order.idxOf pre word) := by
  obtain ⟨answer, runs, accepts⟩ := isAlienSorted_ok known
  have transitive : Trans (LexLe order.idxOf) (LexLe order.idxOf) (LexLe order.idxOf) :=
    ⟨fun first second => first.trans second⟩
  have sorted : words.Pairwise (LexLe order.idxOf) ↔ ∀ pre word, Adjacent words pre word →
      ¬ Descends order.idxOf pre word ∧ ¬ Truncates pre word := by
    rw [pairwise_iff_adjacent]
    refine forall_congr' fun pre => forall_congr' fun word => forall_congr' fun adjacent => lexLe_iff ?_
    obtain ⟨i, first, _⟩ := adjacent
    intro c inPre d _ same
    exact (List.idxOf_inj (known pre (mem_iff_slot.mpr ⟨i, first⟩) c inPre)).mp same
  refine ⟨answer, runs, ?_⟩
  rw [accepts, sorted]
  constructor
  · intro agrees
    by_cases ordered : ∀ pre word, Adjacent words pre word → ¬ Descends order.idxOf pre word
    · exact Or.inl fun pre word adjacent => (agrees.mp ordered pre word adjacent).2
    · push Not at ordered
      exact Or.inr ordered
  · rintro (whole | ⟨pre, word, adjacent, descends⟩)
    · exact ⟨fun ordered pre word adjacent => ⟨ordered pre word adjacent, whole pre word adjacent⟩,
        fun ordered pre word adjacent => (ordered pre word adjacent).1⟩
    · exact iff_of_false (fun ordered => ordered pre word adjacent descends)
        fun ordered => (ordered pre word adjacent).1 descends

end Letters

theorem isAlienSorted_iff_reversed :
    ∃ answer, isAlienSorted [['b', 'a'], ['a', 'b']] ['b', 'a'] = .ok answer ∧
      ((answer = true ↔ [['b', 'a'], ['a', 'b']].Pairwise (LexLe ['b', 'a'].idxOf)) ↔
        (∀ pre word, Adjacent [['b', 'a'], ['a', 'b']] pre word → ¬ Truncates pre word) ∨
          ∃ pre word, Adjacent [['b', 'a'], ['a', 'b']] pre word ∧ Descends ['b', 'a'].idxOf pre word) :=
  isAlienSorted_iff [['b', 'a'], ['a', 'b']] ['b', 'a'] (by simp)

/-- A word is accepted before its own proper prefix. -/
theorem isAlienSorted_accepts_truncated :
    isAlienSorted [['a', 'b'], ['a']] ['a', 'b'] = .ok true ∧
      ¬ [['a', 'b'], ['a']].Pairwise (LexLe ['a', 'b'].idxOf) := by
  constructor
  · decide +kernel
  · simp [LexLe]

end BlogAlgorithms.AlienDictionary
