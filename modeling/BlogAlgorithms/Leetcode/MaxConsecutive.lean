import BlogAlgorithms.Java.Array
import BlogAlgorithms.Java.Loop
import Mathlib.Order.Bounds.Basic
import Mathlib.Data.List.Count

namespace BlogAlgorithms.MaxConsecutive
open Java

/-- The variables of `maxConsecutiveChar`. -/
structure Window where
  left : Int
  right : Int
  num : Int
  max : Int

/-- The expression `c != ch ? 1 : 0`. -/
def differs (c ch : Char) : Int := if c ≠ ch then 1 else 0

/-- The test `num > k` of the inner loop. -/
def tooMany (k : Int) (window : Window) : Exec Bool := .ok (window.num > k)

/-- The body of the inner loop, which moves the left border. -/
def shrink (answerKey : List Char) (ch : Char) (window : Window) : Exec Window := do
  let longest := max window.max (window.right - window.left)
  let c ← charAt answerKey window.left
  .ok { window with max := longest, num := window.num - differs c ch, left := window.left + 1 }

/-- The test `right < len` of the outer loop. -/
def unfinished (len : Int) (window : Window) : Exec Bool := .ok (window.right < len)

/-- The body of the outer loop, which moves the right border. -/
def slide (answerKey : List Char) (k : Int) (ch : Char) (fuel : Nat) (window : Window) : Exec Window := do
  let c ← charAt answerKey window.right
  let window ← whileLoop (tooMany k) (fun _ => shrink answerKey ch) fuel
    { window with num := window.num + differs c ch }
  .ok { window with max := max window.max (window.right - window.left + 1), right := window.right + 1 }

def maxConsecutiveChar (fuel : Nat) (answerKey : List Char) (k : Int) (ch : Char) : Exec Int := do
  let len : Int := answerKey.length
  let window ← whileLoop (unfinished len) (slide answerKey k ch) fuel ⟨0, 0, 0, 0⟩
  .ok window.max

def maxConsecutiveAnswers (fuel : Nat) (answerKey : List Char) (k : Int) : Exec Int := do
  let ofT ← maxConsecutiveChar fuel answerKey k 'T'
  let ofF ← maxConsecutiveChar fuel answerKey k 'F'
  .ok (max ofT ofF)

/-- The number of other characters among the first `i`. -/
def foreign (answerKey : List Char) (ch : Char) (i : Int) : Int :=
  (answerKey.take i.toNat).countP (fun c => decide (c ≠ ch))

section
variable {answerKey : List Char} {k : Int} {ch : Char}

theorem foreign_succ (ch : Char) {i : Int} {c : Char} (found : slot answerKey i = some c) :
    foreign answerKey ch (i + 1) = foreign answerKey ch i + differs c ch := by
  obtain ⟨lower, atI⟩ := slot_eq_some.mp found
  have next : (i + 1).toNat = i.toNat + 1 := by omega
  unfold foreign differs
  rw [next, List.take_add_one, atI, List.countP_append, Option.toList_some, List.countP_singleton]
  by_cases other : c = ch
  · simp [other]
  · simp [other]

theorem foreign_mono (answerKey : List Char) (ch : Char) {i j : Int} (ordered : i ≤ j) :
    foreign answerKey ch i ≤ foreign answerKey ch j := by
  have sub : (answerKey.take i.toNat).Sublist (answerKey.take j.toNat) :=
    List.take_sublist_take_left (by omega)
  exact Int.ofNat_le.mpr sub.countP_le

/-- The slots `i` to `j - 1` hold at most `k` other characters. -/
def Allowed (answerKey : List Char) (k : Int) (ch : Char) (i j : Int) : Prop :=
  0 ≤ i ∧ i ≤ j ∧ foreign answerKey ch j - foreign answerKey ch i ≤ k

/-- The largest length of an allowed window among the first `right` slots. -/
structure Best (answerKey : List Char) (k : Int) (ch : Char) (right max : Int) : Prop where
  attained : ∃ i j, j ≤ right ∧ Allowed answerKey k ch i j ∧ j - i = max
  bound : ∀ i j, j ≤ right → Allowed answerKey k ch i j → j - i ≤ max

/-- The outer loop: the window is the longest allowed one that ends at `right`. -/
structure Sliding (answerKey : List Char) (k : Int) (ch : Char) (window : Window) : Prop where
  allowed : Allowed answerKey k ch window.left window.right
  inside : window.right ≤ answerKey.length
  num : window.num = foreign answerKey ch window.right - foreign answerKey ch window.left
  longest : ∀ i, 0 ≤ i → i < window.left →
    k < foreign answerKey ch window.right - foreign answerKey ch i
  best : Best answerKey k ch window.right window.max

/-- The inner loop, with the character at `right` already counted. The maximum
it takes never changes, as the window without that character is allowed. -/
structure Shrinking (answerKey : List Char) (k : Int) (ch : Char) (right : Int) (window : Window) : Prop where
  fixed : window.right = right
  borders : 0 ≤ window.left ∧ window.left ≤ right + 1
  num : window.num = foreign answerKey ch (right + 1) - foreign answerKey ch window.left
  before : foreign answerKey ch right - foreign answerKey ch window.left ≤ k
  longest : ∀ i, 0 ≤ i → i < window.left → k < foreign answerKey ch (right + 1) - foreign answerKey ch i
  best : Best answerKey k ch right window.max

theorem Shrinking.step {right : Int} {window : Window} (nonneg : 0 ≤ k) (inside : right < answerKey.length)
    (state : Shrinking answerKey k ch right window) :
    LoopStep (tooMany k) (fun _ => shrink answerKey ch)
      (Shrinking answerKey k ch right) (fun window => (right + 1 - window.left).toNat) window := by
  obtain ⟨left, right', num, max'⟩ := window
  obtain ⟨fixed, ⟨lower, upper⟩, counts, before, longest, best⟩ := state
  simp only at fixed lower upper counts before longest best
  subst fixed
  refine ⟨⟨_, rfl⟩, fun running => ensures_const.mpr ?_⟩
  have many : num > k := of_decide_eq_true (Except.ok.inj running)
  have within : left ≤ right' := by
    by_contra beyond
    have ends : left = right' + 1 := by omega
    subst ends
    omega
  obtain ⟨c, found⟩ := inBounds_iff_slot.mp (⟨lower, by omega⟩ : InBounds answerKey left)
  have next := foreign_succ ch found
  have shorter := best.bound left right' le_rfl ⟨lower, within, before⟩
  have increasing := foreign_mono answerKey ch (show left ≤ left + 1 by omega)
  refine ⟨⟨left + 1, right', num - differs c ch, max'⟩, ?_, ⟨rfl, ⟨by simp only; omega, by simp only; omega⟩,
    by simp only; omega, by simp only; omega, fun i first last => ?_, best⟩, by simp only; omega⟩
  · simp only [shrink, charAt, readOr_of_slot found, ok_bind, Int.max_eq_left shorter]
  · simp only at last
    by_cases new : i = left
    · subst new
      omega
    · exact longest i first (by omega)

/-- One more slot: the longest allowed window that ends there is the one found. -/
theorem Best.extend {left right max' : Int} (best : Best answerKey k ch right max')
    (allowed : Allowed answerKey k ch left (right + 1))
    (longest : ∀ i, 0 ≤ i → i < left → k < foreign answerKey ch (right + 1) - foreign answerKey ch i) :
    Best answerKey k ch (right + 1) (max max' (right - left + 1)) := by
  obtain ⟨⟨i, j, inside, old, length⟩, bound⟩ := best
  refine ⟨?_, fun p q upper window => ?_⟩
  · rcases le_total max' (right - left + 1) with longer | shorter
    · exact ⟨left, right + 1, le_rfl, allowed, by omega⟩
    · exact ⟨i, j, by omega, old, by omega⟩
  · by_cases new : q = right + 1
    · subst new
      have later : left ≤ p := by
        by_contra earlier
        have many := longest p window.1 (by omega)
        have few := window.2.2
        omega
      omega
    · have old := bound p q (by omega) window
      omega

theorem Sliding.step {window : Window} (nonneg : 0 ≤ k) (state : Sliding answerKey k ch window) :
    LoopStep (unfinished answerKey.length) (slide answerKey k ch)
      (Sliding answerKey k ch) (fun window => (answerKey.length - window.right).toNat) window := by
  obtain ⟨left, right, num, max'⟩ := window
  obtain ⟨⟨lower, ordered, few⟩, inside, counts, longest, best⟩ := state
  simp only at lower ordered few inside counts longest best
  refine ⟨⟨_, rfl⟩, fun running => ?_⟩
  have within : right < answerKey.length := of_decide_eq_true (Except.ok.inj running)
  obtain ⟨c, found⟩ := inBounds_iff_slot.mp (⟨by omega, within⟩ : InBounds answerKey right)
  have next := foreign_succ ch found
  have increasing := foreign_mono answerKey ch (show right ≤ right + 1 by omega)
  have start : Shrinking answerKey k ch right ⟨left, right, num + differs c ch, max'⟩ :=
    ⟨rfl, ⟨lower, by simp only; omega⟩, by simp only; omega, few,
      fun i first last => by have := longest i first last; omega, best⟩
  have loop := whileLoop_ensures _ _ (fun _ state => Shrinking.step nonneg within state) start
  simp only [slide, charAt, readOr_of_slot found, ok_bind]
  refine loop.bind fun final ⟨state, stopped⟩ => ensures_const.mpr ⟨_, rfl, ?_⟩
  obtain ⟨left', right', num', max''⟩ := final
  obtain ⟨fixed, ⟨lower', upper'⟩, counts', _, longest', best'⟩ := state
  simp only at fixed lower' upper' counts' longest' best' stopped ⊢
  have enough : ¬ num' > k := of_decide_eq_false (Except.ok.inj stopped)
  subst fixed
  have allowed : Allowed answerKey k ch left' (right' + 1) := ⟨lower', upper', by omega⟩
  exact ⟨⟨allowed, by simp only; omega, counts', longest', best'.extend allowed longest'⟩, by omega⟩

theorem maxConsecutiveChar_ensures (answerKey : List Char) (ch : Char) (nonneg : 0 ≤ k) :
    Ensures (fun fuel => maxConsecutiveChar fuel answerKey k ch) (Best answerKey k ch answerKey.length) := by
  have empty : Allowed answerKey k ch 0 0 := ⟨le_rfl, le_rfl, by omega⟩
  have start : Sliding answerKey k ch ⟨0, 0, 0, 0⟩ := by
    refine ⟨empty, by simp, by simp, fun i first last => by simp only at last; omega,
      ⟨⟨0, 0, le_rfl, empty, rfl⟩, fun i j upper window => ?_⟩⟩
    have lower := window.1
    simp only at upper ⊢
    omega
  have loop := whileLoop_ensures _ _ (fun _ state => Sliding.step nonneg state) start
  refine loop.bind fun final ⟨state, stopped⟩ => ensures_const.mpr ⟨final.max, rfl, ?_⟩
  have done : ¬ final.right < answerKey.length := of_decide_eq_false (Except.ok.inj stopped)
  have atEnd : final.right = answerKey.length := by
    have inside := state.inside
    omega
  exact atEnd ▸ state.best

end

/-- The number of positions at which two strings differ. -/
def changes (answerKey changed : List Char) : Nat :=
  (answerKey.zip changed).countP fun (old, new) => decide (old ≠ new)

/-- The string holds so many equal characters in a row. -/
def HasRun (s : List Char) (n : Int) : Prop := ∃ (count : Nat) (c : Char), n = count ∧ List.replicate count c <:+: s

/-- The string is the answer key with at most `k` answers changed. -/
structure Changed (answerKey : List Char) (k : Int) (changed : List Char) : Prop where
  length : changed.length = answerKey.length
  answers : ∀ c ∈ changed, c = 'T' ∨ c = 'F'
  few : changes answerKey changed ≤ k

theorem foreign_window (front middle back : List Char) (ch : Char) :
    foreign (front ++ (middle ++ back)) ch (front.length + middle.length) -
      foreign (front ++ (middle ++ back)) ch front.length = middle.countP (fun c => decide (c ≠ ch)) := by
  have both : ((front.length : Int) + middle.length).toNat = (front ++ middle).length := by
    rw [List.length_append]
    omega
  unfold foreign
  rw [both, Int.toNat_natCast, ← List.append_assoc, List.take_left, List.append_assoc, List.take_left,
    List.countP_append]
  omega

theorem changes_append {a b c d : List Char} (lengths : a.length = c.length) :
    changes (a ++ b) (c ++ d) = changes a c + changes b d := by
  rw [changes, List.zip_append lengths, List.countP_append]
  rfl

theorem changes_self (a : List Char) : changes a a = 0 := by
  induction a with
  | nil => rfl
  | cons c a ih => simpa [changes] using ih

theorem changes_replicate (a : List Char) (ch : Char) :
    changes a (List.replicate a.length ch) = a.countP (fun c => decide (c ≠ ch)) := by
  induction a with
  | nil => rfl
  | cons c a ih =>
    rw [List.length_cons, List.replicate_succ, List.countP_cons, ← ih, changes, List.zip_cons_cons,
      List.countP_cons]
    rfl

theorem split_window {a : List Char} {i j : Int} (lower : 0 ≤ i) (ordered : i ≤ j) (upper : j ≤ a.length) :
    ∃ front middle back : List Char, a = front ++ (middle ++ back) ∧ i = front.length ∧
      j = front.length + middle.length := by
  refine ⟨a.take i.toNat, (a.drop i.toNat).take (j - i).toNat, (a.drop i.toNat).drop (j - i).toNat, ?_, ?_, ?_⟩
  · rw [List.take_append_drop, List.take_append_drop]
  · rw [List.length_take]
    omega
  · rw [List.length_take, List.length_take, List.length_drop]
    omega

/-- Filling an allowed window gives a run of its length. -/
theorem Allowed.run {answerKey : List Char} {k : Int} {ch : Char} {i j : Int}
    (answers : ∀ c ∈ answerKey, c = 'T' ∨ c = 'F') (answer : ch = 'T' ∨ ch = 'F')
    (allowed : Allowed answerKey k ch i j) (upper : j ≤ answerKey.length) :
    ∃ changed, Changed answerKey k changed ∧ HasRun changed (j - i) := by
  obtain ⟨lower, ordered, few⟩ := allowed
  obtain ⟨front, middle, back, rfl, rfl, rfl⟩ := split_window lower ordered upper
  rw [foreign_window] at few
  refine ⟨front ++ (List.replicate middle.length ch ++ back), ⟨by simp, fun c member => ?_, ?_⟩,
    middle.length, ch, by omega, front, back, by simp⟩
  · rcases List.mem_append.mp member with inFront | inRest
    · exact answers c (List.mem_append_left _ inFront)
    · rcases List.mem_append.mp inRest with filled | inBack
      · exact List.eq_of_mem_replicate filled ▸ answer
      · exact answers c (List.mem_append_right _ (List.mem_append_right _ inBack))
  · rw [changes_append rfl, changes_append (by simp), changes_self, changes_self, changes_replicate]
    omega

/-- A run of a changed string was an allowed window. -/
theorem Changed.window {answerKey changed : List Char} {k n : Int} (nonneg : 0 ≤ k)
    (state : Changed answerKey k changed) (run : HasRun changed n) :
    ∃ ch, (ch = 'T' ∨ ch = 'F') ∧ ∃ i j : Int, j ≤ answerKey.length ∧ Allowed answerKey k ch i j ∧ j - i = n := by
  obtain ⟨length, answers, few⟩ := state
  obtain ⟨count, c, rfl, before, after, whole⟩ := run
  cases count with
  | zero => exact ⟨'T', Or.inl rfl, 0, 0, by omega, ⟨le_rfl, le_rfl, by omega⟩, rfl⟩
  | succ count =>
    subst whole
    simp only [List.length_append, List.length_replicate] at length
    have ordered : (before.length : Int) ≤ before.length + (count + 1 : Nat) := by omega
    obtain ⟨front, middle, back, rfl, atFront, atMiddle⟩ :=
      split_window (Int.natCast_nonneg _) ordered (show _ ≤ (answerKey.length : Int) by omega)
    have frontLength : front.length = before.length := by omega
    have middleLength : middle.length = count + 1 := by omega
    rw [List.append_assoc, changes_append frontLength, ← middleLength, changes_append (by simp),
      changes_replicate] at few
    refine ⟨c, answers c (by simp), front.length, front.length + middle.length, ?_,
      ⟨by omega, by omega, ?_⟩, by omega⟩
    · simp only [List.length_append]
      omega
    · rw [foreign_window]
      omega

/-- The result is the length of the longest run that at most `k` changes of
answers can produce. -/
theorem maxConsecutiveAnswers_greatest (answerKey : List Char) (k : Int)
    (answers : ∀ c ∈ answerKey, c = 'T' ∨ c = 'F') (nonneg : 0 ≤ k) :
    Ensures (fun fuel => maxConsecutiveAnswers fuel answerKey k) fun result =>
      IsGreatest {n | ∃ changed, Changed answerKey k changed ∧ IsGreatest {m | HasRun changed m} n} result := by
  refine (maxConsecutiveChar_ensures answerKey 'T' nonneg).bind fun ofT bestT => ?_
  refine (maxConsecutiveChar_ensures answerKey 'F' nonneg).bind fun ofF bestF => ?_
  have bound {changed : List Char} {n : Int} (state : Changed answerKey k changed) (run : HasRun changed n) :
      n ≤ max ofT ofF := by
    obtain ⟨ch, answer, i, j, upper, allowed, rfl⟩ := state.window nonneg run
    rcases answer with rfl | rfl
    · exact (bestT.bound i j upper allowed).trans (le_max_left _ _)
    · exact (bestF.bound i j upper allowed).trans (le_max_right _ _)
  have attained : ∃ changed, Changed answerKey k changed ∧ HasRun changed (max ofT ofF) := by
    rcases le_total ofT ofF with more | fewer
    · obtain ⟨i, j, upper, allowed, length⟩ := bestF.attained
      rw [max_eq_right more, ← length]
      exact allowed.run answers (Or.inr rfl) upper
    · obtain ⟨i, j, upper, allowed, length⟩ := bestT.attained
      rw [max_eq_left fewer, ← length]
      exact allowed.run answers (Or.inl rfl) upper
  obtain ⟨changed, state, run⟩ := attained
  refine ensures_const.mpr ⟨max ofT ofF, rfl, ⟨changed, state, run, fun m other => bound state other⟩, ?_⟩
  rintro n ⟨other, state, run, _⟩
  exact bound state run

theorem maxConsecutiveAnswers_main :
    Ensures (fun fuel => maxConsecutiveAnswers fuel "TTFTTFTT".toList 1) fun result =>
      IsGreatest {n | ∃ changed, Changed "TTFTTFTT".toList 1 changed ∧
        IsGreatest {m | HasRun changed m} n} result :=
  maxConsecutiveAnswers_greatest "TTFTTFTT".toList 1 (by simp) (by decide)

end BlogAlgorithms.MaxConsecutive
