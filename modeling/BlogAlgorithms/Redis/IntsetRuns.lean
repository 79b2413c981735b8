import BlogAlgorithms.Redis.IntsetUpdate
import Mathlib.Data.Finset.Sort
import Mathlib.Data.Int.ConditionallyCompleteOrder
import Mathlib.Order.ConditionallyCompleteLattice.Basic

namespace BlogAlgorithms.Redis
open C LittleEndian

namespace Intset

inductive Op
  | add (value : Int)
  | remove (value : Int)
  | find (value : Int)
  | get (pos : Nat)
  | random (rand : Nat)
  | len
  deriving DecidableEq, Repr

inductive Answer
  | flag (yes : Bool)
  | value (value : Option Int)
  | count (count : Nat)
  deriving DecidableEq, Repr

def call (garbage : Nat → UInt8) (is : Intset) : Op → Exec (Intset × Answer)
  | .add value => do
    let (is, added) ← is.intsetAdd garbage value
    .ok (is, .flag added)
  | .remove value => do
    let (is, removed) ← is.intsetRemove garbage value
    .ok (is, .flag removed)
  | .find value => do
    let found ← is.intsetFind value
    .ok (is, .flag found)
  | .get pos => do
    let value ← is.intsetGetChecked pos
    .ok (is, .value value)
  | .random rand => do
    let value ← is.intsetRandom rand
    .ok (is, .value (some value))
  | .len => .ok (is, .count is.length)

/-- The calls in order, each with what its fresh memory happens to hold. -/
def run (is : Intset) : List ((Nat → UInt8) × Op) → Exec (Intset × List Answer)
  | [] => .ok (is, [])
  | (garbage, op) :: rest => do
    let (next, answer) ← is.call garbage op
    let (last, answers) ← next.run rest
    .ok (last, answer :: answers)

/-- The call on a finite set. Only a random element of the empty set is an error. -/
def Op.spec (s : Finset Int) : Op → Exec (Finset Int × Answer)
  | .add value => .ok (insert value s, .flag (value ∉ s))
  | .remove value => .ok (s.erase value, .flag (value ∈ s))
  | .find value => .ok (s, .flag (value ∈ s))
  | .get pos => .ok (s, .value (s.sort (· ≤ ·))[pos]?)
  | .random rand =>
    if s = ∅ then .error .assertion else .ok (s, .value (s.sort (· ≤ ·))[rand % s.card]?)
  | .len => .ok (s, .count s.card)

def specRun (s : Finset Int) : List Op → Exec (Finset Int × List Answer)
  | [] => .ok (s, [])
  | op :: rest => do
    let (next, answer) ← op.spec s
    let (last, answers) ← specRun next rest
    .ok (last, answer :: answers)

/-- The value that a call gives is a 64-bit integer. -/
def Op.Int64 : Op → Prop
  | .add value => Fits 8 value
  | .remove value => Fits 8 value
  | .find value => Fits 8 value
  | _ => True

instance : DecidablePred Op.Int64
  | .add value => inferInstanceAs (Decidable (Fits 8 value))
  | .remove value => inferInstanceAs (Decidable (Fits 8 value))
  | .find value => inferInstanceAs (Decidable (Fits 8 value))
  | .get _ => .isTrue trivial
  | .random _ => .isTrue trivial
  | .len => .isTrue trivial

/-- The two runs fail alike, or give the same answers and the set's elements in order. -/
inductive Agrees {α : Type} : Exec (Intset × α) → Exec (Finset Int × α) → Prop
  | ok {is : Intset} {s : Finset Int} (holds : is.Holds (s.sort (· ≤ ·))) (answer : α) :
    Agrees (.ok (is, answer)) (.ok (s, answer))
  | error (fault : Fault) : Agrees (.error fault) (.error fault)

section Refinement
variable {is : Intset} {s : Finset Int}

theorem sort_eq {vs : List Int} (sorted : vs.Pairwise (· < ·)) (same : ∀ v, v ∈ vs ↔ v ∈ s) :
    s.sort (· ≤ ·) = vs := by
  have isSet : s = vs.toFinset := by
    ext v
    rw [List.mem_toFinset, same v]
  rw [isSet, List.toFinset_sort (· ≤ ·) (sorted.imp ne_of_lt)]
  exact sorted.imp le_of_lt

theorem holds_of_mem {vs : List Int} (holds : is.Holds vs) (same : ∀ v, v ∈ vs ↔ v ∈ s) :
    is.Holds (s.sort (· ≤ ·)) := by
  rwa [sort_eq holds.sorted same]

theorem call_agrees (garbage : Nat → UInt8) (holds : is.Holds (s.sort (· ≤ ·))) (op : Op) (int64 : op.Int64)
    (small : s.card + 1 ≤ maxLength) : Agrees (is.call garbage op) (op.spec s) := by
  have length := Finset.length_sort (s := s) (· ≤ ·)
  have limit := le_intLimit small
  cases op with
  | add value =>
    obtain ⟨is', vs', adds, holds', mem_iff⟩ := add_spec garbage holds int64 (by omega)
    rw [call, adds, ok_bind, Op.spec]
    simp only [Finset.mem_sort] at mem_iff ⊢
    exact .ok (holds_of_mem holds' fun v => by rw [mem_iff, Finset.mem_insert]) _
  | remove value =>
    obtain ⟨is', vs', removes, holds', mem_iff⟩ := remove_spec garbage holds int64 (by omega)
    rw [call, removes, ok_bind, Op.spec]
    simp only [Finset.mem_sort] at mem_iff ⊢
    exact .ok (holds_of_mem holds' fun v => by rw [mem_iff, Finset.mem_erase]) _
  | find value =>
    rw [call, find_spec holds (by omega) int64, ok_bind, Op.spec]
    simp only [Finset.mem_sort]
    exact .ok holds _
  | get pos =>
    rw [call, getChecked_spec holds (by omega), ok_bind, Op.spec]
    exact .ok holds _
  | random rand =>
    rw [call, random_spec holds (by omega), length, Op.spec]
    split
    · rename_i empty
      rw [empty, Finset.sort_empty]
      exact .error _
    · rename_i nonempty
      have inside : rand % s.card < (s.sort (· ≤ ·)).length :=
        lt_of_lt_of_eq (Nat.mod_lt _ (Finset.card_pos.mpr (Finset.nonempty_iff_ne_empty.mpr nonempty))) length.symm
      rw [List.getElem?_eq_getElem inside]
      exact .ok holds _
  | len =>
    rw [call, holds.length, length, Op.spec]
    exact .ok holds _

theorem spec_card {op : Op} {s' : Finset Int} {answer : Answer} (returns : op.spec s = .ok (s', answer)) :
    s'.card ≤ s.card + 1 := by
  cases op with
  | add value => cases returns; exact Finset.card_insert_le ..
  | remove value => cases returns; exact (Finset.card_erase_le).trans (Nat.le_succ _)
  | find value => cases returns; exact Nat.le_succ _
  | get pos => cases returns; exact Nat.le_succ _
  | random rand =>
    rw [Op.spec] at returns
    split at returns
    · cases returns
    · cases returns; exact Nat.le_succ _
  | len => cases returns; exact Nat.le_succ _

theorem Agrees.bind {α β : Type} {x : Exec (Intset × α)} {y : Exec (Finset Int × α)} (agrees : Agrees x y)
    {f : Intset × α → Exec (Intset × β)} {g : Finset Int × α → Exec (Finset Int × β)}
    (rest : ∀ is s answer, y = .ok (s, answer) → is.Holds (s.sort (· ≤ ·)) →
      Agrees (f (is, answer)) (g (s, answer))) :
    Agrees (x >>= f) (y >>= g) := by
  cases agrees with
  | ok holds answer => exact rest _ _ answer rfl holds
  | error fault => exact .error fault

theorem run_agrees_of_holds (calls : List ((Nat → UInt8) × Op)) (holds : is.Holds (s.sort (· ≤ ·)))
    (int64 : ∀ call ∈ calls, call.2.Int64) (small : s.card + calls.length ≤ maxLength) :
    Agrees (is.run calls) (specRun s (calls.map Prod.snd)) := by
  induction calls generalizing is s with
  | nil => exact .ok holds _
  | cons call rest ih =>
    obtain ⟨garbage, op⟩ := call
    rw [List.length_cons] at small
    rw [List.map_cons]
    refine (call_agrees garbage holds op (int64 _ List.mem_cons_self) (by omega)).bind
      fun is' s' answer returns holds' => ?_
    have card := spec_card returns
    have onward := ih holds' (fun call member => int64 call (List.mem_cons_of_mem _ member)) (by omega)
    exact onward.bind fun _ _ answers _ holds'' => .ok holds'' _

end Refinement

/-- Every sequence of calls on a new set, whatever its fresh memory holds, is
answered as a finite set of integers answers it. -/
theorem run_agrees (calls : List ((Nat → UInt8) × Op)) (int64 : ∀ call ∈ calls, call.2.Int64)
    (few : calls.length ≤ maxLength) : Agrees (intsetNew.run calls) (specRun ∅ (calls.map Prod.snd)) :=
  run_agrees_of_holds calls (by rw [Finset.sort_empty]; exact holds_new) int64
    (by rwa [Finset.card_empty, Nat.zero_add])

/-- Two values that widen the records, one at each end, and a removal in between. -/
theorem run_agrees_widening :
    let calls : List ((Nat → UInt8) × Op) :=
      [.add 7, .add 100000, .add (-5000000000), .remove 7, .random 5, .add 100000].map
        fun op => (fun _ => 170, op)
    (intsetNew.run calls).map Prod.snd =
        .ok [.flag true, .flag true, .flag true, .flag true, .value (some 100000), .flag false] ∧
      Agrees (intsetNew.run calls) (specRun ∅ (calls.map Prod.snd)) :=
  ⟨by decide +kernel, run_agrees _ (by decide) (by decide)⟩

end Intset

end BlogAlgorithms.Redis
