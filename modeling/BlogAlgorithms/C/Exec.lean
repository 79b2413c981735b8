import Mathlib.Data.List.Basic

namespace C
universe u

/-- What a run of C code can end in besides a return: an access outside an
object, a failed `assert`, or a loop that is still going when its bound is used up. -/
inductive Fault
  | outOfBounds
  | assertion
  | unbounded
  deriving DecidableEq, Repr

abbrev Exec (α : Type u) : Type u := Except Fault α

@[simp] theorem ok_bind {α β : Type u} (value : α) (next : α → Exec β) :
    ((.ok value : Exec α) >>= next) = next value := rfl

@[simp] theorem error_bind {α β : Type u} (fault : Fault) (next : α → Exec β) :
    ((.error fault : Exec α) >>= next) = .error fault := rfl

theorem bind_eq_ok {α β : Type u} {first : Exec α} {next : α → Exec β} {value : β} :
    (first >>= next) = .ok value ↔ ∃ middle, first = .ok middle ∧ next middle = .ok value := by
  cases first with
  | error fault => rw [error_bind]; simp
  | ok middle => rw [ok_bind]; simp

/-- `a[i]` as a value. -/
def load {α : Type u} (a : List α) (i : Nat) : Exec α :=
  match a[i]? with
  | some x => .ok x
  | none => .error .outOfBounds

theorem load_of_getElem {α : Type u} {a : List α} {i : Nat} {x : α} (here : a[i]? = some x) : load a i = .ok x := by
  rw [load, here]

/-- A step that is taken under a condition only, before the rest. -/
theorem ite_bind {α β : Type} {c : Prop} [Decidable c] (x y : Exec α) (f : α → Exec β) :
    (if c then x >>= f else y >>= f) = (if c then x else y) >>= f := by
  split
  · rfl
  · rfl

end C
