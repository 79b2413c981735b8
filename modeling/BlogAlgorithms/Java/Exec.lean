import Mathlib.Order.Lattice
import Mathlib.Data.Nat.Basic

namespace Java
universe u v

/-- The unchecked exceptions that the modelled methods can end with. -/
inductive Throwable
  | arrayIndexOutOfBounds
  | indexOutOfBounds
  | negativeArraySize
  | nullPointer
  | illegalArgument
  | noSuchElement
  | arithmetic
  deriving DecidableEq, Repr

/-- Why a bounded execution has no value: the program threw, or the bound on
its loop iterations and nested calls was too small to see it end. -/
inductive Halt
  | thrown (exception : Throwable)
  | outOfFuel
  deriving DecidableEq, Repr

abbrev Exec (α : Type u) : Type u := Except Halt α

def throwing {α : Type u} (exception : Throwable) : Exec α := .error (.thrown exception)

@[simp] theorem ok_bind {α β : Type u} (value : α) (next : α → Exec β) :
    ((.ok value : Exec α) >>= next) = next value := rfl

@[simp] theorem error_bind {α β : Type u} (halt : Halt) (next : α → Exec β) :
    ((.error halt : Exec α) >>= next) = .error halt := rfl

theorem bind_eq_ok {α β : Type u} {first : Exec α} {next : α → Exec β} {value : β} :
    (first >>= next) = .ok value ↔ ∃ middle, first = .ok middle ∧ next middle = .ok value := by
  cases first with
  | error halt => simp
  | ok middle => simp

theorem bind_congr_ok {α β : Type u} {first : Exec α} {next other : α → Exec β}
    (same : ∀ middle, first = .ok middle → next middle = other middle) : (first >>= next) = (first >>= other) := by
  cases first with
  | error halt => rfl
  | ok middle => exact same middle rfl

/-- A program runs to its normal end with this value. The bound only has to
be large enough, so this says that the unbounded program terminates. -/
def Returns {α : Type u} (run : Nat → Exec α) (value : α) : Prop :=
  ∃ enough, ∀ fuel, enough ≤ fuel → run fuel = .ok value

/-- Total correctness: the program terminates normally in a value that
satisfies the postcondition. -/
def Ensures {α : Type u} (run : Nat → Exec α) (post : α → Prop) : Prop :=
  ∃ value, Returns run value ∧ post value

theorem Returns.of_eq {α : Type u} {run : Nat → Exec α} {value : α}
    (same : ∀ fuel, run fuel = .ok value) : Returns run value :=
  ⟨0, fun fuel _ => same fuel⟩

theorem Returns.ok {α : Type u} (value : α) : Returns (fun _ => .ok value) value :=
  Returns.of_eq fun _ => rfl

theorem returns_const {α : Type u} {run : Exec α} {value : α} : Returns (fun _ => run) value ↔ run = .ok value := by
  constructor
  · rintro ⟨enough, ends⟩
    exact ends enough le_rfl
  · exact fun same => Returns.of_eq fun _ => same

theorem Returns.unique {α : Type u} {run : Nat → Exec α} {first second : α}
    (left : Returns run first) (right : Returns run second) : first = second := by
  obtain ⟨m, atM⟩ := left
  obtain ⟨n, atN⟩ := right
  have same := (atM (max m n) (le_max_left m n)).symm.trans (atN (max m n) (le_max_right m n))
  exact Except.ok.inj same

/-- The unbounded program ends with an uncaught exception. -/
def Throws {α : Type u} (run : Nat → Exec α) (exception : Throwable) : Prop :=
  ∃ enough, ∀ fuel, enough ≤ fuel → run fuel = throwing exception

theorem Throws.not_returns {α : Type u} {run : Nat → Exec α} {exception : Throwable}
    (throws : Throws run exception) {value : α} (returns : Returns run value) : False := by
  obtain ⟨m, atM⟩ := throws
  obtain ⟨n, atN⟩ := returns
  have same := (atM (max m n) (le_max_left m n)).symm.trans (atN (max m n) (le_max_right m n))
  cases same

theorem Throws.bind {α β : Type u} {first : Nat → Exec α} {exception : Throwable}
    (throws : Throws first exception) (next : Nat → α → Exec β) :
    Throws (fun fuel => first fuel >>= next fuel) exception := by
  obtain ⟨enough, atEnough⟩ := throws
  refine ⟨enough, fun fuel bound => ?_⟩
  simp only [atEnough fuel bound, throwing, error_bind]

theorem Throws.call {α : Type u} {run body : Nat → Exec α} {exception : Throwable}
    (unfolds : ∀ fuel, run (fuel + 1) = body fuel) (throws : Throws body exception) : Throws run exception := by
  obtain ⟨enough, atEnough⟩ := throws
  refine ⟨enough + 1, fun fuel bound => ?_⟩
  obtain ⟨below, rfl⟩ : ∃ below, fuel = below + 1 := ⟨fuel - 1, by omega⟩
  rw [unfolds]
  exact atEnough below (by omega)

theorem Returns.bind {α β : Type u} {first : Nat → Exec α} {next : Nat → α → Exec β}
    {middle : α} {value : β} (left : Returns first middle)
    (right : Returns (fun fuel => next fuel middle) value) :
    Returns (fun fuel => first fuel >>= next fuel) value := by
  obtain ⟨m, atM⟩ := left
  obtain ⟨n, atN⟩ := right
  refine ⟨max m n, fun fuel bound => ?_⟩
  have leftRun := atM fuel ((le_max_left m n).trans bound)
  have rightRun := atN fuel ((le_max_right m n).trans bound)
  simp only [leftRun, ok_bind, rightRun]

/-- Where the first part is known to end, the program ends as the second part does. -/
theorem Returns.of_bind {α β : Type u} {first : Nat → Exec α} {next : Nat → α → Exec β} {middle : α} {value : β}
    (left : Returns first middle) (whole : Returns (fun fuel => first fuel >>= next fuel) value) :
    Returns (fun fuel => next fuel middle) value := by
  obtain ⟨m, atM⟩ := left
  obtain ⟨n, atN⟩ := whole
  refine ⟨max m n, fun fuel bound => ?_⟩
  have wholeRun := atN fuel ((le_max_right m n).trans bound)
  simp only [atM fuel ((le_max_left m n).trans bound), ok_bind] at wholeRun
  exact wholeRun

theorem Returns.bind_throws {α β : Type u} {first : Nat → Exec α} {next : Nat → α → Exec β} {middle : α}
    {exception : Throwable} (left : Returns first middle)
    (right : Throws (fun fuel => next fuel middle) exception) :
    Throws (fun fuel => first fuel >>= next fuel) exception := by
  obtain ⟨m, atM⟩ := left
  obtain ⟨n, atN⟩ := right
  refine ⟨max m n, fun fuel bound => ?_⟩
  have leftRun := atM fuel ((le_max_left m n).trans bound)
  have rightRun := atN fuel ((le_max_right m n).trans bound)
  simp only [leftRun, ok_bind, rightRun]

/-- A nested call runs on one unit of fuel less than its caller. -/
theorem Returns.call {α : Type u} {run : Nat → Exec α} {body : Nat → Exec α} {value : α}
    (unfolds : ∀ fuel, run (fuel + 1) = body fuel) (ends : Returns body value) :
    Returns run value := by
  obtain ⟨enough, atEnough⟩ := ends
  refine ⟨enough + 1, fun fuel bound => ?_⟩
  obtain ⟨below, rfl⟩ : ∃ below, fuel = below + 1 := ⟨fuel - 1, by omega⟩
  rw [unfolds]
  exact atEnough below (by omega)

theorem Returns.congr {α : Type u} {run other : Nat → Exec α} {value : α}
    (same : ∀ fuel, run fuel = other fuel) (ends : Returns other value) : Returns run value := by
  obtain ⟨enough, atEnough⟩ := ends
  exact ⟨enough, fun fuel bound => (same fuel).trans (atEnough fuel bound)⟩

theorem Ensures.bind {α β : Type u} {first : Nat → Exec α} {next : Nat → α → Exec β}
    {middle : α → Prop} {post : β → Prop} (left : Ensures first middle)
    (right : ∀ value, middle value → Ensures (fun fuel => next fuel value) post) :
    Ensures (fun fuel => first fuel >>= next fuel) post := by
  obtain ⟨a, returnsA, atA⟩ := left
  obtain ⟨b, returnsB, atB⟩ := right a atA
  exact ⟨b, returnsA.bind returnsB, atB⟩

theorem Ensures.call {α : Type u} {run : Nat → Exec α} {body : Nat → Exec α} {post : α → Prop}
    (unfolds : ∀ fuel, run (fuel + 1) = body fuel) (ends : Ensures body post) : Ensures run post := by
  obtain ⟨value, returns, holds⟩ := ends
  exact ⟨value, Returns.call unfolds returns, holds⟩

theorem ensures_const {α : Type u} {run : Exec α} {post : α → Prop} :
    Ensures (fun _ => run) post ↔ ∃ value, run = .ok value ∧ post value :=
  exists_congr fun _ => and_congr_left fun _ => returns_const

theorem Ensures.mono {α : Type u} {run : Nat → Exec α} {post weaker : α → Prop}
    (ends : Ensures run post) (weaken : ∀ value, post value → weaker value) :
    Ensures run weaker := by
  obtain ⟨value, returns, holds⟩ := ends
  exact ⟨value, returns, weaken value holds⟩

end Java
