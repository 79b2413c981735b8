import BlogAlgorithms.Redis.DictMap
import Mathlib.Data.Set.Card

namespace BlogAlgorithms.Redis
open C

namespace Dict

/-- The calls a user of a dictionary can make. The server settings are free at
every call, and a table asked for has at most `2 ^ 60` buckets. -/
inductive Op (K V : Type)
  | add (settings : Settings) (key : K) (val : V)
  | replace (settings : Settings) (key : K) (val : V)
  | find (key : K)
  | delete (key : K)
  | rehash (n : Nat)
  | resize (settings : Settings)
  | expand (size : Fin (2 ^ 60 + 1)) (allocates : Bool)
  | pause
  | resume
  | empty

inductive Answer (V : Type)
  | done
  | flag (ok : Bool)
  | value (val : Option V)
  deriving DecidableEq, Repr

section Kept
variable {K V : Type} {hashFunction : K → BitVec 64}

theorem Represents.expanded {d : Dict K V} {map : K → Option V} (represents : d.Represents hashFunction map)
    {size : Nat} {result : Dict K V × Bool} (expanded : Expanded d size result) :
    result.1.Represents hashFunction map ∧ result.1.entries.length = d.entries.length := by
  obtain ⟨valid, same⟩ := expanded.spec represents.valid
  exact ⟨represents.of_perm valid (same ▸ List.Perm.refl _), congrArg List.length same⟩

theorem Valid.with_pause {d : Dict K V} (valid : d.Valid hashFunction) (pauserehash : Int) :
    ({ d with pauserehash := pauserehash } : Dict K V).Valid hashFunction := by
  cases valid with
  | idle notRehashing state => exact .idle notRehashing ⟨state.sound, state.sized, state.second, state.nodup⟩
  | moving idx rehashing below state =>
    exact .moving idx rehashing below
      ⟨state.sound0, state.sound1, state.sized0, state.sized1, state.nodup, state.cleared⟩

theorem fits_dictCreate : (dictCreate : Dict K V).Fits := ⟨Nat.zero_le _, Nat.zero_le _⟩

/-- An insertion makes a rehash step and expands the table if it is full. -/
theorem Valid.inserted_fits {d stepped after : Dict K V} {settings : Settings} (valid : d.Valid hashFunction)
    (steps : d.stepIfRehashing hashFunction = .ok stepped)
    (shape : SameShape (stepped.dictExpandIfNeeded settings).1 after)
    (small : d.entries.length < 2 ^ 60) (fits : d.Fits) : after.Fits := by
  obtain ⟨middle, runs, validStepped, perm, _⟩ := valid.step_spec
  cases Except.ok.inj (runs.symm.trans steps)
  have used := validStepped.used_le
  rw [perm.length_eq] at used
  exact shape.fits (dictExpandIfNeeded_fits settings (by omega) (valid.step_fits steps fits))

end Kept

variable {K V : Type} [DecidableEq K] (hashFunction : K → BitVec 64)

def call (d : Dict K V) : Op K V → Exec (Dict K V × Answer V)
  | .add settings key val => do
    let (after, ok) ← d.dictAdd hashFunction settings key val
    .ok (after, .flag ok)
  | .replace settings key val => do
    let (after, ok) ← d.dictReplace hashFunction settings key val
    .ok (after, .flag ok)
  | .find key => do
    let (after, found) ← d.dictFind hashFunction key
    .ok (after, .value (found.map DictEntry.val))
  | .delete key => do
    let (after, found) ← d.dictGenericDelete hashFunction key
    .ok (after, .value (found.map DictEntry.val))
  | .rehash n => do
    let (after, _) ← d.dictRehash hashFunction n
    .ok (after, .done)
  | .resize settings => .ok ((d.dictResize settings).1, .done)
  | .expand size allocates => .ok ((d.dictExpandWith size allocates).1, .done)
  | .pause => .ok (d.dictPauseRehashing, .done)
  | .resume => .ok (d.dictResumeRehashing, .done)
  | .empty => .ok (d.dictEmpty, .done)

def run (d : Dict K V) : List (Op K V) → Exec (Dict K V × List (Answer V))
  | [] => .ok (d, [])
  | op :: rest => do
    let (next, answer) ← d.call hashFunction op
    let (last, answers) ← next.run rest
    .ok (last, answer :: answers)

/-- What a call means on the map. Rehashing and resizing mean nothing. -/
def Op.spec (map : K → Option V) : Op K V → (K → Option V) × Answer V
  | .add _ key val =>
    (if (map key).isNone then Function.update map key (some val) else map, .flag (map key).isNone)
  | .replace _ key val => (Function.update map key (some val), .flag (map key).isNone)
  | .find key => (map, .value (map key))
  | .delete key => (Function.update map key none, .value (map key))
  | .empty => (fun _ => none, .done)
  | _ => (map, .done)

def specRun (map : K → Option V) : List (Op K V) → (K → Option V) × List (Answer V)
  | [] => (map, [])
  | op :: rest =>
    let (next, answer) := op.spec map
    let (last, answers) := specRun next rest
    (last, answer :: answers)

variable {hashFunction}

/-- Every call succeeds, answers as the map does and adds at most one entry. -/
theorem Represents.call_spec {d : Dict K V} {map : K → Option V} (represents : d.Represents hashFunction map)
    (op : Op K V) (room : d.entries.length < longMax) :
    ∃ after, d.call hashFunction op = .ok (after, (op.spec map).2) ∧ after.Represents hashFunction (op.spec map).1 ∧
      after.entries.length ≤ d.entries.length + 1 ∧ (d.entries.length < 2 ^ 60 → d.Fits → after.Fits) := by
  have used := represents.valid.used_le
  cases op with
  | add settings key val =>
    obtain ⟨after, runs, result, length, stepped, steps, shape⟩ := represents.dictAdd_spec settings key val room
    exact ⟨after, by rw [call, runs]; rfl, result, length, represents.valid.inserted_fits steps shape⟩
  | replace settings key val =>
    obtain ⟨after, runs, result, length, stepped, steps, shape⟩ := represents.dictReplace_spec settings key val room
    exact ⟨after, by rw [call, runs]; rfl, result, length, represents.valid.inserted_fits steps shape⟩
  | find key =>
    obtain ⟨after, found, runs, value, result, length, stepped⟩ := represents.dictFind_spec key
    refine ⟨after, ?_, result, by omega, fun _ fits => ?_⟩
    · rw [call, runs, Op.spec, ← value]
      rfl
    · rcases stepped with ⟨rfl, _⟩ | steps
      · exact fits
      · exact represents.valid.step_fits steps fits
  | delete key =>
    obtain ⟨after, found, runs, value, result, length, stepped⟩ := represents.dictGenericDelete_spec key
    refine ⟨after, ?_, result, by omega, fun _ fits => ?_⟩
    · rw [call, runs, Op.spec, ← value]
      rfl
    · rcases stepped with ⟨rfl, _⟩ | ⟨middle, steps, shape⟩
      · exact fits
      · exact shape.fits (represents.valid.step_fits steps fits)
  | rehash n =>
    obtain ⟨after, more, runs, valid, perm, keeps⟩ := represents.valid.dictRehash_spec n
    have length := perm.length_eq
    exact ⟨after, by rw [call, runs]; rfl, represents.of_perm valid perm, by omega, fun _ => keeps⟩
  | resize settings =>
    have resized : (d.dictResize settings).1.Represents hashFunction map ∧
        (d.dictResize settings).1.entries.length = d.entries.length ∧
        (d.entries.length < 2 ^ 60 → d.Fits → (d.dictResize settings).1.Fits) := by
      rw [dictResize]
      split
      · exact ⟨represents, rfl, fun _ => id⟩
      · have expanded :=
          dictExpandWith_cases d (if d.ht0.used < dictHtInitialSize then dictHtInitialSize else d.ht0.used) true
        obtain ⟨result, length⟩ := represents.expanded expanded
        refine ⟨result, length, fun small => expanded.fits ?_⟩
        rw [dictHtInitialSize]
        split <;> omega
    exact ⟨_, rfl, resized.1, by omega, resized.2.2⟩
  | expand size allocates =>
    have expanded := dictExpandWith_cases d size allocates
    obtain ⟨result, length⟩ := represents.expanded expanded
    exact ⟨_, rfl, result, by omega, fun _ => expanded.fits (by omega)⟩
  | pause =>
    exact ⟨_, rfl, represents.of_perm (represents.valid.with_pause _) (.refl _), Nat.le_succ _, fun _ fits => fits⟩
  | resume =>
    exact ⟨_, rfl, represents.of_perm (represents.valid.with_pause _) (.refl _), Nat.le_succ _, fun _ fits => fits⟩
  | empty => exact ⟨_, rfl, represents_dictCreate, Nat.zero_le _, fun _ _ => fits_dictCreate⟩

theorem Represents.run_spec (ops : List (Op K V)) {d : Dict K V} {map : K → Option V}
    (represents : d.Represents hashFunction map) (room : d.entries.length + ops.length ≤ longMax) :
    ∃ last, d.run hashFunction ops = .ok (last, (specRun map ops).2) ∧
      last.Represents hashFunction (specRun map ops).1 ∧
      last.entries.length ≤ d.entries.length + ops.length ∧
      (d.entries.length + ops.length ≤ 2 ^ 60 → d.Fits → last.Fits) := by
  induction ops generalizing d map with
  | nil => exact ⟨d, rfl, represents, le_rfl, fun _ => id⟩
  | cons op rest ih =>
    rw [List.length_cons] at room
    obtain ⟨next, calls, result, length, keeps⟩ := represents.call_spec op (by omega)
    obtain ⟨last, runs, final, total, keepsRest⟩ := ih result (by omega)
    rw [List.length_cons]
    refine ⟨last, ?_, final, by omega, fun small fits => keepsRest (by omega) (keeps (by omega) fits)⟩
    rw [run, calls]
    simp only [ok_bind, runs, specRun]

/-- The count that the dictionary keeps is the number of keys of the map. -/
theorem Represents.dictSize_eq_ncard {d : Dict K V} {map : K → Option V}
    (represents : d.Represents hashFunction map) : d.dictSize = {key | map key ≠ none}.ncard := by
  have keys : {key | map key ≠ none} = ((d.entries.map DictEntry.key).toFinset : Set K) := by
    ext key
    rw [List.coe_toFinset]
    change map key ≠ none ↔ key ∈ d.entries.map DictEntry.key
    rw [← not_iff_not, not_not, ← represents.absent_iff key]
    simp only [List.mem_map, not_exists, not_and]
  rw [keys, Set.ncard_coe_finset, List.toFinset_card_of_nodup represents.valid.nodup, List.length_map,
    represents.valid.dictSize_eq]

/-- Every run on a new dictionary, with rehash steps, resizes and pauses anywhere
between the other calls, stays inside the tables, answers each call as the map
does and ends with the entries and the count of the map. The bytes of the tables
are counted without a wrap. -/
theorem run_is_map (ops : List (Op K V)) (bounded : ops.length ≤ 2 ^ 60) :
    ∃ last, (dictCreate : Dict K V).run hashFunction ops = .ok (last, (specRun (fun _ => none) ops).2) ∧
      (∀ key val, (⟨key, val⟩ : DictEntry K V) ∈ last.entries ↔ (specRun (fun _ => none) ops).1 key = some val) ∧
      (last.entries.map DictEntry.key).Nodup ∧
        last.dictSize = {key | (specRun (fun _ => none) ops).1 key ≠ none}.ncard ∧
      last.ht0.size * 8 < 2 ^ 64 ∧ last.ht1.size * 8 < 2 ^ 64 := by
  have start : (dictCreate : Dict K V).entries.length + ops.length ≤ 2 ^ 60 := by
    rwa [length_entries_dictCreate, Nat.zero_add]
  have new : (dictCreate : Dict K V).Represents hashFunction fun _ => none := represents_dictCreate
  obtain ⟨last, runs, final, _, fits⟩ := new.run_spec ops (start.trans (by decide))
  obtain ⟨small0, small1⟩ := fits start fits_dictCreate
  exact ⟨last, runs, final.holds, final.valid.nodup, final.dictSize_eq_ncard, by omega, by omega⟩

/-- The fifth key starts a rehash, and the lookup and the deletion after it meet
keys on both sides. -/
theorem run_is_map_growth :
    ∃ last, (dictCreate : Dict Nat Nat).run (BitVec.ofNat 64)
        [.add ⟨true, true⟩ 1 10, .add ⟨true, true⟩ 2 20, .add ⟨true, true⟩ 2 21, .add ⟨true, true⟩ 3 30,
          .add ⟨true, true⟩ 4 40, .add ⟨true, true⟩ 5 50, .find 4, .delete 1, .rehash 1,
          .replace ⟨false, true⟩ 5 51, .find 5] =
      .ok (last, [.flag true, .flag true, .flag false, .flag true, .flag true, .flag true, .value (some 40),
        .value (some 10), .done, .flag false, .value (some 51)]) := by
  obtain ⟨last, runs, _⟩ := @run_is_map Nat Nat _ (BitVec.ofNat 64)
    [.add ⟨true, true⟩ 1 10, .add ⟨true, true⟩ 2 20, .add ⟨true, true⟩ 2 21, .add ⟨true, true⟩ 3 30,
      .add ⟨true, true⟩ 4 40, .add ⟨true, true⟩ 5 50, .find 4, .delete 1, .rehash 1, .replace ⟨false, true⟩ 5 51,
      .find 5]
    (by decide)
  exact ⟨last, runs⟩

end Dict
end BlogAlgorithms.Redis
