import BlogAlgorithms.Redis.DictRuns
import BlogAlgorithms.Redis.DictScanCall

namespace BlogAlgorithms.Redis
open C ReverseCounter

namespace Dict

section Call
variable {K V : Type} {hashFunction : K → BitVec 64}

theorem Represents.scan_spec {d : Dict K V} {map : K → Option V} (represents : d.Represents hashFunction map)
    (v : BitVec 64) :
    ∃ last out, d.dictScan v = .ok (last, out) ∧ (∀ e ∈ out, map e.key = some e.val) ∧
      ∀ key, map key ≠ none → position v ≤ position (hashFunction key) →
        (∃ val, (⟨key, val⟩ : DictEntry K V) ∈ out) ∨
          0 < position last ∧ position last ≤ position (hashFunction key) := by
  by_cases filled : d.entries = []
  · have none : d.dictSize = 0 := by simp [represents.valid.dictSize_eq, filled]
    refine ⟨0#64, [], by rw [dictScan, if_pos none], by simp, fun key present _ => absurd ?_ present⟩
    exact (represents.absent_iff key).mp (by simp [filled])
  · obtain ⟨k, last, out, small, _, runs, scanned⟩ := represents.valid.dictScan_spec filled v
    refine ⟨last, out, runs, fun e member => (represents.holds e.key e.val).mp (scanned.inside e member), ?_⟩
    intro key present ahead
    obtain ⟨val, value⟩ := Option.ne_none_iff_exists'.mp present
    by_cases covered : position (hashFunction key) < (position v / 2 ^ (64 - k) + 1) * 2 ^ (64 - k)
    · exact Or.inl ⟨val, scanned.covers _ ((represents.holds key val).mpr value) ahead covered⟩
    · -- the next block starts at or before the key, so the cursor has not wrapped
      have reached := Nat.not_lt.mp covered
      have before : position last = (position v / 2 ^ (64 - k) + 1) * 2 ^ (64 - k) :=
        scanned.place.trans (Nat.mod_eq_of_lt (lt_of_le_of_lt reached (position_lt _)))
      have positive : 0 < (position v / 2 ^ (64 - k) + 1) * 2 ^ (64 - k) :=
        Nat.mul_pos (Nat.succ_pos _) (Nat.two_pow_pos _)
      rw [← before] at reached positive
      exact Or.inr ⟨positive, reached⟩

end Call

variable {K V : Type} [DecidableEq K] (hashFunction : K → BitVec 64)

/-- The calls of a scan, each after a batch of other operations, with all the
entries they emit. The client hands the cursor of one call to the next. -/
def scanRun (d : Dict K V) (v : BitVec 64) :
    List (List (Op K V)) → Exec (BitVec 64 × List (DictEntry K V) × Dict K V)
  | [] => .ok (v, [], d)
  | ops :: rest => do
    let (d, _) ← d.run hashFunction ops
    let (v, out) ← d.dictScan v
    let (last, later, d) ← d.scanRun v rest
    .ok (last, out ++ later, d)

/-- The contents of the dictionary at each call of the scan. -/
def mapsAt (map : K → Option V) : List (List (Op K V)) → List (K → Option V)
  | [] => []
  | ops :: rest => (specRun map ops).1 :: mapsAt (specRun map ops).1 rest

variable {hashFunction}

theorem Represents.scanRun_spec (batches : List (List (Op K V))) {d : Dict K V} {map : K → Option V}
    (represents : d.Represents hashFunction map) (room : d.entries.length + batches.flatten.length ≤ longMax)
    (v : BitVec 64) :
    ∃ last out after, d.scanRun hashFunction v batches = .ok (last, out, after) ∧
      (∀ e ∈ out, ∃ present ∈ mapsAt map batches, present e.key = some e.val) ∧
      ∀ key, (∀ present ∈ mapsAt map batches, present key ≠ none) → position v ≤ position (hashFunction key) →
        (∃ val, (⟨key, val⟩ : DictEntry K V) ∈ out) ∨ batches = [] ∨ 0 < position last := by
  induction batches generalizing d map v with
  | nil => exact ⟨v, [], d, rfl, by simp, fun _ _ _ => Or.inr (Or.inl rfl)⟩
  | cons ops rest ih =>
    rw [List.flatten_cons, List.length_append] at room
    obtain ⟨middle, runs, result, length, _⟩ := represents.run_spec ops (by omega)
    obtain ⟨next, out, scans, inside, covers⟩ := result.scan_spec v
    obtain ⟨last, later, after, goesOn, laterInside, laterCovers⟩ := ih result (by omega) next
    refine ⟨last, out ++ later, after, ?_, fun e member => ?_, fun key kept ahead => Or.imp_right Or.inr ?_⟩
    · rw [scanRun, runs]
      simp only [ok_bind, scans, goesOn]
    · rcases List.mem_append.mp member with member | member
      · exact ⟨_, List.mem_cons_self, inside e member⟩
      · obtain ⟨present, isMap, value⟩ := laterInside e member
        exact ⟨present, List.mem_cons_of_mem _ isMap, value⟩
    · rcases covers key (kept _ List.mem_cons_self) ahead with ⟨val, member⟩ | ⟨positive, reached⟩
      · exact Or.inl ⟨val, List.mem_append_left _ member⟩
      · rcases laterCovers key (fun present isMap => kept present (List.mem_cons_of_mem _ isMap)) reached with
          ⟨val, member⟩ | rfl | ended
        · exact Or.inl ⟨val, List.mem_append_right _ member⟩
        · obtain ⟨rfl, _⟩ : next = last ∧ [] = later := by
            rw [scanRun] at goesOn
            exact ⟨congrArg Prod.fst (Except.ok.inj goesOn), congrArg (fun r => r.2.1) (Except.ok.inj goesOn)⟩
          exact Or.inr positive
        · exact Or.inr ended

/-- Two keys are there from the first call on. The table grows from four buckets
to eight during the scan, which then still ends after the other calls. -/
def growingScan : List (List (Op Nat Nat)) :=
  [[.add ⟨true, true⟩ 1 10, .add ⟨true, true⟩ 2 20],
    [.add ⟨true, true⟩ 3 30, .add ⟨true, true⟩ 4 40, .add ⟨true, true⟩ 5 50], [.delete 3, .rehash 10],
    [.find 2], [], []]

/-- Calls of a scan of which nothing interrupts the other: each of them emits
one block of the smaller table. -/
theorem Valid.scanRun_unchanged {d : Dict K V} (valid : d.Valid hashFunction) (filled : d.entries ≠ []) {k : Nat}
    (size : d.scanSize = 2 ^ k) (calls : Nat) {i : Nat} {v : BitVec 64} (place : position v = i * 2 ^ (64 - k))
    (within : i + calls ≤ 2 ^ k) :
    ∃ last out, d.scanRun hashFunction v (List.replicate calls []) = .ok (last, out, d) ∧
      position last = (i + calls) * 2 ^ (64 - k) % 2 ^ 64 ∧ out.Nodup ∧
      ∀ e, e ∈ out ↔ e ∈ d.entries ∧ i ≤ keyPosition hashFunction e / 2 ^ (64 - k) ∧
        keyPosition hashFunction e / 2 ^ (64 - k) < i + calls := by
  have unit := Nat.two_pow_pos (64 - k)
  induction calls generalizing i v with
  | zero =>
    refine ⟨v, [], rfl, ?_, List.nodup_nil, fun e => ?_⟩
    · rw [Nat.add_zero, ← place]
      exact (Nat.mod_eq_of_lt (position_lt v)).symm
    · simp only [List.not_mem_nil, false_iff]
      omega
  | succ calls ih =>
    obtain ⟨k', next, out, small, size', scans, scanned⟩ := valid.dictScan_spec filled v
    obtain rfl : k' = k := Nat.pow_right_injective le_rfl (size'.symm.trans size)
    have block : position v / 2 ^ (64 - k') = i := by rw [place, Nat.mul_div_cancel _ unit]
    have inBlock (e : DictEntry K V) :
        e ∈ out ↔ e ∈ d.entries ∧ keyPosition hashFunction e / 2 ^ (64 - k') = i := by
      constructor
      · exact fun member =>
          ⟨scanned.inside e member, (scanned.block (place ▸ Dvd.intro_left i rfl) e member).trans block⟩
      · rintro ⟨member, same⟩
        have split := Nat.div_add_mod (keyPosition hashFunction e) (2 ^ (64 - k'))
        have less := Nat.mod_lt (keyPosition hashFunction e) unit
        rw [same] at split
        refine scanned.covers e member ?_ ?_
        · rw [place, Nat.mul_comm]
          omega
        · rw [block, Nat.add_mul, Nat.one_mul, Nat.mul_comm]
          omega
    have nextPlace := scanned.place
    rw [block] at nextPlace
    have first : d.scanRun hashFunction v (List.replicate (calls + 1) []) =
        (d.scanRun hashFunction next (List.replicate calls []) >>= fun r => .ok (r.1, out ++ r.2.1, r.2.2)) := by
      rw [List.replicate_succ, scanRun, run]
      simp only [ok_bind, scans]
    cases calls with
    | zero =>
      refine ⟨next, out, ?_, nextPlace, scanned.nodup, fun e => ?_⟩
      · rw [first, List.replicate_zero, scanRun]
        simp only [ok_bind, List.append_nil]
      · rw [inBlock e]
        constructor
        · rintro ⟨member, same⟩
          exact ⟨member, by omega, by omega⟩
        · rintro ⟨member, lower, upper⟩
          exact ⟨member, by omega⟩
    | succ calls =>
      have whole : (2 : Nat) ^ 64 = 2 ^ k' * 2 ^ (64 - k') := by
        rw [← pow_add]
        congr 1
        omega
      have inside : (i + 1) * 2 ^ (64 - k') < 2 ^ 64 := by
        rw [whole]
        exact Nat.mul_lt_mul_of_pos_right (by omega) unit
      obtain ⟨last, rest, runs, placeLast, nodupRest, inRest⟩ :=
        @ih (i + 1) next (nextPlace.trans (Nat.mod_eq_of_lt inside)) (by omega)
      refine ⟨last, out ++ rest, ?_, ?_, ?_, fun e => ?_⟩
      · rw [first, runs]
        rfl
      · rw [placeLast, Nat.add_right_comm i 1 (calls + 1), Nat.add_assoc]
      · refine List.nodup_append.mpr ⟨scanned.nodup, nodupRest, fun a first b second eq => ?_⟩
        have here := ((inBlock a).mp first).2
        have there := ((inRest b).mp second).2.1
        rw [eq] at here
        omega
      · rw [List.mem_append, inBlock e, inRest e]
        constructor
        · rintro (⟨member, same⟩ | ⟨member, lower, upper⟩)
          · exact ⟨member, by omega, by omega⟩
          · exact ⟨member, by omega, by omega⟩
        · rintro ⟨member, lower, upper⟩
          rcases lower.lt_or_eq with later | same
          · exact Or.inr ⟨member, later, by omega⟩
          · exact Or.inl ⟨member, same.symm⟩

/-- On a dictionary with entries that does not change, under rehash or not, a scan
takes as many calls as the smaller table has buckets and returns every entry once. -/
theorem dictScan_unchanged (ops : List (Op K V)) (bounded : ops.length ≤ 2 ^ 60) :
    ∃ d answers, (dictCreate : Dict K V).run hashFunction ops = .ok (d, answers) ∧ (d.entries ≠ [] →
      (∃ out, d.scanRun hashFunction 0#64 (List.replicate d.scanSize []) = .ok (0#64, out, d) ∧
        out.Perm d.entries) ∧
      ∀ calls, 0 < calls → calls < d.scanSize →
        ∃ last out, d.scanRun hashFunction 0#64 (List.replicate calls []) = .ok (last, out, d) ∧ last ≠ 0#64) := by
  have new : (dictCreate : Dict K V).Represents hashFunction fun _ => none := represents_dictCreate
  have room : (dictCreate : Dict K V).entries.length + ops.length ≤ longMax := by
    rw [length_entries_dictCreate, Nat.zero_add]
    exact bounded.trans (by decide)
  obtain ⟨d, runs, represents, _⟩ := new.run_spec ops room
  refine ⟨d, _, runs, fun filled => ?_⟩
  have valid := represents.valid
  obtain ⟨k, _, _, small, size, _, _⟩ := valid.dictScan_spec filled 0#64
  have unit := Nat.two_pow_pos (64 - k)
  have whole : (2 : Nat) ^ 64 = 2 ^ k * 2 ^ (64 - k) := by
    rw [← pow_add]
    congr 1
    omega
  have start : position 0#64 = 0 * 2 ^ (64 - k) := by rw [position_zero, Nat.zero_mul]
  constructor
  · obtain ⟨last, out, scans, place, nodup, inside⟩ :=
      valid.scanRun_unchanged filled size (2 ^ k) start (by rw [Nat.zero_add])
    have back : last = 0#64 := by
      refine position_injective ?_
      rw [place, Nat.zero_add, ← whole, Nat.mod_self, position_zero]
    refine ⟨out, by rw [size, scans, back], (List.perm_ext_iff_of_nodup nodup valid.entries_nodup).mpr fun e => ?_⟩
    rw [inside e]
    refine and_iff_left ⟨Nat.zero_le _, ?_⟩
    rw [Nat.zero_add, Nat.div_lt_iff_lt_mul unit, ← whole]
    exact position_lt _
  · intro calls positive fewer
    obtain ⟨last, out, scans, place, _⟩ := valid.scanRun_unchanged filled size calls start (by omega)
    refine ⟨last, out, scans, fun zero => ?_⟩
    have inside : calls * 2 ^ (64 - k) < 2 ^ 64 := by
      rw [whole]
      exact Nat.mul_lt_mul_of_pos_right (by omega) unit
    rw [zero, position_zero, Nat.zero_add, Nat.mod_eq_of_lt inside] at place
    exact absurd place.symm (Nat.mul_pos positive unit).ne'

/-- In the middle of a rehash from four buckets to eight. -/
theorem dictScan_unchanged_five :
    ∃ d answers, (dictCreate : Dict Nat Nat).run (BitVec.ofNat 64)
        [.add ⟨true, true⟩ 1 10, .add ⟨true, true⟩ 2 20, .add ⟨true, true⟩ 3 30, .add ⟨true, true⟩ 4 40,
          .add ⟨true, true⟩ 5 50] = .ok (d, answers) ∧ d.dictIsRehashing = true ∧
      ∃ out, d.scanRun (BitVec.ofNat 64) 0#64 (List.replicate d.scanSize []) = .ok (0#64, out, d) ∧
        out.Perm d.entries := by
  obtain ⟨d, answers, runs, scans⟩ := @dictScan_unchanged Nat Nat _ (BitVec.ofNat 64)
    [.add ⟨true, true⟩ 1 10, .add ⟨true, true⟩ 2 20, .add ⟨true, true⟩ 3 30, .add ⟨true, true⟩ 4 40,
      .add ⟨true, true⟩ 5 50] (by decide)
  have busy : ((dictCreate : Dict Nat Nat).run (BitVec.ofNat 64)
      [.add ⟨true, true⟩ 1 10, .add ⟨true, true⟩ 2 20, .add ⟨true, true⟩ 3 30, .add ⟨true, true⟩ 4 40,
        .add ⟨true, true⟩ 5 50]).map (fun r => (r.1.dictIsRehashing, r.1.entries.length)) = .ok (true, 5) := by
    decide
  rw [runs] at busy
  have both := Except.ok.inj busy
  refine ⟨d, answers, runs, congrArg Prod.fst both, (scans fun none => ?_).1⟩
  have length : d.entries.length = 5 := congrArg Prod.snd both
  rw [none] at length
  exact absurd length (by decide)

end Dict
end BlogAlgorithms.Redis
