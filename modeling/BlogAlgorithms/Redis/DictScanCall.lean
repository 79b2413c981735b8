import BlogAlgorithms.Redis.DictMap
import BlogAlgorithms.Redis.DictScan
import Mathlib.Data.List.Nodup

namespace BlogAlgorithms.Redis
open C ReverseCounter

/-- The place of a key in the order of the cursor. -/
def keyPosition {K V : Type} (hashFunction : K → BitVec 64) (e : DictEntry K V) : Nat :=
  position (hashFunction e.key)

namespace Dictht
variable {K V : Type} {hashFunction : K → BitVec 64} {k : Nat}

theorem mask_eq {ht : Dictht K V} (size : ht.size = 2 ^ k) : ht.mask = BitVec.ofNat 64 (2 ^ k - 1) := by
  rw [mask, sizemask, size]

/-- A call emits the entries whose places lie in the cursor's block. -/
theorem Sound.emit_spec {ht : Dictht K V} (sound : ht.Sound hashFunction) (size : ht.size = 2 ^ k) (small : k ≤ 63)
    (v : BitVec 64) :
    ∃ chain, ht.emit v = .ok chain ∧ chain.Sublist ht.entries ∧
      ∀ e, e ∈ chain ↔ e ∈ ht.entries ∧ keyPosition hashFunction e / 2 ^ (64 - k) = position v / 2 ^ (64 - k) := by
  have limit : 2 ^ k - 1 < 2 ^ 64 := by
    have le := Nat.pow_le_pow_right (show 0 < 2 by omega) (show k ≤ 64 by omega)
    omega
  have index : (v &&& ht.mask).toNat = v.toNat % 2 ^ k := by
    rw [mask_eq size, BitVec.toNat_and, BitVec.toNat_ofNat, Nat.mod_eq_of_lt limit, Nat.and_two_pow_sub_one_eq_mod]
  have bucket_eq (hash : BitVec 64) : ht.bucket hash = hash.toNat % 2 ^ k := by
    rw [bucket, sizemask, size, Nat.and_two_pow_sub_one_eq_mod]
  obtain ⟨chain, here⟩ : ∃ chain, ht.table[v.toNat % 2 ^ k]? = some chain :=
    ⟨_, List.getElem?_eq_getElem (lt_of_lt_of_eq (Nat.mod_lt _ (Nat.two_pow_pos k)) size.symm)⟩
  refine ⟨chain, by rw [emit, index, load_of_getElem here], List.sublist_flatten_of_mem (List.mem_of_getElem? here),
    ?_⟩
  intro e
  rw [keyPosition, ← mod_eq_iff (by omega), ← bucket_eq]
  constructor
  · exact fun member =>
      ⟨List.mem_flatten.mpr ⟨chain, List.mem_of_getElem? here, member⟩, sound.chain_bucket here e member⟩
  · rintro ⟨member, same⟩
    exact (sound.placed.mem_flatten_iff (by rw [same]; exact here)).mp member

theorem position_bump {ht : Dictht K V} (size : ht.size = 2 ^ k) (small : k ≤ 63) (v : BitVec 64) :
    position (bumpCursor ht.mask v) = (position v / 2 ^ (64 - k) + 1) * 2 ^ (64 - k) % 2 ^ 64 := by
  rw [bumpCursor_eq, mask_eq size, position_next (by omega)]

/-- The loop visits the blocks of the larger table from the cursor's on to the
end of the block of the smaller table. Blocks are counted in the units of the larger one. -/
theorem Sound.scanExpansions_spec {t1 : Dictht K V} (sound : t1.Sound hashFunction) {k0 k1 : Nat}
    (size : t1.size = 2 ^ k1) (le : k0 ≤ k1) (small : k1 ≤ 63) (fuel : Nat) {v : BitVec 64} {f : Nat}
    (cursor : position v / 2 ^ (64 - k1) = f) (enough : (f / 2 ^ (k1 - k0) + 1) * 2 ^ (k1 - k0) - f ≤ fuel) :
    ∃ last out, t1.scanExpansions (BitVec.ofNat 64 (2 ^ k0 - 1)) fuel v = .ok (last, out) ∧
      position last = (f / 2 ^ (k1 - k0) + 1) * 2 ^ (k1 - k0) * 2 ^ (64 - k1) % 2 ^ 64 ∧
      (∀ e, e ∈ out ↔ e ∈ t1.entries ∧ f ≤ keyPosition hashFunction e / 2 ^ (64 - k1) ∧
        keyPosition hashFunction e / 2 ^ (64 - k1) < (f / 2 ^ (k1 - k0) + 1) * 2 ^ (k1 - k0)) ∧
      (t1.entries.Nodup → out.Nodup) := by
  have ratio := Nat.two_pow_pos (k1 - k0)
  have unit := Nat.two_pow_pos (64 - k1)
  have product : 2 ^ (64 - k0) = 2 ^ (k1 - k0) * 2 ^ (64 - k1) := by
    rw [← pow_add]
    congr 1
    omega
  have whole : (2 : Nat) ^ 64 = 2 ^ k0 * (2 ^ (k1 - k0) * 2 ^ (64 - k1)) := by
    rw [← product, ← pow_add]
    congr 1
    omega
  have below : f < 2 ^ k0 * 2 ^ (k1 - k0) := by
    rw [← cursor, Nat.div_lt_iff_lt_mul unit, Nat.mul_assoc, ← whole]
    exact position_lt v
  generalize rangeEq : 2 ^ (k1 - k0) = r at *
  generalize unitEq : 2 ^ (64 - k1) = b at *
  induction fuel generalizing v f with
  | zero =>
    have divided := Nat.lt_div_mul_add (a := f) ratio
    rw [Nat.add_mul, Nat.one_mul] at enough
    omega
  | succ fuel ih =>
    obtain ⟨chain, emits, sublist, inChain⟩ := sound.emit_spec size small v
    rw [unitEq] at inChain
    have placeNext : position (bumpCursor t1.mask v) = (f + 1) * b % 2 ^ 64 := by
      rw [position_bump size small, unitEq, cursor]
    have aligned : 2 ^ (64 - k1) ∣ position (bumpCursor t1.mask v) := by
      rw [placeNext, unitEq, Nat.dvd_mod_iff (whole ▸ Dvd.intro_left (2 ^ k0 * r) (Nat.mul_assoc _ _ _))]
      exact Dvd.intro_left (f + 1) rfl
    have test : bumpCursor t1.mask v &&& (BitVec.ofNat 64 (2 ^ k0 - 1) ^^^ t1.mask) = 0#64 ↔
        r * b ∣ position (bumpCursor t1.mask v) := by
      rw [← product, ← and_masks_eq_zero_iff le (by omega) aligned, mask_eq size]
    rw [scanExpansions, emits]
    simp only [ok_bind]
    by_cases boundary : r ∣ f + 1
    · -- the carry leaves the block of the smaller table
      have upper : (f / r + 1) * r = f + 1 := by
        rw [← Nat.succ_div_of_dvd boundary, Nat.div_mul_cancel boundary]
      have ends : r * b ∣ position (bumpCursor t1.mask v) := by
        rw [placeNext, Nat.dvd_mod_iff (whole ▸ Dvd.intro_left (2 ^ k0) rfl)]
        exact Nat.mul_dvd_mul_right boundary b
      rw [if_pos (test.mpr ends), upper]
      refine ⟨_, chain, rfl, placeNext, fun e => ?_, fun nodup => nodup.sublist sublist⟩
      rw [inChain e, cursor]
      constructor
      · rintro ⟨member, same⟩
        exact ⟨member, by omega, by omega⟩
      · rintro ⟨member, lower, less⟩
        exact ⟨member, by omega⟩
    · have same : (f + 1) / r = f / r := Nat.succ_div_of_not_dvd boundary
      have further : f + 1 < 2 ^ k0 * r := by
        refine lt_of_le_of_ne below fun eq => boundary ?_
        rw [eq]
        exact Dvd.intro_left (2 ^ k0) rfl
      have inside : (f + 1) * b < 2 ^ 64 := by
        rw [whole, ← Nat.mul_assoc]
        exact Nat.mul_lt_mul_of_pos_right further unit
      have place : position (bumpCursor t1.mask v) = (f + 1) * b := placeNext.trans (Nat.mod_eq_of_lt inside)
      have goesOn : ¬ r * b ∣ position (bumpCursor t1.mask v) := by
        rw [place]
        exact fun divides => boundary (Nat.dvd_of_mul_dvd_mul_right unit divides)
      obtain ⟨last, rest, runs, placeLast, inRest, nodupRest⟩ :=
        @ih (bumpCursor t1.mask v) (f + 1) (by rw [same]; omega) further (by rw [place, Nat.mul_div_cancel _ unit])
      rw [same] at placeLast inRest
      rw [if_neg (fun clear => goesOn (test.mp clear)), runs]
      refine ⟨last, chain ++ rest, rfl, placeLast, fun e => ?_, fun nodup => ?_⟩
      · rw [List.mem_append, inChain e, inRest e, cursor]
        have inBlock := Nat.lt_div_mul_add (a := f) ratio
        rw [Nat.add_mul, Nat.one_mul]
        constructor
        · rintro (⟨member, eq⟩ | ⟨member, lower, upper⟩)
          · exact ⟨member, by omega, by omega⟩
          · exact ⟨member, by omega, by omega⟩
        · rintro ⟨member, lower, upper⟩
          rcases lower.lt_or_eq with later | eq
          · exact Or.inr ⟨member, later, upper⟩
          · exact Or.inl ⟨member, eq.symm⟩
      · refine List.nodup_append.mpr ⟨nodup.sublist sublist, nodupRest nodup, fun a inFirst b inSecond eq => ?_⟩
        have first := ((inChain a).mp inFirst).2
        have second := ((inRest b).mp inSecond).2.1
        rw [eq] at first
        omega

/-- A call on a small and a large table: with `b` the block of the small one, it
emits every entry from the cursor up to the end of the cursor's block. -/
theorem Sound.scanTables_spec {t0 t1 : Dictht K V} (sound0 : t0.Sound hashFunction) (sound1 : t1.Sound hashFunction)
    {k0 k1 : Nat} (size0 : t0.size = 2 ^ k0) (size1 : t1.size = 2 ^ k1) (le : k0 ≤ k1) (small : k1 ≤ 63)
    (v : BitVec 64) :
    ∃ chain last rest, t0.emit v = .ok chain ∧ t1.scanExpansions t0.mask t1.size v = .ok (last, rest) ∧
      position last = (position v / 2 ^ (64 - k0) + 1) * 2 ^ (64 - k0) % 2 ^ 64 ∧
      (∀ e ∈ chain, e ∈ t0.entries ∧ keyPosition hashFunction e / 2 ^ (64 - k0) = position v / 2 ^ (64 - k0)) ∧
      (∀ e ∈ rest, e ∈ t1.entries) ∧
      (∀ e, position v ≤ keyPosition hashFunction e →
        keyPosition hashFunction e < (position v / 2 ^ (64 - k0) + 1) * 2 ^ (64 - k0) →
        (e ∈ t0.entries → e ∈ chain) ∧ (e ∈ t1.entries → e ∈ rest)) ∧
      (t0.entries.Nodup → chain.Nodup) ∧ (t1.entries.Nodup → rest.Nodup) ∧
      (2 ^ (64 - k0) ∣ position v →
        ∀ e ∈ rest, keyPosition hashFunction e / 2 ^ (64 - k0) = position v / 2 ^ (64 - k0)) := by
  obtain ⟨chain, emits, sublist, inChain⟩ := sound0.emit_spec size0 (by omega) v
  have unit := Nat.two_pow_pos (64 - k1)
  have ratio := Nat.two_pow_pos (k1 - k0)
  have product : 2 ^ (64 - k0) = 2 ^ (k1 - k0) * 2 ^ (64 - k1) := by
    rw [← pow_add]
    congr 1
    omega
  have coarse (n : Nat) : n / 2 ^ (64 - k1) / 2 ^ (k1 - k0) = n / 2 ^ (64 - k0) := by
    rw [Nat.div_div_eq_div_mul, product, Nat.mul_comm]
  have enough :
      (position v / 2 ^ (64 - k1) / 2 ^ (k1 - k0) + 1) * 2 ^ (k1 - k0) - position v / 2 ^ (64 - k1) ≤ t1.size := by
    have reach := Nat.div_mul_le_self (position v / 2 ^ (64 - k1)) (2 ^ (k1 - k0))
    have step := Nat.pow_le_pow_right (show 0 < 2 by omega) (show k1 - k0 ≤ k1 by omega)
    rw [Nat.add_mul, Nat.one_mul, size1]
    omega
  obtain ⟨last, rest, runs, place, inRest, nodupRest⟩ :=
    sound1.scanExpansions_spec size1 le small t1.size rfl enough
  rw [coarse, Nat.mul_assoc, ← product] at place
  refine ⟨chain, last, rest, emits, by rw [mask_eq size0]; exact runs, place, fun e member => (inChain e).mp member,
    fun e member => ((inRest e).mp member).1, fun e lower upper => ⟨fun member => ?_, fun member => ?_⟩,
    fun nodup => nodup.sublist sublist, nodupRest, fun start e member => ?_⟩
  · refine (inChain e).mpr ⟨member, ?_⟩
    have below : keyPosition hashFunction e / 2 ^ (64 - k0) < position v / 2 ^ (64 - k0) + 1 :=
      Nat.div_lt_of_lt_mul (by rwa [Nat.mul_comm])
    have above := Nat.div_le_div_right (c := 2 ^ (64 - k0)) lower
    omega
  · refine (inRest e).mpr ⟨member, Nat.div_le_div_right lower, ?_⟩
    rw [coarse, Nat.div_lt_iff_lt_mul unit, Nat.mul_assoc, ← product]
    exact upper
  · obtain ⟨_, lower, upper⟩ := (inRest e).mp member
    rw [← coarse (keyPosition hashFunction e), ← coarse (position v)]
    have full : position v / 2 ^ (64 - k1) / 2 ^ (k1 - k0) * 2 ^ (k1 - k0) = position v / 2 ^ (64 - k1) := by
      refine Nat.div_mul_cancel ?_
      obtain ⟨q, eq⟩ := start
      rw [eq, product, Nat.mul_right_comm, Nat.mul_div_cancel _ unit]
      exact Dvd.intro q rfl
    have low :
        position v / 2 ^ (64 - k1) / 2 ^ (k1 - k0) ≤ keyPosition hashFunction e / 2 ^ (64 - k1) / 2 ^ (k1 - k0) :=
      Nat.div_le_div_right lower
    have high : keyPosition hashFunction e / 2 ^ (64 - k1) / 2 ^ (k1 - k0) <
        position v / 2 ^ (64 - k1) / 2 ^ (k1 - k0) + 1 :=
      Nat.div_lt_of_lt_mul (by rwa [Nat.mul_comm])
    omega

end Dictht

namespace Dict
variable {K V : Type} {hashFunction : K → BitVec 64}

/-- The size of the table the cursor steps through. -/
def scanSize (d : Dict K V) : Nat := if d.dictIsRehashing then min d.ht0.size d.ht1.size else d.ht0.size

/-- What one call of `dictScan` emits, `b` being the block of its cursor. -/
structure Scanned (hashFunction : K → BitVec 64) (d : Dict K V) (v : BitVec 64) (b : Nat) (last : BitVec 64)
    (out : List (DictEntry K V)) : Prop where
  place : position last = (position v / b + 1) * b % 2 ^ 64
  inside : ∀ e ∈ out, e ∈ d.entries
  covers : ∀ e ∈ d.entries, position v ≤ keyPosition hashFunction e →
    keyPosition hashFunction e < (position v / b + 1) * b → e ∈ out
  nodup : out.Nodup
  block : b ∣ position v → ∀ e ∈ out, keyPosition hashFunction e / b = position v / b

theorem Valid.entries_nodup {d : Dict K V} (valid : d.Valid hashFunction) : d.entries.Nodup :=
  List.Nodup.of_map DictEntry.key valid.nodup

/-- Both tables of a rehash are scanned in one call, the smaller one first. -/
theorem scanned_of_tables {d : Dict K V} {t0 t1 : Dictht K V} (perm : d.entries.Perm (t0.entries ++ t1.entries))
    (distinct : d.entries.Nodup) (sound0 : t0.Sound hashFunction) (sound1 : t1.Sound hashFunction) {k0 k1 : Nat}
    (size0 : t0.size = 2 ^ k0) (size1 : t1.size = 2 ^ k1) (le : k0 ≤ k1) (small : k1 ≤ 63) (v : BitVec 64) :
    ∃ chain last rest, t0.emit v = .ok chain ∧ t1.scanExpansions t0.mask t1.size v = .ok (last, rest) ∧
      Scanned hashFunction d v (2 ^ (64 - k0)) last (chain ++ rest) := by
  obtain ⟨chain, last, rest, emits, runs, place, inChain, inRest, covers, nodup0, nodup1, block⟩ :=
    sound0.scanTables_spec sound1 size0 size1 le small v
  obtain ⟨distinct0, distinct1, apart⟩ := List.nodup_append.mp (perm.nodup_iff.mp distinct)
  refine ⟨chain, last, rest, emits, runs, place, fun e member => perm.mem_iff.mpr ?_,
    fun e member lower upper => ?_, ?_, fun start e member => ?_⟩
  · rcases List.mem_append.mp member with member | member
    · exact List.mem_append_left _ (inChain e member).1
    · exact List.mem_append_right _ (inRest e member)
  · rcases List.mem_append.mp (perm.mem_iff.mp member) with member | member
    · exact List.mem_append_left _ ((covers e lower upper).1 member)
    · exact List.mem_append_right _ ((covers e lower upper).2 member)
  · exact List.nodup_append.mpr ⟨nodup0 distinct0, nodup1 distinct1,
      fun a first b second => apart a (inChain a first).1 b (inRest b second)⟩
  · rcases List.mem_append.mp member with member | member
    · exact (inChain e member).2
    · exact block start e member

theorem Valid.dictScan_spec {d : Dict K V} (valid : d.Valid hashFunction) (filled : d.entries ≠ [])
    (v : BitVec 64) :
    ∃ k last out, k ≤ 63 ∧ d.scanSize = 2 ^ k ∧ d.dictScan v = .ok (last, out) ∧
      Scanned hashFunction d v (2 ^ (64 - k)) last out := by
  have nonempty : d.dictSize ≠ 0 := by
    rw [valid.dictSize_eq]
    exact fun none => filled (List.length_eq_zero_iff.mp none)
  have distinct := valid.entries_nodup
  have sized := valid.sized_of_nonempty filled
  rw [dictScan, if_neg nonempty]
  cases valid with
  | idle notRehashing state =>
    have idle : d.dictIsRehashing = false := by rw [dictIsRehashing, notRehashing]; rfl
    obtain ⟨k, _, small, size⟩ := sized
    obtain ⟨chain, emits, sublist, inChain⟩ := state.sound.emit_spec size small v
    have same : d.entries = d.ht0.entries := by simp [entries, state.second, Dictht.entries_reset]
    refine ⟨k, bumpCursor d.ht0.mask v, chain, small, by simp [scanSize, idle, size], by simp [idle, emits], ?_, ?_,
      ?_, ?_, ?_⟩
    · exact Dictht.position_bump size small v
    · exact fun e member => same ▸ ((inChain e).mp member).1
    · intro e member lower upper
      refine (inChain e).mpr ⟨same ▸ member, ?_⟩
      have below : keyPosition hashFunction e / 2 ^ (64 - k) < position v / 2 ^ (64 - k) + 1 :=
        Nat.div_lt_of_lt_mul (by rwa [Nat.mul_comm])
      have above := Nat.div_le_div_right (c := 2 ^ (64 - k)) lower
      omega
    · exact (same ▸ distinct).sublist sublist
    · exact fun _ e member => ((inChain e).mp member).2
  | moving idx rehashing below state =>
    have busy : d.dictIsRehashing = true := by rw [dictIsRehashing, rehashing]; rfl
    obtain ⟨k0, _, small0, size0⟩ := state.sized0
    obtain ⟨k1, _, small1, size1⟩ := state.sized1
    by_cases smaller : d.ht1.size < d.ht0.size
    · have le : k1 ≤ k0 := by
        rw [size0, size1, Nat.pow_lt_pow_iff_right (by omega)] at smaller
        omega
      obtain ⟨chain, last, rest, emits, runs, scanned⟩ :=
        scanned_of_tables List.perm_append_comm distinct state.sound1 state.sound0 size1 size0 le small0 v
      refine ⟨k1, last, chain ++ rest, small1, ?_, ?_, scanned⟩
      · rw [scanSize, if_pos busy, Nat.min_eq_right smaller.le, size1]
      · simp [busy, smaller, emits, runs]
    · have le : k0 ≤ k1 := by
        rw [size0, size1, Nat.pow_lt_pow_iff_right (by omega)] at smaller
        omega
      obtain ⟨chain, last, rest, emits, runs, scanned⟩ :=
        scanned_of_tables (List.Perm.refl _) distinct state.sound0 state.sound1 size0 size1 le small1 v
      refine ⟨k0, last, chain ++ rest, small0, ?_, ?_, scanned⟩
      · rw [scanSize, if_pos busy, Nat.min_eq_left (Nat.not_lt.mp smaller), size0]
      · simp [busy, smaller, emits, runs]

end Dict
end BlogAlgorithms.Redis
