import BlogAlgorithms.Lib.ReverseCounter
import BlogAlgorithms.Redis.Dict

namespace BlogAlgorithms.Redis
open C

/-- One round of the reversal: blocks of `s` bits change places with their neighbours. -/
def swapBits (s : Nat) (mask v : BitVec 64) : BitVec 64 := ((v >>> s) &&& mask) ||| ((v <<< s) &&& ~~~mask)

def revStep (state : BitVec 64 × BitVec 64) (s : Nat) : BitVec 64 × BitVec 64 :=
  let mask := state.1 ^^^ (state.1 <<< s)
  (mask, swapBits s mask state.2)

/-- `s` halves from the word size down to one. -/
def rev (v : BitVec 64) : BitVec 64 := ([32, 16, 8, 4, 2, 1].foldl revStep (~~~0#64, v)).2

/-- The reverse increment of the cursor under a mask. -/
def bumpCursor (m v : BitVec 64) : BitVec 64 := rev (rev (v ||| ~~~m) + 1#64)

namespace Dictht
variable {K V : Type}

def mask (ht : Dictht K V) : BitVec 64 := BitVec.ofNat 64 ht.sizemask

/-- The chain at the cursor. -/
def emit (ht : Dictht K V) (v : BitVec 64) : Exec (List (DictEntry K V)) := load ht.table (v &&& ht.mask).toNat

/-- The loop over the buckets of the larger table that expand one bucket of the
smaller. It ends when the carry leaves the bits between the two masks. -/
def scanExpansions (t1 : Dictht K V) (m0 : BitVec 64) : Nat → BitVec 64 → Exec (BitVec 64 × List (DictEntry K V))
  | 0, _ => .error .unbounded
  | fuel + 1, v => do
    let chain ← t1.emit v
    let v := bumpCursor t1.mask v
    if v &&& (m0 ^^^ t1.mask) = 0#64 then .ok (v, chain)
    else do
      let (last, rest) ← scanExpansions t1 m0 fuel v
      .ok (last, chain ++ rest)

end Dictht

namespace Dict
variable {K V : Type}

/-- A call returns the new cursor, and here also the entries it passed to the
callback. The pause of rehashing around it is over when it returns. -/
def dictScan (d : Dict K V) (v : BitVec 64) : Exec (BitVec 64 × List (DictEntry K V)) :=
  if d.dictSize = 0 then .ok (0#64, [])
  else if !d.dictIsRehashing then do
    let chain ← d.ht0.emit v
    .ok (bumpCursor d.ht0.mask v, chain)
  else
    let t0 := if d.ht1.size < d.ht0.size then d.ht1 else d.ht0
    let t1 := if d.ht1.size < d.ht0.size then d.ht0 else d.ht1
    do
      let chain ← t0.emit v
      let (last, rest) ← t1.scanExpansions t0.mask t1.size v
      .ok (last, chain ++ rest)

end Dict

/-- A mask that selects the lower one of each pair of neighbouring blocks of `s` bits. -/
def Halves (s : Nat) (mask : BitVec 64) : Prop :=
  ∀ i < 64, (mask.getLsbD i = true ∧ i ^^^ s = s + i) ∨ (mask.getLsbD i = false ∧ s ≤ i ∧ i ^^^ s = i - s)

instance (s : Nat) (mask : BitVec 64) : Decidable (Halves s mask) :=
  inferInstanceAs (Decidable (∀ i < 64, (mask.getLsbD i = true ∧ i ^^^ s = s + i) ∨
    (mask.getLsbD i = false ∧ s ≤ i ∧ i ^^^ s = i - s)))

theorem Halves.swapBits_bit {s : Nat} {mask : BitVec 64} (halves : Halves s mask) (v : BitVec 64) {i : Nat}
    (inside : i < 64) : (swapBits s mask v).getLsbD i = v.getLsbD (i ^^^ s) := by
  rw [swapBits, BitVec.getLsbD_or, BitVec.getLsbD_and, BitVec.getLsbD_and, BitVec.getLsbD_ushiftRight,
    BitVec.getLsbD_shiftLeft, BitVec.getLsbD_not]
  rcases halves i inside with ⟨set, flip⟩ | ⟨clear, above, flip⟩
  · rw [set, flip]
    simp
  · have below : ¬ i < s := by omega
    rw [clear, flip]
    simp [inside, below]

theorem rev_stages (v : BitVec 64) : rev v = swapBits 1 0x5555555555555555#64 (swapBits 2 0x3333333333333333#64
    (swapBits 4 0x0f0f0f0f0f0f0f0f#64 (swapBits 8 0x00ff00ff00ff00ff#64
      (swapBits 16 0x0000ffff0000ffff#64 (swapBits 32 0x00000000ffffffff#64 v))))) := by
  have mask32 : ~~~0#64 ^^^ ~~~0#64 <<< 32 = 0x00000000ffffffff#64 := by decide
  have mask16 : 0x00000000ffffffff#64 ^^^ 0x00000000ffffffff#64 <<< 16 = 0x0000ffff0000ffff#64 := by decide
  have mask8 : 0x0000ffff0000ffff#64 ^^^ 0x0000ffff0000ffff#64 <<< 8 = 0x00ff00ff00ff00ff#64 := by decide
  have mask4 : 0x00ff00ff00ff00ff#64 ^^^ 0x00ff00ff00ff00ff#64 <<< 4 = 0x0f0f0f0f0f0f0f0f#64 := by decide
  have mask2 : 0x0f0f0f0f0f0f0f0f#64 ^^^ 0x0f0f0f0f0f0f0f0f#64 <<< 2 = 0x3333333333333333#64 := by decide
  have mask1 : 0x3333333333333333#64 ^^^ 0x3333333333333333#64 <<< 1 = 0x5555555555555555#64 := by decide
  simp only [rev, List.foldl_cons, List.foldl_nil, revStep, mask32, mask16, mask8, mask4, mask2, mask1]

/-- The rounds flip the six bits of every bit number, which reverses the word. -/
theorem rev_eq_reverse (v : BitVec 64) : rev v = v.reverse := by
  apply BitVec.eq_of_getLsbD_eq
  intro i inside
  have flips : ∀ i < 64, i ^^^ 1 < 64 ∧ i ^^^ 1 ^^^ 2 < 64 ∧ i ^^^ 1 ^^^ 2 ^^^ 4 < 64 ∧
      i ^^^ 1 ^^^ 2 ^^^ 4 ^^^ 8 < 64 ∧
      i ^^^ 1 ^^^ 2 ^^^ 4 ^^^ 8 ^^^ 16 < 64 ∧ i ^^^ 1 ^^^ 2 ^^^ 4 ^^^ 8 ^^^ 16 ^^^ 32 = 63 - i := by decide
  obtain ⟨in1, in2, in4, in8, in16, all⟩ := flips i inside
  have halves1 : Halves 1 0x5555555555555555#64 := by decide
  have halves2 : Halves 2 0x3333333333333333#64 := by decide
  have halves4 : Halves 4 0x0f0f0f0f0f0f0f0f#64 := by decide
  have halves8 : Halves 8 0x00ff00ff00ff00ff#64 := by decide
  have halves16 : Halves 16 0x0000ffff0000ffff#64 := by decide
  have halves32 : Halves 32 0x00000000ffffffff#64 := by decide
  rw [rev_stages, halves1.swapBits_bit _ inside, halves2.swapBits_bit _ in1, halves4.swapBits_bit _ in2,
    halves8.swapBits_bit _ in4, halves16.swapBits_bit _ in8, halves32.swapBits_bit _ in16, all,
    BitVec.getLsbD_reverse, BitVec.getMsbD_eq_getLsbD]
  simp [inside]

theorem bumpCursor_eq (m v : BitVec 64) : bumpCursor m v = ReverseCounter.next m v := by
  rw [bumpCursor, rev_eq_reverse, rev_eq_reverse, ReverseCounter.next]

end BlogAlgorithms.Redis
