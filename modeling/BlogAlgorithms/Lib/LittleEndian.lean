import Mathlib.Data.List.Basic
import Mathlib.Data.Int.ModEq
import Mathlib.Algebra.Order.Ring.Int

namespace LittleEndian

def bytes : Nat → Nat → List UInt8
  | 0, _ => []
  | width + 1, value => UInt8.ofNat value :: bytes width (value / 256)

def value : List UInt8 → Nat
  | [] => 0
  | byte :: rest => byte.toNat + 256 * value rest

@[simp] theorem length_bytes (width n : Nat) : (bytes width n).length = width := by
  induction width generalizing n with
  | zero => rfl
  | succ width ih => rw [bytes, List.length_cons, ih]

theorem value_bytes (width n : Nat) : value (bytes width n) = n % 256 ^ width := by
  induction width generalizing n with
  | zero => rw [bytes, value, Nat.pow_zero, Nat.mod_one]
  | succ width ih =>
    have low : (UInt8.ofNat n).toNat = n % 256 := UInt8.toNat_ofNat'
    rw [bytes, value, ih, low, Nat.pow_succ', Nat.mod_mul]

theorem value_lt (bs : List UInt8) : value bs < 256 ^ bs.length := by
  induction bs with
  | nil => exact Nat.one_pos
  | cons byte rest ih =>
    have small := byte.toNat_lt
    rw [value, List.length_cons, Nat.pow_succ]
    omega

theorem bytes_value (bs : List UInt8) : bytes bs.length (value bs) = bs := by
  induction bs with
  | nil => rfl
  | cons byte rest ih =>
    have small := byte.toNat_lt
    rw [List.length_cons, value, bytes, show (byte.toNat + 256 * value rest) / 256 = value rest by omega, ih]
    congr 1
    apply UInt8.toNat_inj.mp
    rw [UInt8.toNat_ofNat']
    omega

/-- The two's complement representation. -/
def signedBytes (width : Nat) (n : Int) : List UInt8 := bytes width (n % 256 ^ width).toNat

def signedValue (bs : List UInt8) : Int := Int.bmod (value bs) (256 ^ bs.length)

/-- The numbers that a signed integer of this width can hold. -/
def Fits (width : Nat) (n : Int) : Prop := -(256 ^ width : Int) ≤ 2 * n ∧ 2 * n < 256 ^ width

instance (width : Nat) (n : Int) : Decidable (Fits width n) := inferInstanceAs (Decidable (_ ∧ _))

@[simp] theorem length_signedBytes (width : Nat) (n : Int) : (signedBytes width n).length = width := length_bytes ..

theorem signedValue_signedBytes {width : Nat} {n : Int} (fits : Fits width n) :
    signedValue (signedBytes width n) = n := by
  obtain ⟨lower, upper⟩ := fits
  have positive : (0 : Int) < 256 ^ width := Int.pow_pos (by omega)
  have cast : ((256 ^ width : Nat) : Int) = 256 ^ width := by norm_cast
  have nonneg := Int.emod_nonneg n positive.ne'
  have small := Int.emod_lt_of_pos n positive
  have reduced : (n % 256 ^ width).toNat % 256 ^ width = (n % 256 ^ width).toNat := Nat.mod_eq_of_lt (by omega)
  rw [signedValue, signedBytes, value_bytes, length_bytes, reduced, Int.toNat_of_nonneg nonneg, ← cast,
    Int.emod_bmod]
  exact Int.bmod_eq_of_le (by omega) (by omega)

theorem signedBytes_signedValue (bs : List UInt8) : signedBytes bs.length (signedValue bs) = bs := by
  have small := value_lt bs
  have cast : ((256 ^ bs.length : Nat) : Int) = 256 ^ bs.length := by norm_cast
  have same : (signedValue bs % 256 ^ bs.length).toNat = value bs := by
    rw [signedValue, ← cast, Int.bmod_emod, Int.emod_eq_of_lt (by omega) (by omega), Int.toNat_natCast]
  rw [signedBytes, same, bytes_value]

theorem fits_signedValue (bs : List UInt8) : Fits bs.length (signedValue bs) := by
  have positive : 0 < 256 ^ bs.length := Nat.pow_pos (by omega)
  have cast : ((256 ^ bs.length : Nat) : Int) = 256 ^ bs.length := by norm_cast
  have lower := Int.le_bmod (x := value bs) positive
  have upper := Int.bmod_lt (x := value bs) positive
  rw [Fits, signedValue, ← cast]
  constructor
  · omega
  · omega

theorem Fits.mono {enc wider : Nat} {v : Int} (fits : Fits enc v) (le : enc ≤ wider) : Fits wider v := by
  have more : (256 : Int) ^ enc ≤ 256 ^ wider := pow_le_pow_right₀ (by omega) le
  unfold Fits at *
  omega

end LittleEndian
