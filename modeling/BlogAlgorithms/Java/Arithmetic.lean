import BlogAlgorithms.Java.Comparator
import BlogAlgorithms.Java.Exec

namespace Java

/-- The operators `/` and `%` on values of type `int`. -/
def divide (x y : Int) : Exec Int := if y = 0 then throwing .arithmetic else .ok (wrap (Int.tdiv x y))

def remainder (x y : Int) : Exec Int := if y = 0 then throwing .arithmetic else .ok (Int.tmod x y)

/-- What int arithmetic makes of an exact result. -/
def wrapping (x : Int) : Exec Int := .ok (wrap x)

/-- An arithmetic that is exact as long as the results fit. -/
def ExactOnInts (arithmetic : Int → Exec Int) : Prop := ∀ x, IsInt x → arithmetic x = .ok x

theorem wrapping_exact : ExactOnInts wrapping := fun x range => by rw [wrapping, wrap_of_isInt range]

theorem divide_of_pos {x y : Int} (nonneg : 0 ≤ x) (range : IsInt x) (positive : 0 < y) :
    divide x y = .ok (x / y) := by
  have small : x / y ≤ x := Int.ediv_le_self y nonneg
  have large : 0 ≤ x / y := Int.ediv_nonneg nonneg (by omega)
  rw [divide, if_neg (by omega), Int.tdiv_eq_ediv_of_nonneg nonneg,
    wrap_of_isInt ⟨by omega, by have := range.2; omega⟩]

theorem remainder_of_pos {x y : Int} (nonneg : 0 ≤ x) (positive : 0 < y) : remainder x y = .ok (x % y) := by
  rw [remainder, if_neg (by omega), Int.tmod_eq_emod_of_nonneg nonneg]

theorem wrap_add_wrap_left (x y : Int) : wrap (wrap x + y) = wrap (x + y) := Int.bmod_add_bmod

theorem wrap_mul_wrap_right (x y : Int) : wrap (x * wrap y) = wrap (x * y) := Int.mul_bmod_bmod

end Java
