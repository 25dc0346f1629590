/-!
# Quantities

Values of operands, addends and symbols are integers that fit 64 bits with a
sign. They are computed as integers, and the bounds below are tested at the two
places where text could leave them: at the digits of one number, and at every
partial sum of a value. They are not tested where an addend is added to the
value of a symbol: there sums wrap around, as `wrap` says.
-/

namespace Stm8.Quantity

/-- The largest quantity. -/
def greatest : Int := 0x7FFFFFFFFFFFFFFF

/-- The smallest quantity. No text denotes it as a single number, but a sum
may reach it. -/
def least : Int := -0x8000000000000000

/-- Whether `v` is a quantity. -/
def fits (v : Int) : Bool :=
  least ≤ v && v ≤ greatest

/-- The quantity that 64 bits hold of `v`. -/
def wrap (v : Int) : Int :=
  (v - least) % 0x10000000000000000 + least

theorem fits_iff {v : Int} :
    fits v = true ↔ -0x8000000000000000 ≤ v ∧ v ≤ 0x7FFFFFFFFFFFFFFF := by
  unfold fits
  rw [Bool.and_eq_true, decide_eq_true_iff, decide_eq_true_iff]
  rfl

/-! ## Wrapping around -/

/-- What 64 bits hold is a quantity. -/
theorem fits_wrap (v : Int) : fits (wrap v) = true := by
  rw [fits_iff]
  unfold wrap least
  omega

/-- 64 bits hold a quantity as it is. -/
theorem wrap_of_fits {v : Int} (h : fits v = true) : wrap v = v := by
  rw [fits_iff] at h
  unfold wrap least
  omega

/-- What is less than 2^64 away from small numbers does not become one by wrapping
around. -/
theorem wrap_of_small {v : Int} (hleast : -0xC000000000000000 ≤ v)
    (hgreatest : v ≤ 0xC000000000000000) (hleast' : -0x4000000000000000 < wrap v)
    (hgreatest' : wrap v < 0x4000000000000000) : wrap v = v := by
  unfold wrap least at *
  omega

/-- Nothing is lost but multiples of 2^64. -/
theorem wrap_emod (v : Int) : wrap v % 0x10000000000000000 = v % 0x10000000000000000 := by
  unfold wrap least
  omega

/-- A sum may wrap around at each addition, or once at the end. -/
theorem wrap_wrap_sub (v w : Int) : wrap (wrap v - w) = wrap (v - w) := by
  unfold wrap least
  omega

end Stm8.Quantity
